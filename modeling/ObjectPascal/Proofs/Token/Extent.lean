import Mathlib.Data.List.Induction
import Mathlib.Data.List.TakeWhile
import ObjectPascal.Proofs.Token.Source
import ObjectPascal.Proofs.Token.Spelling

/-!
The bytes in front of a cursor and behind it. A line is handed out without the carriage returns at
its end, and comments and assembler blocks move the cursor themselves, so what lies ahead is more
than the lines ahead. What one call passes is the layout in front of a token and the extent of the
token, and no byte is in neither.
-/

namespace ObjectPascal

namespace Place

/-- The place behind one byte. -/
def past (p : Place) (b : UInt8) : Place :=
  if b = 0x0A then ⟨p.line + 1, 1⟩ else ⟨p.line, p.col + 1⟩

/-- The place behind some bytes. -/
def behind (p : Place) (s : List UInt8) : Place := s.foldl past p

/-- The place of the first byte of a source. -/
def first : Place := ⟨1, 1⟩

variable {p : Place} {s t : List UInt8}

theorem behind_append (p : Place) (s t : List UInt8) :
    p.behind (s ++ t) = (p.behind s).behind t := List.foldl_append

/-- Without a line feed the line stays. -/
theorem behind_of_notMem (hs : 0x0A ∉ s) : p.behind s = ⟨p.line, p.col + s.length⟩ := by
  induction s generalizing p with
  | nil => rfl
  | cons b s ih =>
    rw [List.mem_cons, not_or] at hs
    have hpast : p.past b = ⟨p.line, p.col + 1⟩ := if_neg (Ne.symm hs.1)
    change (p.past b).behind s = _
    rw [ih hs.2, hpast, List.length_cons, Nat.add_assoc, Nat.add_comm 1]

/-- A line feed leads to the beginning of the next line, wherever on its line it stands. -/
theorem behind_lineFeed (hs : 0x0A ∉ s) :
    p.behind (s ++ 0x0A :: t) = (⟨p.line + 1, 1⟩ : Place).behind t := by
  rw [behind_append, behind_of_notMem hs]
  rfl

/-- Some bytes are whole lines and the beginning of one more, whose place is the place behind. -/
theorem exists_lines_of_behind (s : List UInt8) : ∃ (lines : List (List UInt8)) (q : List UInt8),
    s = lines.flatMap (fun line => line ++ [0x0A]) ++ q ∧ (∀ line ∈ lines, 0x0A ∉ line) ∧
      0x0A ∉ q ∧ first.behind s = ⟨lines.length + 1, q.length + 1⟩ := by
  induction s using List.reverseRecOn with
  | nil => exact ⟨[], [], rfl, by simp, by simp, rfl⟩
  | append_singleton s b ih =>
    obtain ⟨lines, q, rfl, hlines, hq, hplace⟩ := ih
    by_cases hb : b = 0x0A
    · refine ⟨lines ++ [q], [], ?_, ?_, by simp, ?_⟩
      · simp [hb]
      · simp only [List.mem_append, List.mem_singleton]
        rintro line (hline | rfl)
        · exact hlines line hline
        · exact hq
      · rw [behind_append, hplace, hb, List.length_append]
        rfl
    · refine ⟨lines, q ++ [b], by simp, hlines, ?_, ?_⟩
      · simp [hq, Ne.symm hb]
      · rw [behind_append, hplace]
        change past _ b = _
        rw [past, if_neg hb, List.length_append]
        rfl

theorem splitOn_lines {lines : List (List UInt8)} (hlines : ∀ line ∈ lines, 0x0A ∉ line)
    (u : List UInt8) : (lines.flatMap (fun line => line ++ [0x0A]) ++ u).splitOn 0x0A =
      lines ++ u.splitOn 0x0A := by
  induction lines with
  | nil => rfl
  | cons line lines ih =>
    rw [List.flatMap_cons, List.append_assoc, List.append_assoc, List.singleton_append,
      List.splitOn_append_cons_self_of_not_mem (hlines line List.mem_cons_self),
      ih fun l hl => hlines l (List.mem_cons_of_mem _ hl), List.cons_append]

/-- The offset of the place behind the first bytes of a source is their number. -/
theorem offset_behind {source : Text} {s r : List UInt8}
    (h : source.bytes.drop source.markLength = s ++ r) :
    (first.behind s).offset source = source.markLength + s.length := by
  obtain ⟨lines, q, rfl, hlines, _, hplace⟩ := exists_lines_of_behind s
  have hraw : source.rawLines = lines ++ (q ++ r).splitOn 0x0A := by
    rw [Text.rawLines, h, List.append_assoc, splitOn_lines hlines]
  rw [hplace, offset, hraw]
  simp only [Nat.add_sub_cancel, List.take_left, List.length_append, List.length_flatMap,
    List.length_singleton]
  omega

end Place

namespace Cursor

section Lines

/-- The lines that some bytes are read as. Each is handed out without the carriage returns at its
end; the last one need not end with a line feed. -/
inductive Lines : List (List UInt8) → List UInt8 → Prop
  | nil : Lines [] []
  | last {line cut : List UInt8} (hline : 0x0A ∉ line) (hcut : ∀ b ∈ cut, b = 0x0D) :
      Lines [line] (line ++ cut)
  | cons {line cut r : List UInt8} {below : List (List UInt8)} (hline : 0x0A ∉ line)
      (hcut : ∀ b ∈ cut, b = 0x0D) (h : Lines below r) :
      Lines (line :: below) (line ++ (cut ++ 0x0A :: r))

variable {p q r s : List UInt8} {below : List (List UInt8)}

theorem exists_cut (line : List UInt8) :
    ∃ cut, line = trimLine line ++ cut ∧ ∀ b ∈ cut, b = 0x0D := by
  refine ⟨(line.reverse.takeWhile (· == 0x0D)).reverse, ?_, fun b hb => ?_⟩
  · rw [trimLine, ← List.reverse_append, List.takeWhile_append_dropWhile, List.reverse_reverse]
  · have hmem := List.mem_reverse.mp hb
    simpa using List.mem_takeWhile_imp hmem

theorem splitLines_append (hs : 0x0A ∉ s) (r : List UInt8) :
    splitLines (s ++ 0x0A :: r) = s :: splitLines r := by
  obtain ⟨head, rest, hr⟩ := List.exists_cons_of_ne_nil (List.splitOn_ne_nil 0x0A r)
  unfold splitLines
  dsimp only
  rw [List.splitOn_append_cons_self_of_not_mem hs, hr, List.getLast?_cons_cons]
  split <;> simp

/-- The lines of a source are all its bytes. -/
theorem lines_splitLines (s : List UInt8) : Lines ((splitLines s).map trimLine) s := by
  -- The induction is on the number of bytes, since each step takes a whole line.
  induction hn : s.length using Nat.strong_induction_on generalizing s with
  | _ n ih =>
    by_cases hfeed : 0x0A ∈ s
    · obtain ⟨line, r, rfl, hline⟩ := List.eq_append_cons_of_mem hfeed
      obtain ⟨cut, hcut, hall⟩ := exists_cut line
      have hrest := ih r.length (by rw [← hn, List.length_append, List.length_cons]; omega) r rfl
      have hkept : 0x0A ∉ trimLine line := fun h => hline ((trimLine_isPrefix line).subset h)
      have hlines := Lines.cons hkept hall hrest
      rwa [← List.append_assoc, ← hcut, ← List.map_cons, ← splitLines_append hline] at hlines
    · have hone : s.splitOn 0x0A = [s] := List.splitOn_eq_singleton hfeed
      obtain ⟨cut, hcut, hall⟩ := exists_cut s
      unfold splitLines
      dsimp only
      rw [hone]
      by_cases hs : s = []
      · subst hs
        exact .nil
      · have hkept : 0x0A ∉ trimLine s := fun h => hfeed ((trimLine_isPrefix s).subset h)
        have hlines := Lines.last hkept hall
        rw [← hcut] at hlines
        rwa [if_neg (by simpa using hs)]

theorem Lines.notMem (h : Lines (p :: below) r) : 0x0A ∉ p := by
  cases h with
  | last hline _ => exact hline
  | cons hline _ _ => exact hline

/-- Reading on within a line. -/
theorem Lines.advance (h : Lines ((p ++ q) :: below) r) :
    ∃ r', r = p ++ r' ∧ Lines (q :: below) r' := by
  have hq : 0x0A ∉ q := fun hmem => h.notMem (List.mem_append_right p hmem)
  cases h with
  | @last _ cut _ hcut => exact ⟨q ++ cut, List.append_assoc _ _ _, .last hq hcut⟩
  | @cons _ cut r _ _ hcut h =>
    exact ⟨q ++ (cut ++ 0x0A :: r), List.append_assoc _ _ _, .cons hq hcut h⟩

theorem Lines.eq_nil (h : Lines [] r) : r = [] := by
  cases h
  rfl

theorem Lines.ne_nil (h : Lines (p :: below) r) (hp : p ≠ []) : r ≠ [] := by
  cases h <;> simp [hp]

theorem isLayout_of_cut {cut : List UInt8} (hcut : ∀ b ∈ cut, b = 0x0D) :
    ∀ b ∈ cut, isLayout b = true := by
  intro b hb
  rw [hcut b hb]
  rfl

end Lines

/-- The offset of the next byte. Behind the last line no line and column tell it any more. -/
def offset (c : Cursor) (source : Text) : Nat :=
  if c.col = 0 ∧ c.here = [] ∧ c.below = [] then source.length else c.place.offset source

/-- The cursor has read the bytes `s` and has `r` ahead: it stands above the first line, at the place
that the bytes lead to, or behind the last line. A cursor within the source never rests in front of
an empty line. -/
inductive Stands (c : Cursor) (s r : List UInt8) : Prop
  | above (hline : c.line = 0) (hcol : c.col = 0) (hhere : c.here = []) (hs : s = [])
      (hlines : Lines c.below r)
  | within (hplace : c.place = Place.first.behind s) (hlines : Lines (c.here :: c.below) r)
      (hmoved : c.here = [] → 0 < c.col)
  | below (hcol : c.col = 0) (hhere : c.here = []) (hbelow : c.below = []) (hr : r = [])

variable {c : Cursor} {s r : List UInt8} {source : Text}

theorem start_stands (source : Text) :
    (start source).Stands [] (source.bytes.drop source.markLength) := by
  rw [start_eq]
  exact .above rfl rfl rfl rfl (lines_splitLines _)

theorem Stands.offset (h : c.Stands s r) (hs : source.bytes.drop source.markLength = s ++ r) :
    c.offset source = source.markLength + s.length := by
  have hlen := congrArg List.length hs
  rw [List.length_drop, List.length_append] at hlen
  have hmark := source.markLength_le
  have hall : r = [] → source.length = source.markLength + s.length := by
    rintro rfl
    rw [Text.length]
    rw [List.length_nil] at hlen
    omega
  rw [Cursor.offset]
  cases h with
  | above hline hcol hhere hnil hlines =>
    split
    · rename_i hend
      rw [hend.2.2] at hlines
      exact hall hlines.eq_nil
    · simp [place, Place.offset, hline, hcol, hnil]
  | within hplace hlines hmoved =>
    rw [if_neg, hplace, Place.offset_behind hs]
    rintro ⟨hcol, hhere, _⟩
    have hpos := hmoved hhere
    omega
  | below hcol hhere hbelow hr =>
    rw [if_pos ⟨hcol, hhere, hbelow⟩]
    exact hall hr

/-- The cursor stands within the source, in front of a byte. -/
structure Faces (c : Cursor) (s r : List UInt8) : Prop where
  place : c.place = Place.first.behind s
  lines : Lines (c.here :: c.below) r
  here : c.here ≠ []

section Seek

/-- On its line a cursor moves over layout, to a byte that is none. -/
theorem faces_of_layout (c : Cursor) {line col : Nat} {here : List UInt8}
    {below : List (List UInt8)} (hplace : (⟨line, col + 1⟩ : Place) = Place.first.behind s)
    (hlines : Lines (here :: below) r) (hne : here.dropWhile isLayout ≠ []) :
    ∃ gap r', r = gap ++ r' ∧ (∀ b ∈ gap, isLayout b = true) ∧
      Faces { c with line := line, col := col + (here.takeWhile isLayout).length,
                     here := here.dropWhile isLayout, below := below } (s ++ gap) r' := by
  have hsplit := List.takeWhile_append_dropWhile (p := isLayout) (l := here)
  rw [← hsplit] at hlines
  have hfeed : 0x0A ∉ here.takeWhile isLayout :=
    fun hmem => hlines.notMem (List.mem_append_left _ hmem)
  obtain ⟨r', rfl, hrest⟩ := hlines.advance
  refine ⟨_, r', rfl, fun b hb => List.mem_takeWhile_imp hb, ?_, hrest, hne⟩
  rw [Place.behind_append, ← hplace, Place.behind_of_notMem hfeed]
  simp only [place, Nat.add_right_comm]

/-- Seeking passes layout only, and ends in front of a byte or behind the last line. -/
theorem seekFrom_stands (c : Cursor) {line col : Nat} {here : List UInt8}
    {below : List (List UInt8)} (hplace : (⟨line, col + 1⟩ : Place) = Place.first.behind s)
    (hlines : Lines (here :: below) r) :
    ∃ gap r', r = gap ++ r' ∧ (∀ b ∈ gap, isLayout b = true) ∧
      ((c.seekFrom line col here below).Faces (s ++ gap) r' ∨
        (c.seekFrom line col here below).here = [] ∧ r' = [] ∧
          (c.seekFrom line col here below).Stands (s ++ gap) []) := by
  have hfeed : ∀ b ∈ [0x0A], isLayout b = true := List.forall_mem_singleton.mpr rfl
  -- A byte that is no layout ends the way on its line.
  have hfaces (hne : here.dropWhile isLayout ≠ []) := faces_of_layout c hplace hlines hne
  induction below generalizing line col here s r with
  | nil =>
    unfold seekFrom
    split
    · rename_i hnil
      have hall : ∀ b ∈ here, isLayout b = true := List.dropWhile_eq_nil_iff.mp hnil
      refine ⟨r, [], (List.append_nil r).symm, ?_, Or.inr ⟨rfl, rfl, .below rfl rfl rfl rfl⟩⟩
      cases hlines with
      | last _ hcut =>
        exact List.forall_mem_append.mpr ⟨hall, isLayout_of_cut hcut⟩
      | cons _ hcut h =>
        rw [h.eq_nil]
        exact List.forall_mem_append.mpr ⟨hall, List.forall_mem_append.mpr
          ⟨isLayout_of_cut hcut, hfeed⟩⟩
    · rename_i hne
      obtain ⟨gap, r', hr, hgap, hd⟩ := hfaces hne
      exact ⟨gap, r', hr, hgap, Or.inl hd⟩
  | cons next below ih =>
    unfold seekFrom
    split
    · rename_i hnil
      have hall : ∀ b ∈ here, isLayout b = true := List.dropWhile_eq_nil_iff.mp hnil
      cases hlines with
      | @cons _ cut r _ hline hcut h =>
        have hskip : 0x0A ∉ here ++ cut := by
          rw [List.mem_append, not_or]
          exact ⟨hline, fun hmem => absurd (hcut _ hmem) (by decide)⟩
        have hnext : (⟨line + 1, 0 + 1⟩ : Place) =
            Place.first.behind (s ++ (here ++ cut ++ 0x0A :: [])) := by
          rw [Place.behind_append, ← hplace, Place.behind_lineFeed hskip]
          rfl
        obtain ⟨gap, r', rfl, hgap, hd⟩ := ih hnext h fun hne => faces_of_layout c hnext h hne
        refine ⟨here ++ cut ++ 0x0A :: [] ++ gap, r', by simp, ?_, ?_⟩
        · simp only [List.forall_mem_append]
          exact ⟨⟨⟨hall, isLayout_of_cut hcut⟩, hfeed⟩, hgap⟩
        · rwa [← List.append_assoc]
    · rename_i hne
      obtain ⟨gap, r', hr, hgap, hd⟩ := hfaces hne
      exact ⟨gap, r', hr, hgap, Or.inl hd⟩

theorem Stands.seek (h : c.Stands s r) :
    ∃ gap r', r = gap ++ r' ∧ (∀ b ∈ gap, isLayout b = true) ∧
      (c.seek.Faces (s ++ gap) r' ∨
        c.seek.here = [] ∧ r' = [] ∧ c.seek.Stands (s ++ gap) []) := by
  have hend (c : Cursor) (hhere : c.here = []) (hbelow : c.below = []) :
      c.seek.here = [] ∧ c.seek.Stands s [] := by
    rw [Cursor.seek, hhere, hbelow]
    exact ⟨rfl, .below rfl rfl rfl rfl⟩
  cases h with
  | above hline hcol hhere hs hlines =>
    cases hbelow : c.below with
    | nil =>
      rw [hbelow] at hlines
      obtain rfl := hlines.eq_nil
      exact ⟨[], [], rfl, by simp, Or.inr (by simpa using hend c hhere hbelow)⟩
    | cons next below =>
      rw [hbelow] at hlines
      rw [Cursor.seek, hhere, hbelow, seekFrom, hline, hs]
      exact seekFrom_stands c rfl hlines
  | within hplace hlines hmoved => exact seekFrom_stands c hplace hlines
  | below hcol hhere hbelow hr =>
    obtain rfl := hr
    exact ⟨[], [], rfl, by simp, Or.inr (by simpa using hend c hhere hbelow)⟩

end Seek

section Read

theorem Faces.count (h : c.Faces s r) : c.count.Faces s r := by
  obtain ⟨hplace, hlines, hhere⟩ := h
  exact ⟨by simpa [Cursor.place] using hplace, by simpa using hlines, by simpa using hhere⟩

/-- Passing some bytes of the line. -/
theorem Faces.along (h : c.Faces s r) {w q : List UInt8} (hw : w ≠ []) (hhere : c.here = w ++ q) :
    ∃ r', r = w ++ r' ∧
      Stands { c with col := c.col + w.length, here := q } (s ++ w) r' := by
  have hlines := h.lines
  rw [hhere] at hlines
  have hfeed : 0x0A ∉ w := fun hmem => hlines.notMem (List.mem_append_left _ hmem)
  have hpos := List.length_pos_of_ne_nil hw
  obtain ⟨r', hr, hrest⟩ := hlines.advance
  refine ⟨r', hr, .within ?_ hrest fun _ => Nat.lt_of_lt_of_le hpos (Nat.le_add_left _ _)⟩
  rw [Place.behind_append, ← h.place, Place.behind_of_notMem hfeed]
  simp only [Cursor.place, Nat.add_right_comm]

/-- A token on one line is some bytes of that line. -/
theorem Faces.advance (h : c.Faces s r) {n : Nat} (hpos : 0 < n) (hle : n ≤ c.here.length) :
    ∃ r', r = c.here.take n ++ r' ∧ (c.advance n).Stands (s ++ c.here.take n) r' := by
  have hlen : (c.here.take n).length = n := by rw [List.length_take, Nat.min_eq_left hle]
  have hne : c.here.take n ≠ [] := by
    apply List.ne_nil_of_length_pos
    rwa [hlen]
  have halong := h.along hne (List.take_append_drop n c.here).symm
  rwa [hlen] at halong

/-- A search that takes at least one byte for the end mark. -/
def Marks (find : List UInt8 → Option (List UInt8 × List UInt8)) : Prop :=
  ∀ s text q, find s = some (text, q) → ∃ p, p ≠ [] ∧ s = p ++ q

theorem marks_of_search {find : List UInt8 → Option (List UInt8 × List UInt8)}
    (hs : Search find) (hlt : ∀ s text q, find s = some (text, q) → q.length < s.length) :
    Marks find := by
  intro s text q h
  obtain ⟨p, hp⟩ := hs.suffix h
  have hlen := hlt s text q h
  refine ⟨p, ?_, hp.symm⟩
  rintro rfl
  rw [← hp, List.nil_append] at hlen
  exact Nat.lt_irrefl _ hlen

theorem marks_breakOn {pat : List UInt8} (hpat : pat ≠ []) (acc : List UInt8) :
    Marks (breakOn pat acc) := by
  refine marks_of_search (search_breakOn hpat acc) fun s text q h => ?_
  have hle := length_le_of_breakOn h
  have hpos := List.length_pos_of_ne_nil hpat
  omega

theorem length_lt_of_breakOnEnd {inside : Bool} {acc s text q : List UInt8}
    (h : breakOnEnd inside acc s = some (text, q)) : q.length < s.length := by
  induction s generalizing inside acc with
  | nil => cases h
  | cons b s ih =>
    unfold breakOnEnd at h
    split at h
    · rename_i hfound
      have hletter : isLetter b = true := by
        simp only [Bool.and_eq_true] at hfound
        exact hfound.1.1
      have hword : isWordByte b = true := by rw [isWordByte, hletter, Bool.true_or]
      obtain ⟨_, rfl⟩ := Prod.mk.inj (Option.some.inj h)
      rw [List.dropWhile_cons_of_pos hword]
      exact Nat.lt_succ_of_le (List.dropWhile_suffix _).length_le
    · exact Nat.lt_succ_of_lt (ih h)

theorem marks_breakOnEnd (inside : Bool) (acc : List UInt8) : Marks (breakOnEnd inside acc) :=
  marks_of_search (search_breakOnEnd inside acc) fun _ _ _ h => length_lt_of_breakOnEnd h

variable {first find : List UInt8 → Option (List UInt8 × List UInt8)} {st : Stretch}

/-- Over the lines below, a stretch is the whole lines up to its end and the beginning of the line
with its end mark. -/
theorem stretch_lines (hf : Marks find) {line : Nat} {below : List (List UInt8)}
    (hlines : Lines below r) (h : stretch find line below = some st) :
    ∃ extent r', r = extent ++ r' ∧
      (⟨st.line, st.col + 1⟩ : Place) = (⟨line + 1, 1⟩ : Place).behind extent ∧ 0 < st.col ∧
      Lines (st.here :: st.below) r' := by
  induction below generalizing line r st with
  | nil => cases h
  | cons next below ih =>
    unfold stretch at h
    split at h
    · rename_i text rest hfound
      obtain ⟨p, hp, rfl⟩ := hf _ _ _ hfound
      obtain rfl := Option.some.inj h
      have hfeed : 0x0A ∉ p := fun hmem => hlines.notMem (List.mem_append_left _ hmem)
      obtain ⟨r', rfl, hrest⟩ := hlines.advance
      have hcol : (p ++ rest).length - rest.length = p.length := by
        rw [List.length_append, Nat.add_sub_cancel]
      refine ⟨p, r', rfl, ?_, ?_, hrest⟩
      · rw [Place.behind_of_notMem hfeed]
        simp only [hcol, Nat.add_comm 1]
      · simp only [hcol]
        exact List.length_pos_of_ne_nil hp
    · obtain ⟨st', hst', rfl⟩ := Option.map_eq_some_iff.mp h
      cases hlines with
      | last _ _ => cases hst'
      | @cons _ cut r _ hline hcut hbelow =>
        obtain ⟨extent, r', rfl, hplace, hcol, hrest⟩ := ih hbelow hst'
        have hskip : 0x0A ∉ next ++ cut := by
          rw [List.mem_append, not_or]
          exact ⟨hline, fun hmem => absurd (hcut _ hmem) (by decide)⟩
        refine ⟨next ++ cut ++ 0x0A :: extent, r', by simp, ?_, hcol, hrest⟩
        rw [Place.behind_lineFeed hskip]
        exact hplace

theorem Faces.stretchHere (h : c.Faces s r) {skip : Nat} (hf : Marks first) (hg : Marks find)
    (hst : c.stretchHere skip first find = some st) :
    ∃ extent r', r = extent ++ r' ∧ extent ≠ [] ∧ (c.behind st).Stands (s ++ extent) r' := by
  simp only [Cursor.stretchHere] at hst
  split at hst
  · rename_i text rest hfound
    -- The end mark is on the line of the cursor.
    obtain ⟨p, hp, hsplit⟩ := hf _ _ _ hfound
    obtain rfl := Option.some.inj hst
    have hhere : c.here = c.here.take skip ++ p ++ rest := by
      rw [List.append_assoc, ← hsplit, List.take_append_drop]
    have hne : c.here.take skip ++ p ≠ [] := List.append_ne_nil_of_right_ne_nil _ hp
    have hlen : c.here.length - rest.length = (c.here.take skip ++ p).length := by
      have hlen := congrArg List.length hhere
      rw [List.length_append] at hlen
      omega
    obtain ⟨r', hr, hstands⟩ := h.along hne hhere
    refine ⟨_, r', hr, hne, ?_⟩
    rwa [behind, hlen]
  · obtain ⟨st', hst', rfl⟩ := Option.map_eq_some_iff.mp hst
    obtain ⟨hplace, hlines, hhere⟩ := h
    generalize c.below = below at hlines hst'
    cases hlines with
    | last _ _ => cases hst'
    | @cons _ cut r _ hline hcut hbelow =>
      obtain ⟨extent, r', rfl, hplace', hcol, hrest⟩ := stretch_lines hg hbelow hst'
      have hskip : 0x0A ∉ c.here ++ cut := by
        rw [List.mem_append, not_or]
        exact ⟨hline, fun hmem => absurd (hcut _ hmem) (by decide)⟩
      refine ⟨c.here ++ cut ++ 0x0A :: extent, r', by simp, by simp, .within ?_ hrest
        fun _ => hcol⟩
      rw [Place.behind_append, ← hplace, Place.behind_lineFeed hskip]
      exact hplace'

/-- A token that is not ended takes all that is ahead. -/
theorem Faces.atEnd (h : c.Faces s r) : r ≠ [] ∧ c.atEnd.Stands (s ++ r) [] :=
  ⟨h.lines.ne_nil h.here, .below rfl rfl rfl rfl⟩

/-- A token begins where the cursor stands and takes at least one byte. -/
theorem Faces.read (h : c.Faces s r) {m : Manner} (hm : m.Covers c.here) :
    ∃ extent r', r = extent ++ r' ∧ extent ≠ [] ∧ (m.read c).2.Stands (s ++ extent) r' ∧
      (m.read c).1.kind ≠ .eof ∧ (m.read c).1.place = c.place ∧
      ((m.read c).1.kind.keepsSpelling = true →
        (m.read c).1.kind.Spells (m.read c).1.text extent) := by
  cases hm with
  | @lexeme f hf =>
    have htake (c' : Cursor) (hc' : c'.Faces s r) (hhere : c'.here = c.here) :
        ∃ r', r = c.here.take (f c.here).size ++ r' ∧
          (c'.advance (f c.here).size).Stands (s ++ c.here.take (f c.here).size) r' := by
      rw [← hhere] at hf ⊢
      exact hc'.advance hf.pos hf.le
    have hne : c.here.take (f c.here).size ≠ [] := by
      apply List.ne_nil_of_length_pos
      rw [List.length_take, Nat.min_eq_left hf.le]
      exact hf.pos
    simp only [Manner.read, take]
    split
    · obtain ⟨r', hr, hstands⟩ := htake c h rfl
      exact ⟨_, r', hr, hne, hstands, hf.kind, rfl, hf.spells⟩
    · obtain ⟨r', hr, hstands⟩ := htake c.count h.count (count_here c)
      exact ⟨_, r', hr, hne, hstands, hf.kind, by simp [Cursor.place], hf.spells⟩
  | @comment skip close hclose =>
    have hmarks := marks_breakOn hclose []
    simp only [Manner.read, Cursor.comment]
    split
    · rename_i st hst
      obtain ⟨extent, r', hr, hne, hstands⟩ := h.stretchHere hmarks hmarks hst
      exact ⟨extent, r', hr, hne, hstands, by simp, rfl, fun hk => by cases hk⟩
    · obtain ⟨hne, hend⟩ := h.atEnd
      exact ⟨r, [], by simp, hne, hend, by simp, rfl, fun hk => by cases hk⟩
  | assembler =>
    have hplace : c.count.place = c.place := by simp [Cursor.place]
    simp only [Manner.read, Cursor.assembler]
    split
    · rename_i st hst
      obtain ⟨extent, r', hr, hne, hstands⟩ := h.count.stretchHere (marks_breakOnEnd true [])
        (marks_breakOnEnd false []) hst
      exact ⟨extent, r', hr, hne, hstands, by simp, hplace, fun hk => by cases hk⟩
    · obtain ⟨hne, hend⟩ := h.count.atEnd
      exact ⟨r, [], by simp, hne, hend, by simp, hplace, fun hk => by cases hk⟩

/-- What one call makes of the bytes ahead: layout, the extent of the token, and what is left. Only
the end token has no extent, and it leaves nothing. -/
theorem Stands.next (h : c.Stands s r) :
    ∃ gap extent r', r = gap ++ (extent ++ r') ∧ (∀ b ∈ gap, isLayout b = true) ∧
      c.next.2.Stands (s ++ gap ++ extent) r' ∧
      (c.next.1.kind = .eof → extent = [] ∧ r' = []) ∧
      (c.next.1.kind ≠ .eof → extent ≠ [] ∧ c.next.1.place = Place.first.behind (s ++ gap) ∧
        (c.next.1.kind.keepsSpelling = true → c.next.1.kind.Spells c.next.1.text extent)) := by
  obtain ⟨gap, r', rfl, hgap, hfaces | ⟨hhere, rfl, hend⟩⟩ := h.seek
  · obtain ⟨b, rest, hb⟩ := List.exists_cons_of_ne_nil hfaces.here
    have hcovers : (mannerOf c.seek.here).Covers c.seek.here := hb ▸ mannerOf_covers b rest
    obtain ⟨extent, r', rfl, hne, hstands, hkind, hplace, hspells⟩ := hfaces.read hcovers
    rw [next_eq hfaces.here]
    exact ⟨gap, extent, r', rfl, hgap, hstands, fun hk => absurd hk hkind,
      fun _ => ⟨hne, hplace.trans hfaces.place, hspells⟩⟩
  · have hnext : c.next = (c.seek.eof, c.seek) := by
      rw [Cursor.next]
      split
      · rfl
      · rename_i hcons
        rw [hhere] at hcons
        cases hcons
    rw [hnext]
    refine ⟨gap, [], [], rfl, hgap, ?_, fun _ => ⟨rfl, rfl⟩, fun hk => absurd rfl hk⟩
    rwa [List.append_nil]

end Read
end Cursor
end ObjectPascal
