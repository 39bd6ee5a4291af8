import Mathlib.Algebra.GroupWithZero.Nat
import ObjectPascal.Proofs.Token.Lexeme
import ObjectPascal.Token.Cursor

/-!
How a cursor moves. The next token is read from what lies ahead and leaves the rest of it as it is,
so line and column of a cursor tell how much of the source it has passed. Each token but the last
one takes at least one byte.
-/

namespace ObjectPascal.Cursor

section Search

/-- A search for an end mark leaves what is behind the mark. A mark in front of a full stop is found
whatever follows the full stop, and else none is found in front of it. -/
structure Search (find : List UInt8 → Option (List UInt8 × List UInt8)) : Prop where
  suffix {s text q : List UInt8} (h : find s = some (text, q)) : q <:+ s
  stop {p text q : List UInt8} (h : find p = some (text, q)) (r : List UInt8) :
    find (p ++ 0x2E :: r) = some (text, q ++ 0x2E :: r)
  across {p r text q : List UInt8} (h : find p = none)
    (h' : find (p ++ 0x2E :: r) = some (text, q)) : q.length ≤ r.length

theorem Search.local {find : List UInt8 → Option (List UInt8 × List UInt8)} (hs : Search find)
    {p r text q : List UInt8} (h : find (p ++ 0x2E :: r) = some (text, q ++ 0x2E :: r))
    (r' : List UInt8) : find (p ++ 0x2E :: r') = some (text, q ++ 0x2E :: r') := by
  cases hp : find p with
  | none =>
    have hle := hs.across hp h
    simp only [List.length_append, List.length_cons] at hle
    omega
  | some found =>
    have hq := (hs.stop hp r).symm.trans h
    simp only [Option.some.injEq, Prod.mk.injEq, List.append_cancel_right_eq] at hq
    obtain ⟨rfl, rfl⟩ := hq
    exact hs.stop hp r'

variable {pat : List UInt8}

theorem length_le_of_breakOn {acc s text q : List UInt8} (h : breakOn pat acc s = some (text, q)) :
    pat.length + q.length ≤ s.length := by
  induction s generalizing acc with
  | nil => cases h
  | cons c s ih =>
    unfold breakOn at h
    split at h
    · rename_i hfound
      have hlen := (List.isPrefixOf_iff_prefix.mp hfound).length_le
      obtain ⟨_, rfl⟩ := Prod.mk.inj (Option.some.inj h)
      rw [List.length_drop]
      omega
    · exact Nat.le_succ_of_le (ih h)

/-- A mark is found whatever follows it. -/
theorem breakOn_append {acc p text q : List UInt8} (h : breakOn pat acc p = some (text, q))
    (r : List UInt8) : breakOn pat acc (p ++ r) = some (text, q ++ r) := by
  induction p generalizing acc with
  | nil => cases h
  | cons c p ih =>
    have hpre : c :: p <+: c :: p ++ r := List.prefix_append _ _
    unfold breakOn at h
    rw [List.cons_append, breakOn, ← List.cons_append]
    split at h
    · rename_i hfound
      have hfound := List.isPrefixOf_iff_prefix.mp hfound
      obtain ⟨rfl, rfl⟩ := Prod.mk.inj (Option.some.inj h)
      rw [if_pos (List.isPrefixOf_iff_prefix.mpr (hfound.trans hpre)),
        List.drop_append_of_le_length hfound.length_le]
    · rename_i hnone
      -- The mark is found further on in front of what follows, so here it ends there too.
      have hlen : pat.length ≤ (c :: p).length :=
        (Nat.le_add_right _ _).trans (Nat.le_succ_of_le (length_le_of_breakOn h))
      rw [if_neg, ih h]
      intro hfound
      exact hnone (List.isPrefixOf_iff_prefix.mpr
        (List.prefix_of_prefix_length_le (List.isPrefixOf_iff_prefix.mp hfound) hpre hlen))

theorem search_breakOn (hpat : pat ≠ []) (acc : List UInt8) : Search (breakOn pat acc) where
  suffix {s text q} h := by
    induction s generalizing acc with
    | nil => cases h
    | cons c s ih =>
      unfold breakOn at h
      split at h
      · obtain ⟨_, rfl⟩ := Prod.mk.inj (Option.some.inj h)
        exact List.drop_suffix _ _
      · exact (ih _ h).trans (List.suffix_cons c s)
  stop {p text q} h r := breakOn_append h (0x2E :: r)
  across {p r text q} h h' := by
    have hpos := List.length_pos_of_ne_nil hpat
    induction p generalizing acc with
    | nil =>
      have hlen := length_le_of_breakOn h'
      simp only [List.nil_append, List.length_cons] at hlen
      omega
    | cons c p ih =>
      have hpre : c :: p <+: c :: p ++ 0x2E :: r := List.prefix_append _ _
      unfold breakOn at h
      rw [List.cons_append, breakOn, ← List.cons_append] at h'
      split at h
      · cases h
      · rename_i hnone
        split at h'
        · rename_i hfound
          have hlong : (c :: p).length < pat.length := by
            by_contra hle
            exact hnone (List.isPrefixOf_iff_prefix.mpr (List.prefix_of_prefix_length_le
              (List.isPrefixOf_iff_prefix.mp hfound) hpre (Nat.le_of_not_lt hle)))
          obtain ⟨_, rfl⟩ := Prod.mk.inj (Option.some.inj h')
          simp only [List.length_drop, List.length_append, List.length_cons] at hlong ⊢
          omega
        · exact ih _ h h'

theorem suffix_of_breakOnEnd {inside : Bool} {acc s text q : List UInt8}
    (h : breakOnEnd inside acc s = some (text, q)) : q <:+ s := by
  induction s generalizing inside acc with
  | nil => cases h
  | cons c s ih =>
    unfold breakOnEnd at h
    split at h
    · obtain ⟨_, rfl⟩ := Prod.mk.inj (Option.some.inj h)
      exact List.dropWhile_suffix _
    · exact (ih h).trans (List.suffix_cons c s)

/-- A word `end` is found whatever follows it, unless the word goes on. -/
theorem breakOnEnd_append {inside : Bool} {acc p text q r : List UInt8}
    (h : breakOnEnd inside acc p = some (text, q)) (hr : ∀ b ∈ r.head?, isWordByte b = false) :
    breakOnEnd inside acc (p ++ r) = some (text, q ++ r) := by
  induction p generalizing inside acc with
  | nil => cases h
  | cons c p ih =>
    obtain ⟨htake, hdrop⟩ := takeWhile_before hr (c :: p)
    rw [List.cons_append] at htake hdrop
    unfold breakOnEnd at h
    rw [List.cons_append, breakOnEnd, htake, hdrop]
    split at h
    · rename_i hfound
      obtain ⟨rfl, rfl⟩ := Prod.mk.inj (Option.some.inj h)
      rw [if_pos hfound]
    · rename_i hnone
      rw [if_neg hnone, ih h]

theorem search_breakOnEnd (inside : Bool) (acc : List UInt8) : Search (breakOnEnd inside acc) where
  suffix := suffix_of_breakOnEnd
  stop {p text q} h r := breakOnEnd_append h (by simp [isWordByte, isLetter, isDigit])
  across {p r text q} h h' := by
    induction p generalizing inside acc with
    | nil =>
      have hletter : isLetter 0x2E = false := rfl
      rw [List.nil_append, breakOnEnd, hletter] at h'
      exact (suffix_of_breakOnEnd h').length_le
    | cons c p ih =>
      have htake := takeWhile_stop (f := isWordByte) rfl (c :: p) r
      rw [List.cons_append] at htake
      unfold breakOnEnd at h
      rw [List.cons_append, breakOnEnd, htake] at h'
      split at h
      · cases h
      · rename_i hnone
        rw [if_neg hnone] at h'
        exact ih _ _ h h'

end Search

section Passes

/-- The cursor `d` stands in the same source as `c` or behind it: on the same line or below. -/
def Passes (c d : Cursor) : Prop :=
  (∃ p, c.here = p ++ d.here ∧ d.below = c.below ∧ d.line = c.line ∧
    (d.here ≠ [] → d.col = c.col + p.length)) ∨
  ∃ mid p, c.below = mid ++ (p ++ d.here) :: d.below ∧ d.line = c.line + mid.length + 1 ∧
    (d.here ≠ [] → d.col = p.length)

theorem Passes.refl (c : Cursor) : c.Passes c := Or.inl ⟨[], rfl, rfl, rfl, fun _ => rfl⟩

theorem Passes.trans {c d e : Cursor} (h : c.Passes d) (k : d.Passes e) : c.Passes e := by
  rcases k with ⟨q, hhere, hbelow, hline, hcol⟩ | ⟨mid', q, hbelow, hline, hcol⟩
  · -- On the line of `d` both parts of the way are added up.
    have hne (he : e.here ≠ []) : d.here ≠ [] := by simp [hhere, he]
    rcases h with ⟨p, hhere', hbelow', hline', hcol'⟩ | ⟨mid, p, hbelow', hline', hcol'⟩
    · refine Or.inl ⟨p ++ q, by rw [hhere', hhere, List.append_assoc], hbelow.trans hbelow',
        hline.trans hline', fun he => ?_⟩
      rw [hcol he, hcol' (hne he), List.length_append, Nat.add_assoc]
    · refine Or.inr ⟨mid, p ++ q, by rw [hbelow', hhere, hbelow, List.append_assoc],
        hline.trans hline', fun he => ?_⟩
      rw [hcol he, hcol' (hne he), List.length_append]
  · rcases h with ⟨p, _, hbelow', hline', _⟩ | ⟨mid, p, hbelow', hline', _⟩
    · exact Or.inr ⟨mid', q, by rw [← hbelow', hbelow], by rw [hline, hline'], hcol⟩
    · refine Or.inr ⟨mid ++ (p ++ d.here) :: mid', q, by rw [hbelow', hbelow]; simp, ?_, hcol⟩
      rw [hline, hline', List.length_append, List.length_cons]
      omega

theorem size_eq (c : Cursor) :
    c.size = c.here.length + (c.below.map fun l => l.length + 1).sum := by
  rw [size]
  induction c.below with
  | nil => rfl
  | cons line below ih =>
    rw [List.foldr_cons, ih, List.map_cons, List.sum_cons]
    omega

theorem Passes.size_le {c d : Cursor} (h : c.Passes d) : d.size ≤ c.size := by
  rw [size_eq, size_eq]
  rcases h with ⟨p, hhere, hbelow, _⟩ | ⟨mid, p, hbelow, _⟩
  · rw [hhere, hbelow, List.length_append]
    omega
  · rw [hbelow, List.map_append, List.sum_append, List.map_cons, List.sum_cons, List.length_append]
    omega

theorem Passes.below_length_le {c d : Cursor} (h : c.Passes d) :
    d.below.length ≤ c.below.length := by
  rcases h with ⟨p, _, hbelow, _⟩ | ⟨mid, p, hbelow, _⟩
  · rw [hbelow]
  · rw [hbelow, List.length_append, List.length_cons]
    omega

/-- With the same lines below, a cursor stands behind on the same line. -/
theorem Passes.exists_here {c d : Cursor} (h : c.Passes d) (hb : c.below = d.below) :
    ∃ p, c.here = p ++ d.here := by
  rcases h with ⟨p, hhere, _⟩ | ⟨mid, p, hbelow, _⟩
  · exact ⟨p, hhere⟩
  · have hlen := congrArg List.length (hb.symm.trans hbelow)
    rw [List.length_append, List.length_cons] at hlen
    omega

theorem passes_advance (c : Cursor) (n : Nat) : c.Passes (c.advance n) := by
  refine Or.inl ⟨c.here.take n, (List.take_append_drop n _).symm, rfl, rfl, fun hne => ?_⟩
  have hlt : n < c.here.length := by
    by_contra hle
    exact hne (List.drop_eq_nil_of_le (Nat.le_of_not_lt hle))
  rw [List.length_take, Nat.min_eq_left (Nat.le_of_lt hlt)]
  rfl

theorem advance_advance (c : Cursor) (m n : Nat) : (c.advance m).advance n = c.advance (m + n) := by
  simp [advance, Nat.add_assoc]

theorem passes_advance_of_le (c : Cursor) {m n : Nat} (h : m ≤ n) :
    (c.advance m).Passes (c.advance n) := by
  obtain ⟨k, rfl⟩ := Nat.exists_eq_add_of_le h
  rw [← advance_advance]
  exact passes_advance _ _

theorem size_advance_one {c : Cursor} (h : c.here ≠ []) : (c.advance 1).size < c.size := by
  have hpos := List.length_pos_of_ne_nil h
  simp only [size_eq, advance, List.length_drop]
  omega

@[simp]
theorem count_here (c : Cursor) : c.count.here = c.here := by unfold count; split <;> rfl

@[simp]
theorem count_below (c : Cursor) : c.count.below = c.below := by unfold count; split <;> rfl

@[simp]
theorem count_line (c : Cursor) : c.count.line = c.line := by unfold count; split <;> rfl

@[simp]
theorem count_col (c : Cursor) : c.count.col = c.col := by unfold count; split <;> rfl

/-- Where a cursor stands does not depend on the lines counted. -/
theorem Passes.congr {c c' d d' : Cursor} (h : c.Passes d) (hc : c'.here = c.here)
    (hcb : c'.below = c.below) (hcl : c'.line = c.line) (hcc : c'.col = c.col)
    (hd : d'.here = d.here) (hdb : d'.below = d.below) (hdl : d'.line = d.line)
    (hdc : d'.col = d.col) : c'.Passes d' := by
  unfold Passes at h ⊢
  rwa [hc, hcb, hcl, hcc, hd, hdb, hdl, hdc]

theorem seekFrom_passes (c : Cursor) (line col : Nat) (here : List UInt8)
    (below : List (List UInt8)) :
    Passes ⟨line, col, here, below, 0, 0⟩ (c.seekFrom line col here below) := by
  -- On the line itself the layout is passed; only an empty rest leads on to the next line.
  have hsplit := List.takeWhile_append_dropWhile (p := isLayout) (l := here)
  induction below generalizing line col here with
  | nil =>
    unfold seekFrom
    split
    · exact Or.inl ⟨here, by simp, rfl, rfl, fun hne => absurd rfl hne⟩
    · exact Or.inl ⟨here.takeWhile isLayout, hsplit.symm, rfl, rfl, fun _ => rfl⟩
  | cons next below ih =>
    unfold seekFrom
    split
    · have hnext := ih (line + 1) 0 next List.takeWhile_append_dropWhile
      refine Passes.trans (d := ⟨line + 1, 0, next, below, 0, 0⟩) ?_ hnext
      exact Or.inr ⟨[], [], rfl, rfl, fun _ => rfl⟩
    · exact Or.inl ⟨here.takeWhile isLayout, hsplit.symm, rfl, rfl, fun _ => rfl⟩

theorem seek_passes (c : Cursor) : c.Passes c.seek :=
  (seekFrom_passes c c.line c.col c.here c.below).congr rfl rfl rfl rfl rfl rfl rfl rfl

variable {first find : List UInt8 → Option (List UInt8 × List UInt8)}

theorem stretch_passes (hf : Search find) {line : Nat} {below : List (List UInt8)} {s : Stretch}
    (h : stretch find line below = some s) :
    ∃ mid p, below = mid ++ (p ++ s.here) :: s.below ∧ s.line = line + mid.length + 1 ∧
      (s.here ≠ [] → s.col = p.length) := by
  induction below generalizing line s with
  | nil => cases h
  | cons next below ih =>
    unfold stretch at h
    split at h
    · rename_i text rest hfound
      obtain ⟨p, hp⟩ := hf.suffix hfound
      obtain rfl := Option.some.inj h
      refine ⟨[], p, by rw [hp]; rfl, rfl, fun _ => ?_⟩
      simp only [← hp, List.length_append]
      omega
    · obtain ⟨s', hs', rfl⟩ := Option.map_eq_some_iff.mp h
      obtain ⟨mid, p, hbelow, hline, hcol⟩ := ih hs'
      refine ⟨next :: mid, p, by rw [hbelow]; rfl, ?_, hcol⟩
      simp only [hline, List.length_cons]
      omega

theorem stretchHere_passes (hf : Search first) (hg : Search find) {c : Cursor} {skip : Nat}
    {s : Stretch} (h : c.stretchHere skip first find = some s) :
    (c.advance skip).Passes (c.behind s) := by
  simp only [stretchHere] at h
  split at h
  · rename_i text rest hfound
    obtain ⟨p, hp⟩ := hf.suffix hfound
    obtain rfl := Option.some.inj h
    refine Or.inl ⟨p, hp.symm, rfl, rfl, fun hne => ?_⟩
    have hlen := congrArg List.length hp
    have hpos := List.length_pos_of_ne_nil hne
    simp only [List.length_append, List.length_drop, behind, advance] at hlen hpos ⊢
    omega
  · obtain ⟨s', hs', rfl⟩ := Option.map_eq_some_iff.mp h
    obtain ⟨mid, p, hbelow, hline, hcol⟩ := stretch_passes hg hs'
    exact Or.inr ⟨mid, p, hbelow, hline, hcol⟩

end Passes

section Manner

/-- How the token at the beginning of some bytes is read. -/
inductive Manner where
  | lexeme (read : List UInt8 → Lexeme)
  | comment (skip : Nat) (close : Text)
  | assembler

/-- The token that is read at the cursor. -/
def Manner.read (c : Cursor) : Manner → Token × Cursor
  | .lexeme f => c.take (f c.here)
  | .comment skip close => c.comment skip close
  | .assembler => c.assembler

/-- The first two bytes decide how a token is read; only a word has to be looked at as a whole. -/
def mannerOf : List UInt8 → Manner
  | [] => .lexeme Lexeme.mark
  | b :: rest =>
    let peek := rest.headD 0
    if b = 0x27 ∨ b = 0x23 then .lexeme Lexeme.string
    else if isLetter b then
      if Text.sameFold ⟨(b :: rest).takeWhile isWordByte⟩ "asm" then .assembler
      else .lexeme Lexeme.word
    else if b = 0x26 ∧ isLetter peek then .lexeme Lexeme.escapedWord
    else if isDigit b then .lexeme Lexeme.decimal
    else if b = 0x24 ∧ isHexDigit peek then .lexeme Lexeme.hexadecimal
    else if b = 0x7B then .comment 1 "\x7d"
    else if b = 0x28 ∧ peek = 0x2A then .comment 2 "*)"
    else if b = 0x2F ∧ peek = 0x2F then .lexeme fun s => ⟨.comment, s.length, ⟨s⟩⟩
    else .lexeme Lexeme.mark

theorem tokenAt_eq {c : Cursor} {b : UInt8} {rest : List UInt8} (hb : c.here = b :: rest) :
    c.tokenAt b (rest.headD 0) = (mannerOf (b :: rest)).read c := by
  simp only [tokenAt, mannerOf, hb]
  repeat' split
  all_goals simp only [Manner.read, hb]

theorem next_eq {c : Cursor} (hne : c.seek.here ≠ []) :
    c.next = (mannerOf c.seek.here).read c.seek := by
  rw [next]
  split
  · rename_i h
    exact absurd h hne
  · rename_i b rest h
    rw [tokenAt_eq h, h]

/-- What is the same for all manners of reading: valid tokens are not empty, and do not depend on
what is behind a full stop that follows; and a full stop is a mark. -/
inductive Manner.Sound (s : List UInt8) : Manner → Prop
  | lexeme {f : List UInt8 → Lexeme} (hf : Lexeme.Local f)
      (hpos : (f s).kind ≠ .invalid → 0 < (f s).size) (hdot : (f s).kind = .dot → f = Lexeme.mark) :
      Sound s (.lexeme f)
  | comment {skip : Nat} {close : Text} (hskip : 0 < skip) (hclose : close.bytes ≠ []) :
      Sound s (.comment skip close)
  | assembler : Sound s .assembler

theorem mannerOf_sound (b : UInt8) (rest : List UInt8) :
    (mannerOf (b :: rest)).Sound (b :: rest) := by
  unfold mannerOf
  simp only
  split
  · rename_i h
    refine .lexeme Lexeme.local_string (Lexeme.string_size_pos h rest) fun hdot => ?_
    rcases Lexeme.string_kind (b :: rest) with hkind | hkind
    · cases hkind.symm.trans hdot
    · cases hkind.symm.trans hdot
  split
  · rename_i h
    split
    · exact .assembler
    · exact .lexeme Lexeme.local_word (fun _ => Lexeme.word_size_pos h rest)
        fun hdot => absurd hdot (Lexeme.word_kind_ne_dot _)
  split
  · exact .lexeme Lexeme.local_escapedWord (fun _ => Nat.succ_pos _) fun hdot => by cases hdot
  split
  · rename_i h
    refine .lexeme Lexeme.local_decimal (fun _ => Lexeme.decimal_size_pos h rest) fun hdot => ?_
    rcases (Lexeme.decimal_spec (b :: rest)).2 with hkind | hkind | hkind
    · cases hkind.symm.trans hdot
    · cases hkind.symm.trans hdot
    · cases hkind.symm.trans hdot
  split
  · exact .lexeme Lexeme.local_hexadecimal (fun _ => by simp [Lexeme.hexadecimal])
      fun hdot => by cases hdot
  split
  · exact .comment Nat.one_pos (by decide)
  split
  · exact .comment Nat.two_pos (by decide)
  split
  · exact .lexeme Lexeme.local_line (fun _ => Nat.succ_pos _) fun hdot => by cases hdot
  · exact .lexeme Lexeme.local_mark (fun _ => Lexeme.mark_size_pos _) fun _ => rfl

end Manner

section Next

/-- A token takes its first byte, and what is behind it stays. -/
theorem Manner.Sound.passes {c : Cursor} {m : Manner} (h : m.Sound c.here)
    (hv : (m.read c).1.kind ≠ .invalid) :
    (c.advance 1).Passes (m.read c).2 ∧ (m.read c).1.place = c.place := by
  have hstretch {c' : Cursor} (hc : (c.advance 1).Passes (c'.advance 1)) {skip : Nat}
      (hskip : 0 < skip) {first find} (hf : Search first) (hg : Search find) {s : Stretch}
      (hs : c'.stretchHere skip first find = some s) : (c.advance 1).Passes (c'.behind s) :=
    hc.trans ((passes_advance_of_le c' hskip).trans (stretchHere_passes hf hg hs))
  have hcount : (c.advance 1).Passes (c.count.advance 1) := by
    refine (Passes.refl _).congr rfl rfl rfl rfl ?_ ?_ ?_ ?_ <;> simp [advance]
  cases h with
  | @lexeme f hf hpos hdot =>
    have hsize := hpos hv
    have htake (c' : Cursor) (h1 : (c.advance 1).Passes (c'.advance 1))
        (hplace : c'.place = c.place) :
        (c.advance 1).Passes (c'.advance (f c.here).size) ∧ c'.place = c.place :=
      ⟨h1.trans (passes_advance_of_le c' hsize), hplace⟩
    simp only [Manner.read, take]
    split
    · exact htake c (.refl _) rfl
    · exact htake c.count hcount (by simp [place])
  | @comment skip close hskip hclose =>
    have hsearch := search_breakOn hclose []
    simp only [Manner.read, Cursor.comment] at hv ⊢
    split at hv
    · rename_i s hs
      exact ⟨hstretch (.refl _) hskip hsearch hsearch hs, rfl⟩
    · exact absurd rfl hv
  | assembler =>
    simp only [Manner.read, Cursor.assembler] at hv ⊢
    split at hv
    · rename_i s hs
      refine ⟨hstretch hcount (Nat.succ_pos 2) (search_breakOnEnd true [])
        (search_breakOnEnd false []) hs, ?_⟩
      simp [place]
    · exact absurd rfl hv

variable {c d f : Cursor} {t : Token} {ts : List (Token × Cursor)}

/-- A token begins at the next byte that is no layout, and takes that byte. -/
theorem next_passes (h : c.next = (t, d)) (he : t.kind ≠ .eof) (hv : t.kind ≠ .invalid) :
    c.seek.here ≠ [] ∧ (c.seek.advance 1).Passes d ∧ t.place = c.seek.place := by
  have hne : c.seek.here ≠ [] := by
    intro hnil
    rw [next] at h
    split at h
    · obtain ⟨rfl, _⟩ := Prod.mk.inj h
      exact he rfl
    · rename_i hcons
      rw [hnil] at hcons
      cases hcons
  obtain ⟨b, rest, hb⟩ := List.exists_cons_of_ne_nil hne
  have hsound : (mannerOf c.seek.here).Sound c.seek.here := hb ▸ mannerOf_sound b rest
  rw [next_eq hne] at h
  have hpasses := hsound.passes (by rwa [h])
  rw [h] at hpasses
  exact ⟨hne, hpasses⟩

theorem next_size_lt (h : c.next = (t, d)) (he : t.kind ≠ .eof) (hv : t.kind ≠ .invalid) :
    d.size < c.size := by
  obtain ⟨hne, hpasses, _⟩ := next_passes h he hv
  exact Nat.lt_of_le_of_lt hpasses.size_le
    (Nat.lt_of_lt_of_le (size_advance_one hne) c.seek_passes.size_le)

/-- From one cursor to another valid tokens are read one by one. -/
inductive Reads : Cursor → List (Token × Cursor) → Cursor → Prop
  | nil (c : Cursor) : Reads c [] c
  | cons {c d f : Cursor} {t : Token} {ts : List (Token × Cursor)} (h : c.next = (t, d))
      (he : t.kind ≠ .eof) (hv : t.kind ≠ .invalid) (hr : Reads d ts f) : Reads c ((t, d) :: ts) f

theorem Reads.passes (h : Reads c ts f) : c.Passes f := by
  induction h with
  | nil c => exact .refl c
  | @cons c d f t ts h he hv _ ih =>
    obtain ⟨_, hpasses, _⟩ := next_passes h he hv
    exact c.seek_passes.trans ((passes_advance _ 1).trans (hpasses.trans ih))

theorem Reads.length_add_size_le (h : Reads c ts f) : ts.length + f.size ≤ c.size := by
  induction h with
  | nil c => simp
  | cons h he hv _ ih =>
    have hlt := next_size_lt h he hv
    rw [List.length_cons]
    omega

/-- The valid tokens in front of another are read one by one. -/
theorem exists_reads {fuel : Nat} {post : List (Token × Cursor)}
    (h : c.tokensWithin fuel = ts ++ (t, d) :: post)
    (hv : ∀ x ∈ ts, x.1.kind ≠ .eof ∧ x.1.kind ≠ .invalid) :
    ∃ f, Reads c ts f ∧ f.next = (t, d) := by
  induction ts generalizing c fuel with
  | nil =>
    cases fuel with
    | zero => cases h
    | succ n =>
      rw [tokensWithin] at h
      exact ⟨c, .nil c, (List.cons.inj h).1⟩
  | cons x ts ih =>
    cases fuel with
    | zero => cases h
    | succ n =>
      rw [tokensWithin] at h
      obtain ⟨rfl, hrest⟩ := List.cons.inj h
      obtain ⟨he, hinv⟩ := hv _ List.mem_cons_self
      rw [if_neg he] at hrest
      obtain ⟨f, hreads, hf⟩ := ih hrest fun x hx => hv x (List.mem_cons_of_mem _ hx)
      exact ⟨f, .cons rfl he hinv hreads, hf⟩

theorem Reads.tokensWithin (h : Reads c ts f) (hf : f.next = (t, d)) {fuel : Nat}
    (hlen : ts.length < fuel) : ∃ post, c.tokensWithin fuel = ts ++ (t, d) :: post := by
  induction h generalizing fuel with
  | nil c =>
    obtain ⟨n, rfl⟩ : ∃ n, fuel = n + 1 := ⟨fuel - 1, by omega⟩
    exact ⟨_, by rw [Cursor.tokensWithin, hf]; rfl⟩
  | cons h he hv _ ih =>
    rw [List.length_cons] at hlen
    obtain ⟨n, rfl⟩ : ∃ n, fuel = n + 1 := ⟨fuel - 1, by omega⟩
    obtain ⟨post, hpost⟩ := ih hf (Nat.lt_of_succ_lt_succ hlen)
    refine ⟨post, ?_⟩
    rw [Cursor.tokensWithin, h]
    simp only [if_neg he, hpost, List.cons_append]

/-- A full stop is a single byte. -/
theorem next_of_dot (h : c.next = (t, d)) (hk : t.kind = .dot) :
    c.seek.here = 0x2E :: d.here ∧ d.below = c.seek.below ∧
      t = ⟨.dot, 1, c.seek.place, ∅⟩ ∧ d = c.seek.count.advance 1 := by
  obtain ⟨hne, _, _⟩ := next_passes h (by simp [hk]) (by simp [hk])
  obtain ⟨b, rest, hb⟩ := List.exists_cons_of_ne_nil hne
  have hsound : (mannerOf c.seek.here).Sound c.seek.here := hb ▸ mannerOf_sound b rest
  rw [next_eq hne] at h
  generalize mannerOf c.seek.here = m at h hsound
  cases hsound with
  | @lexeme f _ _ hdot =>
    have hkind : (f c.seek.here).kind = .dot := by
      rw [← hk, ← (Prod.mk.inj h).1]
    obtain rfl := hdot hkind
    obtain ⟨hmark, r, hr⟩ := Lexeme.mark_of_dot hkind
    rw [Manner.read, take, hmark] at h
    obtain ⟨rfl, rfl⟩ := Prod.mk.inj h
    refine ⟨by simp [advance, hr], by simp [advance], ?_, rfl⟩
    simp [place]
  | comment hskip hclose =>
    simp only [Manner.read, Cursor.comment] at h
    split at h <;> (obtain ⟨rfl, _⟩ := Prod.mk.inj h; cases hk)
  | assembler =>
    simp only [Manner.read, Cursor.assembler] at h
    split at h <;> (obtain ⟨rfl, _⟩ := Prod.mk.inj h; cases hk)

theorem next_dot {r : List UInt8} (h : c.seek.here = 0x2E :: r)
    (hr : ∀ b ∈ r.head?, b ≠ 0x2E ∧ b ≠ 0x29) :
    c.next = (⟨.dot, 1, c.seek.place, ∅⟩, c.seek.count.advance 1) := by
  have hmanner : mannerOf (0x2E :: r) = .lexeme Lexeme.mark := rfl
  rw [next_eq (by rw [h]; exact List.cons_ne_nil _ _), h, hmanner, Manner.read, h,
    Lexeme.mark_dot hr, take]
  simp [place]

end Next

end ObjectPascal.Cursor
