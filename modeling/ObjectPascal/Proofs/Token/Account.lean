import Mathlib.Data.Nat.Find
import ObjectPascal.Proofs.Token.Extent
import ObjectPascal.Token.Scanner

/-!
A scanner that keeps comments and is asked on and on accounts for every byte of its source. Its
tokens have extents that follow one another, and between them there is only layout; so the end token
comes after no more calls than there are bytes.
-/

namespace ObjectPascal

namespace Place

theorem line_behind_le (p : Place) (s : List UInt8) : (p.behind s).line ≤ p.line + s.length := by
  induction s generalizing p with
  | nil => exact Nat.le_refl _
  | cons b s ih =>
    have hpast : (p.past b).line ≤ p.line + 1 := by
      unfold past
      split
      · exact Nat.le_refl _
      · exact Nat.le_succ _
    have hle := ih (p.past b)
    change ((p.past b).behind s).line ≤ _
    rw [List.length_cons]
    omega

theorem col_behind_le {p : Place} (hp : 0 < p.col) (s : List UInt8) :
    (p.behind s).col ≤ p.col + s.length := by
  induction s generalizing p with
  | nil => exact Nat.le_refl _
  | cons b s ih =>
    have hpast : 0 < (p.past b).col ∧ (p.past b).col ≤ p.col + 1 := by
      unfold past
      split
      · exact ⟨Nat.one_pos, Nat.succ_le_succ (Nat.zero_le _)⟩
      · exact ⟨Nat.succ_pos _, Nat.le_refl _⟩
    have hle := ih hpast.1
    change ((p.past b).behind s).col ≤ _
    rw [List.length_cons]
    omega

end Place

namespace Scanner

/-- The scanner after some calls. -/
def after (s : Scanner) : Nat → Scanner
  | 0 => s
  | n + 1 => (s.after n).next.2

/-- The token that a call hands out; calls are counted from zero. -/
def token (s : Scanner) (n : Nat) : Token := (s.after n).next.1

/-- The offset at which a call resumes. -/
def resumes (s : Scanner) (source : Text) (n : Nat) : Nat := (s.after n).cursor.offset source

/-- The offset of the place of a token. Its extent runs from there to where the next call
resumes. -/
def begins (s : Scanner) (source : Text) (n : Nat) : Nat := (s.token n).place.offset source

/-- The scanner has `n` tokens for the source, and then only end tokens; and the extents of these
tokens account for every byte. -/
structure Accounts (s : Scanner) (source : Text) (n : Nat) : Prop where
  bound : n ≤ source.length
  ends (i : Nat) : (s.token i).kind = .eof ↔ n ≤ i
  takes {i : Nat} (h : i < n) : s.resumes source i ≤ s.begins source i ∧
    s.begins source i < s.resumes source (i + 1) ∧ s.resumes source (i + 1) ≤ source.length
  disjoint {i j : Nat} (hij : i < j) (hj : j < n) :
    s.resumes source (i + 1) ≤ s.begins source j
  outside {k : Nat} {b : UInt8} (hb : source.bytes[k]? = some b)
    (hk : ∀ i < n, ¬ (s.begins source i ≤ k ∧ k < s.resumes source (i + 1))) :
    k < source.markLength ∨ b ∈ [0x20, 0x09, 0x0D, 0x0A, 0x0C]
  spells {i : Nat} (h : i < n) (hkind : (s.token i).kind.keepsSpelling = true) :
    (s.token i).kind.Spells (s.token i).text
      (source.bytes.extract (s.begins source i) (s.resumes source (i + 1)))
  fits {i : Nat} (h : i < n) : (s.token i).place.line < 2 ^ 32 ∧ (s.token i).place.col < 2 ^ 32

/-- A scanner that keeps comments has read the bytes `p` behind the byte order mark of the source
and has `r` ahead. -/
structure Reads (s : Scanner) (source : Text) (p r : List UInt8) : Prop where
  keeps : s.keepComments = true
  running : s.stopped = false
  split : source.bytes.drop source.markLength = p ++ r
  stands : s.cursor.Stands p r

variable {s : Scanner} {source : Text} {p r : List UInt8}

theorem reads_open (s : Scanner) (source path : Text) (hkeep : s.keepComments = true) :
    (s.open_ source path).Reads source [] (source.bytes.drop source.markLength) :=
  ⟨hkeep, rfl, rfl, Cursor.start_stands source⟩

/-- What one call passes, and what it hands out. -/
structure Call (s : Scanner) (source : Text) (p gap extent r : List UInt8) : Prop where
  reads : s.next.2.Reads source (p ++ gap ++ extent) r
  layout : ∀ b ∈ gap, isLayout b = true
  ended (h : s.next.1.kind = .eof) : extent = [] ∧ r = []
  taken (h : s.next.1.kind ≠ .eof) : extent ≠ [] ∧ s.next.1.place = Place.first.behind (p ++ gap)
  spells (h : s.next.1.kind ≠ .eof) (hkind : s.next.1.kind.keepsSpelling = true) :
    s.next.1.kind.Spells s.next.1.text extent

theorem Reads.call (h : s.Reads source p r) :
    ∃ gap extent r', r = gap ++ (extent ++ r') ∧ s.Call source p gap extent r' := by
  have hnext : s.next = (s.cursor.next.1,
      { s with cursor := s.cursor.next.2, line := s.cursor.next.1.line }) := by
    simp only [next, h.running, h.keeps, Bool.false_eq_true, ↓reduceIte]
  obtain ⟨gap, extent, r', rfl, hgap, hstands, hended, htoken⟩ := h.stands.next
  refine ⟨gap, extent, r', rfl, ?_⟩
  constructor
  · rw [hnext]
    refine ⟨h.keeps, h.running, ?_, hstands⟩
    rw [h.split]
    simp only [List.append_assoc]
  · exact hgap
  · rwa [hnext]
  · rw [hnext]
    exact fun hk => ⟨(htoken hk).1, (htoken hk).2.1⟩
  · rw [hnext]
    exact fun hk => (htoken hk).2.2

theorem Reads.offset (h : s.Reads source p r) :
    s.cursor.offset source = source.markLength + p.length := h.stands.offset h.split

/-- A byte that is read and was not read before is among the bytes between. -/
theorem mem_of_getElem? {x y z : List UInt8} {k : Nat} {b : UInt8}
    (h : source.bytes.drop source.markLength = x ++ (y ++ z)) (hb : source.bytes[k]? = some b)
    (hle : source.markLength + x.length ≤ k) (hlt : k < source.markLength + (x ++ y).length) :
    b ∈ y := by
  obtain ⟨j, rfl⟩ := Nat.exists_eq_add_of_le hle
  rw [List.length_append] at hlt
  rw [Nat.add_assoc, ← List.getElem?_drop, h, List.getElem?_append_right (Nat.le_add_right _ _),
    Nat.add_sub_cancel_left, List.getElem?_append_left (by omega)] at hb
  exact List.mem_of_getElem? hb

/-- After each call something is read and something is ahead, and each token has taken a byte. -/
theorem Reads.after (h : s.Reads source p r) (n : Nat) : ∃ q u, (s.after n).Reads source q u ∧
    ((∀ i < n, (s.token i).kind ≠ .eof) → p.length + n ≤ q.length) := by
  induction n with
  | zero => exact ⟨p, r, h, fun _ => Nat.le_refl _⟩
  | succ n ih =>
    obtain ⟨q, u, hreads, hlen⟩ := ih
    obtain ⟨gap, extent, r', rfl, hcall⟩ := hreads.call
    refine ⟨q ++ gap ++ extent, r', hcall.reads, fun hne => ?_⟩
    have hle := hlen fun i hi => hne i (Nat.lt_succ_of_lt hi)
    have hpos := List.length_pos_of_ne_nil (hcall.taken (hne n (Nat.lt_succ_self n))).1
    simp only [List.length_append]
    omega

/-- Behind the end token there are only end tokens. -/
theorem Reads.eof_succ (h : s.Reads source p r) {n : Nat} (he : (s.token n).kind = .eof) :
    (s.token (n + 1)).kind = .eof := by
  obtain ⟨q, u, hreads, _⟩ := h.after n
  obtain ⟨gap, extent, r', rfl, hcall⟩ := hreads.call
  obtain ⟨_, rfl⟩ := hcall.ended he
  obtain ⟨gap', extent', r'', hnil, hcall'⟩ := hcall.reads.call
  obtain ⟨_, rest⟩ := List.append_eq_nil_iff.mp hnil.symm
  obtain ⟨rfl, _⟩ := List.append_eq_nil_iff.mp rest
  by_contra hne
  exact (hcall'.taken hne).1 rfl

/-- The end token comes after no more calls than there are bytes. -/
theorem Reads.exists_ends (h : s.Reads source p r) :
    ∃ n ≤ source.length, ∀ i, (s.token i).kind = .eof ↔ n ≤ i := by
  have hsome : ∃ n, (s.token n).kind = .eof := by
    by_contra hnone
    rw [not_exists] at hnone
    obtain ⟨q, u, hreads, hlen⟩ := h.after (source.length + 1)
    have hle := hlen fun i _ => hnone i
    have hsplit := congrArg List.length hreads.split
    rw [List.length_drop, List.length_append, ← Text.length] at hsplit
    omega
  refine ⟨Nat.find hsome, ?_, fun i => ⟨Nat.find_min' hsome, fun hle => ?_⟩⟩
  · obtain ⟨q, u, hreads, hlen⟩ := h.after (Nat.find hsome)
    have hle := hlen fun i hi => Nat.find_min hsome hi
    have hsplit := congrArg List.length hreads.split
    rw [List.length_drop, List.length_append, ← Text.length] at hsplit
    omega
  · induction i, hle using Nat.le_induction with
    | base => exact Nat.find_spec hsome
    | succ i _ ih => exact h.eof_succ ih

section Call

variable {gap extent : List UInt8}

/-- The offsets of a token: layout in front of it, then its extent. -/
theorem Call.offsets (h : s.Call source p gap extent r)
    (hp : s.cursor.offset source = source.markLength + p.length) (he : s.next.1.kind ≠ .eof) :
    s.next.1.place.offset source = s.cursor.offset source + gap.length ∧
      s.next.2.cursor.offset source = s.next.1.place.offset source + extent.length := by
  have hsplit := h.reads.split
  rw [List.append_assoc] at hsplit
  rw [hp, h.reads.offset, (h.taken he).2, Place.offset_behind hsplit]
  simp only [List.length_append]
  omega

theorem Reads.offset_le (h : s.Reads source p r) : s.cursor.offset source ≤ source.length := by
  have hsplit := congrArg List.length h.split
  rw [List.length_drop, List.length_append, ← Text.length] at hsplit
  have hmark : source.markLength ≤ source.length := source.markLength_le
  rw [h.offset]
  omega

/-- A byte between the place where a call resumes and the token that it hands out is layout. -/
theorem Reads.layout_before (h : s.Reads source p r) {k : Nat} {b : UInt8}
    (hb : source.bytes[k]? = some b) (hle : s.cursor.offset source ≤ k)
    (hlt : s.next.1.kind ≠ .eof → k < s.next.1.place.offset source) : isLayout b = true := by
  obtain ⟨gap, extent, r', rfl, hcall⟩ := h.call
  apply hcall.layout
  apply mem_of_getElem? h.split hb
  · rw [← h.offset]
    exact hle
  · rw [List.length_append, ← Nat.add_assoc, ← h.offset]
    by_cases he : s.next.1.kind = .eof
    · -- The end token leaves nothing, so the layout goes on to the end of the source.
      obtain ⟨rfl, rfl⟩ := hcall.ended he
      obtain ⟨hlen, _⟩ := List.getElem?_eq_some_iff.mp hb
      have hsplit := congrArg List.length h.split
      rw [List.length_drop, List.length_append, List.append_nil, List.append_nil] at hsplit
      have hoffset := h.offset
      omega
    · rw [← (hcall.offsets h.offset he).1]
      exact hlt he

/-- What a token takes: at least one byte, and its text if it keeps that. -/
theorem Reads.takes (h : s.Reads source p r) (he : s.next.1.kind ≠ .eof) :
    s.cursor.offset source ≤ s.next.1.place.offset source ∧
      s.next.1.place.offset source < s.next.2.cursor.offset source ∧
      s.next.2.cursor.offset source ≤ source.length ∧
      (s.next.1.kind.keepsSpelling = true → s.next.1.kind.Spells s.next.1.text
        (source.bytes.extract (s.next.1.place.offset source) (s.next.2.cursor.offset source))) := by
  obtain ⟨gap, extent, r', rfl, hcall⟩ := h.call
  obtain ⟨hbegin, hend⟩ := hcall.offsets h.offset he
  have hpos := List.length_pos_of_ne_nil (hcall.taken he).1
  refine ⟨by omega, by omega, hcall.reads.offset_le, fun hkind => ?_⟩
  have hextent : source.bytes.extract (s.next.1.place.offset source)
      (s.next.2.cursor.offset source) = extent := by
    have hlen : s.next.1.place.offset source = source.markLength + (p ++ gap).length := by
      rw [hbegin, h.offset, List.length_append, Nat.add_assoc]
    rw [hend, List.extract_eq_take_drop, Nat.add_sub_cancel_left, hlen, ← List.drop_drop, h.split,
      ← List.append_assoc, List.drop_left, List.take_left]
  rw [hextent]
  exact hcall.spells he hkind

/-- Line and column of a token are never greater than the number of bytes. -/
theorem Reads.place_le (h : s.Reads source p r) (he : s.next.1.kind ≠ .eof) :
    s.next.1.place.line ≤ source.length ∧ s.next.1.place.col ≤ source.length := by
  obtain ⟨gap, extent, r', rfl, hcall⟩ := h.call
  obtain ⟨hne, hplace⟩ := hcall.taken he
  have hsplit := congrArg List.length h.split
  have hpos := List.length_pos_of_ne_nil hne
  have hline := Place.line_behind_le Place.first (p ++ gap)
  have hcol := Place.col_behind_le (p := Place.first) Nat.one_pos (p ++ gap)
  change _ ≤ 1 + _ at hline hcol
  simp only [List.length_drop, List.length_append] at hsplit hline hcol
  rw [hplace, Text.length]
  omega

end Call

theorem isLayout_iff (b : UInt8) : isLayout b = true ↔ b ∈ [0x20, 0x09, 0x0D, 0x0A, 0x0C] := by
  simp only [isLayout, Bool.or_eq_true, beq_iff_eq, List.mem_cons, List.not_mem_nil, or_false]
  tauto

/-- Every byte of the source is accounted for. A scanner that keeps comments hands out at most as
many tokens as the source has bytes, and then the end token for ever. Each token takes at least one
byte, later tokens begin where earlier ones have ended, and outside the tokens there is only layout
or the byte order mark. A name or number takes exactly the bytes of its text. -/
theorem accounts_for_every_byte (s : Scanner) (source path : Text) (hkeep : s.keepComments = true)
    (hsize : source.length < 2 ^ 32) : ∃ n, (s.open_ source path).Accounts source n := by
  have hopen := reads_open s source path hkeep
  generalize s.open_ source path = s at hopen
  obtain ⟨n, hbound, hends⟩ := hopen.exists_ends
  have hne {i : Nat} (hi : i < n) : (s.token i).kind ≠ .eof := by
    rw [Ne, hends i]
    exact Nat.not_le.mpr hi
  have htakes {i : Nat} (hi : i < n) : s.resumes source i ≤ s.begins source i ∧
      s.begins source i < s.resumes source (i + 1) ∧ s.resumes source (i + 1) ≤ source.length := by
    obtain ⟨p, r, h, _⟩ := hopen.after i
    obtain ⟨hle, hlt, hlen, _⟩ := h.takes (hne hi)
    exact ⟨hle, hlt, hlen⟩
  have hmono {i j : Nat} (hij : i ≤ j) (hj : j ≤ n) :
      s.resumes source i ≤ s.resumes source j := by
    induction j, hij using Nat.le_induction with
    | base => exact Nat.le_refl _
    | succ j _ ih =>
      obtain ⟨hle, hlt, _⟩ := htakes (Nat.lt_of_succ_le hj)
      exact (ih (Nat.le_of_succ_le hj)).trans (hle.trans (Nat.le_of_lt hlt))
  refine ⟨n, hbound, hends, htakes, fun hij hj => ?_, fun {k b} hb hk => ?_, fun hi hkind => ?_,
    fun hi => ?_⟩
  · exact (hmono hij (Nat.le_of_lt hj)).trans (htakes hj).1
  · by_cases hmark : k < source.markLength
    · exact Or.inl hmark
    · refine Or.inr ((isLayout_iff b).mp ?_)
      -- The first call that resumes behind the byte has passed it, and not in its token.
      have hpassed : ∀ m ≤ n, k < s.resumes source m → isLayout b = true := by
        intro m hm hlt
        induction m with
        | zero =>
          have hzero : s.resumes source 0 = source.markLength := hopen.offset
          omega
        | succ m ih =>
          by_cases hearlier : k < s.resumes source m
          · exact ih (Nat.le_of_succ_le hm) hearlier
          · obtain ⟨p, r, h, _⟩ := hopen.after m
            refine h.layout_before hb (Nat.le_of_not_lt hearlier) fun _ => ?_
            by_contra hbegin
            exact hk m (Nat.lt_of_succ_le hm) ⟨Nat.le_of_not_lt hbegin, hlt⟩
      by_cases hlt : k < s.resumes source n
      · exact hpassed n (Nat.le_refl n) hlt
      · obtain ⟨p, r, h, _⟩ := hopen.after n
        exact h.layout_before hb (Nat.le_of_not_lt hlt)
          fun he => absurd ((hends n).mpr (Nat.le_refl n)) he
  · obtain ⟨p, r, h, _⟩ := hopen.after _
    exact (h.takes (hne hi)).2.2.2 hkind
  · obtain ⟨p, r, h, _⟩ := hopen.after _
    obtain ⟨hline, hcol⟩ := h.place_le (hne hi)
    exact ⟨Nat.lt_of_le_of_lt hline hsize, Nat.lt_of_le_of_lt hcol hsize⟩

/-- An escaped name, a comment over two lines, and a string and a comment that are not closed. -/
theorem accounts_for_every_byte_unclosed :
    ({ keepComments := true } : Scanner).keepComments = true ∧
      (Text.ofString "&end \x7b a\r\n \x7d 12 'x\n\t(* ").length < 2 ^ 32 ∧
      ∃ n, (({ keepComments := true } : Scanner).open_
        "&end \x7b a\r\n \x7d 12 'x\n\t(* " ∅).Accounts "&end \x7b a\r\n \x7d 12 'x\n\t(* " n :=
  ⟨rfl, by decide, accounts_for_every_byte _ _ _ rfl (by decide)⟩

end Scanner
end ObjectPascal
