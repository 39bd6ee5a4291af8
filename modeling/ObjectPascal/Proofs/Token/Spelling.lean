import ObjectPascal.Proofs.Token.Cursor

/-!
What a token on one line covers. It covers at least one byte and no more than there are, also where
it is invalid, and a name or number covers its own text.
-/

namespace ObjectPascal

/-- Whether the tokens of a kind keep the text that stands in the source: names, reserved words,
directives and numbers. -/
def Kind.keepsSpelling (k : Kind) : Bool :=
  k.family == .reserved || k.family == .directive || k == .ident || k == .integer || k == .real

/-- A token covers the bytes of its text, with an ampersand in front of an escaped name. -/
def Kind.Spells (k : Kind) (text : Text) (extent : List UInt8) : Prop :=
  extent = text.bytes ∨ k = .ident ∧ extent = 0x26 :: text.bytes

namespace Lexeme

/-- A token at the head of `s` is not the end token. It covers some bytes of `s`, and just its text
if it keeps that. -/
structure Fits (l : Lexeme) (s : List UInt8) : Prop where
  kind : l.kind ≠ .eof
  pos : 0 < l.size
  le : l.size ≤ s.length
  spells : l.kind.keepsSpelling = true → l.kind.Spells l.text (s.take l.size)

/-- A beginning is what its length takes. -/
theorem take_length_of_isPrefix {p s : List UInt8} (h : p <+: s) : s.take p.length = p :=
  (List.prefix_iff_eq_take.mp h).symm

theorem word_kind_ne_eof (s : List UInt8) : (word s).kind ≠ .eof := by
  change Kind.ofWord _ ≠ .eof
  unfold Kind.ofWord
  dsimp only
  split
  · rename_i k hk
    have hfamily := List.find?_some hk
    have hend : (Kind.eof.family == .reserved || Kind.eof.family == .directive) = false := by
      decide
    rintro rfl
    rw [hend, Bool.false_and] at hfamily
    cases hfamily
  · decide

theorem fits_word {b : UInt8} (hb : isLetter b = true) (s : List UInt8) :
    (word (b :: s)).Fits (b :: s) where
  kind := word_kind_ne_eof _
  pos := word_size_pos hb s
  le := (List.takeWhile_prefix _).length_le
  spells _ := Or.inl (take_length_of_isPrefix (List.takeWhile_prefix _))

theorem fits_escapedWord (s : List UInt8) : (escapedWord (0x26 :: s)).Fits (0x26 :: s) where
  kind := by simp [escapedWord]
  pos := Nat.succ_pos _
  le := Nat.succ_le_succ (List.takeWhile_prefix _).length_le
  spells _ := by
    refine Or.inr ⟨rfl, ?_⟩
    change 0x26 :: s.take (s.takeWhile isWordByte).length = 0x26 :: s.takeWhile isWordByte
    rw [take_length_of_isPrefix (List.takeWhile_prefix _)]

theorem fits_hexadecimal (b : UInt8) (s : List UInt8) :
    (hexadecimal (b :: s)).Fits (b :: s) := by
  have hwritten : b :: s.takeWhile isHexDigit <+: b :: s :=
    List.cons_prefix_cons.mpr ⟨rfl, List.takeWhile_prefix _⟩
  exact ⟨by simp [hexadecimal], Nat.succ_pos _, hwritten.length_le,
    fun _ => Or.inl (take_length_of_isPrefix hwritten)⟩

theorem fits_line (b : UInt8) (s : List UInt8) :
    Fits ⟨.comment, (b :: s).length, ⟨b :: s⟩⟩ (b :: s) :=
  ⟨by simp, Nat.succ_pos _, Nat.le_refl _, fun h => by cases h⟩

section Decimal

theorem fraction_isPrefix (s : List UInt8) : fraction s <+: s := by
  unfold fraction
  split
  · rename_i p d r
    split
    · exact List.cons_prefix_cons.mpr ⟨rfl, List.takeWhile_prefix _⟩
    · exact List.nil_prefix
  · exact List.nil_prefix

theorem exponentMark_isPrefix (s : List UInt8) : exponentMark s <+: s := by
  unfold exponentMark
  split
  · rename_i e r
    split
    · split
      · rename_i g t
        split
        · exact ⟨t, rfl⟩
        · exact ⟨g :: t, rfl⟩
      · exact List.prefix_rfl
    · exact List.nil_prefix
  · exact List.nil_prefix

theorem fits_decimal {b : UInt8} (hb : isDigit b = true) (s : List UInt8) :
    (decimal (b :: s)).Fits (b :: s) := by
  have hdigits : 0 < ((b :: s).takeWhile isDigit).length := by
    rw [List.takeWhile_cons, if_pos hb]
    exact Nat.succ_pos _
  generalize b :: s = s at hdigits ⊢
  unfold decimal
  extract_lets whole rest part rest₁ mark rest₂ exponent rest₃ written
  -- Each part is the beginning of what the part in front of it leaves.
  have hwhole : whole ++ rest = s := List.takeWhile_append_dropWhile
  have hpart : part ++ rest₁ = rest := List.prefix_iff_eq_append.mp (fraction_isPrefix rest)
  have hmark : mark ++ rest₂ = rest₁ := List.prefix_iff_eq_append.mp (exponentMark_isPrefix rest₁)
  have hexponent : exponent ++ rest₃ = rest₂ := by
    apply List.prefix_iff_eq_append.mp
    simp only [exponent]
    split
    · exact List.nil_prefix
    · exact List.takeWhile_prefix _
  have hsplit : written ++ rest₃ = s := by
    rw [← hwhole, ← hpart, ← hmark, ← hexponent]
    simp only [written, List.append_assoc]
  have hwritten : written <+: s := ⟨rest₃, hsplit⟩
  have hpos : 0 < written.length := by
    change 0 < whole.length at hdigits
    simp only [written, List.length_append]
    omega
  split
  · exact ⟨by simp, hpos, hwritten.length_le, fun h => by cases h⟩
  · split
    · rename_i hletter
      -- The letter behind the number is one more byte.
      have hne : rest₃ ≠ [] := by
        intro hnil
        rw [hnil] at hletter
        cases hletter
      have hlen := congrArg List.length hsplit
      have hrest := List.length_pos_of_ne_nil hne
      rw [List.length_append] at hlen
      refine ⟨by simp, Nat.succ_pos _, ?_, fun h => by cases h⟩
      simp only
      omega
    · refine ⟨?_, hpos, hwritten.length_le, fun _ => Or.inl (take_length_of_isPrefix hwritten)⟩
      simp only
      split <;> simp

end Decimal

theorem fits_mark (b : UInt8) (s : List UInt8) : (mark (b :: s)).Fits (b :: s) := by
  have hall : ∀ m ∈ marks, m.2 ≠ .eof ∧ m.2.keepsSpelling = false := by decide
  have hpos := mark_size_pos (b :: s)
  unfold mark at hpos ⊢
  split at hpos
  · rename_i m k hfound
    have hpre := List.find?_some hfound
    have hlen := (List.isPrefixOf_iff_prefix.mp hpre).length_le
    obtain ⟨hend, hkind⟩ := hall _ (List.mem_of_find?_eq_some hfound)
    exact ⟨hend, hpos, hlen, fun h => by cases hkind.symm.trans h⟩
  · exact ⟨by simp, hpos, Nat.succ_le_succ (Nat.zero_le _), fun h => by cases h⟩

section Strings

/-- A string literal takes its first byte, whatever comes of it. -/
theorem stringParts_length_lt {b : UInt8} (hb : b = 0x27 ∨ b = 0x23) {acc s q : List UInt8}
    {fuel : Nat} {result : Except StringFault (List UInt8)}
    (h : stringParts acc (b :: s) (fuel + 1) = (result, q)) : q.length < (b :: s).length := by
  rw [List.length_cons]
  rcases hb with rfl | rfl
  · cases hquoted : quotedPart acc s with
    | none =>
      simp only [stringParts, ↓reduceIte, hquoted, Prod.mk.injEq] at h
      obtain ⟨_, rfl⟩ := h
      exact Nat.succ_pos _
    | some found =>
      have hlt := quotedPart_length_lt hquoted
      simp only [stringParts, ↓reduceIte, hquoted] at h
      have hle := stringParts_length_le h
      omega
  · have hdrop : (s.drop (codeDigits s).2.2).length ≤ s.length := by
      rw [List.length_drop]
      omega
    rw [stringParts_code] at h
    split at h
    · obtain ⟨_, rfl⟩ := Prod.mk.inj h
      exact Nat.lt_succ_of_le hdrop
    · exact Nat.lt_succ_of_le ((stringParts_length_le h).trans hdrop)

theorem fits_string {b : UInt8} (hb : b = 0x27 ∨ b = 0x23) (s : List UInt8) :
    (string (b :: s)).Fits (b :: s) := by
  have hsize : ∀ q : List UInt8, q.length < (b :: s).length →
      0 < (b :: s).length - q.length := fun q hq => Nat.sub_pos_of_lt hq
  unfold string
  split
  all_goals
    rename_i q h
    have hq := hsize q (stringParts_length_lt hb h)
    exact ⟨by simp, hq, Nat.sub_le _ _, fun h => by cases h⟩

end Strings
end Lexeme

namespace Cursor

/-- Every token covers some bytes: one on a line as its size says, one over lines because its end
mark is not empty. -/
inductive Manner.Covers (s : List UInt8) : Manner → Prop
  | lexeme {f : List UInt8 → Lexeme} (hf : (f s).Fits s) : Covers s (.lexeme f)
  | comment {skip : Nat} {close : Text} (hclose : close.bytes ≠ []) :
      Covers s (.comment skip close)
  | assembler : Covers s .assembler

theorem mannerOf_covers (b : UInt8) (rest : List UInt8) :
    (mannerOf (b :: rest)).Covers (b :: rest) := by
  unfold mannerOf
  simp only
  split
  · rename_i h
    exact .lexeme (Lexeme.fits_string h rest)
  split
  · rename_i h
    split
    · exact .assembler
    · exact .lexeme (Lexeme.fits_word h rest)
  split
  · rename_i h
    obtain rfl := h.1
    exact .lexeme (Lexeme.fits_escapedWord rest)
  split
  · rename_i h
    exact .lexeme (Lexeme.fits_decimal h rest)
  split
  · exact .lexeme (Lexeme.fits_hexadecimal b rest)
  split
  · exact .comment (by decide)
  split
  · exact .comment (by decide)
  split
  · exact .lexeme (Lexeme.fits_line b rest)
  · exact .lexeme (Lexeme.fits_mark b rest)

end Cursor
end ObjectPascal
