import Mathlib.Data.List.Basic
import ObjectPascal.Text.Case

/-!
Names that are the same up to case. ASCII names are compared byte by byte, and this comes to the
same as comparing characters.
-/

namespace ObjectPascal.Text

/-- A name with every character replaced by the one that stands for all its cases. -/
def folded (t : Text) : List Char := t.chars.map foldChar

/-- Below 128 a byte is a character. -/
theorem runesFrom_of_ascii {l : List UInt8} (h : ∀ b ∈ l, b < 0x80) :
    runesFrom 0 l = l.map fun b => .scalar (Char.ofNat b.toNat) := by
  induction l with
  | nil => rfl
  | cons b l ih =>
    obtain ⟨hb, hl⟩ := List.forall_mem_cons.mp h
    have hrune : runeAt b l = (.scalar (Char.ofNat b.toNat), 0) := if_pos hb
    rw [runesFrom, hrune, ih hl, List.map_cons]

section Ascii

variable {t : Text} (h : t.isAscii = true)
include h

theorem folded_of_isAscii :
    t.folded = (t.bytes.map asciiLower).map fun b => Char.ofNat b.toNat := by
  have hascii : ∀ b ∈ t.bytes, b < 0x80 := by simpa [isAscii] using h
  have hsmall : ∀ k : Fin 128, foldChar (Char.ofNat k) =
      Char.ofNat (asciiLower (UInt8.ofNat k)).toNat := by decide
  rw [folded, chars, runes, runesFrom_of_ascii hascii]
  simp only [List.map_map]
  exact List.map_congr_left fun b hb => by simpa using hsmall ⟨b.toNat, hascii b hb⟩

/-- The bytes of an ASCII name in small letters can be read off its folded form. -/
theorem map_folded_of_isAscii :
    t.folded.map (fun c => UInt8.ofNat c.toNat) = t.bytes.map asciiLower := by
  have hascii : ∀ b ∈ t.bytes, b < 0x80 := by simpa [isAscii] using h
  have hsmall : ∀ k : Fin 128, UInt8.ofNat (Char.ofNat (asciiLower (UInt8.ofNat k)).toNat).toNat =
      asciiLower (UInt8.ofNat k) := by decide
  rw [folded_of_isAscii h, List.map_map, List.map_map]
  exact List.map_congr_left fun b hb => by simpa using hsmall ⟨b.toNat, hascii b hb⟩

end Ascii

/-- Names are the same up to case if they are the same when folded. -/
theorem sameFold_iff {a b : Text} : a.sameFold b = true ↔ a.folded = b.folded := by
  unfold sameFold
  split
  · rename_i h
    obtain ⟨ha, hb⟩ := Bool.and_eq_true_iff.mp h
    rw [beq_iff_eq]
    refine ⟨fun heq => ?_, fun heq => ?_⟩
    · rw [folded_of_isAscii ha, folded_of_isAscii hb, heq]
    · rw [← map_folded_of_isAscii ha, ← map_folded_of_isAscii hb, heq]
  · exact beq_iff_eq

theorem sameFold_refl (a : Text) : a.sameFold a = true := sameFold_iff.mpr rfl

theorem sameFold_symm {a b : Text} (h : a.sameFold b = true) : b.sameFold a = true :=
  sameFold_iff.mpr (sameFold_iff.mp h).symm

theorem sameFold_trans {a b c : Text} (h : a.sameFold b = true) (k : b.sameFold c = true) :
    a.sameFold c = true :=
  sameFold_iff.mpr ((sameFold_iff.mp h).trans (sameFold_iff.mp k))

/-! The order of texts. -/

theorem le_total (a b : Text) : (a.le b || b.le a) = true := by
  suffices h : ∀ xs ys, (le.go xs ys || le.go ys xs) = true from h a.bytes b.bytes
  intro xs
  induction xs with
  | nil => exact fun _ => rfl
  | cons x xs ih =>
    intro ys
    cases ys with
    | nil => rfl
    | cons y ys =>
      simp only [le.go]
      by_cases hxy : x < y
      · simp [hxy]
      · by_cases hyx : y < x
        · simp [hyx]
        · simpa [hxy, hyx] using ih ys

theorem le_trans {a b c : Text} (h : a.le b = true) (k : b.le c = true) : a.le c = true := by
  suffices htrans : ∀ xs ys zs, le.go xs ys = true → le.go ys zs = true → le.go xs zs = true from
    htrans a.bytes b.bytes c.bytes h k
  intro xs
  induction xs with
  | nil => exact fun _ _ _ _ => rfl
  | cons x xs ih =>
    intro ys zs h k
    cases ys with
    | nil => cases h
    | cons y ys =>
      cases zs with
      | nil => cases k
      | cons z zs =>
        simp only [le.go] at h k ⊢
        by_cases hxz : x < z
        · rw [if_pos hxz]
        · by_cases hzx : z < x
          · grind
          · have heq : x = z := by grind
            grind

/-- A name is not lost in small letters. -/
theorem isEmpty_lower (t : Text) : t.lower.isEmpty = t.isEmpty := by
  unfold lower
  split
  · simp [isEmpty]
  · rename_i h
    obtain ⟨bytes⟩ := t
    cases bytes with
    | nil => exact absurd rfl h
    | cons b bytes =>
      have hencoded (c : Char) : String.utf8EncodeChar c ≠ [] := by
        intro hnil
        have hsize := c.utf8Size_pos
        rw [← String.length_utf8EncodeChar, hnil] at hsize
        exact absurd hsize (Nat.lt_irrefl 0)
      simp [isEmpty, ofChars, chars, runes, runesFrom, hencoded]

/-! A text with ASCII behind it. -/

section Behind

variable {s : List UInt8} (h : ∀ b ∈ s, b < 0x80)
include h

/-- An ASCII byte continues no character. -/
theorem continuation_append (n acc : Nat) (rest : List UInt8) :
    continuation n acc (rest ++ s) = continuation n acc rest := by
  induction n generalizing acc rest with
  | zero => simp only [continuation]
  | succ n ih =>
    cases rest with
    | cons b rest => simp only [List.cons_append, continuation, ih]
    | nil =>
      cases s with
      | nil => rfl
      | cons b s =>
        have hb : ¬ (0x80 ≤ b ∧ b ≤ 0xBF) := fun hb =>
          absurd (h b List.mem_cons_self) (UInt8.not_lt.mpr hb.1)
        simp only [List.nil_append, continuation, if_neg hb]

omit h in
theorem le_of_lead {a low high : UInt8} {n : Nat} (h : lead a = some (low, high, n)) :
    0x80 ≤ low := by
  unfold lead at h
  grind

theorem runeAt_append (a : UInt8) (rest : List UInt8) :
    runeAt a (rest ++ s) = runeAt a rest := by
  unfold runeAt
  split
  · rfl
  · cases hlead : lead a with
    | none => rfl
    | some e =>
      obtain ⟨low, high, n⟩ := e
      cases rest with
      | cons b rest =>
        have hrest := continuation_append h n (a.toNat % Nat.pow 2 (6 - n)) (b :: rest)
        simp only [List.cons_append] at hrest ⊢
        rw [hrest]
      | nil =>
        cases s with
        | nil => rfl
        | cons b s =>
          have hb : ¬ (low ≤ b ∧ b ≤ high) := fun hb =>
            absurd (h b List.mem_cons_self) (UInt8.not_lt.mpr (UInt8.le_trans (le_of_lead hlead) hb.1))
          simp only [List.nil_append, if_neg hb]

end Behind

theorem length_of_continuation {n acc v : Nat} {rest : List UInt8}
    (h : continuation n acc rest = some v) : n ≤ rest.length := by
  induction n generalizing acc rest with
  | zero => exact Nat.zero_le _
  | succ n ih =>
    cases rest with
    | nil => simp [continuation] at h
    | cons b rest =>
      simp only [continuation] at h
      split at h
      · exact Nat.succ_le_succ (ih h)
      · cases h

theorem runeAt_le (a : UInt8) (rest : List UInt8) : (runeAt a rest).2 ≤ rest.length := by
  unfold runeAt
  split
  · exact Nat.zero_le _
  · split
    · split
      · split
        · rename_i hv
          exact length_of_continuation hv
        · exact Nat.zero_le _
      · exact Nat.zero_le _
    · exact Nat.zero_le _

/-- The runes of a text are not changed by ASCII behind it. -/
theorem runesFrom_append {s : List UInt8} (h : ∀ b ∈ s, b < 0x80) (skip : Nat) (l : List UInt8)
    (hskip : skip ≤ l.length) : runesFrom skip (l ++ s) = runesFrom skip l ++ runesFrom 0 s := by
  induction l generalizing skip with
  | nil =>
    obtain rfl : skip = 0 := Nat.le_zero.mp hskip
    rfl
  | cons b l ih =>
    cases skip with
    | zero =>
      have hle := runeAt_le b l
      simp only [List.cons_append, runesFrom, runeAt_append h, ih _ hle]
    | succ skip =>
      simp only [List.cons_append, runesFrom]
      exact ih skip (Nat.le_of_succ_le_succ hskip)

theorem chars_append (t : Text) {s : Text} (h : s.isAscii = true) :
    (t ++ s).chars = t.chars ++ s.chars := by
  have hascii : ∀ b ∈ s.bytes, b < 0x80 := by simpa [isAscii] using h
  rw [chars, runes, bytes_append, runesFrom_append hascii 0 t.bytes (Nat.zero_le _),
    List.map_append]
  rfl

/-- Small letters of ASCII, written character by character. -/
theorem ofChars_lowerChar {s : Text} (h : s.isAscii = true) :
    ofChars (s.chars.map lowerChar) = s.lower := by
  have hascii : ∀ b ∈ s.bytes, b < 0x80 := by simpa [isAscii] using h
  have hbyte : ∀ k : Fin 128, String.utf8EncodeChar (lowerChar (Char.ofNat k)) =
      [asciiLower (UInt8.ofNat k)] := by decide
  rw [lower, if_pos h, ofChars, chars, runes, runesFrom_of_ascii hascii]
  simp only [List.map_map, List.flatMap_map, Text.mk.injEq]
  rw [List.map_eq_flatMap]
  apply List.flatMap_congr
  intro b hb
  simpa using hbyte ⟨b.toNat, hascii b hb⟩

/-- ASCII behind a name is put in small letters on its own. -/
theorem lower_append (t : Text) {s : Text} (h : s.isAscii = true) :
    (t ++ s).lower = t.lower ++ s.lower := by
  by_cases ht : t.isAscii = true
  · have hboth : (t ++ s).isAscii = true := by
      simp only [isAscii, bytes_append, List.all_append] at ht h ⊢
      rw [ht, h, Bool.and_self]
    rw [lower, lower, lower, if_pos hboth, if_pos ht, if_pos h]
    exact congrArg Text.mk List.map_append
  · have hboth : ¬ (t ++ s).isAscii = true := by
      intro hboth
      simp only [isAscii, bytes_append, List.all_append, Bool.and_eq_true] at hboth ht
      exact ht hboth.1
    rw [← ofChars_lowerChar h, lower, lower, if_neg hboth, if_neg ht, chars_append t h]
    exact congrArg Text.mk (by rw [List.map_append, List.flatMap_append]; rfl)

/-! Numbers in decimal digits. -/

theorem bytes_ofNat (n : Nat) :
    (ofNat n).bytes = (Nat.toDigits 10 n).map fun c => UInt8.ofNat c.toNat := by
  rw [ofNat, Nat.toString_eq_ofList_toDigits, ofString, String.toByteArray_ofList,
    List.utf8Encode, List.data_toByteArray, List.map_eq_flatMap]
  apply List.flatMap_congr
  intro c hc
  have hdigit : c.isDigit = true := Nat.isDigit_of_mem_toDigits (by decide) (by decide) hc
  simp only [Char.isDigit, Bool.and_eq_true, decide_eq_true_eq] at hdigit
  have hsize : c.utf8Size = 1 :=
    Char.utf8Size_eq_one_iff.mpr (UInt32.le_trans hdigit.2 (by decide))
  rw [String.utf8EncodeChar_eq_singleton hsize]
  rfl

/-- A number is written in digits. -/
theorem mem_ofNat {n : Nat} {b : UInt8} (h : b ∈ (ofNat n).bytes) : 0x30 ≤ b ∧ b ≤ 0x39 := by
  rw [bytes_ofNat, List.mem_map] at h
  obtain ⟨c, hc, rfl⟩ := h
  have hdigit : c.isDigit = true := Nat.isDigit_of_mem_toDigits (by decide) (by decide) hc
  simp only [Char.isDigit, Bool.and_eq_true, decide_eq_true_eq, ge_iff_le,
    UInt32.le_iff_toNat_le] at hdigit
  obtain ⟨hlow, hhigh⟩ := hdigit
  have hlow : 48 ≤ c.toNat := hlow
  have hhigh : c.toNat ≤ 57 := hhigh
  rw [UInt8.le_iff_toNat_le, UInt8.le_iff_toNat_le, UInt8.toNat_ofNat']
  have hmod : c.toNat % 2 ^ 8 = c.toNat := Nat.mod_eq_of_lt (by omega)
  rw [hmod]
  exact ⟨hlow, hhigh⟩

theorem ofNat_inj {m n : Nat} (h : ofNat m = ofNat n) : m = n := by
  have hbytes : m.repr.toByteArray.data.toList = n.repr.toByteArray.data.toList :=
    congrArg bytes h
  have hrepr : m.repr = n.repr :=
    String.toByteArray_inj.mp (ByteArray.ext (Array.toList_inj.mp hbytes))
  have hdigits : Nat.toDigits 10 m = Nat.toDigits 10 n := by
    rwa [Nat.repr_eq_ofList_toDigits, Nat.repr_eq_ofList_toDigits, String.ofList_inj] at hrepr
  calc m = Nat.ofDigitChars 10 (Nat.toDigits 10 m) 0 := Nat.ofDigitChars_ten_toDigits.symm
    _ = Nat.ofDigitChars 10 (Nat.toDigits 10 n) 0 := by rw [hdigits]
    _ = n := Nat.ofDigitChars_ten_toDigits

theorem isAscii_ofNat (n : Nat) : (ofNat n).isAscii = true := by
  rw [isAscii, List.all_eq_true]
  intro b hb
  rw [decide_eq_true_eq]
  exact UInt8.lt_of_le_of_lt (mem_ofNat hb).2 (by decide)

/-- There are no capitals among the digits. -/
theorem lower_ofNat (n : Nat) : (ofNat n).lower = ofNat n := by
  have hkept : (ofNat n).bytes.map asciiLower = (ofNat n).bytes := by
    calc (ofNat n).bytes.map asciiLower = (ofNat n).bytes.map id := by
          apply List.map_congr_left
          intro b hb
          apply if_neg
          intro hcapital
          have hle : (0x41 : UInt8) ≤ 0x39 := UInt8.le_trans hcapital.1 (mem_ofNat hb).2
          exact absurd hle (by decide)
      _ = (ofNat n).bytes := List.map_id _
  rw [lower, if_pos (isAscii_ofNat n), hkept]

end ObjectPascal.Text
