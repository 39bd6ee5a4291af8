import ObjectPascal.Proofs.Token.Position

/-!
String literals. A literal is a row of segments without a gap: quoted texts, in which a quote is
written twice, and codes of characters in decimal or hexadecimal digits. Reading a literal gives back
the texts and characters that it was written for, and what is read as a string is such a literal.
-/

namespace ObjectPascal

section Digits

/-- A byte is the digit of a value; the digits beyond nine are letters in either case. -/
inductive IsDigitOf (hex : Bool) (b : UInt8) (v : Nat) : Prop
  | decimal (hv : v < 10) (hb : b.toNat = 0x30 + v)
  | capital (hhex : hex = true) (hv : 10 ≤ v ∧ v < 16) (hb : b.toNat = 0x41 + (v - 10))
  | small (hhex : hex = true) (hv : 10 ≤ v ∧ v < 16) (hb : b.toNat = 0x61 + (v - 10))

/-- The base of the digits. -/
def baseOf (hex : Bool) : Nat := if hex then 16 else 10

/-- Digits are written for a number, the most significant one first. -/
inductive Numeral (hex : Bool) : List UInt8 → Nat → Prop
  | digit {b : UInt8} {v : Nat} (h : IsDigitOf hex b v) : Numeral hex [b] v
  | snoc {ds : List UInt8} {n : Nat} {b : UInt8} {v : Nat} (h : Numeral hex ds n)
      (hb : IsDigitOf hex b v) : Numeral hex (ds ++ [b]) (n * baseOf hex + v)

/-- Whether a byte is a digit. -/
def hasDigit (hex : Bool) : UInt8 → Bool := if hex then isHexDigit else isDigit

variable {hex : Bool} {b : UInt8} {v n : Nat} {ds : List UInt8}

/-- The digits of a value have that value. -/
theorem IsDigitOf.spec (h : IsDigitOf hex b v) : hasDigit hex b = true ∧ digitValue b = v := by
  have hle (x y : UInt8) : x ≤ y ↔ x.toNat ≤ y.toNat := UInt8.le_iff_toNat_le
  have hdigit : isDigit b = true ↔ 0x30 ≤ b.toNat ∧ b.toNat ≤ 0x39 := by
    simp [isDigit, hle]
  unfold digitValue
  cases h with
  | decimal hv hb =>
    have hd : isDigit b = true := hdigit.mpr (by omega)
    refine ⟨?_, by rw [if_pos hd]; omega⟩
    cases hex with
    | false => exact hd
    | true => simp [hasDigit, isHexDigit, hd]
  | capital hhex hv hb =>
    have hd : ¬ isDigit b = true := fun h => by have := hdigit.mp h; omega
    have hsmall : ¬ 0x61 ≤ b := by rw [hle]; simp; omega
    refine ⟨?_, by rw [if_neg hd, if_neg hsmall]; omega⟩
    subst hhex
    have hlow : 0x41 ≤ b := by rw [hle]; simp; omega
    have hhigh : b ≤ 0x46 := by rw [hle]; simp; omega
    simp [hasDigit, isHexDigit, hlow, hhigh]
  | small hhex hv hb =>
    have hd : ¬ isDigit b = true := fun h => by have := hdigit.mp h; omega
    have hlow : 0x61 ≤ b := by rw [hle]; simp; omega
    have hhigh : b ≤ 0x66 := by rw [hle]; simp; omega
    refine ⟨?_, by rw [if_neg hd, if_pos hlow]; omega⟩
    subst hhex
    simp [hasDigit, isHexDigit, hlow, hhigh]

/-- Every digit has a value. -/
theorem exists_isDigitOf (h : hasDigit hex b = true) : IsDigitOf hex b (digitValue b) := by
  have hle (x y : UInt8) : x ≤ y ↔ x.toNat ≤ y.toNat := UInt8.le_iff_toNat_le
  have hdigit : isDigit b = true ↔ 0x30 ≤ b.toNat ∧ b.toNat ≤ 0x39 := by
    simp [isDigit, hle]
  unfold digitValue
  by_cases hd : isDigit b = true
  · have hbound := hdigit.mp hd
    rw [if_pos hd]
    exact .decimal (by omega) (by omega)
  · rw [if_neg hd]
    cases hex with
    | false => exact absurd h hd
    | true =>
      have hletter : (0x41 ≤ b.toNat ∧ b.toNat ≤ 0x46) ∨ (0x61 ≤ b.toNat ∧ b.toNat ≤ 0x66) := by
        simpa [hasDigit, isHexDigit, hd, hle] using h
      by_cases hsmall : 0x61 ≤ b
      · have hlow : 0x61 ≤ b.toNat := (hle _ _).mp hsmall
        rw [if_pos hsmall]
        exact .small rfl (by omega) (by omega)
      · have hlow : ¬ 0x61 ≤ b.toNat := fun hlow => hsmall ((hle _ _).mpr hlow)
        rw [if_neg hsmall]
        exact .capital rfl (by omega) (by omega)

theorem Numeral.spec (h : Numeral hex ds n) :
    ds ≠ [] ∧ (∀ b ∈ ds, hasDigit hex b = true) ∧ numberOf (baseOf hex) ds = n := by
  induction h with
  | digit h =>
    obtain ⟨hb, hv⟩ := h.spec
    exact ⟨by simp, by simpa using hb, by simpa [numberOf] using hv⟩
  | @snoc ds n b v h hb ih =>
    obtain ⟨_, hall, hn⟩ := ih
    obtain ⟨hb, hv⟩ := hb.spec
    refine ⟨by simp, ?_, ?_⟩
    · intro x hx
      rcases List.mem_append.mp hx with hx | hx
      · exact hall x hx
      · rwa [List.mem_singleton.mp hx]
    · unfold numberOf at hn ⊢
      rw [List.foldl_append, hn, List.foldl_cons, List.foldl_nil, hv]

/-- Some digits are always the digits of a number. -/
theorem exists_numeral (hne : ds ≠ []) (h : ∀ b ∈ ds, hasDigit hex b = true) :
    Numeral hex ds (numberOf (baseOf hex) ds) := by
  induction ds using List.reverseRecOn with
  | nil => exact absurd rfl hne
  | append_singleton ds b ih =>
    have hb := exists_isDigitOf (h b (by simp))
    cases hds : ds with
    | nil =>
      have hvalue : numberOf (baseOf hex) ([] ++ [b]) = digitValue b := by simp [numberOf]
      rw [hvalue]
      exact .digit hb
    | cons d rest =>
      have hn := ih (by simp [hds]) fun x hx => h x (List.mem_append_left _ hx)
      rw [hds] at hn
      have hsnoc := hn.snoc hb
      unfold numberOf at hsnoc ⊢
      rwa [List.foldl_append, List.foldl_cons, List.foldl_nil]

end Digits

/-- A part of a string literal: a quoted text, or the code of a character with the digits it is
written in. -/
inductive Segment where
  | quoted (text : List UInt8)
  | code (hex : Bool) (digits : List UInt8) (n : Nat)
deriving DecidableEq

namespace Segment

/-- A text with every quote written twice. -/
def doubled (text : List UInt8) : List UInt8 :=
  text.flatMap fun b => if b = 0x27 then [0x27, 0x27] else [b]

/-- The bytes that a segment is written as. -/
def written : Segment → List UInt8
  | quoted text => 0x27 :: (doubled text ++ [0x27])
  | code hex digits _ => 0x23 :: ((if hex then [0x24] else []) ++ digits)

/-- The bytes that a segment stands for. A code that is no scalar value stands for the replacement
character. -/
def value : Segment → List UInt8
  | quoted text => text
  | code _ _ n => String.utf8EncodeChar (Text.charOfCode n)

/-- Whether the segment is a quoted text. -/
def isQuoted : Segment → Bool
  | quoted _ => true
  | code _ _ _ => false

/-- A quoted text lies on one line, and a code is that of a character and has its digits. -/
def Proper : Segment → Prop
  | quoted text => 0x0A ∉ text
  | code hex digits n => Numeral hex digits n ∧ n ≤ 0x10FFFF

/-- A byte behind the segment would still be read as a part of it. -/
def GrowsBy (x : Segment) (b : UInt8) : Prop :=
  match x with
  | quoted _ => b = 0x27
  | code hex _ _ => hasDigit hex b = true

/-- Two quoted texts do not stand side by side, where they would be read as one. -/
def Apart (x y : Segment) : Prop := ¬ (x.isQuoted = true ∧ y.isQuoted = true)

/-- The bytes of a literal. -/
def literal (segs : List Segment) : List UInt8 := segs.flatMap written

/-- The bytes that a literal stands for. -/
def decoded (segs : List Segment) : List UInt8 := segs.flatMap value

/-- No byte behind a literal would be read as a part of it: neither a quote nor a number sign
follows, and no digit behind a code. -/
def EndsBefore (segs : List Segment) (rest : List UInt8) : Prop :=
  ∀ b ∈ rest.head?, b ≠ 0x27 ∧ b ≠ 0x23 ∧ ∀ x ∈ segs.getLast?, ¬ x.GrowsBy b

theorem EndsBefore.tail {x : Segment} {segs : List Segment} {rest : List UInt8}
    (h : EndsBefore (x :: segs) rest) : EndsBefore segs rest := by
  intro b hb
  obtain ⟨hquote, hsign, hlast⟩ := h b hb
  refine ⟨hquote, hsign, fun y hy => hlast y ?_⟩
  rw [List.getLast?_cons, hy]
  rfl

end Segment

namespace Lexeme

open Segment

section Quoted

variable {acc acc' text rest s : List UInt8}

@[simp]
theorem doubled_cons (b : UInt8) (text : List UInt8) :
    doubled (b :: text) = (if b = 0x27 then [0x27, 0x27] else [b]) ++ doubled text := rfl

theorem mem_doubled {b : UInt8} (hb : b ∈ text) : b ∈ doubled text := by
  refine List.mem_flatMap.mpr ⟨b, hb, ?_⟩
  split
  · rename_i hquote
    simp [hquote]
  · exact List.mem_singleton_self b

theorem exists_cons_of_doubled (text rest : List UInt8) :
    ∃ d s, doubled text ++ 0x27 :: rest = d :: s := by
  cases text with
  | nil => exact ⟨_, _, rfl⟩
  | cons b text =>
    rw [doubled_cons]
    split <;> exact ⟨_, _, rfl⟩

/-- A quoted text is read up to the quote that is not doubled. -/
theorem quotedPart_doubled (hrest : ∀ b ∈ rest.head?, b ≠ 0x27) :
    quotedPart acc (doubled text ++ 0x27 :: rest) = some (text.reverse ++ acc, rest) := by
  induction text generalizing acc with
  | nil =>
    cases rest with
    | nil => simp [doubled, quotedPart]
    | cons d rest =>
      have hd : d ≠ 0x27 := hrest d rfl
      simp [doubled, quotedPart, hd]
  | cons b text ih =>
    rw [doubled_cons]
    by_cases hb : b = 0x27
    · rw [if_pos hb, List.append_assoc, List.cons_append, List.singleton_append, quotedPart,
        if_pos rfl, if_pos rfl, ih, hb]
      simp
    · obtain ⟨d, s, hds⟩ := exists_cons_of_doubled text rest
      rw [if_neg hb, List.append_assoc, hds, List.singleton_append, quotedPart, if_neg hb, ← hds, ih]
      simp

/-- What is read as quoted is a text with its quotes doubled. -/
theorem doubled_of_quotedPart (h : quotedPart acc s = some (acc', rest)) :
    ∃ text, s = doubled text ++ 0x27 :: rest ∧ acc' = text.reverse ++ acc ∧
      ∀ b ∈ rest.head?, b ≠ 0x27 := by
  induction acc, s using quotedPart.induct with
  | case1 acc => simp [quotedPart] at h
  | case2 acc =>
    obtain ⟨rfl, rfl⟩ : acc = acc' ∧ [] = rest := by simpa [quotedPart] using h
    exact ⟨[], rfl, rfl, by simp⟩
  | case3 acc c hc => simp [quotedPart, hc] at h
  | case4 acc s ih =>
    rw [quotedPart, if_pos rfl, if_pos rfl] at h
    obtain ⟨text, rfl, rfl, hrest⟩ := ih h
    exact ⟨0x27 :: text, by simp, by simp, hrest⟩
  | case5 acc d s hd =>
    obtain ⟨rfl, rfl⟩ : acc = acc' ∧ d :: s = rest := by simpa [quotedPart, hd] using h
    exact ⟨[], rfl, rfl, by simpa using hd⟩
  | case6 acc c d s hc ih =>
    rw [quotedPart, if_neg hc] at h
    obtain ⟨text, hs, rfl, hrest⟩ := ih h
    refine ⟨c :: text, ?_, by simp, hrest⟩
    rw [doubled_cons, if_neg hc, List.singleton_append, List.cons_append, ← hs]

end Quoted

section Codes

variable {hex : Bool} {ds rest : List UInt8} {n : Nat}

/-- The digits of a code are read up to the first byte that is none. -/
theorem codeDigits_numeral (hds : Numeral hex ds n)
    (hrest : ∀ b ∈ rest.head?, hasDigit hex b = false) :
    codeDigits ((if hex then [0x24] else []) ++ ds ++ rest) =
      (baseOf hex, ds, ((if hex then [0x24] else []) ++ ds).length) := by
  obtain ⟨hne, hall, _⟩ := hds.spec
  have htake := (takeWhile_of_class hall hrest).1
  cases hex with
  | true =>
    change (ds ++ rest).takeWhile isHexDigit = ds at htake
    simp [codeDigits, baseOf, htake]
  | false =>
    -- A decimal digit is no dollar sign.
    obtain ⟨d, tail, rfl⟩ := List.exists_cons_of_ne_nil hne
    have hd : d ≠ 0x24 := by
      rintro rfl
      have hdigit := hall 0x24 List.mem_cons_self
      exact absurd hdigit (by decide)
    change (d :: tail ++ rest).takeWhile isDigit = d :: tail at htake
    simp only [List.cons_append] at htake
    simp [codeDigits, baseOf, hd, htake]

/-- What is read as the digits of a code. -/
theorem numeral_of_codeDigits (s : List UInt8) (hne : (codeDigits s).2.1 ≠ []) :
    ∃ hex ds rest, s = (if hex then [0x24] else []) ++ ds ++ rest ∧
      codeDigits s = (baseOf hex, ds, ((if hex then [0x24] else []) ++ ds).length) ∧
      Numeral hex ds (numberOf (baseOf hex) ds) ∧ ∀ b ∈ rest.head?, hasDigit hex b = false := by
  unfold codeDigits at hne ⊢
  split at hne
  · rename_i hdollar
    obtain ⟨t, rfl⟩ : ∃ t, s = 0x24 :: t := by
      cases s with
      | nil => cases hdollar
      | cons b t => exact ⟨t, by rw [Option.some.inj hdollar]⟩
    refine ⟨true, t.takeWhile isHexDigit, t.dropWhile isHexDigit, ?_, ?_, ?_, head?_dropWhile t⟩
    · simp [List.takeWhile_append_dropWhile]
    · simp [baseOf]
    · exact exists_numeral (by simpa using hne) fun b hb => List.mem_takeWhile_imp hb
  · rename_i hdollar
    refine ⟨false, s.takeWhile isDigit, s.dropWhile isDigit, ?_, ?_, ?_, head?_dropWhile s⟩
    · simp [List.takeWhile_append_dropWhile]
    · simp [hdollar, baseOf]
    · exact exists_numeral hne fun b hb => List.mem_takeWhile_imp hb

end Codes

section Parts

variable {x : Segment} {segs : List Segment} {acc text rest s : List UInt8}

@[simp]
theorem literal_cons (x : Segment) (segs : List Segment) :
    literal (x :: segs) = x.written ++ literal segs := rfl

@[simp]
theorem decoded_cons (x : Segment) (segs : List Segment) :
    decoded (x :: segs) = x.value ++ decoded segs := rfl

/-- Behind a segment of a literal there is no byte that it grows by, since another segment begins
with a number sign, or with a quote if the first one is not quoted. -/
theorem not_growsBy_of_chain (hchain : (x :: segs).IsChain Apart)
    (hend : EndsBefore (x :: segs) rest) (b : UInt8) (hb : b ∈ (literal segs ++ rest).head?) :
    ¬ x.GrowsBy b := by
  have hmark (hex : Bool) : hasDigit hex 0x27 = false ∧ hasDigit hex 0x23 = false := by
    cases hex <;> decide
  cases segs with
  | nil => exact (hend b hb).2.2 x rfl
  | cons y segs =>
    have hapart : x.Apart y := by
      cases hchain with
      | cons_cons h _ => exact h
    cases y with
    | quoted text =>
      obtain rfl : (0x27 : UInt8) = b := by simpa [written] using hb
      cases x with
      | quoted text' => exact fun _ => hapart ⟨rfl, rfl⟩
      | code hex digits n => simp [GrowsBy, (hmark hex).1]
    | code hex digits n =>
      obtain rfl : (0x23 : UInt8) = b := by simpa [written] using hb
      cases x with
      | quoted text' => simp [GrowsBy]
      | code hex digits n => simp [GrowsBy, (hmark hex).2]

/-- A literal is read segment by segment, and reading ends where the literal does. -/
theorem stringParts_literal {fuel : Nat} (hfuel : segs.length ≤ fuel)
    (hproper : ∀ x ∈ segs, x.Proper) (hchain : segs.IsChain Apart)
    (hend : EndsBefore segs rest) :
    stringParts acc (literal segs ++ rest) fuel = (.ok ((decoded segs).reverse ++ acc), rest) := by
  induction segs generalizing acc fuel with
  | nil =>
    change stringParts acc rest fuel = (.ok acc, rest)
    cases fuel with
    | zero => cases rest <;> rfl
    | succ n =>
      cases rest with
      | nil => rfl
      | cons b rest =>
        obtain ⟨hquote, hsign, _⟩ := hend b rfl
        simp only [stringParts, hquote, hsign, ↓reduceIte]
  | cons x segs ih =>
    obtain ⟨n, rfl⟩ : ∃ n, fuel = n + 1 := ⟨fuel - 1, by simp at hfuel; omega⟩
    have hstop := not_growsBy_of_chain hchain hend
    have hrest {acc : List UInt8} :
        stringParts acc (literal segs ++ rest) n = (.ok ((decoded segs).reverse ++ acc), rest) :=
      ih (Nat.le_of_succ_le_succ hfuel) (fun y hy => hproper y (List.mem_cons_of_mem _ hy))
        hchain.of_cons hend.tail
    rw [literal_cons, decoded_cons, List.append_assoc]
    cases x with
    | quoted text =>
      have hquoted : quotedPart acc (doubled text ++ 0x27 :: (literal segs ++ rest)) =
          some (text.reverse ++ acc, literal segs ++ rest) := quotedPart_doubled hstop
      simp only [written, List.cons_append, List.append_assoc, List.nil_append, stringParts,
        ↓reduceIte, hquoted, hrest, value, List.reverse_append]
    | code hex digits m =>
      obtain ⟨hnum, hle⟩ := hproper (.code hex digits m) List.mem_cons_self
      obtain ⟨hne, _, hvalue⟩ := hnum.spec
      have hdigits := codeDigits_numeral hnum fun b hb => by simpa [GrowsBy] using hstop b hb
      have hlow : (digits.isEmpty || decide (0x10FFFF < m)) = false := by
        simp [hne, Nat.not_lt.mpr hle]
      rw [written, List.cons_append, stringParts_code, hdigits, hvalue]
      simp only [hlow, Bool.false_eq_true, ↓reduceIte]
      rw [List.drop_left, hrest, value, List.reverse_append, List.append_assoc]

/-- What is read as the parts of a string is a literal, and reading has ended where it had to. -/
theorem literal_of_stringParts {fuel : Nat} (hfuel : s.length ≤ fuel) (hline : 0x0A ∉ s)
    (h : stringParts acc s fuel = (.ok text, rest)) :
    ∃ segs, s = literal segs ++ rest ∧ text = (decoded segs).reverse ++ acc ∧
      (∀ x ∈ segs, x.Proper) ∧ segs.IsChain Apart ∧ EndsBefore segs rest := by
  induction fuel generalizing acc s with
  | zero =>
    obtain rfl : s = [] := List.length_eq_zero_iff.mp (Nat.le_zero.mp hfuel)
    obtain ⟨rfl, rfl⟩ : acc = text ∧ [] = rest := by simpa [stringParts] using h
    exact ⟨[], rfl, rfl, by simp, .nil, by simp [EndsBefore]⟩
  | succ n ih =>
    cases s with
    | nil =>
      obtain ⟨rfl, rfl⟩ : acc = text ∧ [] = rest := by simpa [stringParts] using h
      exact ⟨[], rfl, rfl, by simp, .nil, by simp [EndsBefore]⟩
    | cons c s =>
      -- What is read of the rest is a literal; the first segment stands in front of it.
      have hfront (x : Segment) (hx : x.Proper) {acc' s' : List UInt8} (hs : c :: s = x.written ++ s')
          (hlen : s'.length ≤ n) (hacc : acc' = x.value.reverse ++ acc)
          (hgrows : ∀ b ∈ s'.head?, ¬ x.GrowsBy b)
          (hparts : stringParts acc' s' n = (.ok text, rest)) :
          ∃ segs, c :: s = literal segs ++ rest ∧ text = (decoded segs).reverse ++ acc ∧
            (∀ x ∈ segs, x.Proper) ∧ segs.IsChain Apart ∧ EndsBefore segs rest := by
        have hline' : 0x0A ∉ s' := by
          intro hmem
          apply hline
          rw [hs]
          exact List.mem_append_right _ hmem
        obtain ⟨segs, rfl, rfl, hproper, hchain, hend⟩ := ih hlen hline' hparts
        refine ⟨x :: segs, by rw [hs, literal_cons, List.append_assoc], by simp [hacc], ?_, ?_, ?_⟩
        · intro y hy
          rcases List.mem_cons.mp hy with rfl | hy
          · exact hx
          · exact hproper y hy
        · cases segs with
          | nil => exact .singleton x
          | cons y segs =>
            refine .cons_cons ?_ hchain
            rintro ⟨hxq, hyq⟩
            cases y with
            | code hex digits m => cases hyq
            | quoted t =>
              cases x with
              | code hex digits m => cases hxq
              | quoted t' => exact hgrows 0x27 (by simp [written]) rfl
        · intro b hb
          obtain ⟨hquote, hsign, hlast⟩ := hend b hb
          refine ⟨hquote, hsign, fun y hy => ?_⟩
          cases segs with
          | nil =>
            obtain rfl : x = y := by simpa using hy
            exact hgrows b hb
          | cons z segs => exact hlast y (by simpa [List.getLast?_cons_cons] using hy)
      by_cases hquote : c = 0x27
      · subst hquote
        cases hquoted : quotedPart acc s with
        | none => simp [stringParts, hquoted] at h
        | some found =>
          obtain ⟨acc', s'⟩ := found
          simp only [stringParts, ↓reduceIte, hquoted] at h
          have hlt := quotedPart_length_lt hquoted
          obtain ⟨t, rfl, hacc, hs'⟩ := doubled_of_quotedPart hquoted
          refine hfront (.quoted t) ?_ (by simp [written]) ?_ hacc hs' h
          · intro hmem
            apply hline
            have hdoubled := mem_doubled hmem
            simp [hdoubled]
          · simp only [List.length_cons] at hfuel
            omega
      · by_cases hsign : c = 0x23
        · subst hsign
          rw [stringParts_code] at h
          split at h
          · cases h
          · rename_i hlow
            simp only [Bool.or_eq_true, List.isEmpty_iff, decide_eq_true_eq, not_or,
              Nat.not_lt] at hlow
            obtain ⟨hex, ds, s', rfl, hdigits, hnum, hs'⟩ := numeral_of_codeDigits s hlow.1
            rw [hdigits] at h hlow
            rw [List.drop_left] at h
            refine hfront (.code hex ds _) ⟨hnum, hlow.2⟩ (by simp [written]) ?_ rfl ?_ h
            · simp only [List.length_cons, List.length_append] at hfuel
              omega
            · intro b hb
              simp [GrowsBy, hs' b hb]
        · simp only [stringParts, hquote, ↓reduceIte, hsign, Prod.mk.injEq, Except.ok.injEq] at h
          obtain ⟨rfl, rfl⟩ := h
          exact ⟨[], rfl, rfl, by simp, .nil, by simp [EndsBefore, hquote, hsign]⟩

theorem length_le_literal (segs : List Segment) : segs.length ≤ (literal segs).length := by
  induction segs with
  | nil => exact Nat.le_refl 0
  | cons x segs ih =>
    have hpos : 0 < x.written.length := by cases x <;> exact Nat.succ_pos _
    rw [literal_cons, List.length_append, List.length_cons]
    omega

/-- A literal is read as one string, up to its end. -/
theorem string_literal (hproper : ∀ x ∈ segs, x.Proper)
    (hchain : segs.IsChain Apart) (hend : EndsBefore segs rest) :
    string (literal segs ++ rest) = ⟨.string, (literal segs).length, ⟨decoded segs⟩⟩ := by
  have hlen : segs.length ≤ (literal segs ++ rest).length := by
    have hle := length_le_literal segs
    rw [List.length_append]
    omega
  have hparts : stringParts [] (literal segs ++ rest) (literal segs ++ rest).length =
      (.ok ((decoded segs).reverse ++ []), rest) := stringParts_literal hlen hproper hchain hend
  rw [string, hparts]
  simp

/-- What is read as a string is a literal. -/
theorem literal_of_string (hline : 0x0A ∉ s) (hkind : (string s).kind = .string) :
    ∃ segs rest, s = literal segs ++ rest ∧
      string s = ⟨.string, (literal segs).length, ⟨decoded segs⟩⟩ ∧
      (∀ x ∈ segs, x.Proper) ∧ segs.IsChain Apart ∧ EndsBefore segs rest := by
  cases hparts : stringParts [] s s.length with
  | mk result rest =>
  cases result with
  | error e =>
    rw [string, hparts] at hkind
    cases e <;> cases hkind
  | ok text =>
    obtain ⟨segs, hs, rfl, hproper, hchain, hend⟩ :=
      literal_of_stringParts (Nat.le_refl _) hline hparts
    refine ⟨segs, rest, hs, ?_, hproper, hchain, hend⟩
    rw [string, hparts]
    simp [hs]

/-- A literal begins with a quote or a number sign. -/
theorem exists_cons_of_literal (hne : segs ≠ []) :
    ∃ b s, literal segs = b :: s ∧ (b = 0x27 ∨ b = 0x23) := by
  cases segs with
  | nil => exact absurd rfl hne
  | cons x segs =>
    cases x with
    | quoted text => exact ⟨0x27, _, rfl, Or.inl rfl⟩
    | code hex digits n => exact ⟨0x23, _, rfl, Or.inr rfl⟩

theorem lineFeed_notMem_written {x : Segment} (hx : x.Proper) : 0x0A ∉ x.written := by
  intro hmem
  cases x with
  | quoted text =>
    have htext : 0x0A ∈ doubled text := by simpa [written] using hmem
    obtain ⟨b, hb, hmem⟩ := List.mem_flatMap.mp htext
    split at hmem
    · simp at hmem
    · exact hx (List.mem_singleton.mp hmem ▸ hb)
  | code hex digits n =>
    have hdigit := hx.1.spec.2.1 0x0A (by cases hex <;> simpa [written] using hmem)
    cases hex <;> exact absurd hdigit (by decide)

theorem getLast?_written {x : Segment} (hx : x.Proper) : x.written.getLast? ≠ some 0x0D := by
  cases x with
  | quoted text => simp [written, List.getLast?_cons]
  | code hex digits n =>
    obtain ⟨hne, hall, _⟩ := hx.1.spec
    intro hlast
    have hmem : 0x0D ∈ digits := by
      apply List.mem_of_getLast?
      rw [written, ← List.cons_append, List.getLast?_append] at hlast
      cases hdigits : digits.getLast? with
      | none => exact absurd (List.getLast?_eq_none_iff.mp hdigits) hne
      | some b => rwa [hdigits] at hlast
    have hdigit := hall 0x0D hmem
    cases hex <;> exact absurd hdigit (by decide)

/-- A literal lies on one line and does not end with a carriage return. -/
theorem literal_line (hne : segs ≠ []) (hproper : ∀ x ∈ segs, x.Proper) :
    0x0A ∉ literal segs ∧ (literal segs).getLast? ≠ some 0x0D := by
  refine ⟨?_, ?_⟩
  · intro hmem
    obtain ⟨x, hx, hmem⟩ := List.mem_flatMap.mp hmem
    exact lineFeed_notMem_written (hproper x hx) hmem
  · obtain ⟨front, x, rfl⟩ := List.eq_nil_or_concat' segs |>.resolve_left hne
    have hx := getLast?_written (hproper x (by simp))
    have hxne : x.written ≠ [] := by cases x <;> exact List.cons_ne_nil _ _
    rw [literal, List.flatMap_append, List.flatMap_singleton, List.getLast?_append_of_ne_nil _ hxne]
    exact hx

end Parts

end Lexeme

namespace Scanner

open Segment

variable {s : Scanner} {source : Text} {p gap rest : List UInt8} {segs : List Segment}

/-- A scanner in front of a literal hands it out as one token. -/
theorem At.next_literal (h : s.At source p (gap ++ (literal segs ++ rest))) (hne : segs ≠ [])
    (hproper : ∀ x ∈ segs, x.Proper) (hapart : segs.IsChain Apart)
    (hgap : ∀ b ∈ gap, isLayout b = true) (hend : EndsBefore segs rest) :
    s.next.1 = ⟨.string, UInt16.ofNat (literal segs).length, Place.first.behind (p ++ gap),
        ⟨decoded segs⟩⟩ ∧
      s.next.2.cursor.Stands (p ++ gap ++ literal segs) rest := by
  obtain ⟨b, w, hcons, hb⟩ := Lexeme.exists_cons_of_literal hne
  have hliteral : literal segs ≠ [] := by
    rw [hcons]
    exact List.cons_ne_nil b w
  have hfaces : s.cursor.seek.Faces (p ++ gap) (literal segs ++ rest) := by
    apply h.rests.stands.faces hgap
    · exact List.append_ne_nil_of_left_ne_nil hliteral rest
    · rw [hcons]
      rcases hb with rfl | rfl <;> simp <;> decide
  obtain ⟨hfeed, hlast⟩ := Lexeme.literal_line hne hproper
  obtain ⟨u, hhere, hu⟩ := hfaces.lines.exists_here hfeed hlast
  -- What follows on the line follows in the source, so the literal ends there as well.
  have hstring := Lexeme.string_literal hproper hapart fun b hb => hend b (hu b hb)
  have hmanner : Cursor.mannerOf (literal segs ++ u) = .lexeme Lexeme.string := by
    rw [hcons, List.cons_append, Cursor.mannerOf]
    simp only [hb, ↓reduceIte]
  have htake := hfaces.take hliteral hhere hmanner hstring
  rw [← Cursor.next_eq hfaces.here] at htake
  obtain ⟨htoken, hcursor⟩ := h.next_of_ne (by simp [htake.1])
  rw [htoken, hcursor]
  exact htake

/-- String literals give back what they were written for. Wherever a scanner has a literal ahead of it
behind some layout, that is a row of quoted texts and character codes in which no two texts are
neighbours, and no byte behind it would be read as a part of it, the next token is a string. It takes
exactly the bytes of the literal, and its text is that of the segments one after the other. -/
theorem string_literals_decode (s : Scanner) (source path : Text) (n : Nat)
    (gap rest : List UInt8) (segs : List Segment) (hne : segs ≠ [])
    (hproper : ∀ x ∈ segs, x.Proper) (hapart : segs.IsChain Apart)
    (hgap : ∀ b ∈ gap, isLayout b = true) (hend : EndsBefore segs rest)
    (hahead : source.bytes.drop ((s.open_ source path).resumes source n) =
      gap ++ (literal segs ++ rest)) :
    ((s.open_ source path).token n).kind = .string ∧
      ((s.open_ source path).token n).text = ⟨decoded segs⟩ ∧
      ((s.open_ source path).token n).len = UInt16.ofNat (literal segs).length ∧
      (s.open_ source path).begins source n =
        (s.open_ source path).resumes source n + gap.length ∧
      (s.open_ source path).resumes source (n + 1) =
        (s.open_ source path).begins source n + (literal segs).length := by
  obtain ⟨p, r, hat⟩ := (at_open s source path).after n
  generalize s.open_ source path = s at hat hahead ⊢
  obtain rfl : r = gap ++ (literal segs ++ rest) := hat.ahead_eq.symm.trans hahead
  obtain ⟨htoken, hstands⟩ := hat.next_literal hne hproper hapart hgap hend
  change s.token n = _ at htoken
  have hresumes : s.resumes source n = source.markLength + p.length := hat.offset
  have hsplit := hat.split
  have hbegins : s.begins source n = source.markLength + (p ++ gap).length := by
    rw [begins, htoken]
    apply Place.offset_behind (r := literal segs ++ rest)
    rw [hsplit, List.append_assoc]
  have hbehind : s.resumes source (n + 1) =
      source.markLength + (p ++ gap ++ literal segs).length := by
    apply hstands.offset
    rw [hsplit, List.append_assoc, List.append_assoc]
  rw [hbegins, hbehind, hresumes, htoken]
  refine ⟨rfl, rfl, rfl, ?_, ?_⟩
  · rw [List.length_append, Nat.add_assoc]
  · simp only [List.length_append, Nat.add_assoc]

/-- A text with a quote, a code with a leading zero, the code of no character and another text. -/
def mixedLiteral : List Segment :=
  [.quoted (Text.ofString "it's").bytes, .code false (Text.ofString "013").bytes 13,
    .code true (Text.ofString "d83D").bytes 0xD83D, .quoted (Text.ofString "!").bytes]

theorem string_literals_decode_mixed :
    literal mixedLiteral = (Text.ofString "'it''s'#013#$d83D'!'").bytes ∧
      (({} : Scanner).open_ " 'it''s'#013#$d83D'!';" ∅).resumes " 'it''s'#013#$d83D'!';" 0 = 0 ∧
      ((({} : Scanner).open_ " 'it''s'#013#$d83D'!';" ∅).token 0).kind = .string ∧
      ((({} : Scanner).open_ " 'it''s'#013#$d83D'!';" ∅).token 0).text = "it's\r\uFFFD!" := by
  have hproper : ∀ x ∈ mixedLiteral, x.Proper := by
    intro x hx
    simp only [mixedLiteral, List.mem_cons, List.not_mem_nil, or_false] at hx
    rcases hx with rfl | rfl | rfl | rfl
    · simp only [Proper]
      decide
    · exact ⟨exists_numeral (by decide) (by decide), by decide⟩
    · exact ⟨exists_numeral (by decide) (by decide), by decide⟩
    · simp only [Proper]
      decide
  have hapart : mixedLiteral.IsChain Apart := by
    refine .cons_cons ?_ (.cons_cons ?_ (.cons_cons ?_ (.singleton _)))
    · exact fun h => by cases h.2
    · exact fun h => by cases h.1
    · exact fun h => by cases h.1
  have hend : EndsBefore mixedLiteral [0x3B] := by
    intro b hb
    obtain rfl : 0x3B = b := Option.some.inj hb
    refine ⟨by decide, by decide, fun x hx => ?_⟩
    obtain rfl : .quoted (Text.ofString "!").bytes = x := Option.some.inj hx
    simp [GrowsBy]
  have hdecode := string_literals_decode {} " 'it''s'#013#$d83D'!';" ∅ 0 [0x20] [0x3B] mixedLiteral
    (by decide) hproper hapart (by decide) hend (by decide)
  refine ⟨by decide, by decide, hdecode.1, hdecode.2.1.trans ?_⟩
  decide

end Scanner
end ObjectPascal
