import ObjectPascal.Proofs.Folding.Depth
import ObjectPascal.Proofs.Rule.Sums
import ObjectPascal.Proofs.Scope.Builtin
import ObjectPascal.Proofs.Text

/-!
Constants that are sums of string literals keep their text. A literal of one character becomes a
character, which is written as it was read; only a byte that is no character on its own is not.
-/

namespace ObjectPascal

/-! A text of one rune. -/

namespace Text

theorem val_ofNat {n : Nat} (h : n.isValidChar) : (Char.ofNat n).val.toNat = n := by
  unfold Char.ofNat
  rw [dif_pos h]
  rfl

/-- A continuation byte comes first where more are to come. -/
theorem continuation_cons {n acc v : Nat} {rest : List UInt8}
    (h : continuation (n + 1) acc rest = some v) : ∃ b tail, rest = b :: tail ∧ 0x80 ≤ b.toNat ∧
      b.toNat ≤ 0xBF ∧ continuation n (acc * 64 + (b.toNat - 0x80)) tail = some v := by
  cases rest with
  | nil => cases h
  | cons b tail =>
    rw [continuation] at h
    split at h
    · rename_i hb
      exact ⟨b, tail, rfl, UInt8.le_iff_toNat_le.mp hb.1, UInt8.le_iff_toNat_le.mp hb.2, h⟩
    · cases h

theorem ofNat_eq {a : UInt8} {n : Nat} (h : n = a.toNat) : UInt8.ofNat n = a := by
  rw [h, UInt8.ofNat_toNat]

section Written

variable {a b : UInt8} {rest tail : List UInt8} {v : Nat}

theorem utf8EncodeChar_two (ha : 0xC2 ≤ a.toNat) (ha' : a.toNat ≤ 0xDF)
    (hv : continuation 1 (a.toNat % Nat.pow 2 5) rest = some v) (hlen : rest.length = 1) :
    String.utf8EncodeChar (Char.ofNat v) = a :: rest := by
  obtain ⟨b, tail, rfl, hb, hb', hv⟩ := continuation_cons hv
  obtain rfl : tail = [] := List.eq_nil_of_length_eq_zero (Nat.succ.inj hlen)
  have hv : a.toNat % 32 * 64 + (b.toNat - 0x80) = v := Option.some.inj hv
  unfold String.utf8EncodeChar
  simp only [val_ofNat (n := v) (.inl (by omega))]
  rw [if_neg (by omega), if_pos (by omega), ofNat_eq (a := a) (by omega),
    ofNat_eq (a := b) (by omega)]

theorem utf8EncodeChar_three (ha : 0xE0 ≤ a.toNat) (ha' : a.toNat ≤ 0xEF)
    (hv : continuation 2 (a.toNat % Nat.pow 2 4) rest = some v) (hlen : rest.length = 2)
    (hfirst : ∀ b ∈ rest.head?, (a.toNat = 0xE0 → 0xA0 ≤ b.toNat) ∧
      (a.toNat = 0xED → b.toNat ≤ 0x9F)) :
    String.utf8EncodeChar (Char.ofNat v) = a :: rest := by
  obtain ⟨b, tail, rfl, hb, hb', hv⟩ := continuation_cons hv
  obtain ⟨c, tail, rfl, hc, hc', hv⟩ := continuation_cons hv
  obtain rfl : tail = [] := List.eq_nil_of_length_eq_zero (by simpa using hlen)
  have hv : (a.toNat % 16 * 64 + (b.toNat - 0x80)) * 64 + (c.toNat - 0x80) = v :=
    Option.some.inj hv
  have hfirst := hfirst b rfl
  unfold String.utf8EncodeChar
  simp only [val_ofNat (n := v) (by unfold Nat.isValidChar; omega)]
  rw [if_neg (by omega), if_neg (by omega), if_pos (by omega), ofNat_eq (a := a) (by omega),
    ofNat_eq (a := b) (by omega), ofNat_eq (a := c) (by omega)]

theorem utf8EncodeChar_four (ha : 0xF0 ≤ a.toNat) (ha' : a.toNat ≤ 0xF4)
    (hv : continuation 3 (a.toNat % Nat.pow 2 3) rest = some v) (hlen : rest.length = 3)
    (hfirst : ∀ b ∈ rest.head?, (a.toNat = 0xF0 → 0x90 ≤ b.toNat) ∧
      (a.toNat = 0xF4 → b.toNat ≤ 0x8F)) :
    String.utf8EncodeChar (Char.ofNat v) = a :: rest := by
  obtain ⟨b, tail, rfl, hb, hb', hv⟩ := continuation_cons hv
  obtain ⟨c, tail, rfl, hc, hc', hv⟩ := continuation_cons hv
  obtain ⟨d, tail, rfl, hd, hd', hv⟩ := continuation_cons hv
  obtain rfl : tail = [] := List.eq_nil_of_length_eq_zero (by simpa using hlen)
  have hv : ((a.toNat % 8 * 64 + (b.toNat - 0x80)) * 64 + (c.toNat - 0x80)) * 64 +
      (d.toNat - 0x80) = v := Option.some.inj hv
  have hfirst := hfirst b rfl
  unfold String.utf8EncodeChar
  simp only [val_ofNat (n := v) (by unfold Nat.isValidChar; omega)]
  rw [if_neg (by omega), if_neg (by omega), if_neg (by omega), ofNat_eq (a := a) (by omega),
    ofNat_eq (a := b) (by omega), ofNat_eq (a := c) (by omega), ofNat_eq (a := d) (by omega)]

/-- What a first byte tells of the others. -/
theorem lead_cases {low high : UInt8} {n : Nat} (h : lead a = some (low, high, n)) :
    n = 1 ∧ 0xC2 ≤ a.toNat ∧ a.toNat ≤ 0xDF ∨
    n = 2 ∧ 0xE0 ≤ a.toNat ∧ a.toNat ≤ 0xEF ∧ (a.toNat = 0xE0 → low = 0xA0) ∧
      (a.toNat = 0xED → high = 0x9F) ∨
    n = 3 ∧ 0xF0 ≤ a.toNat ∧ a.toNat ≤ 0xF4 ∧ (a.toNat = 0xF0 → low = 0x90) ∧
      (a.toNat = 0xF4 → high = 0x8F) := by
  unfold lead at h
  simp only [UInt8.le_iff_toNat_le, ← UInt8.toNat_inj, UInt8.reduceToNat] at h
  grind

/-- A character that is read from some bytes, none of which remains, is written with them. -/
theorem utf8EncodeChar_of_runeAt {c : Char} (h : runeAt a rest = (.scalar c, rest.length)) :
    String.utf8EncodeChar c = a :: rest := by
  unfold runeAt at h
  split at h
  · rename_i ha
    have ha : a.toNat < 128 := UInt8.lt_iff_toNat_lt.mp ha
    obtain ⟨hc, hlen⟩ := Prod.mk.inj h
    cases hc
    obtain rfl := List.eq_nil_of_length_eq_zero hlen.symm
    unfold String.utf8EncodeChar
    simp only [val_ofNat (n := a.toNat) (.inl (by omega))]
    rw [if_pos (by omega), ofNat_eq rfl]
  · split at h
    · rename_i low high n b tail hlead
      split at h
      · rename_i hb
        rw [UInt8.le_iff_toNat_le, UInt8.le_iff_toNat_le] at hb
        split at h
        · rename_i v hv
          obtain ⟨hc, hlen⟩ := Prod.mk.inj h
          cases hc
          obtain ⟨rfl, hlow, hhigh⟩ | ⟨rfl, hlow, hhigh, hl, hh⟩ | ⟨rfl, hlow, hhigh, hl, hh⟩ :=
            lead_cases hlead
          · exact utf8EncodeChar_two hlow hhigh hv hlen.symm
          · refine utf8EncodeChar_three hlow hhigh hv hlen.symm fun b' hb' => ?_
            cases hb'
            exact ⟨fun h => Nat.le_trans (Nat.le_of_eq (congrArg UInt8.toNat (hl h)).symm) hb.1,
              fun h => Nat.le_trans hb.2 (Nat.le_of_eq (congrArg UInt8.toNat (hh h)))⟩
          · refine utf8EncodeChar_four hlow hhigh hv hlen.symm fun b' hb' => ?_
            cases hb'
            exact ⟨fun h => Nat.le_trans (Nat.le_of_eq (congrArg UInt8.toNat (hl h)).symm) hb.1,
              fun h => Nat.le_trans hb.2 (Nat.le_of_eq (congrArg UInt8.toNat (hh h)))⟩
        · cases h
      · cases h
    · cases h

/-- Only a single byte from 128 on is no character. -/
theorem eq_of_runeAt {b : UInt8} (h : (runeAt a rest).1 = .stray b) :
    (runeAt a rest).2 = 0 ∧ 0x80 ≤ a := by
  unfold runeAt at h ⊢
  grind

end Written

theorem runesFrom_eq_nil {k : Nat} {l : List UInt8} (h : runesFrom k l = []) : l.length ≤ k := by
  induction l generalizing k with
  | nil => exact Nat.zero_le k
  | cons b l ih =>
    cases k with
    | zero => cases h
    | succ k => exact Nat.succ_le_succ (ih h)

/-- A text of one character is its UTF-8 form. A text of one rune that is no character is a byte. -/
theorem eq_of_chars {s : Text} {c : Char} (h : s.chars = [c]) :
    s = ofChars [c] ∨ c = replacement ∧ ∃ b, 0x80 ≤ b ∧ s = ⟨[b]⟩ := by
  obtain ⟨_ | ⟨a, rest⟩⟩ := s
  · cases h
  · rw [chars, runes, runesFrom, List.map_cons, List.cons.injEq, List.map_eq_nil_iff] at h
    obtain ⟨hc, hnil⟩ := h
    have hlen := Nat.le_antisymm (runeAt_le a rest) (runesFrom_eq_nil hnil)
    cases hr : (runeAt a rest).1 with
    | scalar c' =>
      rw [hr] at hc
      cases hc
      left
      rw [ofChars, List.flatMap_singleton, utf8EncodeChar_of_runeAt (Prod.ext hr hlen)]
    | stray b =>
      rw [hr] at hc
      obtain ⟨hzero, ha⟩ := eq_of_runeAt hr
      rw [hzero] at hlen
      obtain rfl := List.eq_nil_of_length_eq_zero hlen.symm
      exact .inr ⟨hc.symm, a, ha, rfl⟩

theorem chars_of_byte {b : UInt8} (hb : 0x80 ≤ b) : chars ⟨[b]⟩ = [replacement] := by
  have hstray : runeAt b [] = (.stray b, 0) := by
    unfold runeAt
    rw [if_neg (UInt8.not_lt.mpr hb)]
    split
    · rename_i h
      cases h
    · rfl
  rw [chars, runes, runesFrom, hstray]
  rfl

/-- The text that a string literal with a decoded text stands for. A byte from 128 on that is alone
is read as the replacement character; everything else is kept. -/
def kept (s : Text) : Text :=
  match s.bytes with
  | [b] => if b < 0x80 then s else ofChars [replacement]
  | _ => s

theorem kept_of_byte {b : UInt8} (hb : 0x80 ≤ b) : kept ⟨[b]⟩ = ofChars [replacement] :=
  if_neg (UInt8.not_lt.mpr hb)

theorem kept_of_not_byte {s : Text} (h : ∀ b, 0x80 ≤ b → s ≠ ⟨[b]⟩) : s.kept = s := by
  unfold kept
  split
  · rename_i b hs
    split
    · rfl
    · exact absurd (congrArg Text.mk hs) (h b (UInt8.not_lt.mp ‹_›))
  · rfl

theorem kept_of_chars {s : Text} {c : Char} (h : s.chars = [c]) : s.kept = ofChars [c] := by
  by_cases hbyte : ∃ b, 0x80 ≤ b ∧ s = ⟨[b]⟩
  · obtain ⟨b, hb, rfl⟩ := hbyte
    rw [chars_of_byte hb] at h
    rw [kept_of_byte hb, List.head_eq_of_cons_eq h]
  · have hs : s.kept = s := kept_of_not_byte fun b hb hs => hbyte ⟨b, hb, hs⟩
    rw [hs]
    exact (eq_of_chars h).resolve_right fun hb => hbyte hb.2

theorem kept_of_forall {s : Text} (h : ∀ c, s.chars ≠ [c]) : s.kept = s := by
  refine kept_of_not_byte fun b hb hs => h replacement ?_
  rw [hs, chars_of_byte hb]

end Text

namespace Integral

theorem code_ofCode (n : Int32) : (ofCode n).code = n := by
  unfold ofCode code
  apply Int32.toBitVec_inj.mp
  change (n.toBitVec.signExtend 64).setWidth 32 = n.toBitVec
  ext i hi
  rw [BitVec.getElem_setWidth, BitVec.getLsbD_signExtend]
  simp [hi, BitVec.getLsbD_eq_getElem]
  omega

/-- The code of a character denotes this character. -/
theorem char_ofCode (c : Char) : (ofCode c.toNat.toUInt32.toInt32).char = c := by
  have hvalid : c.toNat.isValidChar := c.valid
  unfold Nat.isValidChar at hvalid
  have hcode : c.toNat.toUInt32.toInt32.toInt = c.toNat :=
    Int32.toInt_ofNat_of_lt (by omega)
  unfold char
  rw [code_ofCode, if_neg, hcode, Int.toNat_natCast]
  · unfold Text.charOfCode
    rw [if_neg (by omega), Char.ofNat_toNat]
  · rw [Int32.lt_iff_toInt_lt, hcode]
    exact Int.not_lt.mpr (Int.natCast_nonneg _)

end Integral

namespace Folding

open Annotations
open Rule (IsLiteral IsSum)

variable {s : Scopes} {a b : Annotations} {e : Expr} {t u : Text} {ts : List Text}
  {l r v : Constant}

theorem string?_ofCode (c : Char) :
    (Constant.integral (.ofCode c.toNat.toUInt32.toInt32)).string? = some (Text.ofChars [c]) := by
  have hkind : (Integral.ofCode c.toNat.toUInt32.toInt32).kind = .char := rfl
  rw [Constant.string?, if_pos hkind, Integral.char_ofCode]

/-- A sum of two values that are characters or strings is a string. -/
theorem arithmetic_of_texts (lt rt : Option TypeExpr) (hl : l.string? = some t)
    (hr : r.string? = some u) :
    arithmetic s .add lt rt l r = .ok (some (stringResult s (t ++ u))) := by
  have hmixed : mixed s .add l r = .ok (some (stringResult s (t ++ u))) := by
    unfold mixed
    rw [if_pos rfl, hl, hr]
  cases l with
  | real x => cases hl
  | string x => exact hmixed
  | integral x =>
    cases r with
    | real y => cases hr
    | string y => exact hmixed
    | integral y =>
      simp only [Constant.string?, Option.ite_none_right_eq_some, Option.some.injEq] at hl hr
      obtain ⟨hx, rfl⟩ := hl
      obtain ⟨hy, rfl⟩ := hr
      change integral s .add lt rt x y = _
      unfold integral
      simp [hx, hy, Text.ofChars]
      rfl

theorem mem_nodes_of_part {n c x : Node} (hc : c ∈ n.children) (hx : x ∈ c.nodes) : x ∈ n.nodes :=
  Node.mem_nodes_iff.mpr (.inr (Node.mem_below_iff.mpr ⟨c, hc, hx⟩))

/-- No value is recorded for the parts of an expression, and nothing stands in for them. -/
def Untouched (a : Annotations) (e : Expr) : Prop :=
  ∀ x ∈ (Node.expr e).nodes, a.valueOf x.info = none ∧
    a.substitutes.contains x.info.id = false

/-- What is known outside of an expression is left alone. -/
def SpareValues (e : Expr) (a b : Annotations) : Prop :=
  ∀ i : NodeInfo, ¬(Node.expr e).Has i.id → b.valueOf i = a.valueOf i

namespace SpareValues

variable {c : Annotations} {x : Expr}

theorem trans (h : SpareValues e a b) (k : SpareValues e b c) : SpareValues e a c :=
  fun i hi => (k i hi).trans (h i hi)

/-- What is outside of an expression is outside of its parts. -/
theorem of_part (hx : Node.expr x ∈ (Node.expr e).children) (h : SpareValues x a b) :
    SpareValues e a b :=
  fun i hi => h i fun hmem => hi (Node.has_iff.mpr (.inr ⟨_, hx, hmem⟩))

theorem of_setConst {type : Option TypeExpr} (h : a.setConst (.expr e) type v = .ok b) :
    SpareValues e a b := by
  intro i hi
  rw [valueOf, valueOf, (get?_of_update (update_of_setConst h)).2, if_neg]
  exact fun hid => hi (hid ▸ Node.has_self _)

end SpareValues

/-- Folding a literal gives a character or a string with the text that is kept. -/
theorem exists_fold_literal (hs : s.Standard) (he : IsLiteral t e) (hid : e.info.id ≠ 0)
    (ha : a.Bare) (hnew : Untouched a e) : ∃ v b, Leads (fold s e) a (some v) b ∧
      v.string? = some t.kept ∧ SpareValues e a b := by
  obtain ⟨hnone, hstay⟩ := hnew _ (Node.self_mem _)
  have hrecord {type : Option TypeExpr} {v : Constant} (hv : v.fits type = true) (hvisit :
      visit s (foldWithin s (limit a)) [] e = recorded e (return some (type, v))) :
      ∃ b, Leads (fold s e) a (some v) b ∧ SpareValues e a b := by
    obtain ⟨b, hb⟩ := exists_setConst a (n := .expr e) hid hv
    refine ⟨b, ?_, .of_setConst hb⟩
    rw [leads_fold ha, effective_of_not_contains hstay, hvisit]
    exact leads_recorded hnone rfl hb
  cases he with
  | @char info _ c h =>
    have hfits : (Constant.integral (.ofCode c.toNat.toUInt32.toInt32)).fits (s.builtin? "Char") =
        true := fits_integral hs (by simp)
    obtain ⟨b, hb, hspare⟩ := hrecord hfits (by rw [visit])
    refine ⟨_, b, hb, ?_, hspare⟩
    rw [Text.kept_of_chars h, string?_ofCode]
  | string info h =>
    obtain ⟨b, hb, hspare⟩ := hrecord (fits_stringResult hs t) (by rw [visit, stringResult])
    exact ⟨_, b, hb, congrArg some (Text.kept_of_forall h).symm, hspare⟩

/-- Folding a sum of literals gives a constant with their texts one after the other. The induction is
on the sum; the left operand leaves the right one untouched. -/
theorem exists_fold_sum (hs : s.Standard) (hsum : IsSum ts e) (htidy : (Node.expr e).Tidy)
    (hids : ∀ x ∈ (Node.expr e).nodes, x.info.id ≠ 0) (ha : a.Bare) (hnew : Untouched a e) :
    ∃ v b, Leads (fold s e) a (some v) b ∧ v.string? = some (Text.concat (ts.map Text.kept)) ∧
      SpareValues e a b := by
  induction hsum generalizing a with
  | literal he =>
    obtain ⟨v, b, hb, hv, hspare⟩ := exists_fold_literal hs he (hids _ (Node.self_mem _)) ha hnew
    refine ⟨v, b, hb, ?_, hspare⟩
    rw [hv, List.map_singleton, Text.concat, List.flatMap_singleton]
  | @add ts t x y info hx hy ih =>
    obtain ⟨hneat, hparts⟩ := Node.tidy_iff.mp htidy
    have hleft : Node.expr x ∈ (Node.expr (.binary info .add x y)).children := .head _
    have hright : Node.expr y ∈ (Node.expr (.binary info .add x y)).children := .tail _ (.head _)
    have hapart : ∀ i, (Node.expr x).Has i → ¬(Node.expr y).Has i :=
      (List.pairwise_pair.mp hneat.parts).disjoint (.inl rfl)
    obtain ⟨l, b, hl, hltext, hlspare⟩ := ih (hparts _ hleft)
      (fun z hz => hids z (mem_nodes_of_part hleft hz)) ha
      fun z hz => hnew z (mem_nodes_of_part hleft hz)
    have hsame := sameNames_of_fold hl
    have hnew' : Untouched b y := by
      intro z hz
      rw [hlspare _ fun h => hapart _ h ⟨z, hz, rfl⟩, hsame.substitutes]
      exact hnew z (mem_nodes_of_part hright hz)
    obtain ⟨r, c, hr, hrtext, hrspare⟩ := exists_fold_literal hs hy
      (hids _ (mem_nodes_of_part hright (Node.self_mem _))) (hsame.bare ha) hnew'
    obtain ⟨hnone, hstay⟩ := hnew _ (Node.self_mem _)
    have hfits := fits_stringResult hs (Text.concat (ts.map Text.kept) ++ t.kept)
    obtain ⟨d, hd⟩ := exists_setConst c (n := .expr (.binary info .add x y))
      (hids _ (Node.self_mem _)) hfits
    refine ⟨_, d, leads_binary ha (effective_of_not_contains hstay) hnone hl hr ?_ hd, ?_,
      ((hlspare.of_part hleft).trans (hrspare.of_part hright)).trans (.of_setConst hd)⟩
    · change Leads (given (arithmetic s .add _ _ l r)) c _ c
      rw [arithmetic_of_texts _ _ hltext hrtext]
      rfl
    · rw [List.map_append, List.map_singleton]
      simp [stringResult, Constant.string?, Text.concat]
      rfl

section Programs

variable (config : Config) (source : Text) (origin : Nat)

/-- The tokens of a source in front of its end. -/
def tokensOf (source : Text) : List Token :=
  ((Supply.ofText source).ahead.map Prod.fst).takeWhile (·.kind != .eof)

/-- The kinds of the tokens of a program that declares the sum of a literal and of `n` further ones
as a constant and does nothing else. -/
def sumKinds (n : Nat) : List Kind :=
  [.PROGRAM, .ident, .semicolon, .CONST, .ident, .equal, .string] ++
    (List.replicate n [Kind.plus, .string]).flatten ++ [.semicolon, .BEGIN, .END, .dot]

/-- The decoded texts of the string literals of a source. -/
def literalsOf (source : Text) : List Text :=
  ((tokensOf source).filter (·.kind == .string)).map (·.text)

/-- Tokens that come in pairs of a plus and a string. -/
theorem exists_pairs {us : List Token} {n : Nat}
    (h : us.map (·.kind) = (List.replicate n [Kind.plus, .string]).flatten) :
    ∃ rest : List (Token × Token), us = rest.flatMap (fun x => [x.1, x.2]) ∧
      ∀ x ∈ rest, x.1.kind = .plus ∧ x.2.kind = .string := by
  induction n generalizing us with
  | zero => exact ⟨[], List.map_eq_nil_iff.mp h, List.forall_mem_nil _⟩
  | succ n ih =>
    rw [List.replicate_succ, List.flatten_cons] at h
    obtain ⟨plus, us, rfl, hplus, h⟩ := List.map_eq_cons_iff.mp h
    obtain ⟨token, us, rfl, htoken, h⟩ := List.map_eq_cons_iff.mp h
    obtain ⟨rest, rfl, hrest⟩ := ih h
    exact ⟨(plus, token) :: rest, rfl, List.forall_mem_cons.mpr ⟨⟨hplus, htoken⟩, hrest⟩⟩

theorem filter_pairs {rest : List (Token × Token)}
    (h : ∀ x ∈ rest, x.1.kind = .plus ∧ x.2.kind = .string) :
    (rest.flatMap fun x => [x.1, x.2]).filter (·.kind == .string) = rest.map (·.2) := by
  induction rest with
  | nil => rfl
  | cons x rest ih =>
    obtain ⟨⟨hplus, hstring⟩, hrest⟩ := List.forall_mem_cons.mp h
    simp [hplus, hstring, ih hrest]

/-- The value of the only constant of a program is a part of it. -/
theorem mem_nodes_of_value {name key : Text} {goal : Goal}
    (h : Rule.IsProgram name key (· = e) goal) {x : Node} (hx : x ∈ (Node.expr e).nodes) :
    x ∈ (Node.goal goal).nodes := by
  obtain ⟨info, info', d, body, ⟨i, e, rfl, rfl⟩, -, rfl⟩ := h
  exact mem_nodes_of_part (c := .block _) (.head _) (mem_nodes_of_part (c := .decl _) (.head _)
    (mem_nodes_of_part (.head _) hx))

/-- A program that declares a sum of string literals is accepted, and the sum is the value of its
constant. -/
theorem exists_sum_program {n : Nat} (h : (tokensOf source).map (·.kind) = sumKinds n) :
    ∃ goal name key e, (parse config source origin).result = .ok goal ∧
      Rule.IsProgram name key (· = e) goal ∧ IsSum (literalsOf source) e ∧
      (Node.expr e).Tidy ∧ ∀ x ∈ (Node.expr e).nodes, x.info.id ≠ 0 := by
  obtain ⟨t, hlang⟩ := Rule.exists_languageTables
  have ht : Rule.grammar.tables = .ok t := by rwa [languageTables] at hlang
  obtain ⟨front, back, hsplit, hfront, hback⟩ := List.map_eq_append_iff.mp h
  obtain ⟨head, us, rfl, hhead, hus⟩ := List.map_eq_append_iff.mp hfront
  obtain ⟨rest, rfl, hrest⟩ := exists_pairs hus
  simp only [List.map_eq_cons_iff, List.map_eq_nil_iff] at hhead hback
  obtain ⟨program, _, rfl, hprogram, name, _, rfl, hname, stop, _, rfl, hstop, word, _, rfl, hword,
    key, _, rfl, hkey, equal, _, rfl, hequal, token, _, rfl, htoken, rfl⟩ := hhead
  obtain ⟨stop', _, rfl, hstop', first, _, rfl, hfirst, last, _, rfl, hlast, dot, _, rfl, hdot,
    rfl⟩ := hback
  have hsum := Rule.reads_sum config origin ht (k := .semicolon) htoken hrest (by simp)
  have hreads := Rule.reads_program config origin ht hprogram hname hstop hword hkey hequal hstop'
    hfirst hlast hdot hsum
  obtain ⟨goal, hparse, ⟨info, info', d, body, ⟨i, e, rfl, hsum⟩, hbody, hgoal⟩, htidy, hids⟩ :=
    Rule.exists_goal_of_reads ht hreads (by rw [← tokensOf, hsplit]; simp)
  have hvalue : Rule.IsProgram name.text key.text (· = e) goal :=
    ⟨info, info', _, body, ⟨i, e, rfl, rfl⟩, hbody, hgoal⟩
  have hliterals : literalsOf source = token.text :: rest.map (·.2.text) := by
    rw [literalsOf, hsplit, List.filter_append, List.filter_append, filter_pairs hrest]
    simp [hprogram, hname, hstop, hword, hkey, hequal, htoken, hstop', hfirst, hlast, hdot]
  exact ⟨goal, name.text, key.text, e, hparse, hvalue, hliterals ▸ hsum,
    fun x hx => htidy x (mem_nodes_of_value hvalue hx),
    fun x hx => hids x (mem_nodes_of_value hvalue hx)⟩

/-- String constants keep their text. A program that declares the sum of string literals as a
constant is accepted, and wherever nothing is known of this sum yet, folding it gives a character or
a string, the text of which is that of the literals one after the other. Only a literal that is one
byte from 128 on becomes the replacement character. -/
theorem sums_keep_text {n : Nat} (h : (tokensOf source).map (·.kind) = sumKinds n) :
    ∃ goal name key e, (parse config source origin).result = .ok goal ∧
      Rule.IsProgram name key (· = e) goal ∧ IsSum (literalsOf source) e ∧
      ∀ (s : Scopes) (a : Annotations), s.Standard → a.Bare → Untouched a e →
        ∃ v b, Leads (fold s e) a (some v) b ∧
          v.string? = some (Text.concat ((literalsOf source).map Text.kept)) := by
  obtain ⟨goal, name, key, e, hparse, hvalue, hsum, htidy, hids⟩ :=
    exists_sum_program config source origin h
  refine ⟨goal, name, key, e, hparse, hvalue, hsum, fun s a hs ha hnew => ?_⟩
  obtain ⟨v, b, hv, htext, -⟩ := exists_fold_sum hs hsum htidy hids ha hnew
  exact ⟨v, b, hv, htext⟩

end Programs

/-- A sum of a quoted character, a character code and a longer text. -/
def mixedSum : Text := "program P; const K = 'a' + #66 + 'c''d'; begin end."

theorem untouched_forTree (last origin : Nat) (e : Expr) : Untouched (forTree last origin) e :=
  fun _ _ => ⟨rfl, rfl⟩

/-- Two more literals bring two tokens each. -/
example : (sumKinds 2).length = 15 := by decide +kernel

theorem sums_keep_text_mixed : (tokensOf mixedSum).map (·.kind) = sumKinds 2 ∧
    ∃ goal name key e, (parse {} mixedSum 0).result = .ok goal ∧
      Rule.IsProgram name key (· = e) goal ∧ IsSum ["a", "B", "c'd"] e ∧
      ∃ v b, Leads (fold (.initial {}) e) (forTree 100) (some v) b ∧ v.string? = some "aBc'd" := by
  have hkinds : (tokensOf mixedSum).map (·.kind) = sumKinds 2 := by decide +kernel
  have hliterals : literalsOf mixedSum =
      [Text.ofString "a", Text.ofString "B", Text.ofString "c'd"] := by decide +kernel
  obtain ⟨goal, name, key, e, hparse, hvalue, hsum, hfold⟩ := sums_keep_text {} mixedSum 0 hkinds
  obtain ⟨v, b, hv, htext⟩ := hfold (.initial {}) (forTree 100) (Scopes.standard_initial {})
    (bare_forTree 100 0) (untouched_forTree 100 0 e)
  refine ⟨hkinds, goal, name, key, e, hparse, hvalue, hliterals ▸ hsum, v, b, hv, ?_⟩
  rw [htext, hliterals]
  decide

/-- A literal that is a single byte and none that is a character, in front of another one. -/
def loneByte : Text :=
  "program P; const K = '" ++ ⟨[0xFF]⟩ ++ "' + '" ++ ⟨[0xFF]⟩ ++ "b'; begin end."

/-- The byte of such a literal is lost. -/
theorem lone_byte_replaced : literalsOf loneByte = [⟨[0xFF]⟩, ⟨[0xFF, 0x62]⟩] ∧
    ∃ goal name key e, (parse {} loneByte 0).result = .ok goal ∧
      Rule.IsProgram name key (· = e) goal ∧
      ∃ v b, Leads (fold (.initial {}) e) (forTree 100) (some v) b ∧
        v.string? = some ⟨[0xEF, 0xBF, 0xBD, 0xFF, 0x62]⟩ ∧
        v.string? ≠ some (Text.concat (literalsOf loneByte)) := by
  have hkinds : (tokensOf loneByte).map (·.kind) = sumKinds 1 := by decide +kernel
  have hliterals : literalsOf loneByte = [⟨[0xFF]⟩, ⟨[0xFF, 0x62]⟩] := by decide +kernel
  obtain ⟨goal, name, key, e, hparse, hvalue, hsum, htidy, hids⟩ :=
    exists_sum_program {} loneByte 0 hkinds
  obtain ⟨v, b, hv, htext, -⟩ := exists_fold_sum (Scopes.standard_initial {}) hsum htidy hids
    (bare_forTree 100 0) (untouched_forTree 100 0 e)
  have hlost : Text.concat ((literalsOf loneByte).map Text.kept) =
      ⟨[0xEF, 0xBF, 0xBD, 0xFF, 0x62]⟩ := by
    rw [hliterals]
    decide
  refine ⟨hliterals, goal, name, key, e, hparse, hvalue, v, b, hv, htext.trans (congrArg some hlost),
    ?_⟩
  rw [htext, hlost, hliterals]
  decide

end Folding
end ObjectPascal
