import Mathlib.Data.List.Basic
import Mathlib.Data.List.Find
import ObjectPascal.Token.Lexeme

/-!
Tokens in front of a full stop. A full stop belongs to no name and no string, and to a number only
if a digit follows it, so a reader that ends in front of one has not looked at what comes behind it.
-/

namespace ObjectPascal

section Classes

/-- What holds of some bytes is decided along them, and not by going through all the bytes there are. -/
instance decidableForallMem {P : UInt8 → Prop} [DecidablePred P] (s : List UInt8) :
    Decidable (∀ b ∈ s, P b) :=
  List.decidableBAll P s

instance decidableForallMemOption {P : UInt8 → Prop} [DecidablePred P] (o : Option UInt8) :
    Decidable (∀ b ∈ o, P b) :=
  Option.decidableForallMem o

variable {f : UInt8 → Bool} {w r : List UInt8}

/-- Bytes of a class in front of one that is not of it. -/
theorem takeWhile_of_class (hw : ∀ b ∈ w, f b = true)
    (hr : ∀ b ∈ r.head?, f b = false) : (w ++ r).takeWhile f = w ∧ (w ++ r).dropWhile f = r := by
  rw [List.takeWhile_append_of_pos hw, List.dropWhile_append_of_pos hw]
  cases r with
  | nil => simp
  | cons b r =>
    have hb := hr b rfl
    simp [hb]

/-- A byte that is not of a class ends a run of it, wherever the run began. -/
theorem takeWhile_before (hr : ∀ b ∈ r.head?, f b = false)
    (s : List UInt8) : (s ++ r).takeWhile f = s.takeWhile f ∧
      (s ++ r).dropWhile f = s.dropWhile f ++ r := by
  induction s with
  | nil => exact takeWhile_of_class (w := []) (by simp) hr
  | cons b s ih =>
    rw [List.cons_append, List.takeWhile_cons, List.takeWhile_cons, List.dropWhile_cons,
      List.dropWhile_cons, ih.1, ih.2]
    cases f b <;> exact ⟨rfl, rfl⟩

/-- What is left of a run is not of its class. -/
theorem head?_dropWhile (s : List UInt8) :
    ∀ b ∈ (s.dropWhile f).head?, f b = false := by
  intro b hb
  have hnot := List.head?_dropWhile_not f s
  rw [Option.mem_def.mp hb] at hnot
  simpa using hnot

variable (hf : f 0x2E = false) (p r : List UInt8)

include hf

theorem takeWhile_stop : (p ++ 0x2E :: r).takeWhile f = p.takeWhile f :=
  (takeWhile_before (by simpa using hf) p).1

theorem dropWhile_stop : (p ++ 0x2E :: r).dropWhile f = p.dropWhile f ++ 0x2E :: r :=
  (takeWhile_before (by simpa using hf) p).2

end Classes

namespace Lexeme

/-- A token that ends in front of a full stop does not depend on what follows it. Only a number
directly in front of it may go on. -/
def Local (read : List UInt8 → Lexeme) : Prop :=
  ∀ p r r', (read (p ++ 0x2E :: r)).kind ≠ .invalid → (read (p ++ 0x2E :: r)).size ≤ p.length →
    ((read (p ++ 0x2E :: r)).size = p.length → (read (p ++ 0x2E :: r)).kind ≠ .integer ∧
      (read (p ++ 0x2E :: r)).kind ≠ .real) →
    read (p ++ 0x2E :: r') = read (p ++ 0x2E :: r)

theorem local_word : Local word := by
  intro p r r' _ _ _
  simp only [word, takeWhile_stop (f := isWordByte) rfl]

theorem word_size_pos {b : UInt8} (hb : isLetter b = true) (s : List UInt8) :
    0 < (word (b :: s)).size := by
  have hword : isWordByte b = true := by rw [isWordByte, hb, Bool.true_or]
  simp [word, Text.length, hword]

/-- A word is an identifier or has a spelling of its own. -/
theorem word_kind (s : List UInt8) : (word s).kind = .ident ∨
    (word s).kind.family = .reserved ∨ (word s).kind.family = .directive := by
  change Kind.ofWord _ = .ident ∨ _
  unfold word Kind.ofWord
  dsimp only
  split
  · rename_i k hk
    have hfamily := List.find?_some hk
    simp only [Bool.and_eq_true, Bool.or_eq_true, beq_iff_eq] at hfamily
    exact Or.inr hfamily.1
  · exact Or.inl rfl

theorem word_kind_ne_dot (s : List UInt8) : (word s).kind ≠ .dot := by
  intro h
  have hkind := word_kind s
  rw [h] at hkind
  exact absurd hkind (by decide)

theorem local_escapedWord : Local escapedWord := by
  intro p r r' _ hsize _
  cases p with
  | nil => simp [escapedWord] at hsize
  | cons b p =>
    simp only [escapedWord, List.cons_append, List.drop_succ_cons, List.drop_zero,
      takeWhile_stop (f := isWordByte) rfl]

theorem local_hexadecimal : Local hexadecimal := by
  intro p r r' _ hsize _
  cases p with
  | nil => simp [hexadecimal] at hsize
  | cons b p =>
    simp only [hexadecimal, List.cons_append, List.take_succ_cons, List.take_zero,
      List.drop_succ_cons, List.drop_zero, takeWhile_stop (f := isHexDigit) rfl]

/-- A reader that takes the whole line never ends in front of a full stop. -/
theorem local_line : Local fun s => ⟨.comment, s.length, ⟨s⟩⟩ := by
  intro p r r' _ hsize _
  simp only [List.length_append, List.length_cons] at hsize
  omega

section Decimal

theorem fraction_stop {p : List UInt8} (hp : p ≠ []) (r : List UInt8) :
    fraction (p ++ 0x2E :: r) = fraction p := by
  match p with
  | [b] =>
    have hstop : isDigit 0x2E = false := rfl
    simp [fraction, hstop]
  | b :: d :: p =>
    have hdigits := takeWhile_stop (f := isDigit) rfl (d :: p) r
    rw [List.cons_append] at hdigits
    simp only [fraction, List.cons_append, hdigits]

theorem exponentMark_stop (p r : List UInt8) :
    exponentMark (p ++ 0x2E :: r) = exponentMark p := by
  match p with
  | [] => rfl
  | [e] => rfl
  | e :: g :: p => rfl

theorem fraction_length_le (p : List UInt8) : (fraction p).length ≤ p.length := by
  unfold fraction
  split
  · split
    · exact Nat.succ_le_succ (List.takeWhile_sublist _).length_le
    · exact Nat.zero_le _
  · exact Nat.zero_le _

theorem exponentMark_length_le (p : List UInt8) : (exponentMark p).length ≤ p.length := by
  unfold exponentMark
  repeat' split
  all_goals simp

/-- A number that is not only digits is read up to a full stop. -/
theorem decimal_stop {p : List UInt8} (hp : p.dropWhile isDigit ≠ []) (r : List UInt8) :
    decimal (p ++ 0x2E :: r) = decimal p := by
  have hdigit : isDigit 0x2E = false := rfl
  have hhead (q : List UInt8) : (q ++ 0x2E :: r).head?.any isLetter = q.head?.any isLetter := by
    cases q <;> rfl
  unfold decimal
  simp only [takeWhile_stop hdigit, dropWhile_stop hdigit, fraction_stop hp,
    List.drop_append_of_le_length (fraction_length_le _), exponentMark_stop,
    List.drop_append_of_le_length (exponentMark_length_le _)]
  generalize (p.dropWhile isDigit).drop (fraction (p.dropWhile isDigit)).length = q
  generalize q.drop (exponentMark q).length = u
  -- The digits of an exponent are among what is left of `p`.
  have hlen : (if (exponentMark q).isEmpty = true then [] else u.takeWhile isDigit).length ≤
      u.length := by
    split
    · exact Nat.zero_le _
    · exact (List.takeWhile_sublist _).length_le
  rw [List.drop_append_of_le_length hlen, hhead]

/-- A number has at least the digits that it begins with. -/
theorem decimal_spec (s : List UInt8) : (s.takeWhile isDigit).length ≤ (decimal s).size ∧
    ((decimal s).kind = .invalid ∨ (decimal s).kind = .integer ∨ (decimal s).kind = .real) := by
  unfold decimal
  extract_lets whole rest part rest mark rest exponent rest written
  have hle : whole.length ≤ written.length := by
    simp only [written, List.length_append]
    omega
  split
  · exact ⟨hle, Or.inl rfl⟩
  · split
    · exact ⟨Nat.le_succ_of_le hle, Or.inl rfl⟩
    · refine ⟨hle, Or.inr ?_⟩
      simp only
      split
      · exact Or.inl rfl
      · exact Or.inr rfl

theorem decimal_size_pos {b : UInt8} (hb : isDigit b = true) (s : List UInt8) :
    0 < (decimal (b :: s)).size := by
  refine Nat.lt_of_lt_of_le ?_ (decimal_spec _).1
  simp [hb]

theorem local_decimal : Local decimal := by
  intro p r r' hvalid hsize hlast
  by_cases hp : p.dropWhile isDigit = []
  · -- Nothing but digits: this is a number directly in front of the full stop.
    have hall : p.takeWhile isDigit = p := by
      have hsplit := List.takeWhile_append_dropWhile (p := isDigit) (l := p)
      rwa [hp, List.append_nil] at hsplit
    obtain ⟨hdigits, hkinds⟩ := decimal_spec (p ++ 0x2E :: r)
    rw [takeWhile_stop (f := isDigit) rfl, hall] at hdigits
    have hnumber := hlast (Nat.le_antisymm hsize hdigits)
    rcases hkinds with hkind | hkind | hkind
    · exact absurd hkind hvalid
    · exact absurd hkind hnumber.1
    · exact absurd hkind hnumber.2
  · rw [decimal_stop hp, decimal_stop hp]

end Decimal

section Mark

theorem mark_size_pos (s : List UInt8) : 0 < (mark s).size := by
  have hall : ∀ m ∈ marks, 0 < (Text.ofString m.1).length := by decide
  unfold mark
  split
  · rename_i m k h
    exact hall _ (List.mem_of_find?_eq_some h)
  · exact Nat.one_pos

theorem isPrefixOf_stop {m p : List UInt8} (hm : m.length ≤ p.length + 1) (r r' : List UInt8) :
    m.isPrefixOf (p ++ 0x2E :: r') = m.isPrefixOf (p ++ 0x2E :: r) := by
  induction m generalizing p with
  | nil => rfl
  | cons b m ih =>
    cases p with
    | nil =>
      obtain rfl : m = [] := List.length_eq_zero_iff.mp (by simpa using hm)
      rfl
    | cons c p =>
      simp only [List.cons_append, List.isPrefixOf]
      rw [ih (by simpa using hm)]

/-- Whether a mark stands at the head of some bytes. -/
def heads (s : List UInt8) : String × Kind → Bool := fun (m, _) =>
  (Text.ofString m).bytes.isPrefixOf s

theorem mark_of_find {s : List UInt8} {m : String} {k : Kind}
    (h : marks.find? (heads s) = some (m, k)) : mark s = ⟨k, (Text.ofString m).length, ∅⟩ := by
  unfold mark
  split
  · rename_i hfound
    cases hfound.symm.trans h
    rfl
  · rename_i hfound
    cases hfound.symm.trans h

theorem mark_of_find_none {s : List UInt8} (h : marks.find? (heads s) = none) :
    mark s = ⟨.invalid, 1, "unexpected character '" ++ ⟨[s.headD 0]⟩ ++ "' (" ++
      Text.ofNat (s.headD 0).toNat ++ ")"⟩ := by
  unfold mark
  split
  · rename_i hfound
    cases hfound.symm.trans h
  · rfl

theorem local_mark : Local mark := by
  intro p r r' _ hsize _
  have hp : 0 < p.length := Nat.lt_of_lt_of_le (mark_size_pos _) hsize
  have hall : ∀ m ∈ marks, (Text.ofString m.1).bytes.length ≤ 2 := by decide
  have hfind : marks.find? (heads (p ++ 0x2E :: r')) = marks.find? (heads (p ++ 0x2E :: r)) := by
    refine List.find?_congr fun m hm => ?_
    exact isPrefixOf_stop ((hall m hm).trans (Nat.succ_le_succ hp)) r r'
  have hhead : (p ++ 0x2E :: r').headD 0 = (p ++ 0x2E :: r).headD 0 := by
    cases p with
    | nil => rfl
    | cons b p => rfl
  cases hfound : marks.find? (heads (p ++ 0x2E :: r)) with
  | none => rw [mark_of_find_none hfound, mark_of_find_none (hfind.trans hfound), hhead]
  | some found => rw [mark_of_find hfound, mark_of_find (hfind.trans hfound)]

/-- The only mark of the kind of a full stop is a full stop. -/
theorem mark_of_dot {s : List UInt8} (h : (mark s).kind = .dot) :
    mark s = ⟨.dot, 1, ∅⟩ ∧ ∃ r, s = 0x2E :: r := by
  have hall : ∀ m ∈ marks, m.2 = .dot → m.1 = "." := by decide
  have hbytes : (Text.ofString ".").bytes = [0x2E] := by decide
  unfold mark at h ⊢
  split at h
  · rename_i m k hfound
    obtain rfl : k = .dot := h
    obtain rfl : m = "." := hall _ (List.mem_of_find?_eq_some hfound) rfl
    have hpre := List.find?_some hfound
    change (Text.ofString ".").bytes.isPrefixOf s = true at hpre
    rw [hbytes] at hpre
    obtain ⟨r, rfl⟩ := List.isPrefixOf_iff_prefix.mp hpre
    exact ⟨by simp only [Text.length, hbytes, List.length_singleton], r, rfl⟩
  · cases h

/-- A full stop is one unless it goes on. -/
theorem mark_dot {r : List UInt8} (h : ∀ b ∈ r.head?, b ≠ 0x2E ∧ b ≠ 0x29) :
    mark (0x2E :: r) = ⟨.dot, 1, ∅⟩ := by
  have hbytes : (Text.ofString ".").bytes = [0x2E] := by decide
  have hfound : marks.find? (heads (0x2E :: r)) = some (".", .dot) := by
    -- A mark that stands before the full stop in the list begins otherwise or is longer.
    have hall : ∀ m ∈ marks.take 18, ∃ b rest, (Text.ofString m.1).bytes = b :: rest ∧
        (b ≠ 0x2E ∨ rest = [0x2E] ∨ rest = [0x29]) := by
      have hbool : ∀ m ∈ marks.take 18, (Text.ofString m.1).bytes ≠ [] ∧
          ((Text.ofString m.1).bytes.head? ≠ some 0x2E ∨
            (Text.ofString m.1).bytes.tail = [0x2E] ∨ (Text.ofString m.1).bytes.tail = [0x29]) := by
        decide
      intro m hm
      obtain ⟨hne, hcase⟩ := hbool m hm
      obtain ⟨b, rest, hbytes⟩ := List.exists_cons_of_ne_nil hne
      rw [hbytes] at hcase
      exact ⟨b, rest, hbytes, hcase.imp_left fun hne hb => hne (congrArg some hb)⟩
    refine List.find?_eq_some_iff_append.mpr ⟨?_, marks.take 18, marks.drop 19, rfl, fun m hm => ?_⟩
    · simp [heads, hbytes]
    · obtain ⟨b, rest, hm, hcase⟩ := hall m hm
      have hpre : ¬ b :: rest <+: 0x2E :: r := by
        intro hpre
        obtain ⟨hb, u, rfl⟩ := List.cons_prefix_cons.mp hpre
        rcases hcase with hne | rfl | rfl
        · exact hne hb
        · exact (h 0x2E rfl).1 rfl
        · exact (h 0x29 rfl).2 rfl
      change (!(Text.ofString m.1).bytes.isPrefixOf (0x2E :: r)) = true
      rwa [hm, Bool.not_eq_true', ← Bool.not_eq_true, List.isPrefixOf_iff_prefix]
  rw [mark_of_find hfound]
  simp only [Text.length, hbytes, List.length_singleton]

end Mark

section Strings

theorem quotedPart_length_lt {acc acc' s rest : List UInt8}
    (h : quotedPart acc s = some (acc', rest)) : rest.length < s.length := by
  induction acc, s using quotedPart.induct with
  | case1 acc => simp [quotedPart] at h
  | case2 acc =>
    obtain ⟨_, rfl⟩ : acc = acc' ∧ [] = rest := by simpa [quotedPart] using h
    simp
  | case3 acc c hc => simp [quotedPart, hc] at h
  | case4 acc s ih =>
    rw [quotedPart, if_pos rfl, if_pos rfl] at h
    have := ih h
    simp only [List.length_cons]
    omega
  | case5 acc d s hd =>
    obtain ⟨_, rfl⟩ : acc = acc' ∧ d :: s = rest := by simpa [quotedPart, hd] using h
    simp
  | case6 acc c d s hc ih =>
    rw [quotedPart, if_neg hc] at h
    exact Nat.lt_succ_of_lt (ih h)

theorem quotedPart_stop (acc p r : List UInt8) :
    (∀ acc' q, quotedPart acc p = some (acc', q) →
      quotedPart acc (p ++ 0x2E :: r) = some (acc', q ++ 0x2E :: r)) ∧
    (quotedPart acc p = none → ∀ acc' q, quotedPart acc (p ++ 0x2E :: r) = some (acc', q) →
      q.length ≤ r.length) := by
  have hstop : (0x2E : UInt8) ≠ 0x27 := by decide
  -- A full stop closes no quote, so the search goes on behind it.
  have hnil (acc acc' q : List UInt8) (h : quotedPart acc (0x2E :: r) = some (acc', q)) :
      q.length ≤ r.length := Nat.le_of_lt_succ (quotedPart_length_lt h)
  induction acc, p using quotedPart.induct with
  | case1 acc => exact ⟨by simp [quotedPart], fun _ => hnil acc⟩
  | case2 acc =>
    refine ⟨fun acc' q h => ?_, by simp [quotedPart]⟩
    obtain ⟨rfl, rfl⟩ : acc = acc' ∧ [] = q := by simpa [quotedPart] using h
    simp [quotedPart, hstop]
  | case3 acc c hc =>
    refine ⟨by simp [quotedPart, hc], fun _ acc' q h => ?_⟩
    rw [List.singleton_append, quotedPart, if_neg hc] at h
    exact hnil _ _ _ h
  | case4 acc s ih =>
    simp only [List.cons_append, quotedPart, ↓reduceIte]
    exact ih
  | case5 acc d s hd =>
    refine ⟨fun acc' q h => ?_, by simp [quotedPart, hd]⟩
    obtain ⟨rfl, rfl⟩ : acc = acc' ∧ d :: s = q := by simpa [quotedPart, hd] using h
    simp [quotedPart, hd]
  | case6 acc c d s hc ih =>
    simp only [List.cons_append, quotedPart, if_neg hc] at ih ⊢
    exact ih

/-- How a string goes on with a character code. -/
theorem stringParts_code (acc s : List UInt8) (n : Nat) : stringParts acc (0x23 :: s) (n + 1) =
    if (codeDigits s).2.1.isEmpty || 0x10FFFF < numberOf (codeDigits s).1 (codeDigits s).2.1 then
      (.error .badCode, s.drop (codeDigits s).2.2)
    else
      stringParts ((String.utf8EncodeChar (Text.charOfCode
        (numberOf (codeDigits s).1 (codeDigits s).2.1))).reverse ++ acc)
        (s.drop (codeDigits s).2.2) n := rfl

theorem stringParts_length_le {acc s q : List UInt8} {fuel : Nat}
    {result : Except StringFault (List UInt8)} (h : stringParts acc s fuel = (result, q)) :
    q.length ≤ s.length := by
  induction fuel generalizing acc s with
  | zero =>
    obtain ⟨_, rfl⟩ := Prod.mk.inj h
    exact Nat.le_refl _
  | succ n ih =>
    cases s with
    | nil =>
      obtain ⟨_, rfl⟩ := Prod.mk.inj h
      exact Nat.le_refl _
    | cons c s =>
      rw [List.length_cons]
      by_cases hquote : c = 0x27
      · subst hquote
        cases hquoted : quotedPart acc s with
        | none =>
          simp only [stringParts, ↓reduceIte, hquoted, Prod.mk.injEq] at h
          obtain ⟨_, rfl⟩ := h
          exact Nat.zero_le _
        | some found =>
          have hlt := quotedPart_length_lt hquoted
          simp only [stringParts, ↓reduceIte, hquoted] at h
          exact (ih h).trans (by omega)
      · by_cases hsign : c = 0x23
        · subst hsign
          have hdrop : (s.drop (codeDigits s).2.2).length ≤ s.length + 1 := by
            rw [List.length_drop]
            omega
          rw [stringParts_code] at h
          split at h
          · obtain ⟨_, rfl⟩ := Prod.mk.inj h
            exact hdrop
          · exact (ih h).trans hdrop
        · simp only [stringParts, hquote, ↓reduceIte, hsign, Prod.mk.injEq] at h
          obtain ⟨_, rfl⟩ := h
          exact Nat.le_refl _

theorem codeDigits_stop (p r : List UInt8) : codeDigits (p ++ 0x2E :: r) = codeDigits p := by
  have hhex : isHexDigit 0x2E = false := rfl
  have hdigit : isDigit 0x2E = false := rfl
  cases p with
  | nil => simp [codeDigits, hdigit]
  | cons b p =>
    have hdigits := takeWhile_stop hdigit (b :: p) r
    rw [List.cons_append] at hdigits
    simp only [codeDigits, List.cons_append, List.head?_cons, List.drop_succ_cons, List.drop_zero,
      takeWhile_stop hhex, hdigits]

theorem codeDigits_le (p : List UInt8) : (codeDigits p).2.2 ≤ p.length := by
  unfold codeDigits
  split
  · rename_i hhead
    cases p with
    | nil => cases hhead
    | cons b p => exact Nat.succ_le_succ (List.takeWhile_sublist _).length_le
  · exact (List.takeWhile_sublist _).length_le

/-- The parts of a string that end in front of a full stop end there whatever follows it, and if
they do not end there they run over it. -/
theorem stringParts_stop {acc p : List UInt8} {fuel : Nat} (hfuel : p.length ≤ fuel)
    (r : List UInt8) {fuel' : Nat} (hfuel' : p.length ≤ fuel') :
    (∀ text q, stringParts acc p fuel = (.ok text, q) →
      stringParts acc (p ++ 0x2E :: r) fuel' = (.ok text, q ++ 0x2E :: r)) ∧
    (∀ e q, stringParts acc p fuel = (.error e, q) → ∀ text q',
      stringParts acc (p ++ 0x2E :: r) fuel' = (.ok text, q') → q'.length ≤ r.length) := by
  induction fuel generalizing acc p fuel' with
  | zero =>
    obtain rfl : p = [] := List.length_eq_zero_iff.mp (Nat.le_zero.mp hfuel)
    cases fuel' <;> simp +contextual [stringParts]
  | succ n ih =>
    cases p with
    | nil => cases fuel' <;> simp +contextual [stringParts]
    | cons c p =>
      simp only [List.length_cons] at hfuel hfuel'
      obtain ⟨m, rfl⟩ : ∃ m, fuel' = m + 1 := ⟨fuel' - 1, by omega⟩
      rw [List.cons_append]
      by_cases hquote : c = 0x27
      · subst hquote
        cases hquoted : quotedPart acc p with
        | some found =>
          have hlt := quotedPart_length_lt hquoted
          have hquoted' := (quotedPart_stop acc p r).1 _ _ hquoted
          simp only [stringParts, ↓reduceIte, hquoted, hquoted']
          exact ih (by omega) (by omega)
        | none =>
          refine ⟨by simp [stringParts, hquoted], fun e q _ text q' h => ?_⟩
          simp only [stringParts, ↓reduceIte] at h
          cases hquoted' : quotedPart acc (p ++ 0x2E :: r) with
          | none => simp [hquoted'] at h
          | some found =>
            simp only [hquoted'] at h
            exact (stringParts_length_le h).trans
              ((quotedPart_stop acc p r).2 hquoted _ _ hquoted')
      · by_cases hsign : c = 0x23
        · subst hsign
          have hdrop := codeDigits_le p
          rw [stringParts_code, stringParts_code, codeDigits_stop,
            List.drop_append_of_le_length hdrop]
          split
          · simp
          · have hle : (p.drop (codeDigits p).2.2).length ≤ p.length := by
              rw [List.length_drop]
              omega
            exact ih (by omega) (by omega)
        · simp +contextual [stringParts, hquote, hsign]

theorem local_string : Local string := by
  intro p r r' hvalid hsize _
  have hpart (r : List UInt8) : p.length ≤ (p ++ 0x2E :: r).length := by simp
  have hparts (r : List UInt8) := @stringParts_stop [] p p.length le_rfl r _ (hpart r)
  cases hs : stringParts [] p p.length with
  | mk result q =>
  cases result with
  | error e =>
    -- The string would run over the full stop.
    cases hs' : stringParts [] (p ++ 0x2E :: r) (p ++ 0x2E :: r).length with
    | mk result q' =>
    cases result with
    | error e' =>
      rw [string, hs'] at hvalid
      cases e' <;> exact absurd rfl hvalid
    | ok text =>
      have hle := (hparts r).2 e q hs text q' hs'
      rw [string, hs'] at hsize
      simp only [List.length_append, List.length_cons] at hsize
      omega
  | ok text =>
    rw [string, (hparts r').1 text q hs, string, (hparts r).1 text q hs]
    simp only [List.length_append, List.length_cons, Lexeme.mk.injEq, true_and, and_true]
    omega

theorem string_kind (s : List UInt8) :
    (string s).kind = .string ∨ (string s).kind = .invalid := by
  unfold string
  split
  · exact Or.inl rfl
  · exact Or.inr rfl
  · exact Or.inr rfl

theorem string_size_pos {b : UInt8} (hb : b = 0x27 ∨ b = 0x23) (s : List UInt8)
    (hv : (string (b :: s)).kind ≠ .invalid) : 0 < (string (b :: s)).size := by
  have hlt : ∀ text q, stringParts [] (b :: s) (s.length + 1) = (.ok text, q) →
      q.length < s.length + 1 := by
    intro text q h
    rcases hb with rfl | rfl
    · cases hquoted : quotedPart [] s with
      | none => simp [stringParts, hquoted] at h
      | some found =>
        simp only [stringParts, ↓reduceIte, hquoted] at h
        have hle := stringParts_length_le h
        have hquote := quotedPart_length_lt hquoted
        omega
    · rw [stringParts_code] at h
      split at h
      · cases h
      · have hle := stringParts_length_le h
        rw [List.length_drop] at hle
        omega
  unfold string at hv ⊢
  split
  · rename_i text q h
    have := hlt text q h
    simp only [List.length_cons]
    omega
  · rename_i q h
    rw [h] at hv
    exact absurd rfl hv
  · rename_i q h
    rw [h] at hv
    exact absurd rfl hv

end Strings

end Lexeme
end ObjectPascal
