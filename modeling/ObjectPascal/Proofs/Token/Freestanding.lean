import ObjectPascal.Proofs.Token.Account
import ObjectPascal.Proofs.Token.Block
import ObjectPascal.Proofs.Token.Literal

/-!
Tokens between layout. A reader looks beyond the end of its token, but only to see that the token does
not go on, and layout goes on with no token. So the bytes of a token are read as the same token
wherever they stand behind layout and in front of layout or of the end.
-/

namespace ObjectPascal

/-- Bytes begin with layout, if there are any. -/
def LayoutAhead (u : List UInt8) : Prop := ∀ b ∈ u.head?, isLayout b = true

section Bytes

variable {f : UInt8 → Bool} {b : UInt8} {w u v : List UInt8}

/-- What holds of each layout byte. -/
theorem of_isLayout {P : UInt8 → Prop} (h : isLayout b = true)
    (hall : ∀ x ∈ [0x20, 0x09, 0x0D, 0x0A, 0x0C], P x) : P b :=
  hall b ((Scanner.isLayout_iff b).mp h)

/-- Bytes that were all of a run of a class are a run of it in front of layout. -/
theorem LayoutAhead.takeWhile (hv : LayoutAhead v)
    (hf : ∀ x ∈ [0x20, 0x09, 0x0D, 0x0A, 0x0C], f x = false)
    (hlen : ((w ++ u).takeWhile f).length = w.length) :
    (w ++ u).takeWhile f = w ∧ (∀ x ∈ w, f x = true) ∧ (w ++ v).takeWhile f = w := by
  have hw : (w ++ u).takeWhile f = w := by
    apply List.IsPrefix.eq_of_length _ hlen
    apply List.prefix_of_prefix_length_le (List.takeWhile_prefix f) (List.prefix_append w u)
    exact hlen.le
  have hall : ∀ x ∈ w, f x = true := by
    rw [← hw]
    exact fun x hx => List.mem_takeWhile_imp hx
  exact ⟨hw, hall, (takeWhile_of_class hall fun x hx => of_isLayout (hv x hx) hf).1⟩

/-- A run of a class that no carriage return is of does not end with one. -/
theorem getLast?_ne_of_class (hw : ∀ x ∈ w, f x = true) (hf : f 0x0D = false) :
    w.getLast? ≠ some 0x0D := by
  intro hlast
  have hmem := hw _ (List.mem_of_getLast? hlast)
  rw [hf] at hmem
  cases hmem

end Bytes

namespace Lexeme

/-- The bytes that a reader has taken are read alike in front of layout, and do not end with a
carriage return. -/
structure Ends (read : List UInt8 → Lexeme) (w u : List UInt8) : Prop where
  last : w.getLast? ≠ some 0x0D
  again {v : List UInt8} (hv : LayoutAhead v) : read (w ++ v) = read (w ++ u)

variable {b : UInt8} {w u : List UInt8}

theorem ends_word (hsize : (word (w ++ u)).size = w.length) : Ends word w u := by
  have hclass : ∀ x ∈ [0x20, 0x09, 0x0D, 0x0A, 0x0C], isWordByte x = false := by decide
  refine ⟨?_, fun {v} hv => ?_⟩
  · obtain ⟨_, hall, _⟩ := LayoutAhead.takeWhile (v := []) (by simp [LayoutAhead]) hclass hsize
    exact getLast?_ne_of_class hall rfl
  · obtain ⟨hw, _, hv⟩ := hv.takeWhile hclass hsize
    rw [word, word, hw, hv]

/-- A pattern without layout is not begun by a token and ended behind it. -/
theorem isPrefix_append_iff {pat v : List UInt8} (hpat : ∀ x ∈ pat, isLayout x = false)
    (hv : LayoutAhead v) : pat <+: w ++ v ↔ pat <+: w := by
  refine ⟨fun h => ?_, fun h => h.trans (List.prefix_append w v)⟩
  obtain ⟨t, ht⟩ := h
  rcases List.append_eq_append_iff.mp ht with ⟨x, hx, _⟩ | ⟨x, rfl, hx⟩
  · rw [hx]
    exact List.prefix_append pat x
  · cases x with
    | nil => simp
    | cons b x =>
      have hlayout := hv b (by rw [hx]; rfl)
      rw [hpat b (by simp)] at hlayout
      cases hlayout

theorem ends_mark (hsize : (mark (w ++ u)).size = w.length)
    (hkind : (mark (w ++ u)).kind ≠ .invalid) : Ends mark w u := by
  have hmarks : ∀ m ∈ marks, ∀ x ∈ (Text.ofString m.1).bytes, isLayout x = false := by decide
  cases hfound : marks.find? (heads (w ++ u)) with
  | none =>
    rw [mark_of_find_none hfound] at hkind
    exact absurd rfl hkind
  | some found =>
    obtain ⟨m, k⟩ := found
    obtain ⟨hpre, front, back, hsplit, hfront⟩ := List.find?_eq_some_iff_append.mp hfound
    have hpre := List.isPrefixOf_iff_prefix.mp hpre
    rw [mark_of_find hfound] at hsize
    obtain rfl : (Text.ofString m).bytes = w := by
      apply List.IsPrefix.eq_of_length _ hsize
      exact List.prefix_of_prefix_length_le hpre (List.prefix_append w u) hsize.le
    refine ⟨fun hlast => ?_, fun {v} hv => ?_⟩
    · have hlayout := hmarks (m, k) (List.mem_of_find?_eq_some hfound) _ (List.mem_of_getLast? hlast)
      cases hlayout
    · have hagain : marks.find? (heads ((Text.ofString m).bytes ++ v)) = some (m, k) := by
        refine List.find?_eq_some_iff_append.mpr ⟨?_, front, back, hsplit, fun x hx => ?_⟩
        · exact List.isPrefixOf_iff_prefix.mpr (List.prefix_append _ v)
        · have hnot := hfront x hx
          have hx : x ∈ marks := by
            rw [hsplit]
            exact List.mem_append_left _ hx
          simp only [heads, Bool.not_eq_true', ← Bool.not_eq_true, List.isPrefixOf_iff_prefix] at hnot ⊢
          rw [isPrefix_append_iff (hmarks x hx) hv]
          exact fun h => hnot (h.trans (List.prefix_append _ u))
      rw [mark_of_find hagain, mark_of_find hfound]

/-- A reader of a sign and a run of a class behind it. -/
theorem ends_sign {f : UInt8 → Bool} {c b : UInt8} {s : List UInt8} {read : List UInt8 → Lexeme}
    (hf : ∀ x ∈ [0x20, 0x09, 0x0D, 0x0A, 0x0C], f x = false)
    (hlen : ∀ t, (read (c :: t)).size = (t.takeWhile f).length + 1)
    (hread : ∀ t t', t.takeWhile f = t'.takeWhile f → read (c :: t) = read (c :: t'))
    (hw : w ++ u = c :: b :: s) (hb : f b = true) (hsize : (read (w ++ u)).size = w.length) :
    Ends read w u ∧ ∃ w', w = c :: b :: w' := by
  have htake : (b :: s).takeWhile f = b :: s.takeWhile f := by rw [List.takeWhile_cons, if_pos hb]
  rw [hw, hlen, htake] at hsize
  obtain ⟨x, w, rfl⟩ := List.exists_cons_of_length_pos (show 0 < w.length by omega)
  obtain ⟨rfl, hrest⟩ : x = c ∧ w ++ u = b :: s := by simpa using hw
  have hrun : ((w ++ u).takeWhile f).length = w.length := by
    rw [hrest, htake]
    exact Nat.succ.inj hsize
  have hclass {v : List UInt8} (hv : LayoutAhead v) := hv.takeWhile hf hrun
  obtain ⟨hall, htaken, _⟩ := hclass (v := []) (by simp [LayoutAhead])
  have hpos : 0 < w.length := by
    rw [← hrun, hrest, htake]
    exact Nat.succ_pos _
  obtain ⟨y, w, rfl⟩ := List.exists_cons_of_length_pos hpos
  obtain ⟨rfl, _⟩ : y = b ∧ w ++ u = s := by simpa using hrest
  refine ⟨⟨?_, fun {v} hv => ?_⟩, w, rfl⟩
  · rw [List.getLast?_cons_cons]
    exact getLast?_ne_of_class htaken (hf 0x0D (by decide))
  · obtain ⟨_, _, hagain⟩ := hclass hv
    exact hread _ _ (hagain.trans hall.symm)

theorem ends_escapedWord {s : List UInt8} (hw : w ++ u = 0x26 :: b :: s) (hb : isLetter b = true)
    (hsize : (escapedWord (w ++ u)).size = w.length) :
    Ends escapedWord w u ∧ ∃ w', w = 0x26 :: b :: w' :=
  ends_sign (f := isWordByte) (by decide) (fun _ => rfl)
    (fun t t' h => by simp only [escapedWord, List.drop_succ_cons, List.drop_zero, h]) hw
    (isWordByte_of_isLetter hb) hsize

theorem ends_hexadecimal {s : List UInt8} (hw : w ++ u = 0x24 :: b :: s) (hb : isHexDigit b = true)
    (hsize : (hexadecimal (w ++ u)).size = w.length) :
    Ends hexadecimal w u ∧ ∃ w', w = 0x24 :: b :: w' :=
  ends_sign (f := isHexDigit) (by decide) (fun t => by simp [hexadecimal])
    (fun t t' h => by simp only [hexadecimal, List.take_succ_cons, List.take_zero,
      List.drop_succ_cons, List.drop_zero, h]) hw hb hsize

theorem ends_string (hline : 0x0A ∉ w ++ u) (hkind : (string (w ++ u)).kind ≠ .invalid)
    (hsize : (string (w ++ u)).size = w.length) (hne : w ≠ []) : Ends string w u := by
  obtain ⟨segs, rest, hs, hstring, hproper, hapart, _⟩ :=
    literal_of_string hline ((string_kind _).resolve_right hkind)
  rw [hstring] at hsize
  obtain ⟨rfl, rfl⟩ := List.append_inj hs hsize.symm
  have hsegs : segs ≠ [] := by
    rintro rfl
    exact hne rfl
  refine ⟨(literal_line hsegs hproper).2, fun {v} hv => ?_⟩
  rw [hstring]
  apply string_literal hproper hapart
  intro b hb
  have hquote := of_isLayout (P := (· ≠ 0x27)) (hv b hb) (by decide)
  have hsign := of_isLayout (P := (· ≠ 0x23)) (hv b hb) (by decide)
  have hdigit (hex : Bool) := of_isLayout (P := (hasDigit hex · = false)) (hv b hb)
    (by cases hex <;> decide)
  refine ⟨hquote, hsign, fun x _ hgrows => ?_⟩
  cases x with
  | quoted text => exact hquote hgrows
  | code hex digits n => exact absurd hgrows (by simp [Segment.GrowsBy, hdigit hex])

section Decimal

variable {s v : List UInt8}

theorem fraction_append_drop (s : List UInt8) : fraction s ++ s.drop (fraction s).length = s := by
  unfold fraction
  split
  · split
    · rename_i d r _
      rw [List.length_cons, List.drop_succ_cons, List.cons_append]
      congr 1
      exact List.prefix_iff_eq_append.mp (List.takeWhile_prefix isDigit)
    · rfl
  · rfl

theorem exponentMark_append_drop (s : List UInt8) :
    exponentMark s ++ s.drop (exponentMark s).length = s := by
  unfold exponentMark
  repeat' split
  all_goals rfl

/-- No part of a number is layout. -/
theorem mem_fraction {b : UInt8} (hb : b ∈ fraction s) : b = 0x2E ∨ isDigit b = true := by
  unfold fraction at hb
  split at hb
  · split at hb
    · rename_i h
      simp only [Bool.and_eq_true, beq_iff_eq] at h
      rcases List.mem_cons.mp hb with rfl | hb
      · exact Or.inl h.1
      · exact Or.inr (List.mem_takeWhile_imp hb)
    · cases hb
  · cases hb

/-- An exponent mark is a letter, with a sign or without one. -/
theorem exponentMark_cases (s : List UInt8) : exponentMark s = [] ∨
    (∃ e, (e = 0x65 ∨ e = 0x45) ∧ exponentMark s = [e]) ∨
    ∃ e g, (e = 0x65 ∨ e = 0x45) ∧ (g = 0x2B ∨ g = 0x2D) ∧ exponentMark s = [e, g] := by
  match s with
  | [] => exact Or.inl rfl
  | [e] =>
    by_cases he : e = 0x65 ∨ e = 0x45
    · exact Or.inr (Or.inl ⟨e, he, by simp [exponentMark, he]⟩)
    · exact Or.inl (by simp [exponentMark, he])
  | e :: g :: r =>
    by_cases he : e = 0x65 ∨ e = 0x45
    · by_cases hg : g = 0x2B ∨ g = 0x2D
      · exact Or.inr (Or.inr ⟨e, g, he, hg, by simp [exponentMark, he, hg]⟩)
      · exact Or.inr (Or.inl ⟨e, he, by simp [exponentMark, he, hg]⟩)
    · exact Or.inl (by simp [exponentMark, he])

theorem mem_exponentMark {b : UInt8} (hb : b ∈ exponentMark s) :
    b ∈ [0x65, 0x45, 0x2B, 0x2D] := by
  rcases exponentMark_cases s with h | ⟨e, he, h⟩ | ⟨e, g, he, hg, h⟩ <;> rw [h] at hb
  · cases hb
  · obtain rfl := List.mem_singleton.mp hb
    rcases he with rfl | rfl <;> decide
  · rcases List.mem_cons.mp hb with rfl | hb
    · rcases he with rfl | rfl <;> decide
    · obtain rfl := List.mem_singleton.mp hb
      rcases hg with rfl | rfl <;> decide

/-- A mark is read alike in front of bytes that are not of a mark. -/
theorem exponentMark_append (hv : ∀ b ∈ v.head?, b ∉ [0x65, 0x45, 0x2B, 0x2D]) (s : List UInt8) :
    exponentMark (exponentMark s ++ v) = exponentMark s := by
  rcases exponentMark_cases s with h | ⟨e, he, h⟩ | ⟨e, g, he, hg, h⟩
  · rw [h, List.nil_append]
    match v with
    | [] => rfl
    | b :: v =>
      have hb := hv b rfl
      simp only [List.mem_cons, not_or] at hb
      simp [exponentMark, hb]
  · rw [h, List.singleton_append]
    match v with
    | [] => simp [exponentMark, he]
    | b :: v =>
      have hb := hv b rfl
      simp only [List.mem_cons, not_or] at hb
      simp [exponentMark, he, hb]
  · rw [h]
    simp [exponentMark, he, hg]

theorem fraction_append (hv : ∀ b ∈ v.head?, isDigit b = false ∧ b ≠ 0x2E) (s : List UInt8) :
    fraction (fraction s ++ v) = fraction s := by
  have hnil : fraction v = [] := by
    obtain _ | ⟨b, _ | ⟨d, v⟩⟩ := v
    · rfl
    · rfl
    · have hb := (hv b rfl).2
      simp [fraction, hb]
  obtain _ | ⟨p, _ | ⟨d, r⟩⟩ := s
  · exact hnil
  · exact hnil
  · by_cases h : (p == 0x2E && isDigit d) = true
    · have hd : isDigit d = true := (Bool.and_eq_true _ _ ▸ h).2
      have htake : (d :: r).takeWhile isDigit = d :: r.takeWhile isDigit := by
        rw [List.takeWhile_cons, if_pos hd]
      have hfraction : fraction (p :: d :: r) = p :: d :: r.takeWhile isDigit := by
        rw [fraction, if_pos h, htake]
      have hrun := (takeWhile_of_class (f := isDigit) (w := d :: r.takeWhile isDigit) (r := v)
        (by simpa [hd] using fun b hb => List.mem_takeWhile_imp hb) fun b hb => (hv b hb).1).1
      rw [hfraction, List.cons_append, List.cons_append, fraction, if_pos h]
      rw [List.cons_append] at hrun
      rw [hrun]
    · have hfraction : fraction (p :: d :: r) = [] := by rw [fraction, if_neg h]
      rw [hfraction]
      exact hnil

/-- The parts of a number in front of what ends it. -/
structure IsNumber (whole part mark exponent rest : List UInt8) : Prop where
  digits : ∀ b ∈ whole, isDigit b = true
  point : fraction (part ++ (mark ++ (exponent ++ rest))) = part
  sign : exponentMark (mark ++ (exponent ++ rest)) = mark
  power : (mark = [] ∧ exponent = []) ∨ (mark ≠ [] ∧ exponent ≠ [] ∧
    (∀ b ∈ exponent, isDigit b = true) ∧ ∀ b ∈ rest.head?, isDigit b = false)
  ends : ∀ b ∈ (part ++ (mark ++ (exponent ++ rest))).head?, isDigit b = false
  apart : ∀ b ∈ rest.head?, isLetter b = false

variable {whole part mark exponent rest : List UInt8}

theorem IsNumber.decimal_eq (h : IsNumber whole part mark exponent rest) :
    decimal (whole ++ (part ++ (mark ++ (exponent ++ rest)))) =
      ⟨if part.isEmpty && mark.isEmpty then .integer else .real,
        (whole ++ part ++ mark ++ exponent).length, ⟨whole ++ part ++ mark ++ exponent⟩⟩ := by
  obtain ⟨hwhole, hpart, hmark, hexponent, hends, hapart⟩ := h
  obtain ⟨htake, hdrop⟩ := takeWhile_of_class hwhole hends
  have hrun : (if mark.isEmpty then [] else (exponent ++ rest).takeWhile isDigit) = exponent := by
    rcases hexponent with ⟨rfl, rfl⟩ | ⟨hne, _, hall, hrest⟩
    · rfl
    · rw [if_neg (by simpa using hne), (takeWhile_of_class hall hrest).1]
  have hfault : (!mark.isEmpty && exponent.isEmpty) = false := by
    rcases hexponent with ⟨rfl, rfl⟩ | ⟨_, hne, _⟩
    · rfl
    · simp [hne]
  have hletter : rest.head?.any isLetter = false := by
    cases rest with
    | nil => rfl
    | cons b rest => exact hapart b rfl
  simp only [decimal, htake, hdrop, hpart, List.drop_left, hmark, hrun, hfault, hletter,
    Bool.false_eq_true, ↓reduceIte]

/-- What is read as a number has its parts. -/
theorem exists_isNumber (hkind : (decimal s).kind ≠ .invalid) :
    ∃ whole part mark exponent rest, s = whole ++ (part ++ (mark ++ (exponent ++ rest))) ∧
      IsNumber whole part mark exponent rest := by
  unfold decimal at hkind
  extract_lets whole behind part tail mark power exponent rest written at hkind
  have hs : s = whole ++ behind := (List.takeWhile_append_dropWhile).symm
  have hpart : behind = part ++ tail := (fraction_append_drop behind).symm
  have hmark : tail = mark ++ power := (exponentMark_append_drop tail).symm
  have hexponent : power = exponent ++ rest := by
    have hpre : exponent <+: power := by
      unfold exponent
      split
      · exact List.nil_prefix
      · exact List.takeWhile_prefix isDigit
    exact (List.prefix_iff_eq_append.mp hpre).symm
  split at hkind
  · exact absurd rfl hkind
  rename_i hfault
  split at hkind
  · exact absurd rfl hkind
  rename_i hletter
  refine ⟨whole, part, mark, exponent, rest, ?_, ?_⟩
  · rw [← hexponent, ← hmark, ← hpart]
    exact hs
  constructor
  · exact fun b hb => List.mem_takeWhile_imp hb
  · rw [← hexponent, ← hmark, ← hpart]
  · rw [← hexponent, ← hmark]
  · by_cases hnone : mark = []
    · exact Or.inl ⟨hnone, by simp [exponent, hnone]⟩
    · have hrun : exponent = power.takeWhile isDigit := by
        simp [exponent, hnone]
      have hafter : rest = power.dropWhile isDigit := by
        apply (List.append_right_inj exponent).mp
        rw [← hexponent, hrun, List.takeWhile_append_dropWhile]
      refine Or.inr ⟨hnone, ?_, ?_, ?_⟩
      · simpa [hnone] using hfault
      · rw [hrun]
        exact fun b hb => List.mem_takeWhile_imp hb
      · rw [hafter]
        exact head?_dropWhile power
  · rw [← hexponent, ← hmark, ← hpart]
    exact head?_dropWhile s
  · intro b hb
    rw [Option.mem_def.mp hb] at hletter
    simpa using hletter

/-- In front of layout a number has the same parts. -/
theorem IsNumber.again (h : IsNumber whole part mark exponent rest) (hv : LayoutAhead v) :
    IsNumber whole part mark exponent v := by
  have hlayout {P : UInt8 → Prop} (hall : ∀ x ∈ [0x20, 0x09, 0x0D, 0x0A, 0x0C], P x) :
      ∀ b ∈ v.head?, P b := fun b hb => of_isLayout (hv b hb) hall
  have hpower : ∀ b ∈ (exponent ++ v).head?, b ∉ [0x65, 0x45, 0x2B, 0x2D] := by
    rcases h.power with ⟨_, rfl⟩ | ⟨_, hne, hdigits, _⟩
    · exact hlayout (by decide)
    · obtain ⟨d, ds, rfl⟩ := List.exists_cons_of_ne_nil hne
      intro b hb hmem
      obtain rfl : d = b := Option.some.inj hb
      have hnone : ∀ x ∈ [0x65, 0x45, 0x2B, 0x2D], isDigit x = false := by decide
      have hdigit := hdigits d List.mem_cons_self
      rw [hnone d hmem] at hdigit
      cases hdigit
  have hmark : ∀ b ∈ (mark ++ (exponent ++ v)).head?, isDigit b = false ∧ b ≠ 0x2E := by
    rcases h.power with ⟨rfl, rfl⟩ | ⟨hne, _⟩
    · exact hlayout (by decide)
    · intro b hb
      rw [List.head?_append_of_ne_nil _ hne, ← h.sign] at hb
      have hnone : ∀ x ∈ [0x65, 0x45, 0x2B, 0x2D], isDigit x = false ∧ x ≠ 0x2E := by decide
      exact hnone b (mem_exponentMark (List.mem_of_mem_head? hb))
  have hpart := fraction_append hmark (part ++ (mark ++ (exponent ++ rest)))
  have hsign := exponentMark_append hpower (mark ++ (exponent ++ rest))
  rw [h.point] at hpart
  rw [h.sign] at hsign
  refine ⟨h.digits, hpart, hsign, ?_, ?_, hlayout (by decide)⟩
  · exact h.power.imp_right fun ⟨hne, hexponent, hdigits, _⟩ =>
      ⟨hne, hexponent, hdigits, hlayout (by decide)⟩
  · by_cases hne : part = []
    · rw [hne]
      exact fun b hb => (hmark b hb).1
    · have hends := h.ends
      rw [List.head?_append_of_ne_nil _ hne] at hends ⊢
      exact hends

theorem ends_decimal {w u : List UInt8} (hkind : (decimal (w ++ u)).kind ≠ .invalid)
    (hsize : (decimal (w ++ u)).size = w.length) : Ends decimal w u := by
  obtain ⟨whole, part, mark, exponent, rest, hs, hnumber⟩ := exists_isNumber hkind
  have hread := hnumber.decimal_eq
  rw [hs, hread] at hsize
  obtain ⟨rfl, rfl⟩ : w = whole ++ part ++ mark ++ exponent ∧ u = rest := by
    apply List.append_inj _ hsize.symm
    simpa using hs
  have hagain {v : List UInt8} (hv : LayoutAhead v) := (hnumber.again hv).decimal_eq
  refine ⟨fun hlast => ?_, fun {v} hv => ?_⟩
  · have hmem := List.mem_of_getLast? hlast
    simp only [List.mem_append] at hmem
    rcases hmem with ((hmem | hmem) | hmem) | hmem
    · exact absurd (hnumber.digits _ hmem) (by decide)
    · rw [← hnumber.point] at hmem
      exact absurd (mem_fraction hmem) (by decide)
    · rw [← hnumber.sign] at hmem
      exact absurd (mem_exponentMark hmem) (by decide)
    · rcases hnumber.power with ⟨_, rfl⟩ | ⟨_, _, hdigits, _⟩
      · cases hmem
      · exact absurd (hdigits _ hmem) (by decide)
  · have hv := hagain hv
    simp only [List.append_assoc] at hv hread ⊢
    rw [hv, hread]

end Decimal

end Lexeme

/-- A byte begins a mark in front of layout if it does so anywhere. -/
theorem StandsAlone.of_layoutAhead {b x : UInt8} {v : List UInt8} (h : StandsAlone b x)
    (hv : LayoutAhead v) : StandsAlone b (v.headD 0) := by
  have hhead : isLetter (v.headD 0) = false ∧ isHexDigit (v.headD 0) = false ∧
      v.headD 0 ≠ 0x2A ∧ v.headD 0 ≠ 0x2F := by
    cases v with
    | nil => decide
    | cons y v =>
      exact of_isLayout (P := fun y => isLetter y = false ∧ isHexDigit y = false ∧ y ≠ 0x2A ∧
        y ≠ 0x2F) (hv y rfl) (by decide)
  obtain ⟨hletter, hhex, hparen, hline⟩ := hhead
  refine ⟨h.string, h.letter, h.digit, h.brace, fun h => ?_, fun h => ?_, fun h => hparen h.2,
    fun h => hline h.2⟩
  · exact absurd (hletter.symm.trans h.2) (by decide)
  · exact absurd (hhex.symm.trans h.2) (by decide)

section Blocks

variable {before word body close rest s u v : List UInt8}

/-- A word does not depend on what is behind it, except that it must not go on. -/
theorem IsWord.again (h : IsWord before word rest) (hv : ∀ b ∈ v.head?, isWordByte b = false) :
    IsWord before word v := ⟨h.letter, h.bytes, h.left, hv⟩

theorem IsWord.ne_nil (h : IsWord before word rest) : word ≠ [] := by
  obtain ⟨b, w, hword, _⟩ := h.letter
  rw [hword]
  exact List.cons_ne_nil b w

/-- A word `end` is one as well if more bytes follow. -/
theorem EndsWith.append (h : EndsWith before s body word rest)
    (hv : ∀ b ∈ v.head?, isWordByte b = false) :
    EndsWith before (s ++ v) body word (rest ++ v) := by
  refine ⟨by rw [h.split, List.append_assoc, List.append_assoc], h.whole.again fun b hb => ?_, h.fold⟩
  cases rest with
  | nil => exact hv b hb
  | cons x rest => exact h.whole.right b hb

/-- There is only one first word `end`. -/
theorem FirstEnd.unique {body' word' rest' : List UInt8} (h : FirstEnd before s body word rest)
    (h' : FirstEnd before s body' word' rest') : body = body' ∧ word = word' ∧ rest = rest' := by
  have hlen := Nat.le_antisymm (h.first h'.toEndsWith) (h'.first h.toEndsWith)
  obtain ⟨rfl, hbehind⟩ := List.append_inj (h.split.symm.trans h'.split) hlen
  obtain ⟨hword, hrest⟩ := h.whole.eq
  obtain ⟨hword', hrest'⟩ := h'.whole.eq
  rw [hbehind] at hword hrest
  exact ⟨rfl, hword.symm.trans hword', hrest.symm.trans hrest'⟩

/-- The first word `end` does not depend on what is behind it. -/
theorem FirstEnd.again (h : FirstEnd before (body ++ (word ++ rest)) body word rest)
    (hv : ∀ b ∈ v.head?, isWordByte b = false) :
    FirstEnd before (body ++ (word ++ v)) body word v := by
  have halone : EndsWith before (body ++ word) body word [] :=
    ⟨by rw [List.append_nil], h.whole.again (by simp), h.fold⟩
  rcases Cursor.breakOnEnd_spec before (body ++ word) with ⟨body', word', rest', hfound, hfirst⟩ |
    ⟨_, hnone⟩
  · -- In front of either end the same one is the first, so it is the first without any.
    have hmore := hfirst.append h.whole.right
    rw [List.append_assoc] at hmore
    have hlen := Nat.le_antisymm (h.first hmore) (hfirst.first halone)
    have hsame : FirstEnd before (body ++ word) body word [] :=
      ⟨halone, fun h' => hlen.trans_le (hfirst.first h')⟩
    obtain ⟨rfl, rfl, rfl⟩ := hfirst.unique hsame
    have hagain := Cursor.breakOnEnd_append hfound hv
    rw [List.append_assoc, List.nil_append] at hagain
    rcases Cursor.breakOnEnd_spec before (body' ++ (word' ++ v)) with ⟨x, y, z, hfound', hfirst'⟩ |
      ⟨hnone, _⟩
    · obtain ⟨rfl, rfl⟩ := Prod.mk.inj (Option.some.inj (hagain.symm.trans hfound'))
      have hsplit := hfirst'.split
      obtain rfl := List.append_cancel_right (List.append_cancel_left hsplit)
      exact hfirst'
    · cases hagain.symm.trans hnone
  · exact absurd halone (hnone _ _ _)

end Blocks

namespace Cursor

variable {c : Cursor} {p r w u v gap : List UInt8}

/-- The first bytes of a token on one line decide how it is read, whatever it was read in front of. -/
theorem Manner.Begins.ends {f : List UInt8 → Lexeme} (h : (Manner.lexeme f).Begins (w ++ u))
    (hne : w ≠ []) (hline : 0x0A ∉ w ++ u) (hvalid : (f (w ++ u)).kind ≠ .invalid)
    (hcode : (f (w ++ u)).kind ≠ .comment) (hsize : (f (w ++ u)).size = w.length) :
    Lexeme.Ends f w u ∧ ∀ {v : List UInt8}, LayoutAhead v → (Manner.lexeme f).Begins (w ++ v) := by
  obtain ⟨b, t, rfl⟩ := List.exists_cons_of_ne_nil hne
  generalize hs : b :: t ++ u = s at h
  cases h with
  | @string x s hx =>
    obtain ⟨rfl, _⟩ := List.cons.inj hs
    exact ⟨Lexeme.ends_string hline hvalid hsize hne, fun _ => .string hx⟩
  | @word x s hx hword =>
    refine ⟨Lexeme.ends_word hsize, fun {v} hv => ?_⟩
    obtain ⟨hrun, _, hagain⟩ := hv.takeWhile (by decide) hsize
    rw [hs] at hrun
    obtain ⟨rfl, _⟩ := List.cons.inj hs
    apply Manner.Begins.word hx
    rw [hrun] at hword
    change ¬ Text.sameFold ⟨(b :: t ++ v).takeWhile isWordByte⟩ "asm" = true
    rwa [hagain]
  | @escaped x s hx =>
    obtain ⟨hends, w', hw⟩ := Lexeme.ends_escapedWord hs hx hsize
    refine ⟨hends, fun {v} _ => ?_⟩
    rw [hw]
    exact .escaped hx
  | @decimal x s hx =>
    obtain ⟨rfl, _⟩ := List.cons.inj hs
    exact ⟨Lexeme.ends_decimal hvalid hsize, fun _ => .decimal hx⟩
  | @hexadecimal x s hx =>
    obtain ⟨hends, w', hw⟩ := Lexeme.ends_hexadecimal hs hx hsize
    refine ⟨hends, fun {v} _ => ?_⟩
    rw [hw]
    exact .hexadecimal hx
  | line => exact absurd rfl hcode
  | @mark x s hx =>
    obtain ⟨rfl, rfl⟩ := List.cons.inj hs
    refine ⟨Lexeme.ends_mark hsize hvalid, fun {v} hv => .mark ?_⟩
    cases t with
    | nil => exact hx.of_layoutAhead hv
    | cons y t => exact hx

/-- Bytes that are read as a token of this kind and text wherever they stand behind layout and in front
of layout or of the end. -/
def Freestands (kind : Kind) (text : Text) (w : List UInt8) : Prop :=
  ∀ {c : Cursor} {p gap v : List UInt8}, c.Rests p (gap ++ (w ++ v)) →
    (∀ b ∈ gap, isLayout b = true) → LayoutAhead v →
    c.next.1.kind = kind ∧ c.next.1.text = text ∧ c.next.2.Rests (p ++ gap ++ w) v

/-- Behind layout the cursor reads what is in front of it. -/
theorem Rests.faces (h : c.Rests p (gap ++ r)) (hgap : ∀ b ∈ gap, isLayout b = true) {b : UInt8}
    (hr : r.head? = some b) (hb : isLayout b = false) :
    c.seek.Faces (p ++ gap) r ∧ c.seek.Trimmed ∧ c.next = (mannerOf c.seek.here).read c.seek := by
  have hfaces := h.stands.faces hgap (by rintro rfl; cases hr) (by simpa [hr] using hb)
  exact ⟨hfaces, h.trimmed.passes c.seek_passes, next_eq hfaces.here⟩

/-- A token on one line stands freely. -/
theorem Faces.lexeme_freestands {d : Cursor} (h : d.Faces p r) {f : List UInt8 → Lexeme}
    (hm : mannerOf d.here = .lexeme f) (hlayout : ∀ b ∈ d.here.head?, isLayout b = false)
    (hvalid : (f d.here).kind ≠ .invalid) (hcode : (f d.here).kind ≠ .comment) :
    ∃ w u, r = w ++ u ∧ ((mannerOf d.here).read d).2.Stands (p ++ w) u ∧
      Freestands (f d.here).kind (f d.here).text w := by
  obtain ⟨b, here, hb⟩ := List.exists_cons_of_ne_nil h.here
  have hfits : (f d.here).Fits d.here := by
    have hcovers := mannerOf_covers b here
    rw [← hb, hm] at hcovers
    cases hcovers with
    | lexeme hf => exact hf
  have hbegins : (Manner.lexeme f).Begins d.here := by
    rw [← hm, hb]
    exact mannerOf_begins b here
  -- What is taken of the line is `w`, and `u` is left of it.
  obtain ⟨w, u, hhere, hsize⟩ : ∃ w u, d.here = w ++ u ∧ (f d.here).size = w.length := by
    refine ⟨d.here.take (f d.here).size, d.here.drop (f d.here).size,
      (List.take_append_drop _ _).symm, ?_⟩
    rw [List.length_take, Nat.min_eq_left hfits.le]
  have hne : w ≠ [] := by
    apply List.ne_nil_of_length_pos
    rw [← hsize]
    exact hfits.pos
  have hline : 0x0A ∉ w ++ u := by
    rw [← hhere]
    exact h.lines.notMem
  obtain ⟨tail, rfl, _⟩ := h.lines.split
  rw [hhere] at hm hbegins hvalid hcode hsize hlayout ⊢
  obtain ⟨hends, hagain⟩ := hbegins.ends hne hline hvalid hcode hsize
  rw [hhere, List.append_assoc] at h
  rw [List.append_assoc]
  have hread : f (w ++ u) = ⟨(f (w ++ u)).kind, w.length, (f (w ++ u)).text⟩ := by rw [← hsize]
  have htake := h.take hne hhere hm hread
  rw [hhere] at htake
  refine ⟨w, u ++ tail, rfl, htake.2, fun {c p gap v} hc hgap hv => ?_⟩
  obtain ⟨x, w, rfl⟩ := List.exists_cons_of_ne_nil hne
  obtain ⟨hfaces, _, hnext⟩ := hc.faces hgap rfl (hlayout x rfl)
  obtain ⟨y, hhere', hy⟩ := hfaces.lines.exists_here
    (fun hmem => hline (List.mem_append_left _ hmem)) hends.last
  have hlayout' : LayoutAhead y := fun b hb => hv b (hy b hb)
  have htake' := hfaces.take hne hhere' (hagain hlayout').eq ((hends.again hlayout').trans hread)
  have hstands := htake'.2
  rw [← hnext] at hstands htake'
  rw [htake'.1]
  exact ⟨rfl, rfl, hstands, hc.trimmed.next⟩

/-- An assembler block stands freely. -/
theorem Faces.block_freestands {d : Cursor} (h : d.Faces p r) (ht : d.Trimmed)
    (hm : mannerOf d.here = .assembler) (hvalid : d.assembler.1.kind ≠ .invalid) :
    ∃ w u, r = w ++ u ∧ d.assembler.2.Stands (p ++ w) u ∧
      Freestands d.assembler.1.kind d.assembler.1.text w := by
  obtain ⟨word, rest, rfl, hword⟩ := h.block_iff.mp hm
  obtain ⟨_, ⟨body, close, u, hfirst, hkind, htext, hstands⟩ | ⟨_, hinvalid⟩⟩ := h.assembler ht hword
  · obtain rfl := hfirst.split
    refine ⟨word ++ (body ++ close), u, by simp, hstands, fun {c p gap v} hc hgap hv => ?_⟩
    have hstop : ∀ b ∈ v.head?, isWordByte b = false :=
      fun b hb => of_isLayout (P := (isWordByte · = false)) (hv b hb) (by decide)
    obtain ⟨b, t, hbt, hletter⟩ := hword.whole.letter
    have hlayout : isLayout b = false := by
      by_contra hb
      have hnot := of_isLayout (P := (isLetter · = false)) (Bool.not_eq_false _ ▸ hb) (by decide)
      exact absurd (hnot.symm.trans hletter) (by decide)
    -- The block is not empty behind its first word, so that word is followed by the same byte.
    have hword' : BlockWord word (body ++ (close ++ v)) := by
      have hne : body ++ close ≠ [] := List.append_ne_nil_of_right_ne_nil _ hfirst.whole.ne_nil
      have hright := hword.whole.right
      refine ⟨hword.whole.again ?_, hword.fold⟩
      rw [← List.append_assoc, List.head?_append_of_ne_nil _ hne] at hright ⊢
      exact hright
    have hfirst' := hfirst.again hstop
    rw [List.append_assoc word, List.append_assoc body] at hc
    obtain ⟨hfaces, htrim, hnext⟩ := hc.faces hgap (by rw [hbt]; rfl) hlayout
    rw [hfaces.block_iff.mpr ⟨word, _, rfl, hword'⟩] at hnext
    obtain ⟨_, ⟨body', close', u', hfirst'', hkind', htext', hstands'⟩ | ⟨hnone, _⟩⟩ :=
      hfaces.assembler htrim hword'
    · obtain ⟨rfl, rfl, rfl⟩ := hfirst''.unique hfirst'
      rw [hkind, htext]
      have hrests := hc.trimmed.next
      rw [hnext] at hrests ⊢
      exact ⟨hkind', htext', hstands', hrests⟩
    · exact absurd hfirst'.toEndsWith (hnone _ _ _)
  · exact absurd hinvalid hvalid

/-- Every valid token but a comment stands freely. -/
theorem Rests.freestands (h : c.Rests p r) (hend : c.next.1.kind ≠ .eof)
    (hvalid : c.next.1.kind ≠ .invalid) (hcode : c.next.1.kind ≠ .comment) :
    ∃ gap w u, r = gap ++ (w ++ u) ∧ c.next.1.place = Place.first.behind (p ++ gap) ∧
      c.next.2.Rests (p ++ gap ++ w) u ∧ Freestands c.next.1.kind c.next.1.text w := by
  obtain ⟨gap, r, rfl, hfaces, htrim, hnext, hplace⟩ := h.next_faces hend
  have hread := h.trimmed.next
  have hlayout : ∀ b ∈ c.seek.here.head?, isLayout b = false :=
    seekFrom_head c c.line c.col c.here c.below
  have hdone {w u : List UInt8} (hr : r = w ++ u) (hstands : c.next.2.Stands (p ++ gap ++ w) u)
      (hfree : Freestands c.next.1.kind c.next.1.text w) :
      ∃ gap' w u, gap ++ r = gap' ++ (w ++ u) ∧ c.next.1.place = Place.first.behind (p ++ gap') ∧
        c.next.2.Rests (p ++ gap' ++ w) u ∧ Freestands c.next.1.kind c.next.1.text w :=
    ⟨gap, w, u, by rw [hr], hplace, ⟨hstands, hread⟩, hfree⟩
  rw [hnext] at hvalid hcode hdone ⊢
  cases hm : mannerOf c.seek.here with
  | lexeme f =>
    rw [hm] at hvalid hcode
    obtain ⟨w, u, hr, hstands, hfree⟩ := hfaces.lexeme_freestands hm hlayout hvalid hcode
    rw [hm] at hstands hdone
    exact hdone hr hstands hfree
  | comment skip close =>
    rw [hm] at hvalid hcode
    simp only [Manner.read, Cursor.comment] at hvalid hcode
    split at hvalid
    · rename_i st hst
      rw [hst] at hcode
      exact absurd rfl hcode
    · exact absurd rfl hvalid
  | assembler =>
    rw [hm] at hvalid hcode hdone
    obtain ⟨w, u, hr, hstands, hfree⟩ := hfaces.block_freestands htrim hm hvalid
    exact hdone hr hstands hfree

end Cursor
end ObjectPascal
