import ObjectPascal.Proofs.Token.Cursor
import ObjectPascal.Proofs.Token.Stretch

/-!
Assembler blocks. A block begins with the word `asm`, in whatever case, and goes on up to the first
word `end`. A word is a run of letters and digits that begins with a letter and is not the rest of
a longer run. The text of the token is what is between the two words, but its beginning is counted
three bytes behind the beginning of the first word: if that word is longer, the rest of it is taken
for text.
-/

namespace ObjectPascal

/-! How tokens begin. The first byte of a token, the byte behind it and, for a word, the whole word
decide how the token is read. Each case has its own condition, and each condition decides. -/

/-- A byte that a comment, a mark or a number with a sign in front may begin with, in front of a byte
that makes no such token of it. -/
structure StandsAlone (b peek : UInt8) : Prop where
  string : ¬ (b = 0x27 ∨ b = 0x23)
  letter : isLetter b = false
  digit : isDigit b = false
  brace : b ≠ 0x7B
  escaped : ¬ (b = 0x26 ∧ isLetter peek = true)
  hexadecimal : ¬ (b = 0x24 ∧ isHexDigit peek = true)
  paren : ¬ (b = 0x28 ∧ peek = 0x2A)
  line : ¬ (b = 0x2F ∧ peek = 0x2F)

namespace Cursor

/-- What the first bytes say about how a token is read. -/
inductive Manner.Begins : List UInt8 → Manner → Prop
  | string {b : UInt8} {s : List UInt8} (hb : b = 0x27 ∨ b = 0x23) :
      Begins (b :: s) (.lexeme Lexeme.string)
  | assembler {b : UInt8} {s : List UInt8} (hb : isLetter b = true)
      (h : Text.sameFold ⟨(b :: s).takeWhile isWordByte⟩ "asm" = true) : Begins (b :: s) .assembler
  | word {b : UInt8} {s : List UInt8} (hb : isLetter b = true)
      (h : ¬ Text.sameFold ⟨(b :: s).takeWhile isWordByte⟩ "asm" = true) :
      Begins (b :: s) (.lexeme Lexeme.word)
  | escaped {b : UInt8} {s : List UInt8} (hb : isLetter b = true) :
      Begins (0x26 :: b :: s) (.lexeme Lexeme.escapedWord)
  | decimal {b : UInt8} {s : List UInt8} (hb : isDigit b = true) :
      Begins (b :: s) (.lexeme Lexeme.decimal)
  | hexadecimal {b : UInt8} {s : List UInt8} (hb : isHexDigit b = true) :
      Begins (0x24 :: b :: s) (.lexeme Lexeme.hexadecimal)
  | brace {s : List UInt8} : Begins (0x7B :: s) (.comment 1 "\x7d")
  | paren {s : List UInt8} : Begins (0x28 :: 0x2A :: s) (.comment 2 "*)")
  | line {s : List UInt8} :
      Begins (0x2F :: 0x2F :: s) (.lexeme fun s => ⟨.comment, s.length, ⟨s⟩⟩)
  | mark {b : UInt8} {s : List UInt8} (h : StandsAlone b (s.headD 0)) :
      Begins (b :: s) (.lexeme Lexeme.mark)

theorem mannerOf_begins (b : UInt8) (s : List UInt8) : (mannerOf (b :: s)).Begins (b :: s) := by
  have hpeek {c : UInt8} (hc : c ≠ 0) (h : s.headD 0 = c) : ∃ t, s = c :: t := by
    cases s with
    | nil => exact absurd h.symm hc
    | cons x t => exact ⟨t, by rw [show x = c from h]⟩
  have hclass {f : UInt8 → Bool} (hf : f 0 = false) (h : f (s.headD 0) = true) :
      ∃ x t, s = x :: t ∧ f x = true := by
    cases s with
    | nil => exact absurd (hf.symm.trans h) (by decide)
    | cons x t => exact ⟨x, t, rfl, h⟩
  unfold mannerOf
  simp only
  split
  · rename_i hb
    exact .string hb
  rename_i hstring
  split
  · rename_i hb
    split
    · rename_i h
      exact .assembler hb h
    · rename_i h
      exact .word hb h
  rename_i hletter
  split
  · rename_i hb
    obtain ⟨rfl, hx⟩ := hb
    obtain ⟨x, t, rfl, hx⟩ := hclass rfl hx
    exact .escaped hx
  rename_i hescaped
  split
  · rename_i hb
    exact .decimal hb
  rename_i hdigit
  split
  · rename_i hb
    obtain ⟨rfl, hx⟩ := hb
    obtain ⟨x, t, rfl, hx⟩ := hclass rfl hx
    exact .hexadecimal hx
  rename_i hhex
  split
  · rename_i hb
    subst hb
    exact .brace
  rename_i hbrace
  split
  · rename_i hb
    obtain ⟨rfl, hx⟩ := hb
    obtain ⟨t, rfl⟩ := hpeek (by decide) hx
    exact .paren
  rename_i hparen
  split
  · rename_i hb
    obtain ⟨rfl, hx⟩ := hb
    obtain ⟨t, rfl⟩ := hpeek (by decide) hx
    exact .line
  rename_i hline
  exact .mark ⟨hstring, by simpa using hletter, by simpa using hdigit, hbrace, hescaped, hhex, hparen,
    hline⟩

theorem Manner.Begins.eq {s : List UInt8} {m : Manner} (h : m.Begins s) : mannerOf s = m := by
  have hletter {b : UInt8} (hb : isLetter b = true) : ¬ (b = 0x27 ∨ b = 0x23) := by
    grind [isLetter]
  have hdigit {b : UInt8} (hb : isDigit b = true) :
      ¬ (b = 0x27 ∨ b = 0x23) ∧ isLetter b = false ∧ b ≠ 0x26 := by
    grind [isDigit, isLetter]
  cases h with
  | string hb => rw [mannerOf, if_pos hb]
  | assembler hb h => rw [mannerOf, if_neg (hletter hb), if_pos hb, if_pos h]
  | word hb h => rw [mannerOf, if_neg (hletter hb), if_pos hb, if_neg h]
  | @escaped b s hb =>
    have hpeek : isLetter ((b :: s).headD 0) = true := hb
    simp only [mannerOf, hpeek]
    rfl
  | decimal hb =>
    obtain ⟨hstring, hnot, hescaped⟩ := hdigit hb
    simp only [mannerOf, hstring, hnot, hescaped, hb, false_and, Bool.false_eq_true, ↓reduceIte]
  | @hexadecimal b s hb =>
    have hpeek : isHexDigit ((b :: s).headD 0) = true := hb
    simp only [mannerOf, hpeek]
    rfl
  | brace => rfl
  | paren => rfl
  | line => rfl
  | mark h =>
    obtain ⟨hstring, hletter, hdigit, hbrace, hescaped, hhex, hparen, hline⟩ := h
    simp only [mannerOf, hstring, hletter, hdigit, hbrace, hescaped, hhex, hparen, hline,
      Bool.false_eq_true, ↓reduceIte]

/-- No token of one line is an assembler block. -/
theorem Manner.Begins.kind_ne_asm {s : List UInt8} {f : List UInt8 → Lexeme}
    (h : (Manner.lexeme f).Begins s) : (f s).kind ≠ .asm := by
  intro hasm
  cases h with
  | @string b s =>
    have hkind := Lexeme.string_kind (b :: s)
    rw [hasm] at hkind
    exact absurd hkind (by decide)
  | @word b s =>
    have hkind := Lexeme.word_kind (b :: s)
    rw [hasm] at hkind
    exact absurd hkind (by decide)
  | @decimal b s =>
    have hkind := (Lexeme.decimal_spec (b :: s)).2
    rw [hasm] at hkind
    exact absurd hkind (by decide)
  | mark =>
    have hall : ∀ m ∈ Lexeme.marks, m.2 ≠ .asm := by decide
    unfold Lexeme.mark at hasm
    split at hasm
    · rename_i m k hfound
      exact hall _ (List.mem_of_find?_eq_some hfound) hasm
    · cases hasm
  | escaped | hexadecimal | line => cases hasm

end Cursor

/-! Blocks. -/

/-- A word stands between what is before it and what is behind it: it begins with a letter, and
neither side goes on with it. -/
structure IsWord (before word rest : List UInt8) : Prop where
  letter : ∃ b w, word = b :: w ∧ isLetter b = true
  bytes : ∀ b ∈ word, isWordByte b = true
  left : ∀ b ∈ before.getLast?, isWordByte b = false
  right : ∀ b ∈ rest.head?, isWordByte b = false

/-- Behind `before`, some bytes are a body, a word `end` in whatever case, and the rest. -/
structure EndsWith (before s body word rest : List UInt8) : Prop where
  split : s = body ++ (word ++ rest)
  whole : IsWord (before ++ body) word rest
  fold : Text.sameFold ⟨word⟩ "end" = true

/-- The word is the first one that may end the body. -/
structure FirstEnd (before s body word rest : List UInt8) : Prop
    extends EndsWith before s body word rest where
  first {body' word' rest' : List UInt8} (h : EndsWith before s body' word' rest') :
    body.length ≤ body'.length

/-- The word `asm` in whatever case stands in front of the rest. -/
structure BlockWord (word rest : List UInt8) : Prop where
  whole : IsWord [] word rest
  fold : Text.sameFold ⟨word⟩ "asm" = true

section Words

variable {before word rest s : List UInt8}

/-- A word is told by where it begins. -/
theorem IsWord.eq (h : IsWord before word rest) :
    (word ++ rest).takeWhile isWordByte = word ∧ (word ++ rest).dropWhile isWordByte = rest :=
  takeWhile_of_class h.bytes h.right

theorem isWordByte_of_isLetter {b : UInt8} (h : isLetter b = true) : isWordByte b = true := by
  rw [isWordByte, h, Bool.true_or]

/-- The run of word bytes at a letter is a word. -/
theorem isWord_takeWhile {b : UInt8} (hb : isLetter b = true)
    (hleft : ∀ x ∈ before.getLast?, isWordByte x = false) (s : List UInt8) :
    IsWord before ((b :: s).takeWhile isWordByte) ((b :: s).dropWhile isWordByte) := by
  refine ⟨⟨b, s.takeWhile isWordByte, ?_, hb⟩, fun x hx => List.mem_takeWhile_imp hx, hleft,
    head?_dropWhile _⟩
  rw [List.takeWhile_cons, if_pos (isWordByte_of_isLetter hb)]

theorem isWordByte_of_break {b : UInt8} (hb : IsBreak b) :
    isWordByte b = false ∧ isLetter b = false := by
  rcases hb with rfl | rfl <;> exact ⟨rfl, rfl⟩

/-- A text has no more characters than bytes. -/
theorem runesFrom_length_le (skip : Nat) (s : List UInt8) :
    (Text.runesFrom skip s).length ≤ s.length := by
  induction s generalizing skip with
  | nil => cases skip <;> exact Nat.le_refl 0
  | cons a s ih =>
    cases skip with
    | zero => exact Nat.succ_le_succ (ih _)
    | succ skip => exact (ih skip).trans (Nat.le_succ _)

/-- The word in front of a block has three bytes, or more outside ASCII. -/
theorem BlockWord.length (h : BlockWord word rest) :
    3 ≤ word.length ∧ (Text.isAscii ⟨word⟩ = true → word.length = 3) := by
  have hfold := h.fold
  have hascii : (Text.ofString "asm").isAscii = true := by decide
  rw [Text.sameFold, hascii, Bool.and_true] at hfold
  split at hfold
  · have hlen := congrArg List.length (beq_iff_eq.mp hfold)
    rw [List.length_map, List.length_map] at hlen
    have hthree : word.length = 3 := hlen
    exact ⟨hthree.ge, fun _ => hthree⟩
  · rename_i hnot
    have hlen := congrArg List.length (beq_iff_eq.mp hfold)
    rw [List.length_map, List.length_map] at hlen
    have hle : (Text.chars ⟨word⟩).length ≤ word.length := by
      rw [Text.chars, List.length_map]
      exact runesFrom_length_le 0 word
    have hthree : (Text.chars "asm").length = 3 := by decide
    rw [hlen, hthree] at hle
    exact ⟨hle, fun h => absurd h hnot⟩

end Words

namespace Cursor

section Ends

variable {before acc s t q u l : List UInt8} {inside : Bool}

theorem breakOnEnd_acc (inside : Bool) (acc s : List UInt8) : breakOnEnd inside acc s =
    (breakOnEnd inside [] s).map fun found => (acc.reverse ++ found.1, found.2) := by
  induction s generalizing inside acc with
  | nil => rfl
  | cons c s ih =>
    unfold breakOnEnd
    split
    · simp
    · rw [ih _ (c :: acc), ih _ [c], Option.map_map]
      simp [Function.comp_def]

/-- Whether a word would be going on. -/
def touches (before : List UInt8) : Bool := before.getLast?.any isWordByte

theorem touches_append (before : List UInt8) (b : UInt8) :
    touches (before ++ [b]) = isWordByte b := by
  simp [touches]

/-- The search for the end of a block finds the first word `end`, and fails only if there is
none. -/
theorem breakOnEnd_spec (before s : List UInt8) :
    (∃ body word q, breakOnEnd (touches before) [] s = some (body, q) ∧
      FirstEnd before s body word q) ∨
    (breakOnEnd (touches before) [] s = none ∧ ∀ body word q, ¬ EndsWith before s body word q) := by
  induction s generalizing before with
  | nil =>
    refine Or.inr ⟨rfl, fun body word q h => ?_⟩
    obtain ⟨b, w, hword, _⟩ := h.whole.letter
    have hsplit := h.split
    simp [hword] at hsplit
  | cons c s ih =>
    have hleft : touches before = false → ∀ x ∈ before.getLast?, isWordByte x = false := by
      intro h x hx
      rw [touches, Option.mem_def.mp hx] at h
      exact h
    unfold breakOnEnd
    by_cases hfound : (isLetter c && !touches before &&
        Text.sameFold ⟨(c :: s).takeWhile isWordByte⟩ "end") = true
    · rw [if_pos hfound]
      simp only [Bool.and_eq_true, Bool.not_eq_true'] at hfound
      obtain ⟨⟨hletter, htouch⟩, hfold⟩ := hfound
      refine Or.inl ⟨[], (c :: s).takeWhile isWordByte, _, rfl, ⟨?_, ?_, hfold⟩,
        fun _ => Nat.zero_le _⟩
      · rw [List.nil_append, List.takeWhile_append_dropWhile]
      · rw [List.append_nil]
        exact isWord_takeWhile hletter (hleft htouch) s
    · rw [if_neg hfound]
      -- No word `end` begins here, so its body has the byte in front.
      have hbody {body word q : List UInt8} (h : EndsWith before (c :: s) body word q) :
          ∃ body', body = c :: body' ∧ EndsWith (before ++ [c]) s body' word q := by
        cases body with
        | nil =>
          obtain ⟨b, w, rfl, hb⟩ := h.whole.letter
          have hsplit : c :: s = b :: w ++ q := h.split
          obtain ⟨rfl, _⟩ := List.cons.inj hsplit
          have htouch : touches before = false := by
            rw [touches]
            cases hlast : before.getLast? with
            | none => rfl
            | some x => exact h.whole.left x (by simp [hlast])
          have hrun := h.whole.eq.1
          rw [← hsplit] at hrun
          have hfold := h.fold
          exact absurd (by rw [hb, htouch, hrun, hfold]; rfl) hfound
        | cons b body' =>
          obtain ⟨rfl, hsplit⟩ := List.cons.inj h.split
          refine ⟨body', rfl, hsplit, ?_, h.fold⟩
          rw [List.append_assoc]
          exact h.whole
      rw [breakOnEnd_acc, ← touches_append before c]
      rcases ih (before ++ [c]) with ⟨body, word, q, h, hfirst⟩ | ⟨h, hnone⟩
      · refine Or.inl ⟨c :: body, word, q, by rw [h]; rfl, ⟨?_, ?_, hfirst.fold⟩, fun h' => ?_⟩
        · rw [hfirst.split, List.cons_append]
        · have hword := hfirst.whole
          rwa [List.append_assoc] at hword
        · obtain ⟨body', rfl, hends⟩ := hbody h'
          exact Nat.succ_le_succ (hfirst.first hends)
      · refine Or.inr ⟨by rw [h]; rfl, fun body word q h' => ?_⟩
        obtain ⟨body', _, hends⟩ := hbody h'
        exact hnone _ _ _ hends

theorem breakOnEnd_of_break {b : UInt8} (hb : IsBreak b) (inside : Bool) (acc u : List UInt8) :
    breakOnEnd inside acc (b :: u) = breakOnEnd false (b :: acc) u := by
  obtain ⟨hword, hletter⟩ := isWordByte_of_break hb
  rw [breakOnEnd, hletter, hword]
  rfl

theorem bounded_breakOnEnd (inside : Bool) :
    Bounded (breakOnEnd inside []) (breakOnEnd false []) where
  splits {s text q} h := by
    obtain ⟨before, hbefore⟩ : ∃ before, touches before = inside := by
      cases inside with
      | false => exact ⟨[], rfl⟩
      | true => exact ⟨[0x61], rfl⟩
    rw [← hbefore] at h
    rcases breakOnEnd_spec before s with ⟨body, word, q', h', hfirst⟩ | ⟨hnone, _⟩
    · obtain ⟨rfl, rfl⟩ := Prod.mk.inj (Option.some.inj (h'.symm.trans h))
      obtain ⟨b, w, rfl, _⟩ := hfirst.whole.letter
      exact ⟨_, List.cons_ne_nil b w, hfirst.split⟩
    · cases hnone.symm.trans h
  stays h hu := breakOnEnd_append h fun b hb => (isWordByte_of_break (hu b hb)).1
  passes {l u b} h hb := by
    have hall (l acc : List UInt8) (inside : Bool) (h : breakOnEnd inside acc l = none) :
        breakOnEnd inside acc (l ++ b :: u) = breakOnEnd false (b :: (l.reverse ++ acc)) u := by
      induction l generalizing acc inside with
      | nil => exact breakOnEnd_of_break hb inside acc u
      | cons c l ih =>
        have htake := (takeWhile_before (f := isWordByte) (r := b :: u)
          (by simpa using (isWordByte_of_break hb).1) (c :: l)).1
        rw [List.cons_append] at htake
        unfold breakOnEnd at h
        rw [List.cons_append, breakOnEnd, htake]
        split at h
        · cases h
        · rename_i hnot
          rw [if_neg hnot, ih _ _ h]
          simp
    rw [hall l [] inside h, breakOnEnd_acc]
    simp
  empty := rfl

/-- The search passes the rest of a word. -/
theorem breakOnEnd_word (hs : ∀ b ∈ s, isWordByte b = true) (acc q : List UInt8) :
    breakOnEnd true acc (s ++ q) = breakOnEnd true (s.reverse ++ acc) q := by
  induction s generalizing acc with
  | nil => rfl
  | cons c s ih =>
    rw [List.cons_append, breakOnEnd, Bool.not_true, Bool.and_false, Bool.false_and,
      if_neg Bool.false_ne_true, hs c List.mem_cons_self,
      ih fun b hb => hs b (List.mem_cons_of_mem _ hb)]
    simp

end Ends

section Assembler

variable {c : Cursor} {p r word rest : List UInt8}

/-- On its line a cursor has the word that it has ahead. -/
theorem Faces.word_here (h : c.Faces p r) :
    r.takeWhile isWordByte = c.here.takeWhile isWordByte ∧
      ∃ here, c.here = r.takeWhile isWordByte ++ here := by
  obtain ⟨u, rfl, hu⟩ := h.lines.split
  have hrun := (takeWhile_before (fun b hb => (isWordByte_of_break (hu b hb)).1) c.here).1
  refine ⟨hrun, c.here.dropWhile isWordByte, ?_⟩
  rw [hrun, List.takeWhile_append_dropWhile]

/-- A block in front of the cursor is one token up to the first word `end`. Its text begins three
bytes behind the place of the block. Without such a word the token is invalid. -/
theorem Faces.assembler (h : c.Faces p (word ++ rest)) (ht : c.Trimmed)
    (hword : BlockWord word rest) :
    c.assembler.1.place = Place.first.behind p ∧
    ((∃ body e q, FirstEnd word rest body e q ∧ c.assembler.1.kind = .asm ∧
        c.assembler.1.text = Text.trim ⟨singleBreaks (word.drop 3 ++ body)⟩ ∧
        c.assembler.2.Stands (p ++ (word ++ (body ++ e))) q) ∨
      ((∀ body e q, ¬ EndsWith word rest body e q) ∧ c.assembler.1.kind = .invalid)) := by
  have hlen : (word.take 3).length = 3 := by
    rw [List.length_take, Nat.min_eq_left hword.length.1]
  have hsplit : word ++ rest = word.take 3 ++ (word.drop 3 ++ rest) := by
    rw [← List.append_assoc, List.take_append_drop]
  have htouch : touches word = true := by
    obtain ⟨b, w, hbw, _⟩ := hword.whole.letter
    rw [touches]
    cases hlast : word.getLast? with
    | none => simp [hbw] at hlast
    | some x => exact hword.whole.bytes x (List.mem_of_getLast? hlast)
  -- Behind the three bytes the rest of the word is passed, and then the end is searched.
  have hsearch : breakOnEnd true [] (word.drop 3 ++ rest) =
      (breakOnEnd (touches word) [] rest).map fun found => (word.drop 3 ++ found.1, found.2) := by
    rw [breakOnEnd_word (fun b hb => hword.whole.bytes b (List.mem_of_mem_drop hb)),
      breakOnEnd_acc, htouch]
    simp
  have hplace : c.count.place = Place.first.behind p := h.count.place
  obtain ⟨here, hhere⟩ := h.word_here.2
  rw [hword.whole.eq.1] at hhere
  have hanswers := h.count
  rw [hsplit] at hanswers
  have hline : c.count.here = word.take 3 ++ (word.drop 3 ++ here) := by
    rw [count_here, hhere, ← List.append_assoc, List.take_append_drop]
  have hanswers := hanswers.stretchHere_answers ht.count hline (bounded_breakOnEnd true)
    (bounded_breakOnEnd false)
  rw [hlen] at hanswers
  unfold Cursor.assembler
  simp only
  cases hstretch : c.count.stretchHere 3 (breakOnEnd true []) (breakOnEnd false []) with
  | none =>
    rw [hstretch] at hanswers
    cases hanswers with
    | missing hnone =>
      rw [hsearch, Option.map_eq_none_iff] at hnone
      rcases breakOnEnd_spec word rest with ⟨body, e, q, hsome, _⟩ | ⟨_, hends⟩
      · cases hnone.symm.trans hsome
      · exact ⟨hplace, Or.inr ⟨hends, rfl⟩⟩
  | some st =>
    rw [hstretch] at hanswers
    obtain ⟨text, extent, q, hsome, hextent, htext, hstands⟩ := hanswers.stands c.count
    rw [hsearch] at hsome
    obtain ⟨found, hfound, heq⟩ := Option.map_eq_some_iff.mp hsome
    obtain ⟨rfl, rfl⟩ := Prod.mk.inj heq
    rcases breakOnEnd_spec word rest with ⟨body, e, q, hsome', hfirst⟩ | ⟨hnone, _⟩
    · obtain rfl := Option.some.inj (hsome'.symm.trans hfound)
      refine ⟨hplace, Or.inl ⟨body, e, q, hfirst, rfl, ?_, ?_⟩⟩
      · change Text.trim ⟨st.text⟩ = _
        rw [htext, List.nil_append]
      · have hall : p ++ word.take 3 ++ extent = p ++ (word ++ (body ++ e)) := by
          apply (List.append_left_inj q).mp
          simp only [List.append_assoc]
          rw [← hextent, ← hsplit, hfirst.split]
        rwa [hall] at hstands
    · cases hnone.symm.trans hfound

end Assembler

/-- A token behind layout begins at the next byte that is no layout, or is the end token. -/
theorem Rests.next_faces {c : Cursor} {p r : List UInt8} (h : c.Rests p r)
    (hkind : c.next.1.kind ≠ .eof) : ∃ gap r', r = gap ++ r' ∧ c.seek.Faces (p ++ gap) r' ∧
      c.seek.Trimmed ∧ c.next = (mannerOf c.seek.here).read c.seek ∧
      c.next.1.place = Place.first.behind (p ++ gap) := by
  obtain ⟨gap, r', rfl, _, hfaces | ⟨hhere, _⟩⟩ := h.stands.seek
  · obtain ⟨b, here, hb⟩ := List.exists_cons_of_ne_nil hfaces.here
    have hcovers : (mannerOf c.seek.here).Covers c.seek.here := hb ▸ mannerOf_covers b here
    obtain ⟨_, _, _, _, _, _, hplace, _⟩ := hfaces.read hcovers
    have hnext := next_eq hfaces.here
    refine ⟨gap, r', rfl, hfaces, h.trimmed.passes c.seek_passes, hnext, ?_⟩
    rw [hnext, hplace, hfaces.place]
  · have hnext : c.next = (c.seek.eof, c.seek) := by
      rw [Cursor.next]
      simp only [hhere]
    exact absurd (by rw [hnext]; rfl) hkind

/-- No other manner of reading gives an assembler block. -/
theorem block_of_asm {c : Cursor} (hne : c.here ≠ [])
    (h : ((mannerOf c.here).read c).1.kind = .asm) : mannerOf c.here = .assembler := by
  obtain ⟨b, here, hb⟩ := List.exists_cons_of_ne_nil hne
  have hbegins := mannerOf_begins b here
  rw [← hb] at hbegins
  generalize mannerOf c.here = m at h hbegins ⊢
  cases m with
  | assembler => rfl
  | lexeme f =>
    exact absurd h hbegins.kind_ne_asm
  | comment skip close =>
    simp only [Manner.read, Cursor.comment] at h
    split at h <;> cases h

/-- Only the word `asm` begins a block. -/
theorem Faces.block_iff {c : Cursor} {p r : List UInt8} (h : c.Faces p r) :
    mannerOf c.here = .assembler ↔ ∃ word rest, r = word ++ rest ∧ BlockWord word rest := by
  obtain ⟨hrun, u, hu⟩ := h.word_here
  constructor
  · intro hmanner
    obtain ⟨b, here, hb⟩ := List.exists_cons_of_ne_nil h.here
    have hbegins := mannerOf_begins b here
    rw [← hb, hmanner, hb] at hbegins
    cases hbegins with
    | assembler hletter hfold =>
      obtain ⟨v, rfl, _⟩ := h.lines.split
      rw [← hb, ← hrun] at hfold
      refine ⟨_, _, List.takeWhile_append_dropWhile.symm, ?_, hfold⟩
      rw [hb]
      exact isWord_takeWhile hletter (by simp) (here ++ v)
  · rintro ⟨word, rest, rfl, hword⟩
    obtain ⟨b, w, hbw, hletter⟩ := hword.whole.letter
    rw [hword.whole.eq.1] at hrun hu
    have hbegins : Manner.Begins c.here .assembler := by
      rw [hu, hbw, List.cons_append]
      apply Manner.Begins.assembler hletter
      rw [← List.cons_append, ← hbw, ← hu, ← hrun]
      exact hword.fold
    exact hbegins.eq

end Cursor

namespace Scanner

/-- Assembler blocks end at the first word `end` behind the word that begins them. A token of a block
covers the word `asm`, a body and the word `end`; its text is the body with its line breaks written as
line feeds, behind what the first word has more than three bytes, and without the white space around.
No word of ASCII letters has more. Where the word `asm` comes next, there is such a token if there is a
word `end` behind it, and else an invalid one. -/
theorem assembler_blocks_end (s : Scanner) (source path : Text) (n : Nat)
    (hkind : ((s.open_ source path).token n).kind ≠ .eof) :
    (((s.open_ source path).token n).kind = .asm →
      ∃ word body close rest,
        source.bytes.drop ((s.open_ source path).begins source n) =
          word ++ (body ++ (close ++ rest)) ∧
        BlockWord word (body ++ (close ++ rest)) ∧
        FirstEnd word (body ++ (close ++ rest)) body close rest ∧
        (s.open_ source path).resumes source (n + 1) =
          (s.open_ source path).begins source n + (word ++ (body ++ close)).length ∧
        ((s.open_ source path).token n).text =
          Text.trim ⟨singleBreaks (word.drop 3 ++ body)⟩ ∧
        (Text.isAscii ⟨word⟩ = true → word.drop 3 = [])) ∧
    ∀ word rest, source.bytes.drop ((s.open_ source path).begins source n) = word ++ rest →
      BlockWord word rest →
      (((s.open_ source path).token n).kind = .asm ↔
        ∃ body close q, FirstEnd word rest body close q) ∧
      (((s.open_ source path).token n).kind = .invalid ↔
        ∀ body close q, ¬ EndsWith word rest body close q) := by
  obtain ⟨p, r, hat⟩ := (at_open s source path).after n
  generalize s.open_ source path = s at hat hkind ⊢
  obtain ⟨d, q, u, hrests, hsplit, _, htoken, hcursor, _⟩ := hat.next_eq
  change s.token n = d.next.1 at htoken
  rw [htoken] at hkind ⊢
  obtain ⟨gap, r', rfl, hfaces, htrim, hnext, hplace⟩ := hrests.next_faces hkind
  have hsource : source.bytes.drop source.markLength = q ++ gap ++ r' := by
    rw [hat.split, hsplit, List.append_assoc]
  have hbegins : s.begins source n = source.markLength + (q ++ gap).length := by
    rw [begins, htoken, hplace, Place.offset_behind hsource]
  have hahead : source.bytes.drop (s.begins source n) = r' := by
    rw [hbegins, ← List.drop_drop, hsource, List.drop_left]
  have hresumes : s.resumes source (n + 1) = d.next.2.offset source := by
    rw [← hcursor]
    rfl
  rw [hahead, hbegins, hresumes, hnext]
  refine ⟨fun hasm => ?_, fun word rest hr hword => ?_⟩
  · obtain ⟨word, rest, rfl, hword⟩ := hfaces.block_iff.mp (Cursor.block_of_asm hfaces.here hasm)
    rw [hfaces.block_iff.mpr ⟨word, rest, rfl, hword⟩] at hasm ⊢
    obtain ⟨_, ⟨body, close, x, hfirst, _, htext, hstands⟩ | ⟨_, hinvalid⟩⟩ :=
      hfaces.assembler htrim hword
    · obtain rfl := hfirst.split
      refine ⟨word, body, close, x, rfl, hword, hfirst, ?_, htext, fun hascii => ?_⟩
      · have hread : source.bytes.drop source.markLength =
            q ++ gap ++ (word ++ (body ++ close)) ++ x := by
          rw [hsource]
          simp
        have hoffset := hstands.offset hread
        rw [Cursor.Manner.read, hoffset, List.length_append, Nat.add_assoc]
      · rw [List.drop_eq_nil_iff, hword.length.2 hascii]
    · exact absurd (hasm.symm.trans hinvalid) (by decide)
  · subst hr
    rw [hfaces.block_iff.mpr ⟨word, rest, rfl, hword⟩, Cursor.Manner.read]
    obtain ⟨_, ⟨body, close, x, hfirst, hasm, _⟩ | ⟨hnone, hinvalid⟩⟩ :=
      hfaces.assembler htrim hword
    · rw [hasm]
      refine ⟨iff_of_true rfl ⟨body, close, x, hfirst⟩, iff_of_false (by decide) fun hno => ?_⟩
      exact hno body close x hfirst.toEndsWith
    · rw [hinvalid]
      refine ⟨iff_of_false (by decide) ?_, iff_of_true rfl hnone⟩
      rintro ⟨body, close, x, hfirst⟩
      exact hnone body close x hfirst.toEndsWith

theorem assembler_blocks_end_lines :
    (∃ word body close rest, (Text.ofString "asm\r\n nop\r\nEnd;").bytes =
        word ++ (body ++ (close ++ rest)) ∧
      BlockWord word (body ++ (close ++ rest)) ∧
      FirstEnd word (body ++ (close ++ rest)) body close rest ∧
      Text.trim ⟨singleBreaks (word.drop 3 ++ body)⟩ = "nop") ∧
    ∀ body close q, ¬ EndsWith (Text.ofString "Asm").bytes (Text.ofString " nop").bytes
      body close q := by
  have hends := (assembler_blocks_end {} "asm\r\n nop\r\nEnd;" ∅ 0 (by decide)).1 (by decide)
  have hopen := (assembler_blocks_end {} "Asm nop" ∅ 0 (by decide)).2 (Text.ofString "Asm").bytes
    (Text.ofString " nop").bytes (by decide)
    ⟨⟨⟨0x41, (Text.ofString "sm").bytes, by decide, by decide⟩, by decide, by decide, by decide⟩,
      by decide⟩
  constructor
  · obtain ⟨word, body, close, rest, hsplit, hword, hfirst, _, htext, _⟩ := hends
    refine ⟨word, body, close, rest, ?_, hword, hfirst, ?_⟩
    · rw [← hsplit]
      decide
    · rw [← htext]
      decide
  · exact hopen.2.mp (by decide)

/-- The word `asm` may be written with the long letter s, which has two bytes. Then the last letter of
the word is taken for text. -/
theorem assembler_text_long_word :
    (({} : Scanner).open_ "a\u017Fm nop end" ∅).begins "a\u017Fm nop end" 0 = 0 ∧
      ((({} : Scanner).open_ "a\u017Fm nop end" ∅).token 0).kind = .asm ∧
      BlockWord (Text.ofString "a\u017Fm").bytes (Text.ofString " nop end").bytes ∧
      FirstEnd (Text.ofString "a\u017Fm").bytes (Text.ofString " nop end").bytes
        (Text.ofString " nop ").bytes (Text.ofString "end").bytes [] ∧
      ((({} : Scanner).open_ "a\u017Fm nop end" ∅).token 0).text = "m nop" ∧
      Text.trim ⟨singleBreaks (Text.ofString " nop ").bytes⟩ = "nop" := by
  refine ⟨by decide +kernel, by decide +kernel, ⟨⟨⟨0x61, (Text.ofString "\u017Fm").bytes, by decide, by decide⟩,
    by decide, by decide, by decide⟩, by decide +kernel⟩, ?_, by decide +kernel, by decide⟩
  have hsearch : Cursor.breakOnEnd (Cursor.touches (Text.ofString "a\u017Fm").bytes) []
      (Text.ofString " nop end").bytes = some ((Text.ofString " nop ").bytes, []) := by decide
  rcases Cursor.breakOnEnd_spec (Text.ofString "a\u017Fm").bytes (Text.ofString " nop end").bytes with
    ⟨body, word, q, hfound, hfirst⟩ | ⟨hnone, _⟩
  · obtain ⟨rfl, rfl⟩ := Prod.mk.inj (Option.some.inj (hsearch.symm.trans hfound))
    obtain rfl : (Text.ofString "end").bytes = word := by
      apply (List.append_right_inj (Text.ofString " nop ").bytes).mp
      have hsplit := hfirst.split
      rw [List.append_nil] at hsplit
      rw [← hsplit]
      decide
    exact hfirst
  · cases hsearch.symm.trans hnone

end Scanner
end ObjectPascal
