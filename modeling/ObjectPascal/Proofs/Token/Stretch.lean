import ObjectPascal.Proofs.Token.Position

/-!
Tokens that run over lines. A cursor looks for their end mark line by line, and it is handed the lines
without the carriage returns at their ends. No end mark holds a line break, so this comes to the same
as a search in all the bytes ahead; and the text that is found is the text of these bytes with each
line break written as a single line feed.
-/

namespace ObjectPascal

/-- A byte that a line break is made of. -/
def IsBreak (b : UInt8) : Prop := b = 0x0D ∨ b = 0x0A

instance (b : UInt8) : Decidable (IsBreak b) := inferInstanceAs (Decidable (_ ∨ _))

/-- A text with each line break, that is a line feed and the carriage returns directly in front of it,
written as a single line feed. -/
def singleBreaks : List UInt8 → List UInt8
  | [] => []
  | b :: s =>
    if b = 0x0D ∧ (s.dropWhile (· == 0x0D)).head? = some 0x0A then singleBreaks s
    else b :: singleBreaks s

section Breaks

variable {l cut r s : List UInt8}

/-- Within a line there is nothing to rewrite. -/
theorem singleBreaks_of_notMem (h : 0x0A ∉ s) : singleBreaks s = s := by
  induction s with
  | nil => rfl
  | cons b s ih =>
    rw [List.mem_cons, not_or] at h
    rw [singleBreaks, if_neg, ih h.2]
    rintro ⟨_, hhead⟩
    exact h.2 ((List.dropWhile_suffix _).subset (List.mem_of_mem_head? hhead))

theorem singleBreaks_cut (hcut : ∀ b ∈ cut, b = 0x0D) :
    singleBreaks (cut ++ 0x0A :: r) = 0x0A :: singleBreaks r := by
  have hfeed : (0x0A : UInt8) ≠ 0x0D := by decide
  induction cut with
  | nil => simp [singleBreaks]
  | cons b cut ih =>
    have hrest := fun x hx => hcut x (List.mem_cons_of_mem _ hx)
    have hdrop := (takeWhile_of_class (f := fun b => b == 0x0D) (w := cut) (r := 0x0A :: r)
      (fun x hx => by simp [hrest x hx]) (by simp)).2
    rw [List.cons_append, singleBreaks, if_pos, ih hrest]
    rw [hdrop]
    exact ⟨hcut b List.mem_cons_self, rfl⟩

/-- A line that does not end with a carriage return is kept, and the break behind it is rewritten. -/
theorem singleBreaks_line (hl : 0x0A ∉ l) (hlast : l.getLast? ≠ some 0x0D)
    (hcut : ∀ b ∈ cut, b = 0x0D) :
    singleBreaks (l ++ (cut ++ 0x0A :: r)) = l ++ 0x0A :: singleBreaks r := by
  induction l with
  | nil => exact singleBreaks_cut hcut
  | cons b l ih =>
    rw [List.mem_cons, not_or] at hl
    have hlast' : l.getLast? ≠ some 0x0D := by
      cases l with
      | nil => simp
      | cons x l => rwa [List.getLast?_cons_cons] at hlast
    rw [List.cons_append, singleBreaks, if_neg, ih hl.2 hlast', List.cons_append]
    rintro ⟨rfl, hhead⟩
    -- Not all of the line is carriage returns, so the next other byte is still in it.
    have hother : ∃ x ∈ l, ¬ (x == 0x0D) = true := by
      by_contra hall
      simp only [not_exists, not_and, not_not, beq_iff_eq] at hall
      rw [List.getLast?_cons] at hlast
      cases hend : l.getLast? with
      | none => simp [hend] at hlast
      | some x => simp [hend, hall x (List.mem_of_getLast? hend)] at hlast
    obtain ⟨x, hx, hne⟩ := hother
    have hdrop : (l.dropWhile (· == 0x0D)) ≠ [] := by
      intro hnil
      exact hne (List.dropWhile_eq_nil_iff.mp hnil x hx)
    rw [List.dropWhile_append, if_neg (by simpa using hdrop), List.head?_append_of_ne_nil _ hdrop]
      at hhead
    exact hl.2 ((List.dropWhile_suffix _).subset (List.mem_of_mem_head? hhead))

end Breaks

namespace Cursor

/-- A search that takes the same end mark in a line and in all the bytes ahead, where `find` goes on
with it behind a line break: it finds a mark of its line whatever is behind the line, and finds none
over the end of a line. -/
structure Bounded (first find : List UInt8 → Option (List UInt8 × List UInt8)) : Prop where
  splits {s text q : List UInt8} (h : first s = some (text, q)) :
    ∃ mark, mark ≠ [] ∧ s = text ++ (mark ++ q)
  stays {l text q u : List UInt8} (h : first l = some (text, q)) (hu : ∀ b ∈ u.head?, IsBreak b) :
    first (l ++ u) = some (text, q ++ u)
  passes {l u : List UInt8} {b : UInt8} (h : first l = none) (hb : IsBreak b) :
    first (l ++ b :: u) = (find u).map fun found => (l ++ b :: found.1, found.2)
  empty : find [] = none

section Bounded

variable {first find : List UInt8 → Option (List UInt8 × List UInt8)} {l cut r : List UInt8}

theorem Bounded.carry (hg : Bounded find find) (hcut : ∀ b ∈ cut, b = 0x0D) (r : List UInt8) :
    find (cut ++ 0x0A :: r) = (find r).map fun found => (cut ++ 0x0A :: found.1, found.2) := by
  induction cut with
  | nil => exact hg.passes hg.empty (Or.inr rfl)
  | cons b cut ih =>
    have hpass := hg.passes (u := cut ++ 0x0A :: r) hg.empty (Or.inl (hcut b List.mem_cons_self))
    rw [ih fun x hx => hcut x (List.mem_cons_of_mem _ hx), Option.map_map] at hpass
    exact hpass

/-- Without a mark on the line the search goes on below. -/
theorem Bounded.crosses (hf : Bounded first find) (hg : Bounded find find) (h : first l = none)
    (hcut : ∀ b ∈ cut, b = 0x0D) (r : List UInt8) : first (l ++ (cut ++ 0x0A :: r)) =
      (find r).map fun found => (l ++ (cut ++ 0x0A :: found.1), found.2) := by
  cases cut with
  | nil => exact hf.passes h (Or.inr rfl)
  | cons b cut =>
    have hpass := hf.passes (u := cut ++ 0x0A :: r) h (Or.inl (hcut b List.mem_cons_self))
    rw [hg.carry fun x hx => hcut x (List.mem_cons_of_mem _ hx), Option.map_map] at hpass
    exact hpass

theorem Bounded.ends (hf : Bounded first find) (hg : Bounded find find) (h : first l = none)
    (hcut : ∀ b ∈ cut, b = 0x0D) : first (l ++ cut) = none := by
  have hnone : ∀ cut : List UInt8, (∀ b ∈ cut, b = 0x0D) → find cut = none := by
    intro cut hcut
    induction cut with
    | nil => exact hg.empty
    | cons b cut ih =>
      have hpass := hg.passes (u := cut) hg.empty (Or.inl (hcut b List.mem_cons_self))
      rwa [ih fun x hx => hcut x (List.mem_cons_of_mem _ hx)] at hpass
  cases cut with
  | nil => rwa [List.append_nil]
  | cons b cut =>
    rw [hf.passes h (Or.inl (hcut b List.mem_cons_self)),
      hnone cut fun x hx => hcut x (List.mem_cons_of_mem _ hx)]
    rfl

variable {pat : List UInt8}

theorem breakOn_acc (acc s : List UInt8) : breakOn pat acc s =
    (breakOn pat [] s).map fun found => (acc.reverse ++ found.1, found.2) := by
  induction s generalizing acc with
  | nil => rfl
  | cons c s ih =>
    unfold breakOn
    split
    · simp
    · rw [ih (c :: acc), ih [c], Option.map_map]
      simp [Function.comp_def]

/-- A mark without line breaks does not begin on a line and end behind it. -/
theorem not_isPrefix_of_break (hpat : ∀ b ∈ pat, ¬ IsBreak b) (h : ¬ pat <+: l) {b : UInt8}
    (hb : IsBreak b) (u : List UInt8) : ¬ pat <+: l ++ b :: u := by
  intro hpre
  have hlong : l.length < pat.length := by
    by_contra hle
    exact h (List.prefix_of_prefix_length_le hpre (List.prefix_append _ _) (Nat.le_of_not_lt hle))
  have hmem : b ∈ pat := by
    obtain ⟨v, hv⟩ := hpre
    have hget : (pat ++ v)[l.length]? = some b := by rw [hv]; simp
    rw [List.getElem?_append_left hlong] at hget
    exact List.mem_of_getElem? hget
  exact hpat b hmem hb

theorem bounded_breakOn (hne : pat ≠ []) (hpat : ∀ b ∈ pat, ¬ IsBreak b) :
    Bounded (breakOn pat []) (breakOn pat []) where
  splits {s text q} h := by
    induction s generalizing text with
    | nil => cases h
    | cons c s ih =>
      unfold breakOn at h
      split at h
      · rename_i hfound
        obtain ⟨v, hv⟩ := List.isPrefixOf_iff_prefix.mp hfound
        obtain ⟨rfl, rfl⟩ := Prod.mk.inj (Option.some.inj h)
        exact ⟨pat, hne, by rw [← hv]; simp⟩
      · rw [breakOn_acc] at h
        obtain ⟨found, hfound, heq⟩ := Option.map_eq_some_iff.mp h
        obtain ⟨rfl, rfl⟩ := Prod.mk.inj heq
        obtain ⟨mark, hmark, rfl⟩ := ih hfound
        exact ⟨mark, hmark, rfl⟩
  stays {l text q u} h _ := breakOn_append h u
  passes {l u b} h hb := by
    have hall (l acc : List UInt8) (h : breakOn pat acc l = none) :
        breakOn pat acc (l ++ b :: u) = breakOn pat (b :: (l.reverse ++ acc)) u := by
      induction l generalizing acc with
      | nil =>
        have hno := not_isPrefix_of_break hpat (l := []) (by simpa using hne) hb u
        rw [List.nil_append, breakOn, if_neg (by rwa [List.isPrefixOf_iff_prefix])]
        rfl
      | cons c l ih =>
        unfold breakOn at h
        split at h
        · cases h
        · rename_i hnot
          rw [List.isPrefixOf_iff_prefix] at hnot
          have hno := not_isPrefix_of_break hpat hnot hb u
          rw [List.cons_append, breakOn, if_neg (by rwa [List.isPrefixOf_iff_prefix]), ih _ h]
          simp
    rw [hall l [] h, breakOn_acc]
    simp
  empty := rfl

end Bounded

section Stretches

variable {first find : List UInt8 → Option (List UInt8 × List UInt8)} {c : Cursor}
variable {below : List (List UInt8)} {l p r w : List UInt8}

theorem Lines.split (h : Lines (l :: below) r) :
    ∃ u, r = l ++ u ∧ ∀ b ∈ u.head?, IsBreak b := by
  cases h with
  | @last _ cut _ hcut =>
    exact ⟨cut, rfl, fun b hb => Or.inl (hcut b (List.mem_of_mem_head? hb))⟩
  | @cons _ cut r _ _ hcut _ =>
    refine ⟨cut ++ 0x0A :: r, rfl, fun b hb => ?_⟩
    cases cut with
    | nil => exact Or.inr (Option.some.inj hb).symm
    | cons x cut => exact Or.inl (hcut b (List.mem_of_mem_head? hb))

/-- A search line by line, from a place on with the bytes `r`, answers as the search in all these
bytes does. What it finds is the text with its breaks rewritten behind `front`, the place behind the
mark and the lines ahead there. -/
inductive Answers (find : List UInt8 → Option (List UInt8 × List UInt8)) (place : Place)
    (r front : List UInt8) : Option Stretch → Prop
  | missing (h : find r = none) : Answers find place r front none
  | found {st : Stretch} {text extent q : List UInt8} (h : find r = some (text, q))
      (hr : r = extent ++ q) (htext : st.text = front ++ singleBreaks text)
      (hplace : (⟨st.line, st.col + 1⟩ : Place) = place.behind extent) (hcol : 0 < st.col)
      (hlines : Lines (st.here :: st.below) q) : Answers find place r front (some st)

/-- What is found on a line is found in the bytes from there on. -/
theorem Bounded.found_here (hf : Bounded first find) (hlines : Lines (l :: below) r)
    {text q : List UInt8} (h : first l = some (text, q)) :
    ∃ extent r', l = extent ++ q ∧ extent ≠ [] ∧ 0x0A ∉ extent ∧ r = extent ++ r' ∧
      first r = some (text, r') ∧ Lines (q :: below) r' ∧ singleBreaks text = text := by
  obtain ⟨mark, hmark, hl⟩ := hf.splits h
  obtain ⟨u, hr, hu⟩ := hlines.split
  have hfeed : 0x0A ∉ text ++ mark := by
    intro hmem
    apply hlines.notMem
    rw [hl, ← List.append_assoc]
    exact List.mem_append_left _ hmem
  rw [← List.append_assoc] at hl
  obtain ⟨r', hr', hrest⟩ := Lines.advance (hl ▸ hlines)
  have hstays := hf.stays h hu
  obtain rfl : r' = q ++ u := by
    apply (List.append_right_inj (text ++ mark)).mp
    rw [← hr', hr, hl, List.append_assoc]
  refine ⟨text ++ mark, q ++ u, hl, by simp [hmark], hfeed, hr', by rw [hr, hstays], hrest, ?_⟩
  exact singleBreaks_of_notMem fun hmem => hfeed (List.mem_append_left _ hmem)

/-- Over the lines below. -/
theorem stretch_answers (hg : Bounded find find) (line : Nat) (hlines : Lines below r)
    (htrim : ∀ l ∈ below, l.getLast? ≠ some 0x0D) :
    Answers find ⟨line + 1, 1⟩ r [0x0A] (stretch find line below) := by
  induction below generalizing line r with
  | nil =>
    obtain rfl := hlines.eq_nil
    exact .missing hg.empty
  | cons next below ih =>
    unfold stretch
    cases hfind : find next with
    | some found =>
      obtain ⟨text, q⟩ := found
      obtain ⟨extent, r', rfl, hne, hfeed, rfl, hr, hrest, htext⟩ := hg.found_here hlines hfind
      have hcol : (extent ++ q).length - q.length = extent.length := by
        rw [List.length_append, Nat.add_sub_cancel]
      refine .found hr rfl (by simp [htext]) ?_ ?_ hrest
      · rw [Place.behind_of_notMem hfeed]
        simp only [hcol, Nat.add_comm 1]
      · simp only [hcol]
        exact List.length_pos_of_ne_nil hne
    | none =>
      cases hlines with
      | last _ hcut => exact .missing (hg.ends hg hfind hcut)
      | @cons _ cut r _ hline hcut hbelow =>
        have hcross := hg.crosses hg hfind hcut r
        have hrest := ih (line + 1) hbelow fun l hl => htrim l (List.mem_cons_of_mem _ hl)
        generalize stretch find (line + 1) below = answer at hrest ⊢
        cases hrest with
        | missing h => exact .missing (by rw [hcross, h]; rfl)
        | @found st text extent q h hr htext hplace hcol hlines =>
          have hskip : 0x0A ∉ next ++ cut := by
            rw [List.mem_append, not_or]
            exact ⟨hline, fun hmem => absurd (hcut _ hmem) (by decide)⟩
          have hbreaks := singleBreaks_line (r := text) hline (htrim next List.mem_cons_self) hcut
          refine .found (by rw [hcross, h]; rfl)
            (show _ = next ++ cut ++ 0x0A :: extent ++ q by simp [hr]) (by simp [htext, hbreaks]) ?_ hcol hlines
          rw [Place.behind_lineFeed hskip]
          exact hplace

/-- From the bytes behind `w` on the line of the cursor on. -/
theorem Faces.stretchHere_answers (h : c.Faces p (w ++ r)) (ht : c.Trimmed) {rest : List UInt8}
    (hhere : c.here = w ++ rest) (hf : Bounded first find) (hg : Bounded find find) :
    Answers first (Place.first.behind (p ++ w)) r [] (c.stretchHere w.length first find) := by
  obtain ⟨hplace, hlines, _⟩ := h
  rw [hhere] at hlines
  have hfeed : 0x0A ∉ w := fun hmem => hlines.notMem (List.mem_append_left _ hmem)
  have hbehind : Place.first.behind (p ++ w) = ⟨c.line, c.col + w.length + 1⟩ := by
    rw [Place.behind_append, ← hplace, Place.behind_of_notMem hfeed]
    simp only [Cursor.place, Nat.add_right_comm]
  obtain ⟨r', hr, hlines⟩ := hlines.advance
  obtain rfl := List.append_cancel_left hr
  rw [Cursor.stretchHere, hhere, List.drop_left]
  cases hfirst : first rest with
  | some found =>
    obtain ⟨text, q⟩ := found
    obtain ⟨extent, r', rfl, hne, hfeed', rfl, hr, hrest, htext⟩ := hf.found_here hlines hfirst
    have hcol : (w ++ (extent ++ q)).length - q.length = w.length + extent.length := by
      simp only [List.length_append]
      omega
    refine .found hr rfl (by simp [htext]) ?_ ?_ hrest
    · rw [hbehind, Place.behind_of_notMem hfeed']
      simp only [hcol, Place.mk.injEq, true_and]
      omega
    · have hpos := List.length_pos_of_ne_nil hne
      simp only [hcol]
      omega
  | none =>
    have hlast : rest.getLast? ≠ some 0x0D := by
      apply getLast?_ne_of_append w
      rw [← hhere]
      exact ht _ List.mem_cons_self
    have htrim : ∀ l ∈ c.below, l.getLast? ≠ some 0x0D :=
      fun l hl => ht l (List.mem_cons_of_mem _ hl)
    dsimp only
    generalize c.below = below at hlines htrim
    cases hlines with
    | last _ hcut => exact .missing (hf.ends hg hfirst hcut)
    | @cons _ cut r _ hline hcut hbelow =>
      have hcross := hf.crosses hg hfirst hcut r
      have hrest := stretch_answers hg c.line hbelow htrim
      generalize stretch find c.line below = answer at hrest ⊢
      cases hrest with
      | missing h => exact .missing (by rw [hcross, h]; rfl)
      | @found st text extent q h hr htext hplace hcol hlines =>
        have hskip : 0x0A ∉ rest ++ cut := by
          rw [List.mem_append, not_or]
          exact ⟨hline, fun hmem => absurd (hcut _ hmem) (by decide)⟩
        have hbreaks := singleBreaks_line (r := text) hline hlast hcut
        refine .found (by rw [hcross, h]; rfl)
          (show _ = rest ++ cut ++ 0x0A :: extent ++ q by simp [hr]) (by simp [htext, hbreaks]) ?_ hcol hlines
        rw [hbehind, Place.behind_lineFeed hskip]
        exact hplace

/-- Behind a stretch the cursor has read up to the end of its mark. -/
theorem Answers.stands {front : List UInt8} {st : Stretch}
    (h : Answers first (Place.first.behind p) r front (some st)) (c : Cursor) :
    ∃ text extent q, first r = some (text, q) ∧ r = extent ++ q ∧
      st.text = front ++ singleBreaks text ∧ (c.behind st).Stands (p ++ extent) q := by
  cases h with
  | @found _ text extent q h hr htext hplace hcol hlines =>
    refine ⟨text, extent, q, h, hr, htext, .within ?_ hlines fun _ => hcol⟩
    rw [Place.behind_append]
    exact hplace

end Stretches

end Cursor
end ObjectPascal
