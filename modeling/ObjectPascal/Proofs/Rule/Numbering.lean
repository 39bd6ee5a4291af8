import Mathlib.Data.List.Forall2
import Mathlib.Data.List.Nodup
import ObjectPascal.Parse
import ObjectPascal.Proofs.Grammar.Cells

/-!
The grammar of the language numbers its phrases in the order in which rules name them. Every number
stands for one phrase, production `i + 1` is rule `i` with the numbers of its phrases, and every
phrase has a rule; so the grammar has tables.
-/

namespace ObjectPascal

namespace Grammar

/-- The number or kind that a part stands for. -/
def Denotes (g : Grammar) : Symbol → Part → Prop
  | .terminal k, .token l => k = l
  | .nonterminal n, .name s => g.names[n]? = some s
  | _, _ => False

/-- All names keep their numbers, and the only new ones are those asked for. -/
structure Renamed (g g' : Grammar) (asked : String → Prop) : Prop where
  kept : ∀ (n : Nat) (s : String), g.names[n]? = some s → g'.names[n]? = some s
  new : ∀ s ∈ g'.names, s ∈ g.names ∨ asked s
  nodup : g.names.toList.Nodup → g'.names.toList.Nodup

namespace Renamed

theorem refl (g : Grammar) (asked : String → Prop) : Renamed g g asked :=
  ⟨fun _ _ h => h, fun _ h => Or.inl h, fun h => h⟩

theorem trans {g g' g'' : Grammar} {asked asked' : String → Prop} (h : Renamed g g' asked)
    (k : Renamed g' g'' asked') : Renamed g g'' fun s => asked s ∨ asked' s := by
  refine ⟨fun n s hs => k.kept n s (h.kept n s hs), fun s hs => ?_, fun hn => k.nodup (h.nodup hn)⟩
  rcases k.new s hs with hs | hs
  · exact (h.new s hs).imp id Or.inl
  · exact Or.inr (Or.inr hs)

theorem denotes {g g' : Grammar} {asked : String → Prop} (h : Renamed g g' asked) {x : Symbol}
    {p : Part} (hx : g.Denotes x p) : g'.Denotes x p := by
  cases x with
  | terminal k =>
    cases p with
    | token l => exact hx
    | name s => exact hx
  | nonterminal n =>
    cases p with
    | token l => exact hx
    | name s => exact h.kept n s hx

end Renamed

theorem intern_renamed (g : Grammar) (name : String) :
    Renamed g (g.intern name).1 (· = name) ∧
      (g.intern name).1.names[(g.intern name).2]? = some name := by
  unfold intern
  split
  · rename_i n hn
    refine ⟨.refl g _, ?_⟩
    obtain ⟨hlt, hfound, _⟩ := Array.findIdx?_eq_some_iff_getElem.mp hn
    rw [Array.getElem?_eq_getElem hlt, eq_of_beq hfound]
  · rename_i hnone
    have hfresh : name ∉ g.names := by
      intro hmem
      have hfound := Array.findIdx?_eq_none_iff.mp hnone name hmem
      simp at hfound
    refine ⟨⟨fun n s hs => ?_, fun s hs => ?_, fun hn => ?_⟩, by simp⟩
    · have hlt : n < g.names.size := (Array.getElem?_eq_some_iff.mp hs).1
      rw [Array.getElem?_push_lt hlt, ← hs, Array.getElem?_eq_getElem]
    · exact Array.mem_push.mp hs
    · rw [Array.toList_push, List.nodup_append]
      refine ⟨hn, by simp, fun s hs s' hs' heq => ?_⟩
      rw [List.mem_singleton.mp hs'] at heq
      exact hfresh (heq ▸ Array.mem_toList_iff.mp hs)

theorem symbolsOf_renamed (g : Grammar) (ps : List Part) :
    Renamed g (g.symbolsOf ps).1 (fun s => .name s ∈ ps) ∧
      List.Forall₂ (g.symbolsOf ps).1.Denotes (g.symbolsOf ps).2 ps := by
  induction ps generalizing g with
  | nil => exact ⟨.refl g _, .nil⟩
  | cons p ps ih =>
    -- The first part is named first, and naming the rest keeps its number.
    have hfirst : Renamed g (g.symbolOf p).1 (fun s => p = .name s) ∧
        (g.symbolOf p).1.Denotes (g.symbolOf p).2 p := by
      cases p with
      | token k => exact ⟨.refl g _, rfl⟩
      | name s =>
        obtain ⟨hrenamed, hname⟩ := g.intern_renamed s
        refine ⟨⟨hrenamed.kept, fun s' hs' => ?_, hrenamed.nodup⟩, hname⟩
        exact (hrenamed.new s' hs').imp id fun heq => congrArg Part.name heq.symm
    obtain ⟨hrest, hall⟩ := ih (g.symbolOf p).1
    have htrans := hfirst.1.trans hrest
    simp only [symbolsOf]
    refine ⟨⟨htrans.kept, fun s hs => ?_, htrans.nodup⟩, .cons (hrest.denotes hfirst.2) hall⟩
    rcases htrans.new s hs with hs | hs | hs
    · exact Or.inl hs
    · exact Or.inr (hs ▸ List.mem_cons_self)
    · exact Or.inr (List.mem_cons_of_mem _ hs)

/-- A rule adds one production, which says what the rule says. -/
theorem rule_renamed (g : Grammar) (lhs : String) (rhs : List Part) (prec : Option Kind) :
    ∃ p : Production, (g.rule lhs rhs prec).productions = g.productions.push p ∧
      (g.rule lhs rhs prec).names[p.lhs]? = some lhs ∧
      List.Forall₂ (g.rule lhs rhs prec).Denotes p.rhs rhs ∧
      Renamed g (g.rule lhs rhs prec) fun s => s = lhs ∨ .name s ∈ rhs := by
  obtain ⟨hlhs, hname⟩ := g.intern_renamed lhs
  obtain ⟨hrhs, hall⟩ := (g.intern lhs).1.symbolsOf_renamed rhs
  have hprods := ((g.intern lhs).1.symbolsOf_spec rhs).1
  rw [intern_productions] at hprods
  have htrans := hlhs.trans hrhs
  refine ⟨_, by simp only [rule, hprods]; rfl, hrhs.kept _ _ hname, ?_, htrans.kept, htrans.new,
    htrans.nodup⟩
  exact hall.imp fun x p hx => hx

end Grammar

namespace Rule

namespace Phrase

theorem ctorIdx_inj {p q : Phrase} (h : p.ctorIdx = q.ctorIdx) : p = q := by
  rw [← ofNat_ctorIdx p, h, ofNat_ctorIdx]

theorem ctorIdx_lt (p : Phrase) : p.ctorIdx < 122 := by cases p <;> decide

set_option maxRecDepth 40000 in
/-- Every phrase has a rule. -/
theorem exists_rule (p : Phrase) : ∃ r ∈ all, r.lhs = p := by
  -- The constructors of all left-hand sides as one set of numbers, which is computed fast.
  have hset : all.foldl (fun s r => s ∪ .single r.lhs.ctorIdx) ∅ = (⟨2 ^ 122 - 1⟩ : NatSet) := by
    decide
  have hmem : p.ctorIdx ∈ all.foldl (fun s r => s ∪ .single r.lhs.ctorIdx) (∅ : NatSet) := by
    rw [hset, NatSet.mem_def, NatSet.contains, Nat.testBit_two_pow_sub_one]
    exact decide_eq_true p.ctorIdx_lt
  rw [NatSet.mem_foldl (P := fun r n => n = r.lhs.ctorIdx) (by simp),
    or_iff_right (NatSet.notMem_empty _)] at hmem
  obtain ⟨r, hr, heq⟩ := hmem
  exact ⟨r, hr, ctorIdx_inj heq.symm⟩

/-- The bytes of a name as the digits of one number, which is faster to compare. -/
def nameKey (p : Phrase) : Nat :=
  p.name.toByteArray.data.toList.foldl (fun n b => n * 256 + b.toNat) 0

set_option maxRecDepth 20000 in
theorem name_inj {p q : Phrase} (h : p.name = q.name) : p = q := by
  have hnodup : ((List.range 122).map fun i => (ofNat i).nameKey).Nodup := by decide
  have hkey : (ofNat p.ctorIdx).nameKey = (ofNat q.ctorIdx).nameKey := by
    rw [ofNat_ctorIdx, ofNat_ctorIdx, nameKey, nameKey, h]
  exact ctorIdx_inj (List.inj_on_of_nodup_map hnodup (List.mem_range.mpr p.ctorIdx_lt)
    (List.mem_range.mpr q.ctorIdx_lt) hkey)

/-- A statement is no list of statements. -/
example : Phrase.stmt.name ≠ Phrase.stmtList.name := by decide +kernel

theorem name_ne_accept (p : Phrase) : p.name ≠ "$accept" := by cases p <;> decide

end Phrase

/-- The grammar says what the given rules say, production `i + 1` what rule `i` says. -/
structure Numbered (g : Grammar) (rs : List Rule) : Prop where
  built : g.Built
  nodup : g.names.toList.Nodup
  goal : g.names[0]? = some "$accept"
  start : ∃ n, (g.production 0).rhs = [.nonterminal n] ∧ g.names[n]? = some Phrase.goal.name
  size : g.productions.size = rs.length + 1
  tells : ∀ i r, rs[i]? = some r → g.names[(g.production (i + 1)).lhs]? = some r.lhs.name ∧
    List.Forall₂ g.Denotes (g.production (i + 1)).rhs (r.rhs.map Sym.part)
  phrase : ∀ s ∈ g.names, s = "$accept" ∨ ∃ p : Phrase, s = p.name

namespace Numbered

variable {g : Grammar} {rs : List Rule}

theorem rule (h : Numbered g rs) (r : Rule) :
    Numbered (g.rule r.lhs.name (r.rhs.map Sym.part) r.prec) (rs ++ [r]) := by
  obtain ⟨p, hprods, hlhs, hrhs, hnames⟩ :=
    g.rule_renamed r.lhs.name (r.rhs.map Sym.part) r.prec
  obtain ⟨hold, hnew⟩ := Grammar.production_push hprods
  have hsize := h.size
  refine ⟨h.built.rule _ _ _, hnames.nodup h.nodup, hnames.kept _ _ h.goal, ?_, ?_, ?_, ?_⟩
  · obtain ⟨n, hn, hname⟩ := h.start
    exact ⟨n, by rw [hold 0 (by omega), hn], hnames.kept _ _ hname⟩
  · rw [hprods, Array.size_push, hsize, List.length_append, List.length_singleton]
  · intro i r' hr'
    -- An old rule keeps its production and the numbers in it; the new rule has the last production.
    by_cases hi : i < rs.length
    · rw [List.getElem?_append_left hi] at hr'
      obtain ⟨hl, hall⟩ := h.tells i r' hr'
      rw [hold (i + 1) (by omega)]
      exact ⟨hnames.kept _ _ hl, hall.imp fun x p hx => hnames.denotes hx⟩
    · have hlt := (List.getElem?_eq_some_iff.mp hr').1
      rw [List.length_append, List.length_singleton] at hlt
      obtain rfl : i = rs.length := by omega
      obtain rfl : r = r' := by simpa using hr'
      rw [← hsize, hnew]
      exact ⟨hlhs, hrhs⟩
  · intro s hs
    rcases hnames.new s hs with hs | rfl | hs
    · exact h.phrase s hs
    · exact Or.inr ⟨r.lhs, rfl⟩
    · obtain ⟨sym, _, hsym⟩ := List.mem_map.mp hs
      cases sym with
      | token k => cases hsym
      | phrase q => exact Or.inr ⟨q, (Grammar.Part.name.inj hsym).symm⟩

theorem foldl (h : Numbered g rs) (rs' : List Rule) :
    Numbered (rs'.foldl (fun g r => g.rule r.lhs.name (r.rhs.map Sym.part) r.prec) g)
      (rs ++ rs') := by
  induction rs' generalizing g rs with
  | nil => rwa [List.append_nil]
  | cons r rs' ih =>
    rw [← List.singleton_append, ← List.append_assoc]
    exact ih (h.rule r)

theorem number_inj (h : Numbered g rs) {m n : Nat} {s : String} (hm : g.names[m]? = some s)
    (hn : g.names[n]? = some s) : m = n := by
  rw [← Array.getElem?_toList] at hm hn
  exact (List.getElem?_inj (List.getElem?_eq_some_iff.mp hm).1 h.nodup).mp (hm.trans hn.symm)

/-- A symbol of the grammar stands for one symbol of the rules. -/
theorem sym_unique {x : Symbol} {a b : Sym} (ha : g.Denotes x a.part) (hb : g.Denotes x b.part) :
    a = b := by
  cases x with
  | terminal k =>
    cases a with
    | phrase p => cases ha
    | token l =>
      cases b with
      | phrase q => cases hb
      | token m => exact congrArg Sym.token ((show k = l from ha).symm.trans hb)
  | nonterminal n =>
    cases a with
    | token l => cases ha
    | phrase p =>
      cases b with
      | token m => cases hb
      | phrase q =>
        have hname : some p.name = some q.name :=
          (show g.names[n]? = some p.name from ha).symm.trans hb
        exact congrArg Sym.phrase (Phrase.name_inj (Option.some.inj hname))

/-- The goal of the whole input stands for no phrase. -/
theorem zero_denotes (h : Numbered g rs) {a : Sym} (ha : g.Denotes (.nonterminal 0) a.part) :
    False := by
  cases a with
  | token k => cases ha
  | phrase p =>
    have hname : some p.name = some "$accept" :=
      (show g.names[0]? = some p.name from ha).symm.trans h.goal
    exact p.name_ne_accept (Option.some.inj hname)

/-- Each production but the first is that of a rule. -/
theorem exists_rule (h : Numbered g rs) {i : Nat} (hi : i < g.productions.size) (hne : i ≠ 0) :
    ∃ r, rs[i - 1]? = some r ∧ g.Denotes (.nonterminal (g.production i).lhs) (.name r.lhs.name) ∧
      List.Forall₂ g.Denotes (g.production i).rhs (r.rhs.map Sym.part) := by
  obtain ⟨j, rfl⟩ := Nat.exists_eq_succ_of_ne_zero hne
  have hj : j < rs.length := by
    have hsize := h.size
    omega
  exact ⟨rs[j], List.getElem?_eq_getElem hj, h.tells j rs[j] (List.getElem?_eq_getElem hj)⟩

theorem unreserved (h : Numbered g rs) : g.Unreserved := by
  refine ⟨fun i hi hpos hzero => ?_, fun i hi hmem => ?_⟩
  · obtain ⟨r, _, hlhs, _⟩ := h.exists_rule hi (by omega)
    rw [hzero] at hlhs
    exact h.zero_denotes (a := .phrase r.lhs) hlhs
  · by_cases hne : i = 0
    · subst hne
      obtain ⟨n, hn, hname⟩ := h.start
      rw [hn, List.mem_singleton] at hmem
      obtain rfl : 0 = n := Symbol.nonterminal.inj hmem
      exact h.zero_denotes (a := .phrase .goal) hname
    · obtain ⟨r, _, _, hrhs⟩ := h.exists_rule hi hne
      obtain ⟨j, hj, hget⟩ := List.mem_iff_getElem.mp hmem
      have hlen := hrhs.length_eq
      have hdenotes := hrhs.get hj (hlen ▸ hj)
      simp only [List.get_eq_getElem, hget, List.getElem_map] at hdenotes
      exact h.zero_denotes hdenotes

/-- If every phrase has a rule, the grammar is usable. -/
theorem fault_eq_none (h : Numbered g rs) (hall : ∀ p : Phrase, ∃ r ∈ rs, r.lhs = p) :
    g.fault? = none := by
  obtain ⟨n, hn, _⟩ := h.start
  have hdefined (m : Nat) (hm : m < g.nonterminalCount) : g.isDefined m = true := by
    have hget : g.names[m]? = some g.names[m] := Array.getElem?_eq_getElem hm
    suffices ∃ i < g.productions.size, (g.production i).lhs = m by
      obtain ⟨i, hi, hlhs⟩ := this
      rw [Grammar.production_eq_getElem hi] at hlhs
      exact Array.any_eq_true.mpr ⟨i, hi, by simpa using hlhs⟩
    rcases h.phrase _ (Array.getElem_mem hm) with hname | ⟨p, hname⟩
    · -- The goal of the whole input has the start production.
      rw [hname] at hget
      obtain rfl := h.number_inj hget h.goal
      exact ⟨0, h.built.wellFormed.size_pos, h.built.wellFormed.goal_lhs⟩
    · obtain ⟨r, hr, rfl⟩ := hall p
      obtain ⟨i, hi, hri⟩ := List.mem_iff_getElem.mp hr
      have hlhs := (h.tells i r (hri ▸ List.getElem?_eq_getElem hi)).1
      rw [hname] at hget
      exact ⟨i + 1, by rw [h.size]; omega, h.number_inj hlhs hget⟩
  have hfind : ((List.range g.nonterminalCount).find? fun m => !g.isDefined m) = none := by
    rw [List.find?_eq_none]
    intro m hm
    simp [hdefined m (List.mem_range.mp hm)]
  simp [Grammar.fault?, hn, hfind]

end Numbered

theorem grammar_numbered : Numbered grammar all := by
  have hnames : (leveled.start Phrase.goal.name).names = #["$accept", "goal"] := by cbv
  have hprods : (leveled.start Phrase.goal.name).productions = #[⟨0, [.nonterminal 1], 0⟩] := by
    cbv
  have hbuilt : (leveled.start Phrase.goal.name).Built := by
    refine .start ?_ _
    exact .declare (.declare (.declare (.declare (.declare (.declare (.declare (.declare
      .empty _ _) _ _) _ _) _ _) _ _) _ _) _ _) _ _
  have hstart : Numbered (leveled.start Phrase.goal.name) [] := by
    refine ⟨hbuilt, ?_, by rw [hnames]; rfl, ⟨1, ?_, by rw [hnames]; rfl⟩, ?_, by simp, ?_⟩
    · rw [hnames]
      decide
    · simp [Grammar.production, hprods, Array.getD]
    · rw [hprods]
      rfl
    · rw [hnames]
      intro s hs
      obtain rfl | rfl : s = "$accept" ∨ s = "goal" := by simpa using hs
      · exact Or.inl rfl
      · exact Or.inr ⟨.goal, rfl⟩
  exact hstart.foldl all

theorem ofProduction_eq_some {i : Nat} {r : Rule} (h : ofProduction? i = some r) :
    ∃ j, i = j + 1 ∧ all[j]? = some r := by
  cases i with
  | zero => cases h
  | succ j => exact ⟨j, rfl, by simpa [ofProduction?, table] using h⟩

/-- A production says what its rule says. -/
theorem tells_of_production {i : Nat} {r : Rule} (h : ofProduction? i = some r) :
    r ∈ all ∧ grammar.names[(grammar.production i).lhs]? = some r.lhs.name ∧
      List.Forall₂ grammar.Denotes (grammar.production i).rhs (r.rhs.map Sym.part) := by
  obtain ⟨j, rfl, hget⟩ := ofProduction_eq_some h
  exact ⟨List.mem_of_getElem? hget, grammar_numbered.tells j r hget⟩

/-- Every rule has a production. -/
theorem exists_production {r : Rule} (hr : r ∈ all) : ∃ i, ofProduction? i = some r := by
  obtain ⟨i, hget⟩ := List.mem_iff_getElem?.mp hr
  exact ⟨i + 1, by simpa [ofProduction?, table] using hget⟩

/-- The language has tables. -/
theorem exists_languageTables : ∃ t, languageTables = .ok t := by
  rw [languageTables]
  exact Grammar.exists_tables (grammar_numbered.fault_eq_none Phrase.exists_rule)

end Rule
end ObjectPascal
