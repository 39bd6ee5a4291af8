import ObjectPascal.Proofs.Grammar.Termination
import ObjectPascal.Proofs.Rule.Typing

/-!
Termination of a parse of the language. A ranking of the phrases shows that no phrase derives
itself and that there is no hidden left recursion in the rules; no rule uses the end of the input.
So the parse of every source ends, with a goal or a rejection.
-/

namespace ObjectPascal.Rule

open Grammar

/-- The phrases that can be empty. -/
def Phrase.vanishes : Phrase → Bool
  | .progParamsOpt | .requiresOpt | .containsOpt | .usesOpt | .optSemi | .declsOpt
  | .intfDeclsOpt | .varInitOpt | .resultOpt | .paramsOpt | .defaultOpt | .directivesOpt
  | .externalOpt | .heritageOpt | .guidOpt | .ofObjectOpt | .variantOpt | .vfieldsOpt
  | .membersOpt | .propIfaceOpt | .propSpecsOpt | .propDefaultOpt | .stmtList | .stmt
  | .caseElseOpt | .exceptBody => true
  | _ => false

/-- How many phrases in a row can each be all that is left of the one before, or come behind empty
phrases in it. -/
def Phrase.rank : Phrase → Nat
  | .goal | .identList | .qualident | .labelId | .blockBody | .declSection | .intfSection
  | .constDecls | .rsDecls | .typeDecls | .varDecl | .exportItem | .routineName | .paramGroup
  | .directivesOpt | .enumItem | .heritageOpt | .member | .fieldDecl | .propSpecList
  | .handlerList | .designator | .fieldInits => 2
  | .usesItem | .qualidentList | .declList | .intfDeclList | .labelList | .varDecls
  | .exportList | .paramGroups | .namedType | .enumList | .vfieldList | .memberList
  | .propSpecsOpt | .stmt | .primary => 3
  | .usesList | .block | .declsOpt | .intfDeclsOpt | .paramType | .subrangeType | .vfieldsOpt
  | .memberSeq | .stmtList | .expr => 4
  | .externalOpt | .type | .membersOpt | .caseLabel | .exceptBody | .exprList | .setElem
  | .typedConst => 5
  | .indexList | .variantItem | .caseArm | .caseLabelList | .setElems | .typedConstList => 6
  | .variantList | .caseArms => 7
  | _ => 1

namespace Sym

/-- Tokens stay. -/
def vanishes : Sym → Bool
  | .token _ => false
  | .phrase p => p.vanishes

/-- Tokens rank below all phrases. -/
def rank : Sym → Nat
  | .token _ => 0
  | .phrase p => p.rank

end Sym

/-- A clause of units may be left out. -/
example : Phrase.vanishes .usesOpt = true := by decide +kernel

set_option maxRecDepth 20000 in
/-- Every rule descends, and none uses the end of the input. -/
theorem all_descend : ∀ r ∈ all, (r.rhs.all Sym.vanishes = true → r.lhs.vanishes = true) ∧
    Descends Sym.vanishes Sym.rank r.lhs.rank true r.rhs = true ∧ .token .eof ∉ r.rhs := by
  have hall : (all.all fun r => (!r.rhs.all Sym.vanishes || r.lhs.vanishes) &&
      Descends Sym.vanishes Sym.rank r.lhs.rank true r.rhs && !r.rhs.contains (.token .eof)) =
      true := by decide
  intro r hr
  have h := List.all_eq_true.mp hall r hr
  simp only [Bool.and_eq_true, Bool.or_eq_true, Bool.not_eq_true', List.contains_eq_mem,
    decide_eq_false_iff_not] at h
  refine ⟨fun hv => h.1.1.resolve_left (by simp [hv]), h.1.2, h.2⟩

section Symbols

/-- The phrase that a number of the grammar stands for. -/
noncomputable def phraseAt (n : Nat) : Option Phrase :=
  open Classical in
  if h : ∃ p : Phrase, grammar.names[n]? = some p.name then some h.choose else none

theorem phraseAt_eq {n : Nat} {p : Phrase} (h : grammar.names[n]? = some p.name) :
    phraseAt n = some p := by
  have hex : ∃ q : Phrase, grammar.names[n]? = some q.name := ⟨p, h⟩
  rw [phraseAt, dif_pos hex]
  exact congrArg some (Phrase.name_inj (Option.some.inj (hex.choose_spec.symm.trans h)))

/-- Whether a symbol of the grammar can be empty. -/
noncomputable def symbolVanishes : Symbol → Bool
  | .terminal _ => false
  | .nonterminal n => (phraseAt n).any Phrase.vanishes

/-- The rank of a symbol of the grammar. The goal of the whole input ranks above its phrase. -/
noncomputable def symbolRank : Symbol → Nat
  | .terminal _ => 0
  | .nonterminal n =>
    match phraseAt n with
    | some p => p.rank
    | none => 3

/-- A symbol vanishes and ranks as what it stands for. -/
theorem symbol_of_denotes {x : Symbol} {a : Sym} (h : grammar.Denotes x a.part) :
    symbolVanishes x = a.vanishes ∧ symbolRank x = a.rank := by
  cases x with
  | terminal k =>
    cases a with
    | token l => exact ⟨rfl, rfl⟩
    | phrase p => cases h
  | nonterminal n =>
    cases a with
    | token l => cases h
    | phrase p =>
      have hp := phraseAt_eq (p := p) h
      exact ⟨by rw [symbolVanishes, hp]; rfl, by rw [symbolRank, hp]; rfl⟩

theorem forall_symbol_of_denotes {xs : List Symbol} {as : List Sym}
    (h : List.Forall₂ grammar.Denotes xs (as.map Sym.part)) :
    List.Forall₂ (fun x a => symbolVanishes x = a.vanishes ∧ symbolRank x = a.rank) xs as := by
  rw [List.forall₂_map_right_iff] at h
  exact h.imp fun _ _ => symbol_of_denotes

end Symbols

/-- A token ranks below the phrases. -/
example : Sym.rank (.token .plus) = 0 := by decide +kernel

/-- The ranking of the phrases is one of the grammar. -/
theorem grammar_ranked : Ranked grammar symbolVanishes symbolRank := by
  have hw := grammar_numbered.built.wellFormed
  obtain ⟨n, hstart, hname⟩ := grammar_numbered.start
  have hgoal := symbol_of_denotes (x := .nonterminal n) (a := .phrase .goal) hname
  have hzero : phraseAt 0 = none := by
    rw [phraseAt, dif_neg]
    rintro ⟨p, hp⟩
    exact grammar_numbered.zero_denotes (a := .phrase p) hp
  have hrank : symbolRank (.nonterminal 0) = 3 := by rw [symbolRank, hzero]
  refine ⟨fun i hi hv => ?_, fun i hi => ?_⟩
  · by_cases hne : i = 0
    · subst hne
      simp [hstart, hgoal.1, Sym.vanishes, Phrase.vanishes] at hv
    · obtain ⟨r, hr, hlhs, hrhs⟩ := grammar_numbered.exists_rule hi hne
      have hl := symbol_of_denotes (a := .phrase r.lhs) hlhs
      rw [all_congr ((forall_symbol_of_denotes hrhs).imp fun _ _ => And.left)] at hv
      rw [hl.1]
      exact (all_descend r (List.mem_of_getElem? hr)).1 hv
  · by_cases hne : i = 0
    · subst hne
      rw [hstart, hw.goal_lhs, hrank]
      simp [Descends, hgoal.2, Sym.rank, Phrase.rank]
    · obtain ⟨r, hr, hlhs, hrhs⟩ := grammar_numbered.exists_rule hi hne
      have hl := symbol_of_denotes (a := .phrase r.lhs) hlhs
      rw [hl.2, Descends.congr (forall_symbol_of_denotes hrhs)]
      exact (all_descend r (List.mem_of_getElem? hr)).2.1

theorem grammar_endFree : grammar.EndFree := by
  intro i hi hmem
  by_cases hne : i = 0
  · subst hne
    obtain ⟨n, hstart, _⟩ := grammar_numbered.start
    simp [hstart] at hmem
  · obtain ⟨r, hr, _, hrhs⟩ := grammar_numbered.exists_rule hi hne
    obtain ⟨j, hj, hget⟩ := List.mem_iff_getElem.mp hmem
    have hlen : (grammar.production i).rhs.length = r.rhs.length := by
      rw [hrhs.length_eq, List.length_map]
    have hdenotes := hrhs.get hj (by rw [List.length_map]; omega)
    simp only [List.get_eq_getElem, hget, List.getElem_map] at hdenotes
    -- What stands for the end of the input in the rule can only be its token.
    have heof := Numbered.sym_unique hdenotes (b := .token .eof) rfl
    exact (all_descend r (List.mem_of_getElem? hr)).2.2 (heof ▸ List.getElem_mem _)

/-- The machine of every grammar whose rules use neither the goal nor the end of the input, in which
no nonterminal derives itself and which has no hidden left recursion, ends on every supply of
tokens: it accepts, refuses the token it looks at, or comes to a reduction that fails, however
conflicts were decided. The grammar of the language is such a grammar, and the parse of every source
gives a goal or a rejection. -/
theorem every_parse_ends :
    (∀ (g : Grammar) (t : Tables), g.Built → g.Unreserved → g.EndFree → g.Acyclic → g.Unhidden →
      g.tables = .ok t → ∀ (V G M : Type) (s : Semantics V G M) (supply : Supply) (memory : M),
        ∃ ms c, Run t s { supply, memory } ms c ∧
          ms.length ≤ (3 * supply.ahead.length + 1) * g.growth ∧
          t.parse s supply memory = c.step t s ∧ (∀ c', c.step t s ≠ .more c') ∧
          (c.Accepting t ∨
            ((c.token.kind = .invalid ∨ t.action c.top c.token.kind = .error) ∧
              ∃ message c', c.step t s = .failed (.rejection c.token.place message) c') ∨
            ∃ i f c', c.move? t = some (.reduce i) ∧
              (c.valueOf s i (c.args t i) = .error f ∨ c.look.valueOf s i (c.args t i) = .error f) ∧
              c.step t s = .failed f c')) ∧
    (grammar.Built ∧ grammar.Unreserved ∧ grammar.EndFree ∧ grammar.Acyclic ∧ grammar.Unhidden) ∧
    ∀ (config : Config) (source : Text) (origin : Nat),
      (∃ goal, (parse config source origin).result = .ok goal) ∨
        ∃ place message, (parse config source origin).result =
          .error (.rejection place message) := by
  have hw := grammar_numbered.built.wellFormed
  have hr := grammar_numbered.unreserved
  refine ⟨fun g t hb hr he ha hh ht V G M s supply memory =>
      exists_end hb.wellFormed hr ht he ha hh s supply memory,
    ⟨grammar_numbered.built, hr, grammar_endFree, grammar_ranked.acyclic, grammar_ranked.unhidden⟩,
    fun config source origin => ?_⟩
  obtain ⟨t, hlang⟩ := exists_languageTables
  have ht : grammar.tables = .ok t := by rwa [languageTables] at hlang
  obtain ⟨ms, c, _, _, hend, hmore, _⟩ := exists_end hw hr ht grammar_endFree
    grammar_ranked.acyclic grammar_ranked.unhidden (semantics config origin) (.ofText source) 0
  rw [parse, hlang, parseBy]
  cases hp : t.parse (semantics config origin) (.ofText source) 0 with
  | more c' => exact absurd (hend.symm.trans hp) (hmore c')
  | accepted goal c' => exact Or.inl ⟨goal, rfl⟩
  | failed f c' =>
    obtain ⟨place, message, rfl⟩ := run_rejects ht _ _ _ hp
    exact Or.inr ⟨place, message, rfl⟩

/-- A rank of the symbols of sums: each unit production goes down. -/
def sumsRank : Symbol → Nat
  | .nonterminal n => 2 - n
  | .terminal _ => 0

/-- The grammar of sums meets the conditions, and its machine ends on an unfinished sum. -/
theorem every_parse_ends_sums : ∃ t, sums.tables = .ok t ∧ ∃ ms, ∃ c : Configuration Unit Unit Unit,
    Run t silent { supply := supplyOf [.integer, .plus], memory := () } ms c ∧
    t.parse silent (supplyOf [.integer, .plus]) () = c.step t silent ∧
    ∀ c', c.step t silent ≠ .more c' := by
  obtain ⟨t, ht, _⟩ := sums_tables
  have hranked : Ranked sums (fun _ => false) sumsRank := by
    rw [sums_eq]
    exact ⟨by decide, by decide⟩
  obtain ⟨ms, c, hrun, _, hparse, hmore, _⟩ := every_parse_ends.1 sums t sums_built sums_unreserved
    sums_endFree hranked.acyclic hranked.unhidden ht Unit Unit Unit silent
    (supplyOf [.integer, .plus]) ()
  exact ⟨t, ht, ms, c, hrun, hparse, hmore⟩

end ObjectPascal.Rule
