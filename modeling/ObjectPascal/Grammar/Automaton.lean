import ObjectPascal.Grammar.First

/-!
The automaton of a grammar. A state is known by its kernel, the items that were reached by a
step. Its closure adds all productions of the nonterminals that can come next. A step over a
symbol advances the items of the closure that stand before it.
-/

namespace ObjectPascal.Grammar

/-- A production with a dot in its right-hand side. -/
structure Item where
  prod : Nat
  dot : Nat
deriving DecidableEq, Inhabited

/-- The symbol behind the dot. -/
def next (g : Grammar) (i : Item) : Option Symbol := (g.production i.prod).rhs[i.dot]?

/-- The symbols behind the one that comes next. -/
def rest (g : Grammar) (i : Item) : List Symbol := (g.production i.prod).rhs.drop (i.dot + 1)

/-- The productions of nonterminal `n`, in order. -/
def productionsOf (g : Grammar) (n : Nat) : List Nat :=
  (List.range g.productions.size).filter fun i => (g.production i).lhs == n

/-- A production of a nonterminal that begins with another nonterminal: which one, and what is known
of the symbols behind it. -/
structure Corner where
  head : Nat
  first : NatSet
  nullable : Bool
deriving DecidableEq

/-- What the construction needs to know of a grammar: the productions of each nonterminal, their
corners, and the nonterminals whose productions join a closure together with it. -/
structure Survey where
  grammar : Grammar
  facts : First
  productions : Array (List Nat)
  corners : Array (List Corner)
  cones : Array NatSet
deriving DecidableEq

/-- The corner of production `i`, if it begins with a nonterminal. -/
def cornerOf (g : Grammar) (f : First) (i : Nat) : Option Corner :=
  match (g.production i).rhs with
  | .nonterminal n :: rest => some ⟨n, f.ofString rest, f.derivesEmpty rest⟩
  | _ => none

/-- Joins to each cone the cones of the corners of its nonterminal. -/
def coneRound (corners : Array (List Corner)) (cones : Array NatSet) : Array NatSet :=
  (List.range cones.size).foldl (fun cones n =>
    (corners.getD n []).foldl (fun cones c =>
      let cone := cones.getD c.head ∅
      cones.modify n (· ∪ cone)) cones) cones

/-- The survey of a grammar. -/
def survey (g : Grammar) : Survey :=
  let n := g.nonterminalCount
  let f := g.firstSets
  let productions := (Array.range n).map g.productionsOf
  let corners := productions.map fun ps => ps.filterMap (g.cornerOf f)
  let cones := saturate (coneRound corners) (n * n + 1) ((Array.range n).map NatSet.single)
  ⟨g, f, productions, corners, cones⟩

namespace Survey

/-- The nonterminals whose productions join the closure of the items. -/
def expanded (s : Survey) (items : List Item) : NatSet :=
  items.foldl (fun set i =>
    match s.grammar.next i with
    | some (.nonterminal n) => set ∪ s.cones.getD n ∅
    | _ => set) ∅

/-- The items and the productions that join them. -/
def closure (s : Survey) (kernel : List Item) : List Item :=
  kernel ++ ((s.expanded kernel).below s.grammar.nonterminalCount).flatMap fun n =>
    (s.productions.getD n []).map fun i => ⟨i, 0⟩

/-- The item behind its next symbol, with that symbol. -/
def advance (s : Survey) (i : Item) : Option (Symbol × Item) :=
  (s.grammar.next i).map fun x => (x, ⟨i.prod, i.dot + 1⟩)

/-- Steps are ordered by symbol, then by production and dot. -/
def stepLe (a b : Symbol × Item) : Bool :=
  if a.1.index ≠ b.1.index then a.1.index < b.1.index
  else if a.2.prod ≠ b.2.prod then a.2.prod < b.2.prod
  else a.2.dot ≤ b.2.dot

/-- The symbols over which a step is possible in ascending order, each with the kernel that the
step leads to. -/
def steps (s : Survey) (kernel : List Item) : List (Symbol × List Item) :=
  let advanced := ((s.closure kernel).filterMap s.advance).mergeSort stepLe
  (advanced.splitBy fun a b => a.1 == b.1).filterMap fun group =>
    group.head?.map fun a => (a.1, group.map (·.2))

end Survey

/-- The states by number: their kernels and the steps to other states. -/
structure Automaton where
  kernels : Array (List Item) := #[[⟨0, 0⟩]]
  edges : Array (List (Symbol × Nat)) := #[]
deriving DecidableEq

namespace Automaton

/-- The number of the state with a kernel; a new kernel gets the next number. -/
def intern (kernels : Array (List Item)) (kernel : List Item) : Array (List Item) × Nat :=
  match kernels.findIdx? (· == kernel) with
  | some i => (kernels, i)
  | none => (kernels.push kernel, kernels.size)

/-- Adds the steps of the first state that has none yet. -/
def expand (s : Survey) (a : Automaton) (kernel : List Item) : Automaton :=
  let (kernels, edges) := (s.steps kernel).foldl (fun (kernels, edges) (x, k) =>
    let (kernels, i) := intern kernels k
    (kernels, (x, i) :: edges)) (a.kernels, [])
  ⟨kernels, a.edges.push edges.reverse⟩

/-- Adds the steps of at most `fuel` states, in the order of their numbers. -/
def explore (s : Survey) : Nat → Automaton → Automaton
  | 0, a => a
  | fuel + 1, a =>
    match a.kernels[a.edges.size]? with
    | none => a
    | some kernel => explore s fuel (expand s a kernel)

/-- The state that a step leads to. -/
def goto (a : Automaton) (i : Nat) (x : Symbol) : Option Nat :=
  ((a.edges.getD i []).find? fun e => e.1 == x).map (·.2)

end Automaton

/-- The number of items of a grammar. -/
def itemCount (g : Grammar) : Nat :=
  g.productions.toList.foldr (fun p n => p.rhs.length + 1 + n) 0

/-- The automaton of a surveyed grammar. A kernel holds an item at most twice, which bounds the
number of states. -/
def Survey.automaton (s : Survey) : Automaton :=
  Automaton.explore s (Nat.pow 4 s.grammar.itemCount) {}

end ObjectPascal.Grammar
