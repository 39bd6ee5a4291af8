import ObjectPascal.Grammar.Automaton

/-!
The terminals that may follow each kernel item of each state. Following a kernel item through the
closure of its state shows which terminals arise there for the items it leads to, and whether
its own lookahead passes on to them. The lookaheads are the least sets closed under both.
-/

namespace ObjectPascal.Grammar

/-- The member that stands for the lookahead of the item a closure starts from. -/
def passMark : Nat := Kind.count

namespace Survey

/-- What an item with lookahead `la` contributes to the nonterminal that comes next. -/
def contribution (s : Survey) (i : Item) (la : NatSet) : NatSet :=
  let rest := s.grammar.rest i
  let first := s.facts.ofString rest
  if s.facts.derivesEmpty rest then first ∪ la else first

/-- What kernel items contribute at once. -/
def seeds (s : Survey) (kernel : List (Item × NatSet)) : Array NatSet :=
  kernel.foldl (fun sets (i, la) =>
    match s.grammar.next i with
    | some (.nonterminal n) => sets.modify n (· ∪ s.contribution i la)
    | _ => sets) (.replicate s.grammar.nonterminalCount ∅)

/-- What the productions of the expanded nonterminals contribute further. -/
def spread (s : Survey) (expanded : List Nat) (sets : Array NatSet) : Array NatSet :=
  expanded.foldl (fun sets n =>
    let la := sets.getD n ∅
    (s.corners.getD n []).foldl (fun sets c =>
      sets.modify c.head (· ∪ (if c.nullable then c.first ∪ la else c.first))) sets) sets

/-- The lookahead of the productions of each nonterminal in the closure of a kernel with given
lookaheads. -/
def closureLookahead (s : Survey) (kernel : List (Item × NatSet)) : Array NatSet :=
  let n := s.grammar.nonterminalCount
  let expanded := (s.expanded (kernel.map (·.1))).below n
  saturate (s.spread expanded) (n * (Kind.count + 1) + 1) (s.seeds kernel)

end Survey

/-- A production that a closure adds, with the place of the item it becomes by a step. -/
structure Arrow where
  lhs : Nat
  target : Nat

/-- The kernel items of all states in one row: `offsets` gives the place of the first of each
state. -/
structure Slots where
  survey : Survey
  automaton : Automaton
  offsets : Array Nat
  size : Nat

namespace Slots

/-- The kernel items of an automaton in one row. -/
def of (s : Survey) (a : Automaton) : Slots :=
  let (offsets, size) := a.kernels.foldl (fun (offsets, size) k =>
    (offsets.push size, size + k.length)) (#[], 0)
  ⟨s, a, offsets, size⟩

/-- The place of item `i` in the state that a step over `x` leads to from state `p`. -/
def target (t : Slots) (p : Nat) (x : Symbol) (i : Item) : Option Nat :=
  (t.automaton.goto p x).map fun q =>
    t.offsets.getD q 0 + (t.automaton.kernels.getD q []).idxOf i

/-- The productions in the closure of a state that begin with a symbol. -/
def arrows (t : Slots) (p : Nat) : List Arrow :=
  let kernel := t.automaton.kernels.getD p []
  ((t.survey.expanded kernel).below t.survey.grammar.nonterminalCount).flatMap fun n =>
    (t.survey.productions.getD n []).filterMap fun i =>
      match t.survey.grammar.next ⟨i, 0⟩ with
      | some x => (t.target p x ⟨i, 1⟩).map fun q => ⟨n, q⟩
      | none => none

/-- Lookaheads that arise, and the places from which one passes on to another. -/
structure Flow where
  sets : Array NatSet
  edges : List (Nat × Nat)

/-- Adds lookahead `la` to place `q`; the mark becomes an edge from place `p`. -/
def Flow.add (f : Flow) (p q : Nat) (la : NatSet) : Flow where
  sets := f.sets.modify q (· ∪ la.cut Kind.count)
  edges := if la.contains passMark then (p, q) :: f.edges else f.edges

/-- What follows from one kernel item at place `p` of state `state`. -/
def follow (t : Slots) (state : Nat) (arrows : List Arrow) (f : Flow) (p : Nat) (i : Item) : Flow :=
  let mark := NatSet.single passMark
  let f := match t.survey.advance i with
    | some (x, j) =>
      match t.target state x j with
      | some q => f.add p q mark
      | none => f
    | none => f
  match t.survey.grammar.next i with
  | some (.nonterminal _) =>
    let sets := t.survey.closureLookahead [(i, mark)]
    arrows.foldl (fun f a => f.add p a.target (sets.getD a.lhs ∅)) f
  | _ => f

/-- What follows from all kernel items of a state. -/
def followState (t : Slots) (f : Flow) (state : Nat) : Flow :=
  let arrows := t.arrows state
  ((t.automaton.kernels.getD state []).zipIdx (t.offsets.getD state 0)).foldl
    (fun f (i, p) => t.follow state arrows f p i) f

/-- The end of the input follows the start item. -/
def initial (t : Slots) : Flow :=
  ⟨(Array.replicate t.size ∅).modify 0 (· ∪ .single Kind.eof.index), []⟩

/-- Passes lookaheads on along all edges. -/
def passOn (edges : List (Nat × Nat)) (sets : Array NatSet) : Array NatSet :=
  edges.foldl (fun sets (p, q) =>
    let la := sets.getD p ∅
    sets.modify q (· ∪ la)) sets

/-- The lookahead of every kernel item, by place. -/
def lookaheads (t : Slots) : Array NatSet :=
  let flow := (List.range t.automaton.kernels.size).foldl t.followState t.initial
  saturate (passOn flow.edges.reverse) (t.size * Kind.count + 1) flow.sets

/-- The kernel of a state with its lookaheads. -/
def kernel (t : Slots) (sets : Array NatSet) (state : Nat) : List (Item × NatSet) :=
  ((t.automaton.kernels.getD state []).zipIdx (t.offsets.getD state 0)).map
    fun (i, p) => (i, sets.getD p ∅)

end Slots
end ObjectPascal.Grammar
