import ObjectPascal.Grammar.Lookahead

/-!
The tables of a shift-reduce parser. Where more than one action applies the levels of production
and token decide; without levels a shift wins over a reduction, and the earlier of two productions
wins. Each such cell is recorded as a conflict.
-/

namespace ObjectPascal.Grammar

/-- What to do in a state when a token comes next. -/
inductive Action where
  | error
  | shift (state : Nat)
  | reduce (production : Nat)
  | accept
deriving DecidableEq, Inhabited

/-- A cell for which more than one action applied. -/
structure Conflict where
  state : Nat
  token : Kind
  production : Nat
  reduce : Bool
  byLevel : Bool
  reduceOnly : Bool
deriving DecidableEq

/-- The tables. A default reduction is taken without a look at the next token. -/
structure Tables where
  grammar : Grammar
  automaton : Automaton
  actions : Array (Array Action)
  gotos : Array (Array (Option Nat))
  defaults : Array (Option Nat)
  conflicts : List Conflict

/-- The wording of a conflict. -/
def Conflict.text (g : Grammar) (c : Conflict) : String :=
  "state " ++ toString c.state ++ ": " ++
    (if c.reduceOnly then "reduce/reduce" else "shift/reduce") ++ " conflict on " ++
    c.token.spelling ++ " with [" ++ g.productionText (g.production c.production) ++ "], chose " ++
    (if c.reduce then "reduce" else "shift")

/-- One row of the action table with the conflicts met so far, the latest first. -/
structure Row where
  actions : Array Action
  conflicts : List Conflict

namespace Row

/-- The action for a token. -/
def action (r : Row) (k : Kind) : Action := r.actions.getD k.index .error

/-- Sets the action for a token. -/
def set (r : Row) (k : Kind) (a : Action) : Row :=
  { r with actions := r.actions.setIfInBounds k.index a }

/-- Enters the reduction by production `i` on token `k`. A token without associativity on the level
of the production admits no action at all. -/
def enter (g : Grammar) (state : Nat) (r : Row) (k : Kind) (i : Nat) : Row :=
  let note (r : Row) (reduce byLevel reduceOnly : Bool) : Row :=
    { r with conflicts := ⟨state, k, i, reduce, byLevel, reduceOnly⟩ :: r.conflicts }
  match r.action k with
  | .error => r.set k (.reduce i)
  | .reduce _ => note r true false true
  | .accept => r
  | .shift _ =>
    match (g.production i).prec, g.precedenceOf k with
    | 0, _ | _, none => note r false false false
    | level + 1, some p =>
      if p.level < level + 1 then note (r.set k (.reduce i)) true true false
      else if p.level = level + 1 then
        match p.assoc with
        | .left => note (r.set k (.reduce i)) true true false
        | .nonassoc => note (r.set k .error) false true false
        | .right => note r false true false
      else note r false true false

/-- Enters the reduction by production `i` on every token of its lookahead. The start production
accepts. -/
def enterAll (g : Grammar) (state : Nat) (r : Row) (i : Nat) (la : NatSet) : Row :=
  Kind.all.foldl (fun r k =>
    if la.contains k.index then
      if i = 0 then r.set k .accept else r.enter g state k i
    else r) r

end Row

/-- The production that a row reduces by without a look at the token: the only one it has, if it
neither shifts nor accepts. -/
def defaultOf (row : List Action) (found : Option Nat) : Option Nat :=
  match row with
  | [] => found
  | .shift _ :: _ | .accept :: _ => none
  | .error :: rest => defaultOf rest found
  | .reduce i :: rest =>
    match found with
    | some j => if i = j then defaultOf rest found else none
    | none => defaultOf rest (some i)

/-- The reductions that apply in a state with given lookaheads of its kernel, in the order of the
productions. -/
def Survey.reductions (s : Survey) (kernel : List (Item × NatSet)) : List (Nat × NatSet) :=
  let sets := s.closureLookahead kernel
  let expanded := (s.expanded (kernel.map (·.1))).below s.grammar.nonterminalCount
  let complete := kernel.filterMap fun (i, la) =>
    match s.grammar.next i with
    | none => some (i.prod, la)
    | some _ => none
  let vanishing := expanded.flatMap fun n =>
    (s.productions.getD n []).filterMap fun i =>
      match s.grammar.next ⟨i, 0⟩ with
      | none => some (i, sets.getD n ∅)
      | some _ => none
  (complete ++ vanishing).mergeSort fun a b => a.1 ≤ b.1

namespace Tables

/-- The tables before any state is entered. -/
def blank (g : Grammar) (a : Automaton) : Tables := ⟨g, a, #[], #[], #[], []⟩

/-- Enters one state. -/
def enterState (t : Slots) (sets : Array NatSet) (tables : Tables) (state : Nat) : Tables :=
  let g := t.survey.grammar
  let edges := t.automaton.edges.getD state []
  let shifts := edges.foldl (fun (row : Array Action) (x, q) =>
    match x with
    | .terminal k => row.setIfInBounds k.index (.shift q)
    | .nonterminal _ => row) (.replicate Kind.count .error)
  let gotos := edges.foldl (fun (row : Array (Option Nat)) (x, q) =>
    match x with
    | .terminal _ => row
    | .nonterminal n => row.setIfInBounds n (some q)) (.replicate g.nonterminalCount none)
  let row := (t.survey.reductions (t.kernel sets state)).foldl
    (fun (r : Row) (i, la) => r.enterAll g state i la) ⟨shifts, tables.conflicts⟩
  { tables with
    actions := tables.actions.push row.actions
    gotos := tables.gotos.push gotos
    defaults := tables.defaults.push (defaultOf row.actions.toList none)
    conflicts := row.conflicts }

/-- The number of states. -/
def stateCount (t : Tables) : Nat := t.actions.size

/-- How many conflicts the levels did not decide. -/
def unresolved (t : Tables) : Nat := t.conflicts.countP fun c => !c.byLevel

/-- The action of a state on a token. -/
def action (t : Tables) (state : Nat) (k : Kind) : Action :=
  (t.actions.getD state #[]).getD k.index .error

/-- The state behind a nonterminal. -/
def goto (t : Tables) (state n : Nat) : Option Nat := (t.gotos.getD state #[]).getD n none

/-- The production that a state reduces by without a look at the next token. -/
def defaultAt (t : Tables) (state : Nat) : Option Nat := t.defaults.getD state none

/-- The tokens with an action in a state. -/
def expected (t : Tables) (state : Nat) : List Kind :=
  Kind.all.filter fun k => t.action state k != .error

end Tables

/-- The tables of a grammar, unless it is refused. -/
def tables (g : Grammar) : Except Fault Tables :=
  match g.fault? with
  | some fault => .error fault
  | none =>
    let s := g.survey
    let a := s.automaton
    let t := Slots.of s a
    let sets := t.lookaheads
    let built := (List.range a.kernels.size).foldl (Tables.enterState t sets) (Tables.blank g a)
    .ok { built with conflicts := built.conflicts.reverse }

end ObjectPascal.Grammar
