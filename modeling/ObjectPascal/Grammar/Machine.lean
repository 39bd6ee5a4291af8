import ObjectPascal.Grammar.Table
import ObjectPascal.Token.Cursor

/-!
The tokens that a parser is given. Reading can be stopped behind any token; from then on, and at
the end of the source, only end tokens follow.
-/

namespace ObjectPascal

/-- The tokens ahead, each with the place right behind it, and the place of the end token that
comes when none is ahead. -/
structure Supply where
  ahead : List (Token × Place)
  here : Place
deriving Inhabited

namespace Supply

/-- The next token. -/
def next (s : Supply) : Token × Supply :=
  match s.ahead with
  | [] => (⟨.eof, 0, s.here, ∅⟩, s)
  | (t, place) :: rest => (t, ⟨rest, place⟩)

/-- Drops all tokens ahead. -/
def stop (s : Supply) : Supply := { s with ahead := [] }

/-- The tokens of a source without comments. -/
def ofText (source : Text) : Supply :=
  let c := Cursor.start source
  ⟨(c.tokens.filter fun (t, _) => t.kind != .comment).map fun (t, c) => (t, c.place), c.place⟩

end Supply
end ObjectPascal

/-!
The shift-reduce machine. A configuration holds the stack of states, the stack of values and the
tokens not yet read. One step reduces by the default production of the top state, or looks at the
next token and shifts, reduces, accepts or fails. What a reduction computes is left to a
`Semantics`, so the machine runs any grammar.
-/

namespace ObjectPascal.Grammar

/-- Why a parse ends without a goal. A rejection is the fault of the input; a breach means that
tables or semantics do not fit the grammar. -/
inductive Failure where
  | rejection (place : Place) (message : Text)
  | breach (message : Text)
deriving DecidableEq

/-- The wording of a failure in a source of the given path; the path may be empty. -/
def Failure.text (path : Text) : Failure → Text
  | rejection place message =>
    (if path.isEmpty then ∅ else path ++ ":") ++ place.text ++ ": " ++ message
  | breach message => "internal error: " ++ message

/-- What a reduction gives: the value for the left-hand side, the memory, and the goal of the whole
parse once it is complete. A complete goal stops the reading of tokens. -/
structure Reduced (V G M : Type) where
  value : V
  memory : M
  goal : Option G := none

/-- How a production computes its value from the values of its right-hand side, given the line of
the reduction. -/
abbrev Reduction (V G M : Type) := Nat → List V → M → Except Failure (Reduced V G M)

/-- The values of a parse. A production without a reduction passes a single value on. -/
structure Semantics (V G M : Type) where
  ofToken : Token → V
  absent : V
  line? : V → Option Nat
  reduction? : Nat → Option (Reduction V G M)

/-- Where a parse stands. Both stacks list their top first. -/
structure Configuration (V G M : Type) where
  states : List Nat := [0]
  values : List V := []
  ahead : Option Token := none
  supply : Supply
  lastLine : Nat := 0
  goal : Option G := none
  memory : M

/-- What a step leads to. -/
inductive Progress (V G M : Type) where
  | more (c : Configuration V G M)
  | accepted (goal : G) (c : Configuration V G M)
  | failed (f : Failure) (c : Configuration V G M)

namespace Configuration

variable {V G M : Type}

/-- The top state. -/
def top (c : Configuration V G M) : Nat := c.states.headD 0

/-- The line of a reduction: that of the leftmost value with a line; without one that of the next
token, if it is read, else that of the last token shifted. -/
def lineOf (s : Semantics V G M) (c : Configuration V G M) (args : List V) : Nat :=
  match args.findSome? s.line? with
  | some line => line
  | none =>
    match c.ahead with
    | some t => t.line
    | none => c.lastLine

/-- The value of a production. -/
def valueOf (s : Semantics V G M) (c : Configuration V G M) (i : Nat) (args : List V) :
    Except Failure (Reduced V G M) :=
  match s.reduction? i with
  | some reduce => reduce (c.lineOf s args) args c.memory
  | none =>
    match args with
    | [v] => .ok { value := v, memory := c.memory }
    | _ => .ok { value := s.absent, memory := c.memory }

/-- Reduces by production `i`. -/
def reduce (t : Tables) (s : Semantics V G M) (c : Configuration V G M) (i : Nat) :
    Progress V G M :=
  let p := t.grammar.production i
  let size := p.rhs.length
  match c.valueOf s i (c.values.take size).reverse with
  | .error f => .failed f c
  | .ok r =>
    let states := c.states.drop size
    let from_ := states.headD 0
    match t.goto from_ p.lhs with
    | none =>
      .failed (.breach ("no goto from state " ++ Text.ofNat from_ ++ " on " ++
        t.grammar.symbolName (.nonterminal p.lhs))) c
    | some next =>
      .more { c with
        states := next :: states
        values := r.value :: c.values.drop size
        memory := r.memory
        goal := r.goal <|> c.goal
        supply := if r.goal.isSome then c.supply.stop else c.supply }

/-- The wording for a token that no action admits. Up to six admissible tokens are listed. -/
def complaint (t : Tables) (state : Nat) (token : Token) : Text :=
  let found : Text :=
    if token.kind = .eof then "unexpected end of file" else "unexpected " ++ token.shown
  let expected := t.expected state
  if expected.isEmpty || 6 < expected.length then found
  else found ++ ", expecting " ++ String.intercalate " " (expected.map Kind.spelling)

/-- Acts on the next token. -/
def act (t : Tables) (s : Semantics V G M) (c : Configuration V G M) (token : Token) :
    Progress V G M :=
  match t.action c.top token.kind with
  | .shift state =>
    .more { c with
      states := state :: c.states
      values := s.ofToken token :: c.values
      ahead := none
      lastLine := token.line }
  | .reduce i => c.reduce t s i
  | .accept =>
    match c.goal with
    | some g => .accepted g c
    | none => .failed (.breach "accepted without goal") c
  | .error => .failed (.rejection token.place (complaint t c.top token)) c

/-- One step of the machine. An invalid token is refused as soon as it is read. -/
def step (t : Tables) (s : Semantics V G M) (c : Configuration V G M) : Progress V G M :=
  match t.defaultAt c.top with
  | some i => c.reduce t s i
  | none =>
    match c.ahead with
    | some token => c.act t s token
    | none =>
      let (token, supply) := c.supply.next
      let c := { c with ahead := some token, supply }
      if token.kind = .invalid then .failed (.rejection token.place token.text) c
      else c.act t s token

/-- At most `fuel` steps. -/
def run (t : Tables) (s : Semantics V G M) : Nat → Configuration V G M → Progress V G M
  | 0, c => .more c
  | fuel + 1, c =>
    match c.step t s with
    | .more c => run t s fuel c
    | done => done

end Configuration

/-- More steps than a terminating parse of `tokens` tokens takes: between two shifts the stack rises
above its lowest point by less than the number of states, and no stack recurs. Nonterminals and
width of the grammar bound the parse trees where no nonterminal derives itself. -/
def Tables.stepBound (t : Tables) (tokens : Nat) : Nat :=
  let size := t.stateCount + t.grammar.nonterminalCount + t.grammar.width
  (tokens + 2) * (tokens + 2) * Nat.pow (size + 2) (size + 2)

/-- Parses the tokens of a supply. -/
def Tables.parse {V G M : Type} (t : Tables) (s : Semantics V G M) (supply : Supply) (memory : M) :
    Progress V G M :=
  Configuration.run t s (t.stepBound supply.ahead.length) { supply, memory }

end ObjectPascal.Grammar
