import ObjectPascal.Token.Basic

/-!
Context-free grammars over token kinds, with precedence levels for operators. Nonterminals are
numbered in the order in which they are first named. Number 0 is the goal of the whole input, and
production 0 derives it from the start symbol.
-/

namespace ObjectPascal

/-- A symbol of a grammar. -/
inductive Symbol where
  | terminal (k : Kind)
  | nonterminal (n : Nat)
deriving DecidableEq, Inhabited

namespace Symbol

/-- The position of a symbol: terminals in their own order, then the nonterminals. -/
def index : Symbol → Nat
  | terminal k => k.index
  | nonterminal n => Kind.count + n

end Symbol

/-- A production `lhs → rhs`. Level 0 means that it has no precedence. -/
structure Production where
  lhs : Nat
  rhs : List Symbol
  prec : Nat := 0
deriving DecidableEq, Inhabited

/-- Which of two equal operators in a row binds first. -/
inductive Associativity where
  | left
  | right
  | nonassoc
deriving DecidableEq

/-- The precedence of a token: a higher level binds tighter. -/
structure Precedence where
  level : Nat
  assoc : Associativity
deriving DecidableEq

/-- A grammar. `levels` lists the latest declaration of a token first. -/
structure Grammar where
  names : Array String := #["$accept"]
  productions : Array Production := #[⟨0, [], 0⟩]
  levels : List (Kind × Precedence) := []
  level : Nat := 0
deriving DecidableEq, Inhabited

namespace Grammar

/-- What the right-hand side of a rule is written with. -/
inductive Part where
  | name (s : String)
  | token (k : Kind)
deriving DecidableEq

/-- Why a grammar is refused. -/
inductive Fault where
  | noStart
  | undefinedName (name : String)
  | foreignPart (shown lhs : String)
deriving DecidableEq

/-- The wording of a refusal. -/
def Fault.message : Fault → String
  | noStart => "grammar has no start symbol"
  | undefinedName name => "nonterminal " ++ name ++ " has no productions"
  | foreignPart shown lhs => "invalid grammar item " ++ shown ++ " in rule for " ++ lhs

/-- The number of a nonterminal; a name that is new gets the next number. -/
def intern (g : Grammar) (name : String) : Grammar × Nat :=
  match g.names.findIdx? (· == name) with
  | some n => (g, n)
  | none => ({ g with names := g.names.push name }, g.names.size)

/-- The precedence of a token, if one was declared. -/
def precedenceOf (g : Grammar) (k : Kind) : Option Precedence :=
  (g.levels.find? fun l => l.1 == k).map (·.2)

/-- The level of a token, 0 if none was declared. -/
def levelOf (g : Grammar) (k : Kind) : Nat :=
  match g.precedenceOf k with
  | some p => p.level
  | none => 0

/-- Declares a level above all earlier ones for the given tokens. -/
def declare (g : Grammar) (assoc : Associativity) (tokens : List Kind) : Grammar :=
  { g with
    level := g.level + 1
    levels := tokens.reverse.map (fun k => (k, ⟨g.level + 1, assoc⟩)) ++ g.levels }

/-- Chooses the start symbol. -/
def start (g : Grammar) (name : String) : Grammar :=
  let (g, n) := g.intern name
  { g with productions := g.productions.modify 0 fun p => { p with rhs := [.nonterminal n] } }

/-- The symbol of a part. -/
def symbolOf (g : Grammar) : Part → Grammar × Symbol
  | .token k => (g, .terminal k)
  | .name s =>
    let (g, n) := g.intern s
    (g, .nonterminal n)

/-- The symbols of the parts in order. -/
def symbolsOf (g : Grammar) : List Part → Grammar × List Symbol
  | [] => (g, [])
  | p :: ps =>
    let (g, s) := g.symbolOf p
    let (g, ss) := g.symbolsOf ps
    (g, s :: ss)

/-- The level of the last token with a declared level. -/
def levelOfRule (g : Grammar) (rhs : List Symbol) : Nat :=
  rhs.foldl (fun level s =>
    match s with
    | .terminal k => ((g.precedenceOf k).map (·.level)).getD level
    | .nonterminal _ => level) 0

/-- Adds the production `lhs → rhs`. It takes the level of `prec` if that is given, else of its last
token with a level. -/
def rule (g : Grammar) (lhs : String) (rhs : List Part) (prec : Option Kind := none) : Grammar :=
  let (g, n) := g.intern lhs
  let (g, rhs) := g.symbolsOf rhs
  let level := match prec with
    | some k => g.levelOf k
    | none => g.levelOfRule rhs
  { g with productions := g.productions.push ⟨n, rhs, level⟩ }

/-- The number of nonterminals. -/
def nonterminalCount (g : Grammar) : Nat := g.names.size

/-- The name of a symbol. -/
def symbolName (g : Grammar) : Symbol → String
  | .terminal k => k.spelling
  | .nonterminal n => g.names.getD n ""

/-- A production with an arrow between its sides. -/
def productionText (g : Grammar) (p : Production) : String :=
  g.symbolName (.nonterminal p.lhs) ++ " ->" ++
    (if p.rhs.isEmpty then " <empty>" else String.join (p.rhs.map fun s => " " ++ g.symbolName s))

/-- The production with a given number; there is none but production 0 in place of others. -/
def production (g : Grammar) (i : Nat) : Production := g.productions.getD i default

/-- The length of the longest right-hand side. -/
def width (g : Grammar) : Nat := g.productions.foldl (fun w p => max w p.rhs.length) 0

/-- Whether some production derives nonterminal `n`. -/
def isDefined (g : Grammar) (n : Nat) : Bool := g.productions.any (·.lhs == n)

/-- A grammar is usable if it has a start symbol and a production for every nonterminal. -/
def fault? (g : Grammar) : Option Fault :=
  if (g.production 0).rhs.isEmpty then some .noStart
  else
    match (List.range g.nonterminalCount).find? fun n => !g.isDefined n with
    | some n => some (.undefinedName (g.symbolName (.nonterminal n)))
    | none => none

end Grammar
end ObjectPascal
