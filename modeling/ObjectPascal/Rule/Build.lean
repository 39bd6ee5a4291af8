import ObjectPascal.Dialect.Config
import ObjectPascal.Grammar.Machine
import ObjectPascal.Rule.Phrase

/-!
A rule of the language is a production together with what it builds. The builder is a function of
the values of the right-hand side whose type is read off the production, so a rule that takes a
part for something else does not elaborate.
-/

namespace ObjectPascal
namespace Rule

/-- Where a phrase is built: on which line, in which dialect, for which tree. -/
structure Site where
  line : Nat
  config : Config
  origin : Nat

/-- Building hands out node numbers and may reject the source. The state is the number handed out
last. -/
abbrev Build := ReaderT Site (StateT Nat (Except Grammar.Failure))

/-- A new node on a line. -/
def nodeAt (line : Nat) : Build NodeInfo := do
  modify (· + 1)
  return { id := ← get, line, origin := (← read).origin }

/-- A new node on the line of the phrase. -/
def node : Build NodeInfo := do nodeAt (← read).line

/-- Rejects the source; the column is not known. -/
def reject {α : Type} (line : Nat) (message : Text) : Build α :=
  throw (.rejection ⟨line, 0⟩ message)

/-- Rejects a construct that the dialect does not have. -/
def require (f : Feature) (line : Nat) (what : Text) : Build Unit := do
  let config := (← read).config
  unless config.supports f do
    reject line (what ++ " not supported by dialect " ++ config.version)

/-- Builds a value without any node. -/
def give {α : Type} (v : α) : Build α := pure v

/-- Marks the body of a builder. -/
def build {α : Type} (b : Build α) : Build α := b

/-- A list with one more element behind it. -/
def snoc {α : Type} (l : List α) (a : α) : List α := l ++ [a]

/-- Functions that take a value of each shape in turn. -/
def Curried : List Shape → Type → Type
  | [], r => r
  | s :: ss, r => s.Val → Curried ss r

/-- Applies a function to values, if their shapes are those it takes. -/
def applyTo {r : Type} : (ss : List Shape) → Curried ss r → List Value → Option r
  | [], f, [] => some f
  | s :: ss, f, ⟨t, v⟩ :: vs => if h : t = s then applyTo ss (f (h ▸ v)) vs else none
  | _, _, _ => none

end Rule

/-- A production with its builder. The level of `prec`, if given, is that of the production. -/
structure Rule where
  lhs : Rule.Phrase
  rhs : List Rule.Sym
  prec : Option Kind
  builder : Rule.Curried (rhs.map Rule.Sym.shape) (Rule.Build lhs.shape.Val)

namespace Rule

/-- A rule. -/
def rule (lhs : Phrase) (rhs : List Sym)
    (builder : Curried (rhs.map Sym.shape) (Build lhs.shape.Val)) : Rule :=
  ⟨lhs, rhs, none, builder⟩

/-- A rule on the level of a token. -/
def ruleAs (prec : Kind) (lhs : Phrase) (rhs : List Sym)
    (builder : Curried (rhs.map Sym.shape) (Build lhs.shape.Val)) : Rule :=
  ⟨lhs, rhs, some prec, builder⟩

end Rule
end ObjectPascal
