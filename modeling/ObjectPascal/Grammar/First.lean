import ObjectPascal.Grammar.Basic

/-!
Finite sets of small numbers as the bits of one number, and saturation of a step until nothing
changes any more.
-/

namespace ObjectPascal

/-- A finite set of natural numbers; `n` is a member if bit `n` is set. -/
structure NatSet where
  bits : Nat
deriving DecidableEq, Inhabited

namespace NatSet

/-- The set without members. -/
def empty : NatSet := ⟨0⟩

instance : EmptyCollection NatSet := ⟨empty⟩

/-- The set of one member. -/
def single (n : Nat) : NatSet := ⟨1 <<< n⟩

/-- All members of the two sets. -/
def union (a b : NatSet) : NatSet := ⟨a.bits ||| b.bits⟩

instance : Union NatSet := ⟨union⟩

/-- Whether `n` is a member. -/
def contains (s : NatSet) (n : Nat) : Bool := s.bits.testBit n

/-- The members below `bound` in ascending order. -/
def below (s : NatSet) (bound : Nat) : List Nat := (List.range bound).filter s.contains

/-- The set with its members from `bound` on left out. -/
def cut (s : NatSet) (bound : Nat) : NatSet := ⟨s.bits % Nat.pow 2 bound⟩

@[simp]
theorem contains_union (a b : NatSet) (n : Nat) :
    (a ∪ b).contains n = (a.contains n || b.contains n) :=
  Nat.testBit_or a.bits b.bits n

@[simp]
theorem contains_empty (n : Nat) : (∅ : NatSet).contains n = false := Nat.zero_testBit n

end NatSet

/-- Applies `f` until a value is kept, at most `n` times. -/
def saturate {α : Type} [DecidableEq α] (f : α → α) : Nat → α → α
  | 0, x => x
  | n + 1, x =>
    let y := f x
    if y = x then x else saturate f n y

end ObjectPascal

/-!
Which nonterminals derive nothing, and with which terminals their derivations begin. Both are the
least solution of the equations that the productions give, found by saturation.
-/

namespace ObjectPascal.Grammar

/-- What is known of each nonterminal: whether it derives the empty string, and the terminals with
which its derivations begin. -/
structure First where
  nullable : Array Bool
  first : Array NatSet
deriving DecidableEq, Inhabited

namespace First

/-- Whether nonterminal `n` derives the empty string. -/
def isNullable (f : First) (n : Nat) : Bool := f.nullable.getD n false

/-- The terminals with which derivations of nonterminal `n` begin. -/
def of (f : First) (n : Nat) : NatSet := f.first.getD n ∅

/-- The terminals with which derivations of a string of symbols begin. -/
def ofString (f : First) : List Symbol → NatSet
  | [] => ∅
  | .terminal k :: _ => .single k.index
  | .nonterminal n :: rest => if f.isNullable n then f.of n ∪ f.ofString rest else f.of n

/-- Whether a string of symbols derives the empty string. -/
def derivesEmpty (f : First) : List Symbol → Bool
  | [] => true
  | .terminal _ :: _ => false
  | .nonterminal n :: rest => f.isNullable n && f.derivesEmpty rest

/-- Adds what one production shows of its left-hand side. -/
def learn (f : First) (p : Production) : First where
  nullable := f.nullable.modify p.lhs (· || f.derivesEmpty p.rhs)
  first := f.first.modify p.lhs (· ∪ f.ofString p.rhs)

/-- Adds what all productions show. -/
def round (g : Grammar) (f : First) : First := g.productions.foldl learn f

/-- Nothing is known. -/
def blank (n : Nat) : First := ⟨.replicate n false, .replicate n ∅⟩

end First

/-- The empty derivations and first terminals of a grammar. Every round but the last adds a fact,
and there are no more facts than rounds. -/
def firstSets (g : Grammar) : First :=
  saturate (First.round g) (g.nonterminalCount * (Kind.count + 1) + 1)
    (First.blank g.nonterminalCount)

end ObjectPascal.Grammar
