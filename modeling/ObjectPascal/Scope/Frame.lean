import ObjectPascal.Syntax.Decl
import ObjectPascal.Text.Case

/-!
One level of the scope stack: names with their declarations, in the order of declaration. Names are
the same if they are the same in small letters.
-/

namespace ObjectPascal

/-- What an operation on scopes finds wrong. -/
inductive ScopeFault where
  | redeclared
  | notFound
  | compositeNotFound
  | fieldNotFound
  | memberNotFound
  | invalidIdentifier
  | circularHeritage
deriving DecidableEq

/-- The wording of a fault. -/
def ScopeFault.message : ScopeFault → String
  | redeclared => "identifier redeclared"
  | notFound => "undeclared identifier"
  | compositeNotFound => "composite type not found"
  | fieldNotFound => "field not found"
  | memberNotFound => "method or field not found"
  | invalidIdentifier => "invalid identifier"
  | circularHeritage => "circular heritage"

/-- A fault with the name it concerns and the frame it was found from. -/
structure ScopeError where
  fault : ScopeFault
  name : Text
  frame : Text
deriving DecidableEq

/-- The wording of an error. -/
def ScopeError.message (e : ScopeError) : Text :=
  Text.ofString e.fault.message ++ ": " ++ e.name ++
    (if e.frame.isEmpty then ∅ else Text.ofString " (in " ++ e.frame ++ ")")

/-- A declared name. The key is the name in small letters. -/
structure Frame.Entry where
  name : Text
  decl : Decl
  key : Text := name.lower
  key_eq : key = name.lower := by rfl

/-- One level of the scope stack. The owner is the declaration whose inside the frame is. -/
structure Frame where
  name : Text
  owner : Option Decl := none
  entries : List Frame.Entry := []

namespace Frame

/-- The declaration of a name. -/
def find? (f : Frame) (name : Text) : Option Decl :=
  let key := name.lower
  (f.entries.find? fun e => e.key == key).map (·.decl)

/-- The declared names in order. -/
def names (f : Frame) : List Text := f.entries.map (·.name)

/-- The number of names. -/
def size (f : Frame) : Nat := f.entries.length

/-- Declares a name, unless it is taken. -/
def add? (f : Frame) (name : Text) (d : Decl) : Option Frame :=
  match f.find? name with
  | some _ => none
  | none => some { f with entries := f.entries ++ [{ name, decl := d }] }

/-- Declares a name if it is free, and otherwise leaves all as it is. -/
def addFirst (f : Frame) (name : Text) (d : Decl) : Frame := (f.add? name d).getD f

/-- Gives a name a new declaration in its old place. -/
def replace (f : Frame) (name : Text) (d : Decl) : Frame :=
  match f.add? name d with
  | some f => f
  | none =>
    let key := name.lower
    { f with
      entries := f.entries.map fun e => if e.key == key then { e with decl := d } else e }

end Frame
end ObjectPascal
