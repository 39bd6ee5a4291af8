import ObjectPascal.Dialect.Config
import ObjectPascal.Scope.Frame

/-!
The scope stack. Its bottom frame holds what the language itself declares and is never left; the
frame above it holds the global declarations of a source.
-/

namespace ObjectPascal

/-- A stack of frames above the frame of the language; the innermost comes first. -/
structure Scopes where
  config : Config
  inner : List Frame
  runtime : Frame

namespace Scopes

/-- All frames, the innermost first. -/
def frames (s : Scopes) : List Frame := s.inner ++ [s.runtime]

/-- The number of frames. -/
def depth (s : Scopes) : Nat := s.inner.length + 1

/-- The innermost frame. -/
def top (s : Scopes) : Frame := s.inner.headD s.runtime

/-- The frame with a given number of frames below it. -/
def frame? (s : Scopes) (i : Nat) : Option Frame := s.frames.reverse[i]?

/-- An error found from the innermost frame. -/
def error (s : Scopes) (fault : ScopeFault) (name : Text) : ScopeError := ⟨fault, name, s.top.name⟩

/-- Pushes a frame for the inside of a declaration. -/
def enter (s : Scopes) (name : Text) (owner : Option Decl := none) : Scopes :=
  { s with inner := { name, owner } :: s.inner }

/-- Pops the innermost frame, unless it is the one of the language. -/
def leave? (s : Scopes) : Option (Frame × Scopes) :=
  match s.inner with
  | [] => none
  | f :: rest => some (f, { s with inner := rest })

/-- Pops frames until at most `depth` are left. -/
def unwindTo (s : Scopes) (depth : Nat) : Scopes :=
  { s with inner := s.inner.drop (s.depth - depth) }

/-- Changes the frame that has a given number of frames below it. -/
def modifyFrame (s : Scopes) (i : Nat) (f : Frame → Frame) : Scopes :=
  match i with
  | 0 => { s with runtime := f s.runtime }
  | i + 1 => { s with inner := s.inner.modify (s.inner.length - 1 - i) f }

/-- Declarations whose own frame is pushed before they are registered. -/
def createsFrame : Decl → Bool
  | .callable _ | .composite _ => true
  | .type ⟨_, _, .record ..⟩ => true
  | _ => false

/-- The place, counted from the bottom, of the frame that a declaration goes to: the enclosing one
if its own frame is already pushed. -/
def targetOf (s : Scopes) (d : Decl) : Nat :=
  if createsFrame d && 2 < s.depth then s.depth - 2 else s.depth - 1

/-- Declares a name. -/
def register (s : Scopes) (name : Text) (d : Decl) : Except ScopeError Scopes :=
  let i := s.targetOf d
  let f := (s.frame? i).getD s.top
  if name.isEmpty then .error ⟨.invalidIdentifier, name, f.name⟩
  else
    match f.add? name d with
    | none => .error ⟨.redeclared, name, f.name⟩
    | some g => .ok (s.modifyFrame i fun _ => g)

/-- The innermost declaration of a name and the place of its frame, counted from the bottom. -/
def lookup? (s : Scopes) (name : Text) : Option (Decl × Nat) := go s.frames (s.depth - 1)
where
  /-- Searches frames of which the first has the given place. -/
  go : List Frame → Nat → Option (Decl × Nat)
    | [], _ => none
    | f :: rest, i =>
      match f.find? name with
      | some d => some (d, i)
      | none => go rest (i - 1)

/-- The innermost declaration of a name. -/
def find? (s : Scopes) (name : Text) : Option Decl := (s.lookup? name).map (·.1)

/-- The declaration of a name in the innermost frame. -/
def findLocal? (s : Scopes) (name : Text) : Option Decl := s.top.find? name

/-- Gives a name a new declaration where it is declared. -/
def redeclare (s : Scopes) (name : Text) (d : Decl) : Except ScopeError Scopes :=
  match s.lookup? name with
  | none => .error (s.error .notFound name)
  | some (_, i) => .ok (s.modifyFrame i fun f => f.replace name d)

/-- How many aliases are followed from one name to the next. -/
def aliasLimit : Nat := 32

/-- The type that a type stands for, through at most `n` aliases. -/
def resolveWithin (s : Scopes) : Nat → TypeExpr → TypeExpr
  | 0, t => t
  | n + 1, .named t =>
    match s.find? t.name with
    | some (.type d) => s.resolveWithin n d.type
    | some (.composite d) => d.type
    | _ => .named t
  | _, t => t

/-- The type that a type stands for. -/
def resolve (s : Scopes) (t : TypeExpr) : TypeExpr := s.resolveWithin aliasLimit t

/-- The type that a name of the language stands for, through at most `n` more aliases. -/
def runtimeTypeWithin (f : Frame) : Nat → TypeDecl → Option TypeExpr
  | 0, _ => none
  | n + 1, d =>
    match d.type with
    | .named t =>
      match f.find? t.name with
      | some (.type next) => runtimeTypeWithin f n next
      | _ => none
    | t => some t

/-- The type that a name of the language stands for, whatever a source declares. -/
def builtin? (s : Scopes) (name : Text) : Option TypeExpr :=
  match s.runtime.find? name with
  | some (.type d) => runtimeTypeWithin s.runtime 8 d
  | some (.composite d) => some d.type
  | _ => none

end Scopes
end ObjectPascal
