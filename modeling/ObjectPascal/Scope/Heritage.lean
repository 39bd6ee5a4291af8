import ObjectPascal.Breach
import ObjectPascal.Scope.Fetch

/-!
Members and ancestors of classes and interfaces. A class without ancestors descends from the root
of all classes, an interface from the root of all interfaces.
-/

namespace ObjectPascal

/-- The first member of a name. -/
def CompositeDecl.member? (c : CompositeDecl) (name : Text) : Option Member :=
  c.members.find? fun m => m.name.sameFold name

/-- The names of the ancestors of a type. -/
def CompositeDecl.ancestors (c : CompositeDecl) : List Text :=
  match c.heritage, c.kind with
  | [], .classType => if c.name.sameFold "TObject" then [] else ["TObject"]
  | [], .interface | [], .dispInterface =>
    if c.name.sameFold "IInterface" || c.name.sameFold "IUnknown" then [] else ["IInterface"]
  | [], .record => []
  | names, _ => names

namespace Scopes

/-- All classes, interfaces and records in sight. -/
def composites (s : Scopes) : List CompositeDecl :=
  s.frames.flatMap fun f => f.entries.filterMap fun e =>
    match e.decl with
    | .composite c => some c
    | _ => none

/-- More steps than the ancestors of a type take to load: each step passes one more of the names in
sight. -/
def heritageBound (s : Scopes) : Nat :=
  let names := s.composites.foldr (fun c n => c.heritage.length + 1 + n) 0
  (names + 2) * (names + 2)

/-- A search through ancestors. It fails with an error, or it never ends, which is `none`. -/
abbrev Search := ExceptT ScopeError Option

/-- The name of a type is on the way no longer. -/
def stepBack (path : List Text) (c : CompositeDecl) : List Text := path.filter (· != c.name.lower)

/-- What was found, and the names that are on the way afterwards. -/
abbrev Found := Except ScopeError (Option Member × List Text)

/-- Searches the type of a name with its ancestors as `search` does. A name on the way is a circle.
Members for the type itself only do not count in descendants. -/
def memberNamed (s : Scopes) (search : List Text → CompositeDecl → Option Found) (path : List Text)
    (h : Text) : Option Found :=
  if path.contains h.lower then some (.error (s.error .circularHeritage h))
  else
    match s.fetchComposite h with
    | .error e => some (.error e)
    | .ok c =>
      (search path c).map
        (·.map fun (found, path) => (found.filter (·.visibility.isInheritable), path))

/-- Searches the types of several names in turn. -/
def memberAmong (s : Scopes) (search : List Text → CompositeDecl → Option Found) :
    List Text → List Text → Option Found
  | path, [] => some (.ok (none, path))
  | path, h :: names =>
    match s.memberNamed search path h with
    | some (.ok (none, path)) => s.memberAmong search path names
    | result => result

/-- Searches a type and then its ancestors, at most `n` types below each other. A type that was
searched in vain takes its name off the way, and with it that of any other type of this name. -/
def memberWithin (s : Scopes) (name : Text) : Nat → List Text → CompositeDecl → Option Found
  | 0, _, _ => none
  | n + 1, path, c =>
    match c.member? name with
    | some m => some (.ok (some m, path))
    | none =>
      (s.memberAmong (s.memberWithin name n) (path.insert c.name.lower) c.ancestors).map
        (·.map fun (found, path) => (found, stepBack path c))

/-- More types than a search has below each other if it ends: none of them comes twice with the same
names on the way. -/
def searchBound (s : Scopes) : Nat := (s.composites.length + 1).pow (s.composites.length + 1)

/-- The member that was found. -/
def Found.member (s : Scopes) (type name : Text) : Found → Except ScopeError Member
  | .error e => .error e
  | .ok (some m, _) => .ok m
  | .ok (none, _) => .error (s.error .memberNotFound (type ++ Text.ofString "." ++ name))

/-- A member of a type or of one of its ancestors. -/
def fetchMember (s : Scopes) (type name : Text) : Search Member :=
  .mk <| match s.fetchComposite type with
    | .error e => some (.error e)
    | .ok c => (s.memberWithin name s.searchBound [] c).map (Found.member s type name)

/-- A field of a type or of one of its ancestors. -/
def fetchField (s : Scopes) (type name : Text) : Search VarDecl :=
  let missing := s.error .fieldNotFound (type ++ Text.ofString "." ++ name)
  .mk <| (s.fetchMember type name).run.map fun
    | .ok (.var d) => .ok d
    | .ok _ => .error missing
    | .error e => .error (if e.fault = .memberNotFound then missing else e)

/-- Pushes a frame with the members of a type. Of several with one name the first stands for it. -/
def pushMembers (s : Scopes) (c : CompositeDecl) (inherited : Bool) : Scopes :=
  let members := c.members.filter fun m => !inherited || m.visibility.isInheritable
  let f : Frame := { name := c.name, owner := some (.composite c) }
  { s with inner := members.foldl (fun f m => f.addFirst m.name m.decl) f :: s.inner }

/-- The ancestors that are already on the stack. -/
structure Loaded where
  scopes : Scopes
  names : List Text := []
  count : Nat := 0

/-- Pushes a frame for each ancestor of a type, the root first. An ancestor that is reached twice is
pushed once; one that is reached from itself is an error. -/
def loadAncestors : Nat → List Text → CompositeDecl → Loaded → Except ScopeError Loaded
  | 0, _, c, l => .error (l.scopes.error .circularHeritage c.name)
  | n + 1, path, c, l =>
    c.ancestors.foldlM (fun l h => do
      let key := h.lower
      if path.contains key then throw (l.scopes.error .circularHeritage h)
      if l.names.contains key then return l
      let ancestor ← l.scopes.fetchComposite h
      let l ← loadAncestors n (key :: path) ancestor l
      return ⟨l.scopes.pushMembers ancestor true, key :: l.names, l.count + 1⟩) l

/-- Pushes the frames of all ancestors of a type and then one with its own members, and tells the
number of ancestors. -/
def loadHeritage (s : Scopes) (type : Text) : Except ScopeError (Scopes × Nat) := do
  let c ← s.fetchComposite type
  let l ← loadAncestors s.heritageBound [c.name.lower] c { scopes := s }
  return (l.scopes.pushMembers c false, l.count)

/-- What was pushed for the body of a method. -/
structure MethodContext where
  type : Text
  method : Text
  ancestors : Nat
  depth : Nat
deriving DecidableEq

/-- The number of frames while the body of the method is on top. -/
def MethodContext.inside (c : MethodContext) : Nat := c.depth + c.ancestors + 2

/-- Pushes the members of a type and its ancestors, and the frame of a method above them. -/
def enterMethod (s : Scopes) (type method : Text) : Search (Scopes × MethodContext) := do
  let m ← s.fetchMember type method
  let (inside, ancestors) ← s.loadHeritage type
  return (inside.enter method (some m.decl), ⟨type, method, ancestors, s.depth⟩)

/-- Pops the frames that were pushed for a method. The stack must be as it was then, with the frame
of the method on top. -/
def leaveMethod (s : Scopes) (c : MethodContext) : Except Breach Unit × Scopes :=
  if s.depth != c.inside then
    (.error (.methodDepth c.type c.method s.depth c.inside), s)
  else
    match s.leave? with
    | none => (.error .bottomLeft, s)
    | some (f, s) =>
      if f.name.sameFold c.method then (.ok (), s.unwindTo c.depth)
      else (.error (.methodFrame c.type c.method f.name), s)

end Scopes
end ObjectPascal
