import ObjectPascal.Binding.Declaration
import ObjectPascal.Syntax.Walk

/-!
Closures: the nested routines of a bound source that use variables or parameters of the routines
around them, and the parameters that would hand these over instead.
-/

namespace ObjectPascal
namespace Closure

/-- A parameter that a nested routine needs in place of a variable from outside. -/
structure Capture where
  name : Text
  source : CallableDecl
  decl : Decl

/-- Whether the parameter cannot have the name of the variable. -/
def Capture.isRenamed (c : Capture) : Bool := c.name != c.decl.name

/-- A nested routine, the names on the way to it, the routines around it from outside in, and what
it needs. -/
structure Nested where
  routine : CallableDecl
  path : List Text
  outer : List CallableDecl
  captures : List Capture

/-- The variables that a routine needs, in the order of its parameters. -/
def Nested.accessed (n : Nested) : List Decl := n.captures.map (·.decl)

/-- The declarations of the body of a routine. -/
def localDecls (d : CallableDecl) : List Decl := (d.body.map (·.decls)).getD []

/-- Whether a declaration is a parameter or variable of a routine. -/
def owns (b : Binding) (d : CallableDecl) : Decl → Bool
  | .param p => d.paramList.any (·.info == p.info)
  | .var v =>
    (localDecls d).any (fun l => match l with
      | .var w => w.info == v.info
      | _ => false) ||
      b.implicit.any fun (w, routine) => w.info == v.info && routine.info == d.info
  | _ => false

/-- A variable with the place of the routine that owns it, counted from outside. -/
structure Access where
  place : Nat
  source : CallableDecl
  decl : Decl

/-- The access that a node makes: a name marked as not local whose declaration belongs to one of the
routines around. -/
def accessOf (b : Binding) (outer : List CallableDecl) (n : Node) : Option Access :=
  let name := match n with
    | .expr (.name info _) | .expr (.ident info _) => some info
    | _ => none
  name.bind fun info =>
    (b.notes.declOf info).bind fun decl =>
      match outer.findIdx? (owns b · decl) with
      | none => none
      | some place =>
        if b.notes.isNonLocal info then (outer[place]?).map fun source => ⟨place, source, decl⟩
        else none

/-- The accesses without those to a declaration met before. -/
def distinct : List NodeInfo → List Access → List Access
  | _, [] => []
  | seen, a :: as =>
    if seen.contains a.decl.info then distinct seen as
    else a :: distinct (a.decl.info :: seen) as

/-- What belongs further out comes first, and then what has the smaller name. -/
def Access.le (a b : Access) : Bool :=
  a.place < b.place || (a.place == b.place && a.decl.name.le b.decl.name)

/-- All variables from outside that the statements of a routine use, in order. -/
def accesses (b : Binding) (outer : List CallableDecl) (d : CallableDecl) : List Access :=
  let nodes := (d.body.map fun block => block.body.nodes).getD []
  (distinct [] (nodes.filterMap (accessOf b outer))).mergeSort Access.le

/-- A name that is not taken: the given one, or the first with a number behind it. -/
def freshName (taken : List Text) (name : Text) : Text :=
  let candidates := name ::
    (List.range (taken.length + 1)).map fun i => name ++ Text.ofString "_" ++ Text.ofNat (i + 1)
  (candidates.find? fun c => !taken.contains c.lower).getD name

/-- Parameters for accesses, none of which takes the name of another. -/
def capturesOf (taken : List Text) : List Access → List Capture
  | [] => []
  | a :: as =>
    let name := freshName taken a.decl.name
    ⟨name, a.source, a.decl⟩ :: capturesOf (name.lower :: taken) as

/-- What a nested routine needs. -/
def nestedOf (b : Binding) (outer : List CallableDecl) (path : List Text) (d : CallableDecl) :
    Nested :=
  let taken := d.paramList.map (·.name.lower) ++ (localDecls d).map (·.name.lower)
  { routine := d, path, outer, captures := capturesOf taken (accesses b outer d) }

/-- The routine itself, if it is nested and needs anything. -/
def own (b : Binding) (outer : List CallableDecl) (path : List Text) (d : CallableDecl) :
    List Nested :=
  if outer.isEmpty then []
  else [nestedOf b outer path d].filter fun n => !n.captures.isEmpty

mutual

/-- The nested routines in a routine, itself included, that need anything. -/
def inRoutine (b : Binding) (outer : List CallableDecl) (path : List Text) (d : CallableDecl) :
    List Nested :=
  match d with
  | ⟨_, _, _, _, _, _, _, _, body, _, _, _, _⟩ =>
    let path := path ++ [d.qualifiedName]
    match body with
    | none => []
    | some ⟨_, decls, _⟩ => own b outer path d ++ inDecls b (outer ++ [d]) path decls

/-- The nested routines in declarations that need anything. -/
def inDecls (b : Binding) (outer : List CallableDecl) (path : List Text) :
    List Decl → List Nested
  | [] => []
  | .callable d :: ds => inRoutine b outer path d ++ inDecls b outer path ds
  | .type _ :: ds => inDecls b outer path ds
  | .composite _ :: ds => inDecls b outer path ds
  | .var _ :: ds => inDecls b outer path ds
  | .const _ :: ds => inDecls b outer path ds
  | .param _ :: ds => inDecls b outer path ds
  | .property _ :: ds => inDecls b outer path ds
  | .label _ :: ds => inDecls b outer path ds
  | .unit _ :: ds => inDecls b outer path ds
  | .exported _ :: ds => inDecls b outer path ds
  | .enumMember _ :: ds => inDecls b outer path ds

end

/-- The declarations of a source that may hold routines with bodies. -/
def declsOf : Goal → List Decl
  | .program g => g.block.decls
  | .library g => g.block.decls
  | .unit g => g.ownDecls
  | .package _ => []

/-- The nested routines of a bound source that need anything. -/
def analyze (b : Binding) (g : Goal) : List Nested := inDecls b [] [g.name] (declsOf g)

/-- One line on a parameter. -/
def Capture.report (i : Nat) (c : Capture) : Text :=
  let renamed : Text :=
    if c.isRenamed then Text.ofString " (renamed from " ++ c.decl.name ++ ")" else ∅
  "     " ++ Text.ofNat (i + 1) ++ ") " ++ c.name ++ renamed ++ " <- " ++ c.decl.name ++ " from " ++
    c.source.qualifiedName ++ "\n"

/-- The lines on a nested routine. -/
def Nested.report (i : Nat) (n : Nested) : Text :=
  Text.ofNat (i + 1) ++ ". Routine: " ++ n.routine.name ++ "\n   Path: " ++
    Text.join "." n.path ++ "\n   Nesting depth: " ++ Text.ofNat n.outer.length ++
    "\n   Additional parameters:\n" ++ Text.concat (n.captures.mapIdx Capture.report) ++ "\n"

/-- A report on all nested routines that were found. -/
def report (g : Goal) (found : List Nested) : Text :=
  if found.isEmpty then ∅
  else
    g.name ++ " found " ++ Text.ofNat found.length ++
      " nested routines requiring closure parameters:\n\n" ++
      Text.concat (found.mapIdx Nested.report)

end Closure
end ObjectPascal
