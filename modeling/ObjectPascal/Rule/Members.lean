import ObjectPascal.Rule.Routines
import ObjectPascal.Rule.Sections

/-!
Members of classes, interfaces and records.
-/

namespace ObjectPascal.Rule

/-- Enters one specifier into a property. A later one wins over an earlier one of its kind. -/
def specify (d : PropertyDecl) : PropertySpec → PropertyDecl
  | .read name => { d with read := name }
  | .write name => { d with write := name }
  | .index e => { d with index := some e }
  | .default e => { d with default := some e }
  | .stored e => { d with stored := some e }
  | .noDefault => { d with noDefault := true }
  | .implements names => { d with implements := names }

/-- Turns a pending member into nodes with the visibility that holds here. -/
def addMember (l : MemberList) : PendingMember → Build MemberList
  | .visibility v => return { l with visibility := v }
  | .fields g => do
    return { l with items := l.items ++ (← groupDecls .field l.visibility g).map Member.var }
  | .method head directives => do
    return { l with items := snoc l.items (.callable (← callableOf head directives l.visibility)) }
  | .property name face specs isDefault line => do
    let d : PropertyDecl :=
      { info := ← nodeAt line, name := name.text, params := (face.map (·.params)).getD [],
        type := face.map (·.type), defaultArray := isDefault, visibility := l.visibility }
    return { l with items := snoc l.items (.property (specs.foldl specify d)) }

/-- A visibility that only some dialects have. -/
def strictly (word : Token) (v : Visibility) : Build PendingMember := do
  require .strictVisibility word.line "strict visibility"
  return .visibility v

open Kind Phrase

/-- Lists of members. -/
def memberLists : List Rule := [
  rule membersOpt [] (give none),
  rule membersOpt [memberSeq] fun ms => give (some ms),
  rule memberSeq [memberList] fun ms => give ms,
  rule memberSeq [memberList, fieldDecl] fun ms g => addMember ms (.fields g),
  rule memberSeq [fieldDecl] fun g => addMember {} (.fields g),
  rule memberList [member] fun m => addMember {} m,
  rule memberList [memberList, member] fun ms m => addMember ms m,
  rule member [fieldDecl, semicolon] fun g _ => give (.fields g),
  rule member [routineHead, semicolon, directivesOpt]
    fun head _ ds => give (.method head (ds.getD [])),
  rule member [propertyDecl] fun m => give m,
  rule member [visibility] fun m => give m,
  rule fieldDecl [identList, colon, type] fun names _ type => give { names, type },
  rule visibility [PRIVATE] fun _ => give (.visibility .plainPrivate),
  rule visibility [PROTECTED] fun _ => give (.visibility .plainProtected),
  rule visibility [PUBLIC] fun _ => give (.visibility .public_),
  rule visibility [PUBLISHED] fun _ => give (.visibility .published),
  rule visibility [STRICT, PRIVATE] fun word _ => strictly word .strictPrivate,
  rule visibility [STRICT, PROTECTED] fun word _ => strictly word .strictProtected]

/-- Properties. -/
def properties : List Rule := [
  rule propertyDecl [PROPERTY, identifier, propIfaceOpt, propSpecsOpt, semicolon, propDefaultOpt]
    fun word name face specs _ isDefault =>
      give (.property name face (specs.getD []) isDefault.isSome word.line),
  rule propIfaceOpt [] (give none),
  rule propIfaceOpt [colon, namedType] fun _ type => give (some { type }),
  rule propIfaceOpt [leftBracket, paramGroups, rightBracket, colon, namedType]
    fun _ params _ _ type => give (some { params, type }),
  rule propSpecsOpt [] (give none),
  rule propSpecsOpt [propSpecList] fun ss => give (some ss),
  rule propSpecList [propSpec] fun s => give [s],
  rule propSpecList [propSpecList, propSpec] fun ss s => give (snoc ss s),
  rule propSpec [READ, qualident] fun _ q => give (.read q),
  rule propSpec [WRITE, qualident] fun _ q => give (.write q),
  rule propSpec [INDEX, expr] fun _ e => give (.index e),
  rule propSpec [DEFAULT, expr] fun _ e => give (.default e),
  rule propSpec [STORED, expr] fun _ e => give (.stored e),
  rule propSpec [NODEFAULT] fun _ => give .noDefault,
  rule propSpec [IMPLEMENTS, qualidentList] fun _ names => give (.implements names),
  rule propDefaultOpt [] (give none),
  rule propDefaultOpt [DEFAULT, semicolon] fun _ _ => give (some ())]

/-- All rules on members. -/
def members : List Rule := memberLists ++ properties

end ObjectPascal.Rule
