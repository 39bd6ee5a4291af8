import ObjectPascal.Rule.Expressions
import ObjectPascal.Rule.Goals
import ObjectPascal.Rule.Members
import ObjectPascal.Rule.Statements
import ObjectPascal.Rule.Types

/-!
The grammar of the language, its tables, and the parse of a source into a tree.
-/

namespace ObjectPascal
namespace Rule

/-- All rules. Where two reductions apply the earlier rule wins, so names of types come before
expressions. -/
def all : List Rule :=
  goals ++ names ++ sections ++ routines ++ types ++ members ++ statements ++ expressions

/-- The part of the grammar that a symbol stands for. -/
def Sym.part : Sym → Grammar.Part
  | .token k => .token k
  | .phrase p => .name p.name

/-- The grammar with the levels of its operators, the loosest first. -/
def leveled : Grammar :=
  ((((((((Grammar.mk #["$accept"] #[⟨0, [], 0⟩] [] 0).declare .right [.THEN, .ELSE]).declare .left
    [.OR, .XOR]).declare .left
    [.AND]).declare .left
    [.equal, .notEqual, .less, .lessEqual, .greater, .greaterEqual, .IN, .IS]).declare .left
    [.plus, .minus]).declare .left
    [.star, .slash, .DIV, .MOD, .SHL, .SHR, .AS]).declare .right
    [.NOT, .atSign]).declare .left
    [.dot, .leftBracket, .leftParen, .caret]

/-- The grammar of the language. -/
def grammar : Grammar :=
  all.foldl (fun g r => g.rule r.lhs.name (r.rhs.map Sym.part) r.prec)
    (leveled.start Phrase.goal.name)

/-- The rules by number; number 0 is the start production. -/
def table : Array Rule := all.toArray

/-- The rule of a production. -/
def ofProduction? (i : Nat) : Option Rule :=
  match i with
  | 0 => none
  | i + 1 => table[i]?

/-- A phrase for a whole source completes the parse. -/
def goalOf : (p : Phrase) → p.shape.Val → Option Goal
  | .goal, g => some g
  | _, _ => none

/-- What a rule computes from the values of its right-hand side. -/
def reduction (config : Config) (origin : Nat) (r : Rule) : Grammar.Reduction Value Goal Nat :=
  fun line values last =>
    match applyTo (r.rhs.map Sym.shape) r.builder values with
    | none => .error (.breach ("values do not fit a rule for " ++ Text.ofString r.lhs.name))
    | some b => do
      let (v, last) ← b ⟨line, config, origin⟩ last
      return { value := ⟨r.lhs.shape, v⟩, memory := last, goal := goalOf r.lhs v }

/-- The meaning of all productions. The memory is the number of the last node. -/
def semantics (config : Config) (origin : Nat) : Grammar.Semantics Value Goal Nat where
  ofToken t := ⟨.token, t⟩
  absent := ⟨.mark, ()⟩
  line? v := v.1.line v.2
  reduction? i := (ofProduction? i).map (reduction config origin)

end Rule

/-- The tables of the language. -/
def languageTables : Except Grammar.Fault Grammar.Tables := Rule.grammar.tables

/-- What a parse ends with: a tree or a failure, and the number of the last node. -/
structure Parsed where
  result : Except Grammar.Failure Goal
  last : Nat

/-- What a parse has come to after its last step. -/
def Parsed.ofProgress : Grammar.Progress Rule.Value Goal Nat → Parsed
  | .accepted goal c => ⟨.ok goal, c.memory⟩
  | .failed f c => ⟨.error f, c.memory⟩
  | .more c => ⟨.error (.breach "parse without end"), c.memory⟩

/-- Parses a source by tables, if the grammar has them. -/
def parseBy (tables : Except Grammar.Fault Grammar.Tables) (config : Config) (source : Text)
    (origin : Nat) : Parsed :=
  match tables with
  | .error f => ⟨.error (.breach (Text.ofString f.message)), 0⟩
  | .ok t => .ofProgress (t.parse (Rule.semantics config origin) (.ofText source) 0)

/-- Parses a source. Nodes of different origin belong to different trees. -/
def parse (config : Config) (source : Text) (origin : Nat := 0) : Parsed :=
  parseBy languageTables config source origin

end ObjectPascal
