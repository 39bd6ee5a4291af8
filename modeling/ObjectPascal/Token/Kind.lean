/-!
The kinds of tokens. Reserved words and directives carry their canonical spelling as name; the
language does not tell capital from small letters.
-/

namespace ObjectPascal

/-- What a token is. The order of the constructors is the order in which kinds are listed. -/
inductive Kind where
  | invalid
  | plus | minus | star | slash | equal | notEqual | less | lessEqual | greater | greaterEqual
  | leftParen | rightParen | leftBracket | rightBracket | dot | dotDot | comma | semicolon
  | colon | assign | caret | atSign
  | AND | ARRAY | AS | BEGIN | BREAK | CASE | CLASS | CONST | CONSTRUCTOR | CONTINUE
  | DESTRUCTOR | DISPINTERFACE | DIV | DO | DOWNTO | ELSE | END | EXCEPT | EXPORTS | FILE
  | FINALIZATION | FINALLY | FOR | FUNCTION | GOTO | IF | IMPLEMENTATION | IN | INHERITED
  | INITIALIZATION | INTERFACE | IS | LABEL | LIBRARY | MOD | NIL | NOT | OBJECT | OF | ON | OR
  | PACKED | PROCEDURE | PROGRAM | PROPERTY | RAISE | RECORD | REPEAT | RESOURCESTRING | SET
  | SHL | SHR | STRING | THEN | THREADVAR | TO | TRY | TYPE | UNIT | UNTIL | USES | VAR | WHILE
  | WITH | XOR
  | ABSOLUTE | ABSTRACT | ASSEMBLER | AT | CDECL | CONTAINS | DEFAULT | DYNAMIC | EXPORT
  | EXTERNAL | FORWARD | IMPLEMENTS | INDEX | INLINE | MESSAGE | NAME | NODEFAULT | OUT
  | OVERLOAD | OVERRIDE | PACKAGE | PASCAL | PRIVATE | PROTECTED | PUBLIC | PUBLISHED | READ
  | REGISTER | REINTRODUCE | REQUIRES | SAFECALL | STATIC | STDCALL | STORED | STRICT | VARARGS
  | VIRTUAL | WRITE
  | ident | integer | real | string | asm | comment | eof
deriving DecidableEq, Inhabited

namespace Kind

/-- The families of kinds. -/
inductive Family where
  | invalid
  | punctuation
  | reserved
  | directive
  | special
deriving DecidableEq

/-- The position of a kind in the order of all kinds. -/
def index (k : Kind) : Nat := k.ctorIdx

/-- The family is read off the order: marks, reserved words, directives and the rest stand
together. -/
def family (k : Kind) : Family :=
  if k.index = 0 then .invalid
  else if k.index < AND.index then .punctuation
  else if k.index < ABSOLUTE.index then .reserved
  else if k.index < ident.index then .directive
  else .special

/-- The number by which a kind is known outside. In front of each family one number is left out. -/
def code (k : Kind) : Nat :=
  match k.family with
  | .invalid => k.index
  | .punctuation => k.index + 1
  | .reserved => k.index + 2
  | .directive => k.index + 3
  | .special => k.index + 4

/-- The spelling of a kind in the source, or what a message calls it. -/
def spelling : Kind → String
  | invalid => "<invalid>"
  | plus => "+"
  | minus => "-"
  | star => "*"
  | slash => "/"
  | equal => "="
  | notEqual => "<>"
  | less => "<"
  | lessEqual => "<="
  | greater => ">"
  | greaterEqual => ">="
  | leftParen => "("
  | rightParen => ")"
  | leftBracket => "["
  | rightBracket => "]"
  | dot => "."
  | dotDot => ".."
  | comma => ","
  | semicolon => ";"
  | colon => ":"
  | assign => ":="
  | caret => "^"
  | atSign => "@"
  | AND => "AND"
  | ARRAY => "ARRAY"
  | AS => "AS"
  | BEGIN => "BEGIN"
  | BREAK => "BREAK"
  | CASE => "CASE"
  | CLASS => "CLASS"
  | CONST => "CONST"
  | CONSTRUCTOR => "CONSTRUCTOR"
  | CONTINUE => "CONTINUE"
  | DESTRUCTOR => "DESTRUCTOR"
  | DISPINTERFACE => "DISPINTERFACE"
  | DIV => "DIV"
  | DO => "DO"
  | DOWNTO => "DOWNTO"
  | ELSE => "ELSE"
  | END => "END"
  | EXCEPT => "EXCEPT"
  | EXPORTS => "EXPORTS"
  | FILE => "FILE"
  | FINALIZATION => "FINALIZATION"
  | FINALLY => "FINALLY"
  | FOR => "FOR"
  | FUNCTION => "FUNCTION"
  | GOTO => "GOTO"
  | IF => "IF"
  | IMPLEMENTATION => "IMPLEMENTATION"
  | IN => "IN"
  | INHERITED => "INHERITED"
  | INITIALIZATION => "INITIALIZATION"
  | INTERFACE => "INTERFACE"
  | IS => "IS"
  | LABEL => "LABEL"
  | LIBRARY => "LIBRARY"
  | MOD => "MOD"
  | NIL => "NIL"
  | NOT => "NOT"
  | OBJECT => "OBJECT"
  | OF => "OF"
  | ON => "ON"
  | OR => "OR"
  | PACKED => "PACKED"
  | PROCEDURE => "PROCEDURE"
  | PROGRAM => "PROGRAM"
  | PROPERTY => "PROPERTY"
  | RAISE => "RAISE"
  | RECORD => "RECORD"
  | REPEAT => "REPEAT"
  | RESOURCESTRING => "RESOURCESTRING"
  | SET => "SET"
  | SHL => "SHL"
  | SHR => "SHR"
  | STRING => "STRING"
  | THEN => "THEN"
  | THREADVAR => "THREADVAR"
  | TO => "TO"
  | TRY => "TRY"
  | TYPE => "TYPE"
  | UNIT => "UNIT"
  | UNTIL => "UNTIL"
  | USES => "USES"
  | VAR => "VAR"
  | WHILE => "WHILE"
  | WITH => "WITH"
  | XOR => "XOR"
  | ABSOLUTE => "ABSOLUTE"
  | ABSTRACT => "ABSTRACT"
  | ASSEMBLER => "ASSEMBLER"
  | AT => "AT"
  | CDECL => "CDECL"
  | CONTAINS => "CONTAINS"
  | DEFAULT => "DEFAULT"
  | DYNAMIC => "DYNAMIC"
  | EXPORT => "EXPORT"
  | EXTERNAL => "EXTERNAL"
  | FORWARD => "FORWARD"
  | IMPLEMENTS => "IMPLEMENTS"
  | INDEX => "INDEX"
  | INLINE => "INLINE"
  | MESSAGE => "MESSAGE"
  | NAME => "NAME"
  | NODEFAULT => "NODEFAULT"
  | OUT => "OUT"
  | OVERLOAD => "OVERLOAD"
  | OVERRIDE => "OVERRIDE"
  | PACKAGE => "PACKAGE"
  | PASCAL => "PASCAL"
  | PRIVATE => "PRIVATE"
  | PROTECTED => "PROTECTED"
  | PUBLIC => "PUBLIC"
  | PUBLISHED => "PUBLISHED"
  | READ => "READ"
  | REGISTER => "REGISTER"
  | REINTRODUCE => "REINTRODUCE"
  | REQUIRES => "REQUIRES"
  | SAFECALL => "SAFECALL"
  | STATIC => "STATIC"
  | STDCALL => "STDCALL"
  | STORED => "STORED"
  | STRICT => "STRICT"
  | VARARGS => "VARARGS"
  | VIRTUAL => "VIRTUAL"
  | WRITE => "WRITE"
  | ident => "identifier"
  | integer => "integer"
  | real => "real"
  | string => "string"
  | asm => "asm block"
  | comment => "comment"
  | eof => "<eof>"

/-- All kinds in order. -/
def all : List Kind :=
  [invalid, plus, minus, star, slash, equal, notEqual, less, lessEqual, greater, greaterEqual,
   leftParen, rightParen, leftBracket, rightBracket, dot, dotDot, comma, semicolon, colon,
   assign, caret, atSign, AND, ARRAY, AS, BEGIN, BREAK, CASE, CLASS, CONST, CONSTRUCTOR, CONTINUE,
   DESTRUCTOR, DISPINTERFACE, DIV, DO, DOWNTO, ELSE, END, EXCEPT, EXPORTS, FILE, FINALIZATION,
   FINALLY, FOR, FUNCTION, GOTO, IF, IMPLEMENTATION, IN, INHERITED, INITIALIZATION, INTERFACE,
   IS, LABEL, LIBRARY, MOD, NIL, NOT, OBJECT, OF, ON, OR, PACKED, PROCEDURE, PROGRAM, PROPERTY,
   RAISE, RECORD, REPEAT, RESOURCESTRING, SET, SHL, SHR, STRING, THEN, THREADVAR, TO, TRY,
   TYPE, UNIT, UNTIL, USES, VAR, WHILE, WITH, XOR, ABSOLUTE, ABSTRACT, ASSEMBLER, AT, CDECL,
   CONTAINS, DEFAULT, DYNAMIC, EXPORT, EXTERNAL, FORWARD, IMPLEMENTS, INDEX, INLINE, MESSAGE,
   NAME, NODEFAULT, OUT, OVERLOAD, OVERRIDE, PACKAGE, PASCAL, PRIVATE, PROTECTED, PUBLIC,
   PUBLISHED, READ, REGISTER, REINTRODUCE, REQUIRES, SAFECALL, STATIC, STDCALL, STORED, STRICT,
   VARARGS, VIRTUAL, WRITE, ident, integer, real, string, asm, comment, eof]

/-- The number of kinds. -/
def count : Nat := all.length

/-- The kind at a position of the order. -/
def ofIndex? (i : Nat) : Option Kind := all[i]?

/-- The kind with a given number. -/
def ofCode? (c : Int) : Option Kind := all.find? fun k => k.code == c

/-- The kind with a given spelling. -/
def ofSpelling? (s : String) : Option Kind := all.find? fun k => k.spelling == s

/-- The name by which token lists show a kind. -/
def name (k : Kind) : String :=
  match k.family with
  | .reserved | .directive => "Tok" ++ k.spelling
  | .punctuation => "Tok'" ++ k.spelling ++ "'"
  | .invalid => "TokInvalid"
  | .special =>
    match k with
    | ident => "TokIdent"
    | integer => "TokInteger"
    | real => "TokReal"
    | string => "TokString"
    | asm => "TokAsm"
    | comment => "TokComment"
    | _ => "TokEof"

/-- The spelling of the kind with number `c`; numbers without a kind have a spelling of their
own. -/
def spellingOfCode (c : Int) : String := ((ofCode? c).map spelling).getD "<??>"

/-- The name of the kind with number `c`; a number without a kind stands in its own name. -/
def nameOfCode (c : Int) : String := ((ofCode? c).map name).getD ("Tok(" ++ toString c ++ ")")

end Kind
end ObjectPascal
