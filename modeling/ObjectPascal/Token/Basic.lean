import ObjectPascal.Text.Case
import ObjectPascal.Token.Kind

/-!
A token is a kind with its place in the source and the text that matters later: the spelling of
a name or number, the decoded text of a string, the message of an invalid token.
-/

namespace ObjectPascal

/-- A place in the source; lines and columns count from one, and line 0 is no place. -/
structure Place where
  line : Nat
  col : Nat
deriving DecidableEq, Inhabited

namespace Place

/-- Whether the place lies in the source. -/
def isValid (p : Place) : Bool := 0 < p.line

/-- Line and column with a colon between them. -/
def text (p : Place) : Text := Text.ofNat p.line ++ ":" ++ Text.ofNat p.col

end Place

/-- A token of the source. The length is kept in sixteen bits. -/
structure Token where
  kind : Kind
  len : UInt16
  place : Place
  text : Text
deriving DecidableEq, Inhabited

namespace Token

/-- The line on which the token begins. -/
def line (t : Token) : Nat := t.place.line

/-- Whether the token is neither invalid nor the end of the source. -/
def isValid (t : Token) : Bool := t.kind != .invalid && t.kind != .eof

/-- How a message shows the token: names and numbers as they were written, strings between quotes,
all else by the spelling of the kind. -/
def shown (t : Token) : Text :=
  match t.kind with
  | .ident | .integer | .real => t.text
  | .string => "'" ++ t.text ++ "'"
  | k => k.spelling

end Token

namespace Kind

/-- The reserved word or directive that a name spells in any case; all other names are
identifiers. -/
def ofWord (w : Text) : Kind :=
  let word := w.capitals
  match all.find? fun k => (k.family == .reserved || k.family == .directive) &&
      Text.ofString k.spelling == word with
  | some k => k
  | none => ident

end Kind
end ObjectPascal
