import ObjectPascal.Grammar.Machine

/-!
A parse shown as text: every reduction puts its left-hand side and the texts of its parts between
brackets. This runs a grammar for which no syntax tree is at hand.
-/

namespace ObjectPascal.Grammar

/-- How a production takes part in a bracketed parse: its text may complete the goal, or it may
have no reduction of its own. -/
structure Style where
  completes : Bool := false
  passes : Bool := false
deriving Inhabited

/-- The text of a production over the texts of its parts. -/
def bracketedText (name : String) (parts : List Text) : Text :=
  "(" ++ Text.ofString name ++ Text.concat (parts.map fun p => " " ++ p) ++ ")"

/-- Values are texts, an absent value is a low line, and the goal is the text of a production that
completes it. -/
def bracketed (g : Grammar) (style : Nat → Style) : Semantics Text Text Unit where
  ofToken t := t.shown
  absent := "_"
  line? _ := none
  reduction? i :=
    if i = 0 || (style i).passes then none
    else some fun _ parts _ =>
      let text := bracketedText (g.symbolName (.nonterminal (g.production i).lhs)) parts
      .ok { value := text, memory := (), goal := if (style i).completes then some text else none }

end ObjectPascal.Grammar
