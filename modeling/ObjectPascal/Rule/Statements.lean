import ObjectPascal.Rule.Build

/-!
Statements.
-/

namespace ObjectPascal.Rule

/-- A handler with the type it handles; the handler is numbered first. -/
def handlerOf (var name : Text) (body : Stmt) : Build Handler := do
  let info ← node
  return { info, var, type := { info := ← node, name }, body }

open Kind Phrase

/-- Statements without a part that is a statement list of its own. -/
def simpleStatements : List Rule := [
  rule stmtList [stmt] fun s => give [s],
  rule stmtList [stmtList, semicolon, stmt] fun ss _ s => give (snoc ss s),
  rule stmt [] (build do return .empty (← node)),
  rule stmt [identifier, colon, stmt] fun label _ s => build do
    return .labeled (← node) label.text s,
  rule stmt [integer, colon, stmt] fun label _ s => build do
    return .labeled (← node) label.text s,
  rule stmt [designator, Kind.assign, expr] fun target _ value => build do
    return .assign (← node) target value,
  rule stmt [designator] fun e => build do return .call (← node) e,
  rule stmt [INHERITED] fun _ => build do
    let info ← node
    return .call info (.inherited (← node) ∅ none),
  rule stmt [GOTO, labelId] fun _ label => build do return .goto (← node) label.text,
  rule stmt [RAISE] fun _ => build do return .raise (← node) none none,
  rule stmt [RAISE, expr] fun _ e => build do return .raise (← node) (some e) none,
  rule stmt [RAISE, expr, AT, expr] fun _ e _ place => build do
    return .raise (← node) (some e) (some place),
  rule stmt [BREAK] fun _ => build do return .breakLoop (← node),
  rule stmt [CONTINUE] fun _ => build do return .continueLoop (← node),
  rule stmt [asm] fun t => build do return .asm (← node) t.text,
  rule stmt [compoundStmt] fun s => give s,
  rule compoundStmt [BEGIN, stmtList, END] fun _ ss _ => build do return .compound (← node) ss]

/-- Choices. -/
def choices : List Rule := [
  rule stmt [IF, expr, THEN, stmt] fun _ test _ yes => build do
    return .cond (← node) test yes none,
  rule stmt [IF, expr, THEN, stmt, ELSE, stmt] fun _ test _ yes _ no => build do
    return .cond (← node) test yes (some no),
  rule stmt [CASE, expr, OF, caseArms, optSemi, caseElseOpt, END]
    fun _ selector _ arms _ rest _ => build do
      return .caseOf (← node) selector arms (rest.getD []),
  rule caseArms [caseArm] fun a => give [a],
  rule caseArms [caseArms, semicolon, caseArm] fun as _ a => give (snoc as a),
  rule caseArm [caseLabelList, colon, stmt] fun labels _ body => build do
    return { info := ← node, labels, body },
  rule caseLabelList [caseLabel] fun e => give [e],
  rule caseLabelList [caseLabelList, comma, caseLabel] fun es _ e => give (snoc es e),
  rule caseLabel [expr] fun e => give e,
  rule caseLabel [expr, dotDot, expr] fun low _ high => build do
    return .range (← node) low high,
  rule caseElseOpt [] (give none),
  rule caseElseOpt [ELSE, stmtList] fun _ ss => give (some ss)]

/-- Loops and with statements. -/
def loops : List Rule := [
  rule stmt [FOR, identifier, Kind.assign, expr, TO, expr, DO, stmt]
    fun _ var _ low _ high _ body => build do
      return .forTo (← node) var.text low high false body,
  rule stmt [FOR, identifier, Kind.assign, expr, DOWNTO, expr, DO, stmt]
    fun _ var _ low _ high _ body => build do
      return .forTo (← node) var.text low high true body,
  rule stmt [FOR, identifier, IN, expr, DO, stmt] fun word var _ coll _ body => build do
    require .forIn word.line "for-in loops"
    return .forIn (← node) var.text coll body,
  rule stmt [WHILE, expr, DO, stmt] fun _ test _ body => build do
    return .whileDo (← node) test body,
  rule stmt [REPEAT, stmtList, UNTIL, expr] fun _ body _ test => build do
    return .repeatUntil (← node) body test,
  rule stmt [WITH, exprList, DO, stmt] fun _ objects _ body => build do
    return .withDo (← node) objects body]

/-- Exceptions. -/
def handlers : List Rule := [
  rule stmt [TRY, stmtList, FINALLY, stmtList, END] fun _ body _ finish _ => build do
    return .tryFinally (← node) body finish,
  rule stmt [TRY, stmtList, EXCEPT, exceptBody, END] fun _ body _ e _ => build do
    return .tryExcept (← node) body e.handlers e.rest e.plain,
  rule exceptBody [stmtList] fun plain => give { plain },
  rule exceptBody [handlerList, optSemi, caseElseOpt]
    fun handlers _ rest => give { handlers, rest := rest.getD [] },
  rule handlerList [handler] fun h => give [h],
  rule handlerList [handlerList, semicolon, handler] fun hs _ h => give (snoc hs h),
  rule handler [ON, identifier, colon, qualident, DO, stmt]
    fun _ var _ name _ body => handlerOf var.text name body,
  rule handler [ON, qualident, DO, stmt] fun _ name _ body => handlerOf ∅ name body]

/-- All rules on statements. -/
def statements : List Rule := simpleStatements ++ choices ++ loops ++ handlers

end ObjectPascal.Rule
