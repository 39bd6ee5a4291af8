import ObjectPascal.Proofs.Rule.Guided

/-!
Programs with one constant that is a sum of string literals. They are accepted, whatever the names
and the literals are, and the tree holds the sum with its literals in their order.
-/

namespace ObjectPascal.Rule

open Grammar (Tables)
open Phrase

section Trails

/-- The phrases that a section of a block can begin with. -/
def sectionHeads : List Phrase :=
  [declSection, labelSection, constSection, typeSection, varSection, threadvarSection, rsSection,
    exportsSection, routineDecl, routineHead, routineKind]

/-- The trail in front of the name of a program. -/
def nameTrail : Trail := [(.token .PROGRAM, [identifier])]

/-- The trail in front of what it uses. -/
def usesTrail : Trail :=
  (.token .semicolon, [usesOpt]) :: (.phrase progParamsOpt, []) ::
    (.phrase identifier, [progParamsOpt]) :: nameTrail

/-- The trail in front of its block. -/
def blockTrail : Trail :=
  (.phrase usesOpt, block :: declsOpt :: declList :: sectionHeads) :: usesTrail

/-- The trail in front of its first constant. -/
def sectionTrail : Trail := (.token .CONST, [constDecls, constDecl, identifier]) :: blockTrail

/-- The trail in front of the value of this constant. -/
def constTrail : Trail :=
  (.token .equal, [expr, primary, designator, identifier]) :: (.phrase identifier, []) ::
    sectionTrail

/-- The trail in front of the right operand of a sum there. -/
def sumTrail : Trail :=
  (.token .plus, [expr, primary, designator, identifier]) :: (.phrase expr, []) :: constTrail

/-- The trail in front of the body of the block. -/
def bodyTrail : Trail := (.phrase declsOpt, [blockBody, compoundStmt]) :: blockTrail

/-- The trail in front of its first statement. -/
def stmtTrail : Trail :=
  (.token .BEGIN, [stmtList, stmt, designator, identifier, compoundStmt, labelId]) :: bodyTrail

end Trails

section Sums

/-- The expression of a string literal with a text. -/
inductive IsLiteral : Text → Expr → Prop
  | char (info : NodeInfo) {s : Text} {c : Char} (h : s.chars = [c]) :
    IsLiteral s (.char info c.toNat)
  | string (info : NodeInfo) {s : Text} (h : ∀ c, s.chars ≠ [c]) : IsLiteral s (.string info s)

/-- The sum of string literals with the texts. -/
inductive IsSum : List Text → Expr → Prop
  | literal {s : Text} {e : Expr} (h : IsLiteral s e) : IsSum [s] e
  | add {ss : List Text} {s : Text} {l r : Expr} (info : NodeInfo) (hl : IsSum ss l)
      (hr : IsLiteral s r) : IsSum (ss ++ [s]) (.binary info .add l r)

theorem stringOf_succeeds (token : Token) : (stringOf token).Succeeds (IsLiteral token.text) := by
  intro site last
  rcases hs : token.text.chars with _ | ⟨c, _ | ⟨d, cs⟩⟩
  · simp only [stringOf, hs]
    exact ⟨_, _, rfl, .string _ (by simp [hs])⟩
  · simp only [stringOf, hs]
    exact ⟨_, _, rfl, .char _ hs⟩
  · simp only [stringOf, hs]
    exact ⟨_, _, rfl, .string _ (by simp [hs])⟩

variable (config : Config) (origin : Nat) {t : Tables} {w : Trail} {k : Kind}
variable (ht : grammar.tables = .ok t)

include ht

/-- The first word stands in front of the name. -/
example : nameTrail.length = 1 := by decide +kernel

/-- In front of a plus or the end of a declaration a literal is read as an operand. -/
theorem reads_operand (hw : w ∈ [constTrail, sumTrail]) (hk : k ∈ [Kind.plus, .semicolon])
    {token : Token} (htoken : token.kind = .string) :
    Reads config origin t w (.phrase .expr) [token] k (IsLiteral token.text) := by
  have hprimary : rule .primary [.token .string] (fun t => stringOf t) ∈ all := by
    simp [all, expressions, primaries]
  have hexpr : rule .expr [.phrase .primary] (fun e => give e) ∈ all := by
    simp [all, expressions, operations]
  have hchecks : ∀ w ∈ [constTrail, sumTrail],
      w.shifts .string = true ∧ ∀ k ∈ [Kind.plus, .semicolon],
        ∀ a ∈ [Sym.token .string, .phrase .primary],
          w.fits a [] = true ∧ Trail.completes ((a, []) :: w) k = true := by
    decide +kernel
  obtain ⟨hshift, hparts⟩ := hchecks w hw
  have hliteral : Reads config origin t w (.phrase .primary) [token] k (IsLiteral token.text) := by
    refine .single ht hprimary (.word ht htoken hshift) (hparts k hk _ (by simp)) ?_
      (by rintro ⟨⟩)
    rintro v rfl
    exact stringOf_succeeds v
  exact .pass ht hexpr hliteral (hparts k hk _ (by simp)) (fun _ => id) (by rintro ⟨⟩)

/-- In front of a plus or the end of a declaration a sum of literals is read as one. -/
theorem reads_sum {first : Token} (hfirst : first.kind = .string) {rest : List (Token × Token)}
    (hrest : ∀ x ∈ rest, x.1.kind = .plus ∧ x.2.kind = .string)
    (hk : k ∈ [Kind.plus, .semicolon]) :
    Reads config origin t constTrail (.phrase .expr) (first :: rest.flatMap fun x => [x.1, x.2]) k
      (IsSum (first.text :: rest.map (·.2.text))) := by
  have hsum : rule .expr [.phrase .expr, .token .plus, .phrase .expr] (fun l _ r => build do
      return .binary (← node) .add l r) ∈ all := by
    simp [all, expressions, operations, operators]
  have hchecks : constTrail.fits (.phrase .expr) [] = true ∧
      Trail.shifts ((.phrase .expr, []) :: constTrail) .plus = true ∧
      Trail.fits ((.phrase .expr, []) :: constTrail) (.token .plus)
        [.expr, .primary, .designator, .identifier] = true ∧
      sumTrail.fits (.phrase .expr) [] = true ∧
      ∀ k ∈ [Kind.plus, .semicolon],
        Trail.completes ((.phrase .expr, []) :: sumTrail) k = true := by
    decide +kernel
  obtain ⟨hleft, hshift, hplus, hright, hends⟩ := hchecks
  -- A sum ends with its last operand, so the induction is on the list from the right.
  induction rest using List.reverseRecOn generalizing k with
  | nil =>
    have hreads := reads_operand config origin ht (w := constTrail) (by simp) hk hfirst
    exact hreads.imp fun _ h => .literal h
  | append_singleton rest x ih =>
    have hx := hrest x (by simp)
    have hsum' := ih (fun y hy => hrest y (List.mem_append_left _ hy)) (k := .plus) (by simp)
    have hoperand := reads_operand config origin ht (w := sumTrail) (by simp) hk hx.2
    rw [List.flatMap_append, List.flatMap_singleton, List.map_append, ← List.cons_append,
      ← List.cons_append, List.map_singleton]
    refine Reads.rule ht hsum (.cons [] hsum' ?_ hleft (.cons _ (.word ht hx.1 hshift) rfl hplus
      (.cons [] hoperand rfl hright .nil))) (hends k hk) ?_ (by rintro ⟨⟩)
    · exact hx.1
    · intro l hl _ _ r hr site last
      exact ⟨_, _, rfl, .add _ hl hr⟩

end Sums

section Programs

variable (config : Config) (origin : Nat) {t : Tables} {w : Trail} {k : Kind}
variable (ht : grammar.tables = .ok t)

include ht

/-- A name is read where one can begin. -/
theorem reads_name {token : Token} (htoken : token.kind = .ident)
    (hshift : w.shifts .ident = true)
    (hw : w.fits (.token .ident) [] = true ∧ Trail.completes ((.token .ident, []) :: w) k = true) :
    Reads config origin t w (.phrase .identifier) [token] k (· = token) := by
  have hname : rule .identifier [.token .ident] (fun t => give t) ∈ all := by
    simp [all, names]
  exact .pass ht hname (.word ht htoken hshift) hw (fun _ => id) (by rintro ⟨⟩)

/-- A constant with a name, the value of which has a property. -/
def IsConstant (key : Text) (P : Expr → Prop) (d : Decl) : Prop :=
  ∃ info e, d = .const { info, name := key, value := some e } ∧ P e

/-- The only declaration is a constant. -/
def AreConstant (key : Text) (P : Expr → Prop) (ds : List Decl) : Prop :=
  ∃ d, ds = [d] ∧ IsConstant key P d

/-- Eight symbols stand in front of the value of the constant. -/
example : constTrail.length = 8 := by decide +kernel

/-- A constant is read in front of a statement. -/
theorem reads_constant {key equal stop : Token} (hkey : key.kind = .ident)
    (hequal : equal.kind = .equal) (hstop : stop.kind = .semicolon) {us : List Token}
    {P : Expr → Prop} (h : Reads config origin t constTrail (.phrase .expr) us .semicolon P) :
    Reads config origin t sectionTrail (.phrase .constDecl) (key :: equal :: (us ++ [stop])) .BEGIN
      (IsConstant key.text P) := by
  have hdecl : rule .constDecl
      [.phrase .identifier, .token .equal, .phrase .expr, .token .semicolon]
      (fun name _ value _ => build do
        return .const { info := ← node, name := name.text, value := some value }) ∈ all := by
    simp [all, sections, constantSections]
  have hname : sectionTrail.shifts .ident = true ∧ sectionTrail.fits (.token .ident) [] = true ∧
      Trail.completes ((.token .ident, []) :: sectionTrail) .equal = true := by
    decide +kernel
  have hequation : sectionTrail.fits (.phrase identifier) [] = true ∧
      Trail.shifts ((.phrase identifier, []) :: sectionTrail) .equal = true ∧
      Trail.fits ((.phrase identifier, []) :: sectionTrail) (.token .equal)
        [expr, primary, designator, identifier] = true := by
    decide +kernel
  have hend : constTrail.fits (.phrase expr) [] = true ∧
      Trail.shifts ((.phrase expr, []) :: constTrail) .semicolon = true ∧
      Trail.fits ((.phrase expr, []) :: constTrail) (.token .semicolon) [] = true ∧
      Trail.completes ((.token .semicolon, []) :: (.phrase expr, []) :: constTrail) .BEGIN =
        true := by
    decide +kernel
  refine .rule ht hdecl (.cons [] (reads_name config origin ht hkey hname.1 hname.2) ?_ hequation.1
    (.cons _ (.word ht hequal hequation.2.1) rfl hequation.2.2
      (.cons [] h ?_ hend.1 (.cons [] (.word ht hstop hend.2.1) rfl hend.2.2.1 .nil))))
    hend.2.2.2 ?_ (by rintro ⟨⟩)
  · exact hequal
  · exact hstop
  · rintro name rfl _ _ e he _ _ site last
    exact ⟨_, _, rfl, _, e, rfl, he⟩

/-- One constant is read as the declarations of a block. -/
theorem reads_declarations {word key equal stop : Token} (hword : word.kind = .CONST)
    (hkey : key.kind = .ident) (hequal : equal.kind = .equal) (hstop : stop.kind = .semicolon)
    {us : List Token} {P : Expr → Prop}
    (h : Reads config origin t constTrail (.phrase .expr) us .semicolon P) :
    Reads config origin t blockTrail (.phrase .declsOpt) (word :: key :: equal :: (us ++ [stop]))
      .BEGIN fun ds => ∃ l, ds = some l ∧ AreConstant key.text P l := by
  have hdecls : rule .constDecls [.phrase .constDecl] (fun d => give [d]) ∈ all := by
    simp [all, sections, constantSections]
  have hsection : rule .constSection [.token .CONST, .phrase .constDecls] (fun _ ds => give ds) ∈
      all := by
    simp [all, sections, constantSections]
  have hany : rule .declSection [.phrase .constSection] (fun ds => give ds) ∈ all := by
    simp [all, sections, blocks]
  have hlist : rule .declList [.phrase .declSection] (fun ds => give ds) ∈ all := by
    simp [all, sections, blocks]
  have hopt : rule .declsOpt [.phrase .declList] (fun ds => give (some ds)) ∈ all := by
    simp [all, sections, blocks]
  have hword' : blockTrail.shifts .CONST = true ∧
      blockTrail.fits (.token .CONST) [constDecls, constDecl, identifier] = true := by
    decide +kernel
  have hparts : ∀ p ∈ [(constDecl, []), (constDecls, [constDecl, identifier])],
      sectionTrail.fits (.phrase p.1) p.2 = true ∧
      Trail.completes ((.phrase p.1, p.2) :: sectionTrail) .BEGIN = true := by
    decide +kernel
  have hblock : ∀ p ∈ [(constSection, []), (declSection, []), (declList, sectionHeads)],
      blockTrail.fits (.phrase p.1) p.2 = true ∧
      Trail.completes ((.phrase p.1, p.2) :: blockTrail) .BEGIN = true := by
    decide +kernel
  have hone := reads_constant config origin ht hkey hequal hstop h
  have hds : Reads config origin t sectionTrail (.phrase .constDecls)
      (key :: equal :: (us ++ [stop])) .BEGIN (AreConstant key.text P) :=
    .pass ht hdecls hone (hparts (constDecl, []) (by simp)) (fun d hd => ⟨d, rfl, hd⟩)
      (by rintro ⟨⟩)
  have hds' : Reads config origin t blockTrail (.phrase .constSection)
      (word :: key :: equal :: (us ++ [stop])) .BEGIN (AreConstant key.text P) := by
    obtain ⟨hfits, hend⟩ := hparts (constDecls, [constDecl, identifier]) (by simp)
    rw [← List.append_nil (key :: _)]
    exact .rule ht hsection (.cons _ (.word ht hword hword'.1) rfl hword'.2
      (.cons _ hds rfl hfits .nil)) hend (fun _ _ _ => give_succeeds) (by rintro ⟨⟩)
  have hany' : Reads config origin t blockTrail (.phrase .declSection)
      (word :: key :: equal :: (us ++ [stop])) .BEGIN (AreConstant key.text P) :=
    .pass ht hany hds' (hblock (constSection, []) (by simp)) (fun _ => id) (by rintro ⟨⟩)
  have hlist' : Reads config origin t blockTrail (.phrase .declList)
      (word :: key :: equal :: (us ++ [stop])) .BEGIN (AreConstant key.text P) :=
    .pass ht hlist hany' (hblock (declSection, []) (by simp)) (fun _ => id) (by rintro ⟨⟩)
  exact .pass ht hopt hlist' (hblock (declList, sectionHeads) (by simp))
    (fun ds hds => ⟨ds, rfl, hds⟩) (by rintro ⟨⟩)

/-- Only an empty statement stands in the body. -/
def IsBlank (s : Stmt) : Prop := ∃ info info', s = .compound info [.empty info']

/-- Seven symbols stand in front of the first statement. -/
example : stmtTrail.length = 7 := by decide +kernel

/-- A block without statements is read as the body of a program. -/
theorem reads_body {first last : Token} (hfirst : first.kind = .BEGIN) (hlast : last.kind = .END) :
    Reads config origin t bodyTrail (.phrase .blockBody) [first, last] .dot IsBlank := by
  have hstmt : rule .stmt [] (build do return .empty (← node)) ∈ all := by
    simp [all, statements, simpleStatements]
  have hlist : rule .stmtList [.phrase .stmt] (fun s => give [s]) ∈ all := by
    simp [all, statements, simpleStatements]
  have hcompound : rule .compoundStmt [.token .BEGIN, .phrase .stmtList, .token .END]
      (fun _ ss _ => build do return .compound (← node) ss) ∈ all := by
    simp [all, statements, simpleStatements]
  have hbody : rule .blockBody [.phrase .compoundStmt] (fun s => give s) ∈ all := by
    simp [all, sections, blocks]
  have hparts : Trail.completes stmtTrail .END = true ∧
      stmtTrail.fits (.phrase stmt) [] = true ∧
      Trail.completes ((.phrase stmt, []) :: stmtTrail) .END = true := by
    decide +kernel
  have hwords : bodyTrail.shifts .BEGIN = true ∧
      bodyTrail.fits (.token .BEGIN)
        [stmtList, stmt, designator, identifier, compoundStmt, labelId] = true ∧
      stmtTrail.fits (.phrase stmtList) [] = true ∧
      Trail.shifts ((.phrase stmtList, []) :: stmtTrail) .END = true ∧
      Trail.fits ((.phrase stmtList, []) :: stmtTrail) (.token .END) [] = true ∧
      Trail.completes ((.token .END, []) :: (.phrase stmtList, []) :: stmtTrail) .dot = true := by
    decide +kernel
  have hwhole : bodyTrail.fits (.phrase compoundStmt) [] = true ∧
      Trail.completes ((.phrase compoundStmt, []) :: bodyTrail) .dot = true := by
    decide +kernel
  have hempty : Reads config origin t stmtTrail (.phrase .stmt) [] .END
      fun s => ∃ info, s = .empty info :=
    .rule ht hstmt .nil hparts.1 (fun _ _ => ⟨_, _, rfl, _, rfl⟩) (by rintro ⟨⟩)
  have hone : Reads config origin t stmtTrail (.phrase .stmtList) [] .END
      fun ss => ∃ info, ss = [.empty info] := by
    refine .pass ht hlist hempty hparts.2 ?_ (by rintro ⟨⟩)
    rintro _ ⟨info, rfl⟩
    exact ⟨info, rfl⟩
  have hall :
      Reads config origin t bodyTrail (.phrase .compoundStmt) [first, last] .dot IsBlank := by
    refine .rule ht hcompound (.cons _ (.word ht hfirst hwords.1) rfl hwords.2.1
      (.cons [] hone ?_ hwords.2.2.1 (.cons [] (.word ht hlast hwords.2.2.2.1) rfl
        hwords.2.2.2.2.1 .nil))) hwords.2.2.2.2.2 ?_ (by rintro ⟨⟩)
    · exact hlast
    · rintro _ _ _ ⟨info, rfl⟩ _ _ site last
      exact ⟨_, _, rfl, _, info, rfl⟩
  exact .pass ht hbody hall hwhole (fun _ => id) (by rintro ⟨⟩)

/-- A program without parameters and used units, of which the only declaration is a constant. -/
def IsProgram (name key : Text) (P : Expr → Prop) (g : Goal) : Prop :=
  ∃ info info' d body, IsConstant key P d ∧ IsBlank body ∧ g = .program
    { info, name, params := [], uses := [], block := { info := info', decls := [d], body } }

/-- A block with one constant and a blank body. -/
def IsBlock (key : Text) (P : Expr → Prop) (b : Block) : Prop :=
  ∃ info d body, IsConstant key P d ∧ IsBlank body ∧ b = { info, decls := [d], body }

/-- A program with one constant is read as the goal. -/
theorem reads_program {program name stop word key equal stop' first last dot : Token}
    (hprogram : program.kind = .PROGRAM) (hname : name.kind = .ident)
    (hstop : stop.kind = .semicolon) (hword : word.kind = .CONST) (hkey : key.kind = .ident)
    (hequal : equal.kind = .equal) (hstop' : stop'.kind = .semicolon)
    (hfirst : first.kind = .BEGIN) (hlast : last.kind = .END) (hdot : dot.kind = .dot)
    {us : List Token} {P : Expr → Prop}
    (h : Reads config origin t constTrail (.phrase .expr) us .semicolon P) :
    Reads config origin t [] (.phrase .goal)
      ([program, name, stop, word, key, equal] ++ us ++ [stop', first, last, dot]) .eof
      (IsProgram name.text key.text P) := by
  have hgoal : rule .goal [.phrase .program] (fun g => give g) ∈ all := by
    simp [all, goals]
  have hwhole : rule .program [.token .PROGRAM, .phrase .identifier, .phrase .progParamsOpt,
      .token .semicolon, .phrase .usesOpt, .phrase .block, .token .dot]
      (fun _ name params _ uses block _ => build do
        return .program
          { info := ← node, name := name.text, params := params.getD [], uses := uses.getD [],
            block }) ∈ all := by
    simp [all, goals]
  have hparams : rule .progParamsOpt [] (give none) ∈ all := by
    simp [all, goals]
  have huses : rule .usesOpt [] (give none) ∈ all := by
    simp [all, goals]
  have hblock : rule .block [.phrase .declsOpt, .phrase .blockBody] (fun decls body => build do
      return { info := ← node, decls := decls.getD [], body }) ∈ all := by
    simp [all, sections, blocks]
  have hnames : Trail.shifts [] .PROGRAM = true ∧
      Trail.fits [] (.token .PROGRAM) [identifier] = true ∧
      nameTrail.shifts .ident = true ∧ nameTrail.fits (.token .ident) [] = true ∧
      Trail.completes ((.token .ident, []) :: nameTrail) .semicolon = true ∧
      nameTrail.fits (.phrase identifier) [progParamsOpt] = true := by
    decide +kernel
  have hstops : Trail.completes ((.phrase identifier, [progParamsOpt]) :: nameTrail) .semicolon =
        true ∧
      Trail.fits ((.phrase identifier, [progParamsOpt]) :: nameTrail) (.phrase progParamsOpt) [] =
        true ∧
      Trail.shifts
        ((.phrase progParamsOpt, []) :: (.phrase identifier, [progParamsOpt]) :: nameTrail)
        .semicolon = true ∧
      Trail.fits
        ((.phrase progParamsOpt, []) :: (.phrase identifier, [progParamsOpt]) :: nameTrail)
        (.token .semicolon) [usesOpt] = true ∧
      usesTrail.completes .CONST = true ∧
      usesTrail.fits (.phrase usesOpt) (block :: declsOpt :: declList :: sectionHeads) = true := by
    decide +kernel
  have hends : blockTrail.fits (.phrase declsOpt) [blockBody, compoundStmt] = true ∧
      bodyTrail.fits (.phrase blockBody) [] = true ∧
      Trail.completes ((.phrase blockBody, []) :: bodyTrail) .dot = true ∧
      blockTrail.fits (.phrase block) [] = true ∧
      Trail.shifts ((.phrase block, []) :: blockTrail) .dot = true ∧
      Trail.fits ((.phrase block, []) :: blockTrail) (.token .dot) [] = true ∧
      Trail.completes ((.token .dot, []) :: (.phrase block, []) :: blockTrail) .eof = true := by
    decide +kernel
  have htop : Trail.fits [] (.phrase .program) [] = true ∧
      Trail.completes [(.phrase .program, [])] .eof = true := by
    decide +kernel
  obtain ⟨hshift, hfits, hshift', hfits', hend, hnameFits⟩ := hnames
  obtain ⟨hparamsEnd, hparamsFits, hstopShift, hstopFits, husesEnd, husesFits⟩ := hstops
  obtain ⟨hdeclsFits, hbodyFits, hblockEnd, hblockFits, hdotShift, hdotFits, hdotEnd⟩ := hends
  have hnoParams : Reads config origin t ((.phrase identifier, [progParamsOpt]) :: nameTrail)
      (.phrase .progParamsOpt) [] .semicolon (· = none) :=
    .rule ht hparams .nil hparamsEnd (give_succeeds rfl) (by rintro ⟨⟩)
  have hnoUses : Reads config origin t usesTrail (.phrase .usesOpt) [] .CONST (· = none) :=
    .rule ht huses .nil husesEnd (give_succeeds rfl) (by rintro ⟨⟩)
  have hblock' : Reads config origin t blockTrail (.phrase .block)
      ((word :: key :: equal :: (us ++ [stop'])) ++ ([first, last] ++ [])) .dot
      (IsBlock key.text P) := by
    refine .rule ht hblock
      (.cons _ (reads_declarations config origin ht hword hkey hequal hstop' h) ?_ hdeclsFits
        (.cons [] (reads_body config origin ht hfirst hlast) rfl hbodyFits .nil)) hblockEnd ?_
        (by rintro ⟨⟩)
    · exact hfirst
    · rintro _ ⟨_, rfl, d, rfl, hd⟩ body hbody site last
      exact ⟨_, _, rfl, _, d, body, hd, hbody, rfl⟩
  have hall : Reads config origin t [] (.phrase .program)
      ([program] ++ ([name] ++ ([] ++ ([stop] ++ ([] ++
        (((word :: key :: equal :: (us ++ [stop'])) ++ ([first, last] ++ [])) ++ ([dot] ++ []))))))
        ) .eof
      (IsProgram name.text key.text P) := by
    refine .rule ht hwhole
      (.cons _ (.word ht hprogram hshift) rfl hfits
        (.cons _ (reads_name config origin ht hname hshift' ⟨hfits', hend⟩) ?_ hnameFits
          (.cons [] hnoParams ?_ hparamsFits
            (.cons _ (.word ht hstop hstopShift) rfl hstopFits
              (.cons _ hnoUses ?_ husesFits
                (.cons [] hblock' ?_ hblockFits
                  (.cons [] (.word ht hdot hdotShift) rfl hdotFits .nil))))))) hdotEnd ?_
                  (by rintro ⟨⟩)
    · exact hstop
    · exact hstop
    · exact hword
    · exact hdot
    · rintro _ _ name rfl _ rfl _ _ _ rfl _ ⟨info, d, body, hd, hbody, rfl⟩ _ _ site last
      exact ⟨_, _, rfl, _, info, d, body, hd, hbody, rfl⟩
  have hall' := Reads.pass ht hgoal hall htop (fun _ => id) (fun _ => rfl)
  simpa using hall'

end Programs

end ObjectPascal.Rule

