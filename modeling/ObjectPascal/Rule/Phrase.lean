import ObjectPascal.Rule.Shape

/-!
The phrases of the language: every nonterminal of its grammar with the shape of the value that a
parse computes for it.
-/

namespace ObjectPascal.Rule

/-- A nonterminal of the grammar. -/
inductive Phrase where
  | goal | program | progParamsOpt | unit | unitEnd | library | package | requiresOpt
  | containsOpt | usesOpt | usesList | usesItem | identifier | identList | qualident
  | qualidentList | labelId | optSemi | block | blockBody | declsOpt | declList | declSection
  | intfDeclsOpt | intfDeclList | intfSection | labelSection | labelList | constSection
  | constDecls | constDecl | rsSection | rsDecls | rsDecl | typeSection | typeDecls | typeDecl
  | varSection | threadvarSection | varDecls | varDecl | varInitOpt | exportsSection | exportList
  | exportItem | routineDecl | routineProto | routineHead | routineKind | routineName | resultOpt
  | paramsOpt | paramGroups | paramGroup | paramKind | paramType | defaultOpt | directivesOpt
  | directiveList | directive | externalOpt | type | namedType | stringType | subrangeType
  | enumType | enumList | enumItem | pointerType | classrefType | arrayType | recordType
  | indexList | setType | fileType | classType | classShort | heritageOpt | heritage
  | interfaceType | interfaceShort | guidOpt | procType | ofObjectOpt | variantOpt | variantList
  | variantItem | vfieldsOpt | vfieldList | membersOpt | memberSeq | memberList | member
  | fieldDecl | visibility | propertyDecl | propIfaceOpt | propSpecsOpt | propSpecList | propSpec
  | propDefaultOpt | stmtList | stmt | compoundStmt | caseArms | caseArm | caseLabelList
  | caseLabel | caseElseOpt | exceptBody | handlerList | handler | exprList | expr | primary
  | setElems | setElem | designator | typedConst | typedConstList | fieldInits | fieldInit
deriving DecidableEq

namespace Phrase

/-- The name of a phrase in the grammar. -/
def name : Phrase → String
  | goal => "goal"
  | program => "program"
  | progParamsOpt => "prog_params_opt"
  | unit => "unit"
  | unitEnd => "unit_end"
  | library => "library"
  | package => "package"
  | requiresOpt => "requires_opt"
  | containsOpt => "contains_opt"
  | usesOpt => "uses_opt"
  | usesList => "uses_list"
  | usesItem => "uses_item"
  | identifier => "ident"
  | identList => "ident_list"
  | qualident => "qualident"
  | qualidentList => "qualident_list"
  | labelId => "label_id"
  | optSemi => "opt_semi"
  | block => "block"
  | blockBody => "block_body"
  | declsOpt => "decls_opt"
  | declList => "decl_list"
  | declSection => "decl_section"
  | intfDeclsOpt => "intf_decls_opt"
  | intfDeclList => "intf_decl_list"
  | intfSection => "intf_section"
  | labelSection => "label_section"
  | labelList => "label_list"
  | constSection => "const_section"
  | constDecls => "const_decls"
  | constDecl => "const_decl"
  | rsSection => "rs_section"
  | rsDecls => "rs_decls"
  | rsDecl => "rs_decl"
  | typeSection => "type_section"
  | typeDecls => "type_decls"
  | typeDecl => "type_decl"
  | varSection => "var_section"
  | threadvarSection => "threadvar_section"
  | varDecls => "var_decls"
  | varDecl => "var_decl"
  | varInitOpt => "var_init_opt"
  | exportsSection => "exports_section"
  | exportList => "export_list"
  | exportItem => "export_item"
  | routineDecl => "routine_decl"
  | routineProto => "routine_proto"
  | routineHead => "routine_head"
  | routineKind => "routine_kind"
  | routineName => "routine_name"
  | resultOpt => "result_opt"
  | paramsOpt => "params_opt"
  | paramGroups => "param_groups"
  | paramGroup => "param_group"
  | paramKind => "param_kind"
  | paramType => "param_type"
  | defaultOpt => "default_opt"
  | directivesOpt => "directives_opt"
  | directiveList => "directive_list"
  | directive => "directive"
  | externalOpt => "external_opt"
  | type => "type"
  | namedType => "named_type"
  | stringType => "string_type"
  | subrangeType => "subrange_type"
  | enumType => "enum_type"
  | enumList => "enum_list"
  | enumItem => "enum_item"
  | pointerType => "pointer_type"
  | classrefType => "classref_type"
  | arrayType => "array_type"
  | recordType => "record_type"
  | indexList => "index_list"
  | setType => "set_type"
  | fileType => "file_type"
  | classType => "class_type"
  | classShort => "class_short"
  | heritageOpt => "heritage_opt"
  | heritage => "heritage"
  | interfaceType => "interface_type"
  | interfaceShort => "interface_short"
  | guidOpt => "guid_opt"
  | procType => "proc_type"
  | ofObjectOpt => "of_object_opt"
  | variantOpt => "variant_opt"
  | variantList => "variant_list"
  | variantItem => "variant"
  | vfieldsOpt => "vfields_opt"
  | vfieldList => "vfield_list"
  | membersOpt => "members_opt"
  | memberSeq => "member_seq"
  | memberList => "member_list"
  | member => "member"
  | fieldDecl => "field_decl"
  | visibility => "visibility"
  | propertyDecl => "property_decl"
  | propIfaceOpt => "prop_iface_opt"
  | propSpecsOpt => "prop_specs_opt"
  | propSpecList => "prop_spec_list"
  | propSpec => "prop_spec"
  | propDefaultOpt => "prop_default_opt"
  | stmtList => "stmt_list"
  | stmt => "stmt"
  | compoundStmt => "compound_stmt"
  | caseArms => "case_arms"
  | caseArm => "case_arm"
  | caseLabelList => "case_label_list"
  | caseLabel => "case_label"
  | caseElseOpt => "case_else_opt"
  | exceptBody => "except_body"
  | handlerList => "handler_list"
  | handler => "handler"
  | exprList => "expr_list"
  | expr => "expr"
  | primary => "primary"
  | setElems => "set_elems"
  | setElem => "set_elem"
  | designator => "designator"
  | typedConst => "typed_const"
  | typedConstList => "typed_const_list"
  | fieldInits => "field_inits"
  | fieldInit => "field_init"

/-- The shape of the value of a phrase. -/
def shape : Phrase → Shape
  | goal | program | unit | library | package => .goal
  | progParamsOpt | requiresOpt | heritageOpt => .opt (.list .text)
  | unitEnd => .unitEnd
  | containsOpt | usesOpt => .opt (.list .unitRef)
  | usesList => .list .unitRef
  | usesItem => .unitRef
  | identifier | labelId | routineKind | paramKind => .token
  | identList | labelList => .list .token
  | qualident => .text
  | qualidentList | heritage => .list .text
  | optSemi => .opt .token
  | block => .block
  | blockBody | stmt | compoundStmt => .stmt
  | declsOpt | intfDeclsOpt => .opt (.list .decl)
  | declList | declSection | intfDeclList | intfSection | labelSection | constSection
  | constDecls | rsSection | rsDecls | typeSection | typeDecls | varSection | threadvarSection
  | exportsSection | exportList => .list .decl
  | constDecl | rsDecl | typeDecl | exportItem => .decl
  | varDecls | vfieldList => .list .varGroup
  | varDecl | fieldDecl => .varGroup
  | varInitOpt => .opt .varInit
  | routineDecl | routineProto => .callable
  | routineHead => .routineHead
  | routineName => .routineName
  | resultOpt => .opt .type
  | paramsOpt => .opt (.list .param)
  | paramGroups | paramGroup => .list .param
  | paramType | type | namedType | stringType | subrangeType | enumType | pointerType
  | classrefType | arrayType | recordType | setType | fileType | classType | classShort
  | interfaceType | interfaceShort | procType => .type
  | defaultOpt | guidOpt => .opt .expr
  | directivesOpt => .opt (.list .directive)
  | directiveList => .list .directive
  | directive => .directive
  | externalOpt => .opt .external
  | enumList => .list .enumMember
  | enumItem => .enumMember
  | indexList => .list .type
  | ofObjectOpt | propDefaultOpt => .opt .mark
  | variantOpt => .opt .variantPart
  | variantList => .list .variantCase
  | variantItem => .variantCase
  | vfieldsOpt => .opt (.list .varGroup)
  | membersOpt => .opt .members
  | memberSeq | memberList => .members
  | member | visibility | propertyDecl => .member
  | propIfaceOpt => .opt .propertyFace
  | propSpecsOpt => .opt (.list .propertySpec)
  | propSpecList => .list .propertySpec
  | propSpec => .propertySpec
  | stmtList => .list .stmt
  | caseArms => .list .caseArm
  | caseArm => .caseArm
  | caseLabelList | exprList | setElems | typedConstList => .list .expr
  | caseLabel | expr | primary | setElem | designator | typedConst => .expr
  | caseElseOpt => .opt (.list .stmt)
  | exceptBody => .exceptBody
  | handlerList => .list .handler
  | handler => .handler
  | fieldInits => .list .fieldInit
  | fieldInit => .fieldInit

end Phrase

/-- A symbol of a rule. -/
inductive Sym where
  | token (k : Kind)
  | phrase (p : Phrase)
deriving DecidableEq

namespace Sym

instance : Coe Kind Sym := ⟨token⟩

instance : Coe Phrase Sym := ⟨phrase⟩

/-- The shape of the value of a symbol. -/
def shape : Sym → Shape
  | token _ => .token
  | phrase p => p.shape

end Sym
end ObjectPascal.Rule
