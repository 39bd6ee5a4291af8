import ObjectPascal.Proofs.Scope.Inheritance

/-!
Fields of record types. A record has no ancestors, so the search for a member ends in the record
itself. It looks through the members, and these do not hold what the variant part declares.
-/

namespace ObjectPascal

/-- The names that a variant part declares: its tag, if that is a field, and the fields of all
cases. -/
def VariantPart.names (p : VariantPart) : List Text :=
  (if p.tag.isEmpty then [] else [p.tag]) ++ p.cases.flatMap fun c => c.fields.map (·.name)

/-- The names that the variant part of a type declares. -/
def TypeExpr.variantNames : TypeExpr → List Text
  | .record _ _ _ (some p) => p.names
  | _ => []

namespace CompositeDecl

/-- A declaration of a record type, whose methods have their bodies elsewhere. -/
structure IsRecord (c : CompositeDecl) : Prop where
  kind : c.kind = .record
  heritage : c.heritage = []
  headings : ∀ d, .callable d ∈ c.members → d.body = none

/-- A field is the first member of its name, and no member has a name of the variant part. -/
structure Distinct (c : CompositeDecl) : Prop where
  fields : ∀ before f after, c.members = before ++ .var f :: after →
    ∀ m ∈ before, m.name.lower ≠ f.name.lower
  variants : ∀ n ∈ c.type.variantNames, ∀ m ∈ c.members, m.name.lower ≠ n.lower

variable {c : CompositeDecl}

theorem IsRecord.ancestors (h : c.IsRecord) : c.ancestors = [] := by
  unfold CompositeDecl.ancestors
  rw [h.heritage, h.kind]

theorem Distinct.member?_field (h : c.Distinct) {f : VarDecl} (hf : .var f ∈ c.members)
    (hfolds : Scopes.Folds f.name c) : c.member? f.name = some (.var f) := by
  obtain ⟨before, after, hsplit⟩ := List.append_of_mem hf
  have hfirst := h.fields before f after hsplit
  rw [Scopes.member?_eq_find? hfolds, List.find?_eq_some_iff_append]
  refine ⟨beq_self_eq_true _, before, after, hsplit, fun m hm => ?_⟩
  simpa using hfirst m hm

theorem Distinct.member?_variant (h : c.Distinct) {n : Text} (hn : n ∈ c.type.variantNames)
    (hfolds : Scopes.Folds n c) : c.member? n = none := by
  rw [Scopes.member?_eq_find? hfolds, List.find?_eq_none]
  intro m hm
  simpa using h.variants n hn m hm

end CompositeDecl

namespace Scopes

variable {s : Scopes} {c : CompositeDecl} {type : Text}

/-- The search for a member of a record ends with the record. -/
theorem fetchMember_record (hfetch : s.fetchComposite type = .ok c) (hc : c.IsRecord)
    (name : Text) : (s.fetchMember type name).run = some
      (match c.member? name with
      | some m => .ok m
      | none => .error (s.error .memberNotFound (type ++ Text.ofString "." ++ name))) := by
  have hsearch : s.memberWithin name 1 [] c = some (.ok (c.member? name,
      (c.member? name).elim (stepBack ([].insert c.name.lower) c) fun _ => [])) := by
    rw [memberWithin]
    cases c.member? name with
    | some m => rfl
    | none =>
      rw [hc.ancestors]
      rfl
  have hbound := memberWithin_searchBound ⟨.nil, List.forall_mem_nil _⟩ (mem_composites_of_fetch hfetch) hsearch
  rw [fetchMember_of_ok hfetch, hbound]
  cases c.member? name <;> rfl

/-- A field among the members is found. -/
theorem fetchField_field (hfetch : s.fetchComposite type = .ok c) (hc : c.IsRecord)
    (hdistinct : c.Distinct) {f : VarDecl} (hf : .var f ∈ c.members) (hfolds : Folds f.name c) :
    (s.fetchField type f.name).run = some (.ok f) := by
  have hmember := fetchMember_record hfetch hc f.name
  rw [hdistinct.member?_field hf hfolds] at hmember
  unfold fetchField
  rw [hmember]
  rfl

/-- A field of the variant part is not. -/
theorem fetchField_variant (hfetch : s.fetchComposite type = .ok c) (hc : c.IsRecord)
    (hdistinct : c.Distinct) {n : Text} (hn : n ∈ c.type.variantNames) (hfolds : Folds n c) :
    (s.fetchField type n).run =
      some (.error (s.error .fieldNotFound (type ++ Text.ofString "." ++ n))) := by
  have hmember := fetchMember_record hfetch hc n
  rw [hdistinct.member?_variant hn hfolds] at hmember
  unfold fetchField
  rw [hmember]
  rfl

end Scopes
end ObjectPascal
