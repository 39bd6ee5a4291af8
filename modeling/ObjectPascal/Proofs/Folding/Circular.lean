import Mathlib.Data.List.Nodup
import Mathlib.Logic.Relation
import ObjectPascal.Proofs.Folding.Independence

/-!
Constants that depend on themselves. Folding an expression follows its operands and the constants
it names. Constants can name each other in circles, but folding does not follow them for ever: no
constant is folded while it is being folded already. An expression has no value if it needs a
constant that needs itself, since what has a value means it, and what is needed for a meaning is
found with fewer steps.
-/

namespace ObjectPascal.Folding

open Annotations

variable {s : Scopes} {a : Annotations} {U : Expr → Prop} {e x : Expr} {d : ConstDecl} {t : Typed}
  {n : Nat}

/-- An expression is a name of a constant that is folded where it is named. -/
inductive NamesConst (a : Annotations) : Expr → ConstDecl → Prop
  | ident {i : NodeInfo} {name : Text} {d : ConstDecl} (hd : a.declOf i = some (.const d))
      (hkind : d.kind ≠ .typed) : NamesConst a (.ident i name) d
  | name {i : NodeInfo} {name : Text} {d : ConstDecl} (hd : a.declOf i = some (.const d))
      (hkind : d.kind ≠ .typed) : NamesConst a (.name i name) d

/-- The value of one expression is made from that of another one: folding goes on to the operands
of an expression, the argument of a function of the language and the value of a constant. -/
inductive Follows (a : Annotations) : Expr → Expr → Prop
  | operand {i : NodeInfo} {op : UnaryOp} {x : Expr} : Follows a (.unary i op x) (a.effective x)
  | left {i : NodeInfo} {op : BinaryOp} {x y : Expr} : Follows a (.binary i op x y) (a.effective x)
  | right {i : NodeInfo} {op : BinaryOp} {x y : Expr} : Follows a (.binary i op x y) (a.effective y)
  | argument {i : NodeInfo} {callee x : Expr} {f : CallableDecl}
      (hf : a.declOf (a.effective callee).info = some (.callable f)) (hbuiltin : f.builtin = true)
      (hname : f.name.lower ∉ ["sizeof", "low", "high"].map Text.ofString) :
      Follows a (.call i callee (some [x])) (a.effective x)
  | const {e value : Expr} {d : ConstDecl} (hd : NamesConst a e d) (hvalue : d.value = some value) :
      Follows a e (a.effective value)

/-- The value of an expression needs that of a constant. -/
def NeedsConst (a : Annotations) (e : Expr) (d : ConstDecl) : Prop :=
  ∃ x, Relation.ReflTransGen (Follows a) (a.effective e) x ∧ NamesConst a x d

/-- The value of a constant needs that of the constant itself. -/
def Circular (a : Annotations) (d : ConstDecl) : Prop :=
  ∃ value, d.value = some value ∧ NeedsConst a value d

theorem NamesConst.declOf (h : NamesConst a e d) : a.declOf e.info = some (.const d) := by
  cases h <;> assumption

theorem NamesConst.kind (h : NamesConst a e d) : d.kind ≠ .typed := by
  cases h <;> assumption

/-- Folding goes on to expressions that it does not leave. -/
theorem Follows.enclosed (ha : Enclosed a U) (h : Follows a e x) (he : U e) : U x := by
  cases h with
  | operand => exact ha.effective (ha.operands _ he _ List.mem_cons_self)
  | left => exact ha.effective (ha.operands _ he _ List.mem_cons_self)
  | right => exact ha.effective (ha.operands _ he _ (List.mem_cons_of_mem _ List.mem_cons_self))
  | argument => exact ha.effective (ha.operands _ he _ List.mem_cons_self)
  | const hd hvalue => exact ha.effective (ha.values _ _ _ hd.declOf hvalue)

/-- A value follows from a value only. -/
theorem exists_of_following {o : Option Outcome} {k : Typed → Option Outcome}
    (h : following o k = some (.ok (some t))) :
    ∃ u, o = some (.ok (some u)) ∧ k u = some (.ok (some t)) := by
  obtain _ | _ | _ | u := o
  · cases h
  · cases h
  · cases h
  · exact ⟨u, rfl, h⟩

/-- An expression without a recorded value has the value that is computed. -/
theorem computed_of_meaning (hnone : a.valueOf e.info = none)
    (h : meaning s a (n + 1) e = some (.ok (some t))) :
    computed s a (fun x => meaning s a n (a.effective x)) e = some (.ok (some t)) := by
  rw [meaning, kept, hnone] at h
  obtain ⟨o, ho, hsettled⟩ := Option.map_eq_some_iff.mp h
  rw [ho]
  obtain _ | _ | u := o
  · cases hsettled
  · cases hsettled
  · unfold settled at hsettled
    split at hsettled
    · rename_i heq
      split at hsettled
      · rw [heq]
        exact congrArg some hsettled
      · cases hsettled
    · exact congrArg some hsettled

/-- Where there is a value, folding goes on to expressions with values, which are found earlier. -/
theorem Follows.meaning (h : Follows a e x) (hnone : a.valueOf e.info = none)
    (hmeans : meaning s a (n + 1) e = some (.ok (some t))) :
    ∃ u, meaning s a n x = some (.ok (some u)) := by
  have hcomputed := computed_of_meaning hnone hmeans
  cases h with
  | operand =>
    obtain ⟨u, hu, -⟩ := exists_of_following hcomputed
    exact ⟨u, hu⟩
  | left =>
    obtain ⟨u, hu, -⟩ := exists_of_following hcomputed
    exact ⟨u, hu⟩
  | right =>
    obtain ⟨u, -, hright⟩ := exists_of_following hcomputed
    obtain ⟨w, hw, -⟩ := exists_of_following hright
    exact ⟨w, hw⟩
  | argument hf hbuiltin hname =>
    simp only [List.map_cons, List.map_nil, List.mem_cons, List.not_mem_nil, or_false, not_or]
      at hname
    obtain ⟨hsize, hlow, hhigh⟩ := hname
    rw [computed, called, hf] at hcomputed
    simp only [hbuiltin, Bool.not_true, Bool.false_eq_true, if_false, beq_iff_eq, hsize, hlow,
      hhigh, Bool.or_eq_true, or_self] at hcomputed
    obtain ⟨u, hu, -⟩ := exists_of_following hcomputed
    exact ⟨u, hu⟩
  | const hd hvalue =>
    have hmeant : meant a (fun x => Folding.meaning s a n (a.effective x)) e =
        some (.ok (some t)) := by cases hd <;> exact hcomputed
    have hkind := hd.kind
    rw [meant, hd.declOf] at hmeant
    simp only [beq_iff_eq, hkind, if_false, hvalue] at hmeant
    exact ⟨t, hmeant⟩

/-- Whatever an expression with a value needs has a value, which is found no later. -/
theorem exists_meaning (ha : Enclosed a U) (hfresh : ∀ e, U e → a.valueOf e.info = none)
    (h : Relation.ReflTransGen (Follows a) e x) (he : U e)
    (hmeans : meaning s a n e = some (.ok (some t))) :
    U x ∧ ∃ u, meaning s a n x = some (.ok (some u)) := by
  induction h with
  | refl => exact ⟨he, t, hmeans⟩
  | tail _ hlast ih =>
    obtain ⟨hmid, u, hu⟩ := ih
    refine ⟨hlast.enclosed ha hmid, ?_⟩
    cases n with
    | zero => cases hu
    | succ n =>
      obtain ⟨w, hw⟩ := hlast.meaning (hfresh _ hmid) hu
      exact ⟨w, meaning_mono hw (Nat.le_succ n)⟩

/-- A name of a constant that depends on itself has no value: it would have to be found before it
is found. -/
theorem meaning_ne_of_circular (ha : Enclosed a U) (hfresh : ∀ e, U e → a.valueOf e.info = none)
    (hd : Circular a d) (hx : NamesConst a x d) (he : U x) :
    meaning s a n x ≠ some (.ok (some t)) := by
  obtain ⟨value, hvalue, y, hneeds, hy⟩ := hd
  induction n using Nat.strongRecOn generalizing x t with
  | ind n ih =>
    intro hmeans
    cases n with
    | zero => cases hmeans
    | succ n =>
      have hfollows : Follows a x (a.effective value) := .const hx hvalue
      obtain ⟨u, hu⟩ := hfollows.meaning (hfresh x he) hmeans
      obtain ⟨hyU, w, hw⟩ := exists_meaning ha hfresh hneeds (hfollows.enclosed ha he) hu
      exact ih n (Nat.lt_succ_self n) hy hyU hw

/-- An expression that needs a constant that depends on itself means no value. -/
theorem not_means_of_circular (ha : Enclosed a U) (hfresh : ∀ e, U e → a.valueOf e.info = none)
    (he : U e) (hneeds : NeedsConst a e d) (hd : Circular a d) :
    ¬Means s a (a.effective e) (.ok (some t)) := by
  rintro ⟨n, hn⟩
  obtain ⟨x, hpath, hx⟩ := hneeds
  obtain ⟨hxU, u, hu⟩ := exists_meaning ha hfresh hpath (ha.effective he) hn
  exact meaning_ne_of_circular ha hfresh hd hx hxU hu

/-- Folding comes to an end whatever constants refer to: no more names and replacements follow each
other than its limit, so that it does not matter what is done beyond any number from there on. And
if no expression has a value yet, an expression gets none that needs a constant that depends on
itself. -/
theorem fold_terminates (ha : a.Bare) (e : Expr) :
    (∀ (beyond : Elsewhere) (n : Nat), limit a ≤ n →
      (foldFrom s beyond n [] e).run.run a = (fold s e).run.run a) ∧
    ∀ U, Enclosed a U → U e → (∀ x, U x → a.valueOf x.info = none) →
      ∀ d, NeedsConst a e d → Circular a d →
        ∀ v, ((fold s e).run.run a).1 ≠ .ok (some v) := by
  refine ⟨fun beyond n hn => ?_, fun U hU he hfresh d hneeds hd v hrun => ?_⟩
  · have henough : Enough a [] n := (enough_limit a).mono hn
    rw [fold_eq ha henough e a (.refl a)]
    exact ((foldWithin_eq_foldFrom ha beyond n).1 [] e henough a (.refl a)).symm
  · obtain ⟨r, σ, hrep, hmatches⟩ := refolds_fold (s := s) hU he a (.refl s a U)
    rw [hrep.run] at hrun
    obtain rfl : r = .ok (some v) := hrun
    have hmeans := hrep.faithful.told _ (hU.effective he) v hmatches
    exact not_means_of_circular hU hfresh he hneeds hd hmeans

/-- The constant `A = B`. -/
def constA : ConstDecl :=
  { info := { id := 2, line := 1 }, name := "A", value := some (.name { id := 1, line := 1 } "B") }

/-- The constant `B = A`. -/
def constB : ConstDecl :=
  { info := { id := 4, line := 1 }, name := "B", value := some (.name { id := 3, line := 1 } "A") }

/-- The identifier that stands in for the name in the value of `constA`. -/
def identB : Expr := .ident { id := 5, line := 1 } "B"

/-- The identifier that stands in for the name in the value of `constB`. -/
def identA : Expr := .ident { id := 6, line := 1 } "A"

/-- What is recorded once these names are bound. -/
def mutualNotes : Annotations where
  notes :=
    let named (d : ConstDecl) : Annotation := { decl := some (.const d) }
    .ofList [(1, named constB), (3, named constA), (5, named constB), (6, named constA)]
  substitutes := .ofList [(1, identB), (3, identA)]
  next := 7

/-- The names in the values of both constants and what stands in for them. -/
def mutualNames : List Expr := constA.value.toList ++ constB.value.toList ++ [identB, identA]

theorem mem_of_substitute {k : Nat} (h : mutualNotes.substitutes[k]? = some e) :
    e ∈ [identB, identA] := by
  have hmem : (k, e) ∈ mutualNotes.substitutes.toList :=
    Std.TreeMap.mem_toList_iff_getElem?_eq_some.mpr h
  exact List.mem_map_of_mem (f := Prod.snd) hmem

theorem mem_of_declOf {i : NodeInfo} {d : Decl} (h : mutualNotes.declOf i = some d) :
    d ∈ [Decl.const constA, .const constB] := by
  obtain ⟨an, han, hdecl⟩ := Option.bind_eq_some_iff.mp h
  have hmem : (i.id, an) ∈ mutualNotes.notes.toList :=
    Std.TreeMap.mem_toList_iff_getElem?_eq_some.mpr han
  have hdecls : some d ∈ mutualNotes.notes.toList.map (·.2.decl) :=
    hdecl ▸ List.mem_map_of_mem (f := fun entry => entry.2.decl) hmem
  change some d ∈ [some (.const constB), some (.const constA), some (.const constB),
    some (.const constA)] at hdecls
  simp only [List.mem_cons, Option.some.injEq, List.not_mem_nil, or_false] at hdecls ⊢
  tauto

theorem enclosed_mutualNotes : Enclosed mutualNotes (· ∈ mutualNames) where
  bare k e he := by
    obtain rfl | he := List.mem_cons.mp (mem_of_substitute he)
    · rfl
    · obtain rfl := List.mem_singleton.mp he
      rfl
  operands e he x hx := by
    have hnone : ∀ e ∈ mutualNames, e.operands = [] := by
      simp [mutualNames, constA, constB, identA, identB, Expr.operands]
    rw [hnone e he] at hx
    cases hx
  standIns k e he := List.mem_append_right _ (mem_of_substitute he)
  values i d v hd hv := by
    have hdecl := mem_of_declOf hd
    simp only [List.mem_cons, Decl.const.injEq, List.not_mem_nil, or_false] at hdecl
    refine List.mem_append_left _ (List.mem_append.mpr ?_)
    obtain rfl | rfl := hdecl
    · exact .inl (Option.mem_toList.mpr hv)
    · exact .inr (Option.mem_toList.mpr hv)
  apart e f he hf hid := by
    have hnodup : (mutualNames.map (·.info.id)).Nodup := by decide
    exact List.inj_on_of_nodup_map hnodup he hf hid
  members i m e hm := by
    have hdecl := mem_of_declOf hm
    simp at hdecl
  consts i j c d hc hd hinfo := by
    have hc := mem_of_declOf hc
    have hd := mem_of_declOf hd
    simp only [List.mem_cons, Decl.const.injEq, List.not_mem_nil, or_false] at hc hd
    obtain rfl | rfl := hc <;> obtain rfl | rfl := hd <;> first | rfl | cases hinfo

/-- Folding `B`, where `A = B` and `B = A`, comes to an end without a value. -/
theorem fold_terminates_mutual : mutualNotes.Bare ∧ ∀ s : Scopes,
    (∀ (beyond : Elsewhere) (n : Nat), limit mutualNotes ≤ n →
      (foldFrom s beyond n [] identB).run.run mutualNotes =
        (fold s identB).run.run mutualNotes) ∧
    ∀ v, ((fold s identB).run.run mutualNotes).1 ≠ .ok (some v) := by
  have hbare := enclosed_mutualNotes.bare
  have hfresh : ∀ x ∈ mutualNames, mutualNotes.valueOf x.info = none := by
    simp only [mutualNames, constA, constB, Option.toList_some, List.cons_append, List.nil_append,
      List.forall_mem_cons]
    exact ⟨rfl, rfl, rfl, rfl, fun _ h => absurd h List.not_mem_nil⟩
  have hb : NamesConst mutualNotes identB constB := .ident rfl nofun
  have ha : NamesConst mutualNotes identA constA := .ident rfl nofun
  have hneeds : NeedsConst mutualNotes identB constB := ⟨identB, .refl, hb⟩
  -- the value of `B` is a name that `identA` stands in for, and that of `A` leads back to `identB`
  have hcircular : Circular mutualNotes constB :=
    ⟨_, rfl, identB, .single (.const ha rfl), hb⟩
  refine ⟨hbare, fun s => ?_⟩
  obtain ⟨hends, hnone⟩ := fold_terminates (s := s) hbare identB
  exact ⟨hends, hnone (· ∈ mutualNames) enclosed_mutualNotes (by simp [mutualNames]) hfresh constB
    hneeds hcircular⟩

end ObjectPascal.Folding
