import Mathlib.Data.List.TakeWhile
import ObjectPascal.Proofs.Binding.Marks
import ObjectPascal.Proofs.Binding.Still
import ObjectPascal.Proofs.Text

/-!
Routines that share a name. A scope keeps one declaration of a name, and what becomes of the next
routine of that name is decided by it alone: it overloads the one before, or it completes it and
takes its place, or it is reported. So headings with the directive take any number of bodies that
repeat it; but the first body that omits it takes the place of the headings, and every body after
that one is reported.
-/

namespace ObjectPascal

/-- The routine that a declaration declares. -/
def Decl.routine? : Decl → Option CallableDecl
  | .callable d => some d
  | _ => none

/-- Whether a complaint is the given one about scopes. -/
def Complaint.isScope (e : ScopeError) : Complaint → Bool
  | .scope e' => e' == e
  | _ => false

theorem Complaint.eq_of_isScope {c : Complaint} {e : ScopeError} (h : c.isScope e = true) :
    c = .scope e := by
  cases c with
  | scope e' => rw [eq_of_beq h]
  | _ => cases h

/-- What a name denotes in a frame: nothing yet, or a routine, or something else. -/
def Frame.held (f : Frame) (n : Text) : Option (Option CallableDecl) :=
  (f.find? n).map Decl.routine?

theorem Frame.held_eq_routine {f : Frame} {n : Text} {p : CallableDecl} :
    f.held n = some (some p) ↔ f.find? n = some (.callable p) := by
  unfold Frame.held
  rw [Option.map_eq_some_iff]
  refine ⟨fun ⟨d, hd, hp⟩ => ?_, fun h => ⟨_, h, rfl⟩⟩
  cases d <;> cases hp
  exact hd

namespace Binding

/-- The routine that a name denotes after `d` was declared, if it denoted `p` before. -/
def succeed (p d : CallableDecl) : CallableDecl :=
  if overload p d then p else if completes p d then d else p

/-- Whether a routine is declared under a name where it stands. A method with a body is not: it is
bound among the members of its type. -/
def declares (n : Text) (d : CallableDecl) : Bool :=
  d.name.lower == n.lower && !(!d.owner.isEmpty && d.body.isSome)

/-- The routines that are declared under a name. -/
def routinesOf (n : Text) (ds : List Decl) : List CallableDecl :=
  (ds.filterMap Decl.routine?).filter (declares n)

/-- What becomes of a name while routines of that name are declared. A name that is taken by
something else stays so. The first routine of a name that is free takes it, unless something else
came first. -/
def Follows (rs : List CallableDecl) :
    Option (Option CallableDecl) → Option (Option CallableDecl) → Prop
  | some (some p), y => y = some (some (rs.foldl succeed p))
  | some none, y => y = some none
  | none, none => rs = []
  | none, some none => True
  | none, some (some q) => ∃ p ps, rs = p :: ps ∧ q = ps.foldl succeed p

namespace Follows

variable {rs rs' : List CallableDecl} {x y z : Option (Option CallableDecl)}

theorem refl (x : Option (Option CallableDecl)) : Follows [] x x := by
  match x with
  | none => rfl
  | some none => rfl
  | some (some p) => rfl

theorem trans (h : Follows rs x y) (k : Follows rs' y z) : Follows (rs ++ rs') x z := by
  obtain _ | _ | p := x
  · -- the name was free before the first routines
    obtain _ | _ | q := y
    · obtain rfl : rs = [] := h
      exact k
    · obtain rfl : z = some none := k
      trivial
    · obtain ⟨p, ps, rfl, rfl⟩ := h
      obtain rfl : z = some (some (rs'.foldl succeed (ps.foldl succeed p))) := k
      exact ⟨p, ps ++ rs', rfl, (List.foldl_append ..).symm⟩
  · obtain rfl : y = some none := h
    exact k
  · obtain rfl : y = some (some (rs.foldl succeed p)) := h
    change z = some (some ((rs ++ rs').foldl succeed p))
    rw [List.foldl_append]
    exact k

end Follows

section Frames

variable {f g : Frame} {d : CallableDecl} {n : Text}

/-- A declaration of something else may take a name that is free, and changes no routine. -/
theorem follows_of_add? {name : Text} {e : Decl} (h : f.add? name e = some g)
    (he : e.routine? = none) : Follows [] (f.held n) (g.held n) := by
  unfold Frame.held
  rw [Frame.find?_of_add? h]
  cases f.find? n with
  | some p => exact .refl _
  | none =>
    split
    · rw [Option.none_or, Option.map_some, he]
      trivial
    · rfl

/-- A routine takes a name that is free. -/
theorem follows_of_add?_routine (h : f.add? d.name (.callable d) = some g) :
    Follows (if d.name.lower == n.lower then [d] else []) (f.held n) (g.held n) := by
  have hfree : f.find? d.name = none := by
    unfold Frame.add? at h
    split at h
    · cases h
    · assumption
  unfold Frame.held
  rw [Frame.find?_of_add? h]
  split
  · rename_i hsame
    rw [← f.find?_congr (eq_of_beq hsame), hfree]
    exact ⟨d, [], rfl, rfl⟩
  · rw [Option.or_none]
    exact .refl _

/-- A class or an interface takes the place of what announced it. -/
theorem follows_replace {name : Text} {e e' : Decl} (h : f.find? name = some e)
    (he : e.routine? = none) (he' : e'.routine? = none) :
    Follows [] (f.held n) ((f.replace name e').held n) := by
  unfold Frame.held
  rw [Frame.find?_replace h]
  split
  · rename_i hsame
    rw [← f.find?_congr (eq_of_beq hsame), h, Option.map_some, Option.map_some, he, he']
    rfl
  · exact .refl _

/-- A body takes the place of its heading. -/
theorem follows_replace_routine {p : CallableDecl} (h : f.find? d.name = some (.callable p))
    (hoverload : overload p d = false) (hcompletes : completes p d = true) :
    Follows (if d.name.lower == n.lower then [d] else []) (f.held n)
      ((f.replace d.name (.callable d)).held n) := by
  unfold Frame.held
  rw [Frame.find?_replace h]
  split
  · rename_i hsame
    rw [← f.find?_congr (eq_of_beq hsame), h]
    have hsucceed : succeed p d = d := by simp [succeed, hoverload, hcompletes]
    change _ = some (some (succeed p d))
    rw [hsucceed]
    rfl
  · exact .refl _

end Frames

/-- A step that declares some routines under a name, and no others. -/
def Hands {α : Type} (n : Text) (rs : List CallableDecl) (m : Bind α) : Prop :=
  ∀ b, b.scopes.inner ≠ [] → Ends m b
    (fun _ c => b.scopes.OnTop (fun f g => Follows rs (f.held n) (g.held n)) c.scopes)
    fun _ _ => True

namespace Hands

variable {α β : Type} {n : Text} {rs rs' : List CallableDecl} {m : Bind α}

theorem bind {k : α → Bind β} (hm : Hands n rs m) (hk : ∀ a, Hands n rs' (k a)) :
    Hands n (rs ++ rs') (m >>= k) := by
  intro b hb
  rw [Ends.bind_iff]
  refine (hm b hb).mono (fun a c hc => ?_) fun _ _ h => h
  exact (hk a c hc.inner_ne_nil).mono (fun _ d hd => hc.trans hd fun _ _ _ => .trans) fun _ _ h => h

/-- A step before that declares no routines. -/
theorem after {k : α → Bind β} (hm : Hands n [] m) (hk : ∀ a, Hands n rs (k a)) :
    Hands n rs (m >>= k) := hm.bind hk

theorem of_enumerating (h : Enumerating m) : Hands n [] m := by
  intro b hb
  refine (h b (.of_eq hb rfl)).mono (fun _ c hc => hc.mono fun f g hfg => ?_) fun _ _ h => h
  unfold Frame.held
  obtain hsame | ⟨hfree, x, hx⟩ := hfg n
  · rw [hsame]
    exact .refl _
  · rw [hfree, hx]
    trivial

theorem of_still (h : Still m) : Hands n [] m := of_enumerating (.of_still h)

theorem pure (a : α) : Hands n [] (Pure.pure a : Bind α) := of_still (Keeps.pure a)

theorem throw (e : Breach) : Hands n rs (throw e : Bind α) := fun _ _ => trivial

theorem discard (h : Hands n rs m) : Hands n rs (Functor.discard m) := by
  intro b hb
  rw [Ends.discard_iff]
  exact h b hb

theorem forM {γ : Type} {l : List γ} {f : γ → Bind PUnit} (hf : ∀ x ∈ l, Hands n [] (f x)) :
    Hands n [] (l.forM f) := by
  induction l with
  | nil => exact pure _
  | cons x l ih =>
    obtain ⟨hx, hl⟩ := List.forall_mem_cons.mp hf
    exact hx.after fun _ => ih hl

theorem register (line : Nat) (name : Text) {d : Decl} (hd : d.routine? = none) :
    Hands n [] (register line name d) := by
  intro b hb
  refine (register_ends hb line name d).mono (fun added c hc => ?_) fun _ _ h => h
  split at hc
  · exact hc.mono fun _ _ h => follows_of_add? h hd
  · rw [hc]
    exact Scopes.onTop_self hb fun _ => .refl _

theorem declareType {d : Decl} (hd : isTypeDecl d = true) : Hands n [] (declareType d) := by
  have hroutine : d.routine? = none := by
    cases d <;> first | rfl | cases hd
  intro b hb
  unfold Binding.declareType
  rw [Ends.bind_iff, getScopes_iff]
  split
  · rename_i c hannounced
    split
    · rename_i t ht
      obtain ⟨e, he, hnone⟩ : ∃ e, b.scopes.findLocal? c.name = some e ∧ e.routine? = none := by
        cases he : b.scopes.findLocal? c.name with
        | none =>
          have hnone : isAnnounced none = true := he ▸ hannounced
          cases hnone
        | some e =>
          refine ⟨e, rfl, ?_⟩
          have hsome : isAnnounced (some e) = true := he ▸ hannounced
          cases e <;> first | rfl | cases hsome
      exact (Scopes.onTop_of_redeclare he ht hb).mono fun f g ⟨hf, hg⟩ =>
        hg ▸ follows_replace hf hnone rfl
    · exact Scopes.onTop_self hb fun _ => .refl _
  · exact (register _ _ hroutine).discard b hb

theorem declareTypes (declared : Bool) {d : Decl} (hd : isTypeDecl d = true) (ds : List Decl) :
    Hands n [] (declareTypes declared (d :: ds.takeWhile isTypeDecl)) := by
  unfold Binding.declareTypes
  split
  · exact pure _
  · refine forM fun e he => declareType ?_
    obtain rfl | he := List.mem_cons.mp he
    · exact hd
    · exact List.mem_takeWhile_imp he

theorem declareVar (d : VarDecl) : Hands n [] (declareVar d) :=
  after (of_still (.of_silent (.checkAbsolute d))) fun _ => (register _ _ rfl).discard

theorem declareConst (d : ConstDecl) : Hands n [] (declareConst d) :=
  after (register _ _ rfl) fun free => of_still (.of_silent (.constantDeclared d free))

theorem declareUnits (units : List UnitRef) : Hands n [] (declareUnits units) :=
  forM fun _ _ => (register _ _ rfl).discard

end Hands

section Routine

variable {b : Binding} {d : CallableDecl} {n : Text}

/-- A step that declares nothing does not matter to a routine whose frame is on top. -/
theorem declared_still {α : Type} {c : Binding} {R : Frame → Frame → Prop} {m : Bind α}
    (h : ∃ u, b.scopes.OnTop R u ∧ c.scopes = u.enter d.name (some (.callable d)))
    (hm : Still m) : Ends m c
      (fun _ e => ∃ u, b.scopes.OnTop R u ∧ e.scopes = u.enter d.name (some (.callable d)))
      fun _ _ => True :=
  (hm c rfl).mono (fun _ _ he => h.imp fun _ hu => ⟨hu.1, he.trans hu.2⟩) fun _ _ h => h

/-- A routine is declared around its own frame, and follows the one before it under its name. -/
theorem declareRoutine_follows (hb : b.scopes.inner ≠ []) (hn : n.isEmpty = false) :
    Ends (declareRoutine (b.scopes.findLocal? d.name) d)
      { b with scopes := b.scopes.enter d.name (some (.callable d)) }
      (fun _ c => ∃ u, b.scopes.OnTop (fun f g =>
          Follows (if d.name.lower == n.lower then [d] else []) (f.held n) (g.held n)) u ∧
        c.scopes = u.enter d.name (some (.callable d))) fun _ _ => True := by
  -- nothing changes where the name is taken already and stays so
  have hkept
      (h : d.name.lower = n.lower → Follows [d] (b.scopes.top.held n) (b.scopes.top.held n)) :
      ∃ u, b.scopes.OnTop (fun f g =>
          Follows (if d.name.lower == n.lower then [d] else []) (f.held n) (g.held n)) u ∧
        b.scopes.enter d.name (some (.callable d)) = u.enter d.name (some (.callable d)) := by
    obtain ⟨f, rest, hinner⟩ := List.exists_cons_of_ne_nil hb
    refine ⟨b.scopes, ⟨f, f, rest, hinner, by rw [← hinner]; rfl, ?_⟩, rfl⟩
    rw [show b.scopes.top = f by simp [Scopes.top, hinner]] at h
    split
    · exact h (eq_of_beq ‹_›)
    · exact .refl _
  have hfind (hsame : d.name.lower = n.lower) :
      b.scopes.top.held n = (b.scopes.findLocal? d.name).map Decl.routine? := by
    rw [Frame.held, ← b.scopes.top.find?_congr hsame]
    rfl
  have hregister (hfixed : ∀ p, b.scopes.findLocal? d.name = some (.callable p) →
      succeed p d = p) : Ends (registerRoutine d)
        { b with scopes := b.scopes.enter d.name (some (.callable d)) }
        (fun _ c => ∃ u, b.scopes.OnTop (fun f g =>
            Follows (if d.name.lower == n.lower then [d] else []) (f.held n) (g.held n)) u ∧
          c.scopes = u.enter d.name (some (.callable d))) fun _ _ => True := by
    unfold registerRoutine
    rw [Ends.bind_iff, getScopes_iff]
    dsimp only
    split
    · rename_i t ht
      obtain ⟨u, hu, rfl⟩ := Scopes.onTop_of_register_inside ht hb rfl
      rw [Ends.bind_iff, setScopes_iff]
      exact declared_still ⟨u, hu.mono fun _ _ => follows_of_add?_routine, rfl⟩
        (.ite (Still.of_silent (.addOverload d)) (.pure _))
    · rename_i e he
      refine declared_still (hkept fun hsame => ?_) (.of_silent (.complain _ _))
      have hname : d.name.isEmpty = false := by
        rw [← Text.isEmpty_lower, hsame, Text.isEmpty_lower, hn]
      obtain ⟨-, p, hp⟩ := Scopes.register_inside_error he hb rfl hname
      rw [hfind hsame, hp]
      cases hr : p.routine? with
      | none =>
        rw [Option.map_some, hr]
        rfl
      | some q =>
        obtain rfl : p = .callable q := by
          cases p <;> cases hr
          rfl
        change some (some q) = some (some (succeed q d))
        rw [hfixed q hp]
  unfold declareRoutine
  split
  · rename_i p hp
    split
    · rename_i hoverload
      refine declared_still (hkept fun hsame => ?_) (.of_silent (.addOverload d))
      rw [hfind hsame, hp]
      change some (some p) = some (some (succeed p d))
      rw [succeed, if_pos hoverload]
    · rename_i hoverload
      split
      · rename_i hcompletes
        obtain ⟨u, hu, hredeclare⟩ := Scopes.redeclare_inside d.name (some (.callable d))
          (.callable d) hp hb
        rw [Ends.bind_iff, getScopes_iff, hredeclare]
        refine ⟨u, hu.mono fun f g hfg => hfg.2 ▸ ?_, rfl⟩
        exact follows_replace_routine hfg.1 (eq_false_of_ne_true hoverload) hcompletes
      · rename_i hcompletes
        refine hregister fun q hq => ?_
        obtain rfl : p = q := by
          rw [hp] at hq
          cases hq
          rfl
        rw [succeed, if_neg hoverload, if_neg hcompletes]
  · rename_i hother
    exact hregister fun p hp => absurd hp (hother p)

/-- A routine is bound in a frame of its own, which is left again. -/
theorem inRoutine_hands (d : CallableDecl) {inside : Bind Unit} (hinside : Lawful inside)
    (hn : n.isEmpty = false) :
    Hands n (if d.name.lower == n.lower then [d] else []) (inRoutine d inside) := fun _ hb =>
  Still.inRoutine_onTop hinside (declareRoutine_follows hb hn)

theorem lawful_insideOf (d : CallableDecl) : Lawful (insideOf d) := by
  cases d
  exact .bind (Lawful.visitOptParams _) fun _ => .bind (Lawful.visitOptType _) fun _ =>
    Lawful.visitBody _ _

theorem visitCallable_hands (d : CallableDecl) (hn : n.isEmpty = false) :
    Hands n (if declares n d then [d] else []) (visitCallable d) := by
  rw [visitCallable_eq]
  unfold declares
  cases !d.owner.isEmpty && d.body.isSome with
  | true =>
    rw [Bool.not_true, Bool.and_false]
    exact .of_still (.inMethod d (lawful_insideOf d))
  | false =>
    rw [Bool.not_false, Bool.and_true]
    exact inRoutine_hands d (lawful_insideOf d) hn

end Routine

theorem routinesOf_cons_of_none {n : Text} {d : Decl} (hd : d.routine? = none) (ds : List Decl) :
    routinesOf n (d :: ds) = routinesOf n ds := by
  rw [routinesOf, List.filterMap_cons_none hd]
  rfl

theorem routinesOf_cons_callable (n : Text) (d : CallableDecl) (ds : List Decl) :
    routinesOf n (.callable d :: ds) = (if declares n d then [d] else []) ++ routinesOf n ds := by
  have hcons : (Decl.callable d :: ds).filterMap Decl.routine? =
      d :: ds.filterMap Decl.routine? := rfl
  rw [routinesOf, hcons, List.filter_cons]
  split <;> rfl

/-- Declarations declare the routines among them under their names. -/
theorem visitDecls_hands {n : Text} (hn : n.isEmpty = false) (declared : Bool)
    (ds : List Decl) : Hands n (routinesOf n ds) (visitDecls declared ds) := by
  induction ds generalizing declared with
  | nil => exact .pure _
  | cons d ds ih =>
    cases d with
    | type d =>
      obtain ⟨_, name, t⟩ := d
      rw [routinesOf_cons_of_none rfl]
      exact .after (.declareTypes declared rfl ds) fun _ =>
        .after (.of_enumerating (.visitType t name)) fun _ => ih true
    | composite d =>
      obtain ⟨i, name, kind, heritage, members, type⟩ := d
      rw [routinesOf_cons_of_none rfl]
      have hframed (d : CompositeDecl) := Hands.of_still (n := n)
        (.framed d.name (some (.composite d))
          (.bind (Lawful.visitMembers members) fun _ => Lawful.visitRest type))
      have h (d : CompositeDecl) := Hands.after (hframed d) fun _ =>
        .after (.of_still (.of_silent (.checkComposite d))) fun _ => ih true
      simp only [bind_assoc] at h
      exact .after (.declareTypes declared rfl ds) fun _ =>
        h ⟨i, name, kind, heritage, members, type⟩
    | var d =>
      obtain ⟨_, _, type, init, _, _, _⟩ := d
      rw [routinesOf_cons_of_none rfl]
      exact .after (.of_enumerating (.visitOptType type)) fun _ =>
        .after (.of_still (.visitOptExpr init)) fun _ => .after (.declareVar _) fun _ => ih false
    | const d =>
      obtain ⟨_, _, type, value, _⟩ := d
      rw [routinesOf_cons_of_none rfl]
      exact .after (.of_enumerating (.visitOptType type)) fun _ =>
        .after (.of_still (.visitOptExpr value)) fun _ =>
          .after (.declareConst _) fun _ => ih false
    | callable d =>
      rw [routinesOf_cons_callable]
      exact .bind (visitCallable_hands d hn) fun _ => ih false
    | label d =>
      rw [routinesOf_cons_of_none rfl]
      exact .after (Hands.register _ _ rfl).discard fun _ => ih false
    | exported d =>
      rw [routinesOf_cons_of_none rfl]
      exact .after (.of_still (.visitExport d)) fun _ => ih false
    | _ => exact .throw _

/-- What stands before and after a routine is bound before and after it. -/
theorem visitDecls_split (declared : Bool) (pre : List Decl) (d : CallableDecl) (post : List Decl) :
    visitDecls declared (pre ++ .callable d :: post) = (do
      visitDecls declared pre
      visitCallable d
      visitDecls false post) := by
  have htypes (ds : List Decl) : (ds ++ .callable d :: post).takeWhile isTypeDecl =
      ds.takeWhile isTypeDecl := by
    induction ds with
    | nil => rfl
    | cons e ds ih => simp only [List.cons_append, List.takeWhile_cons, ih]
  induction pre generalizing declared with
  | nil => simp [visitDecls]
  | cons e pre ih => cases e <;> rename_i x <;> cases x <;> simp [visitDecls, htypes, ih]

/-- What a scope is made of: the units of a clause, or declarations that stand together. -/
inductive Part where
  | units (us : List UnitRef)
  | decls (ds : List Decl)

/-- Binds a part of a scope. -/
def Part.bind : Part → Bind Unit
  | .units us => declareUnits us
  | .decls ds => visitDecls false ds

/-- Binds the parts of a scope in order. -/
def bindParts : List Part → Bind Unit
  | [] => pure ()
  | part :: parts => do
    part.bind
    bindParts parts

/-- The routines that a part of a scope declares under a name. -/
def Part.routines (n : Text) : Part → List CallableDecl
  | .units _ => []
  | .decls ds => routinesOf n ds

/-- The parts of the scope of a source. -/
def scopeOf : Goal → List Part
  | .program g => [.units g.uses, .decls g.block.decls]
  | .library g => [.units g.uses, .decls g.block.decls]
  | .unit g => [.units g.publicUses, .decls g.publicDecls, .units g.ownUses, .decls g.ownDecls]
  | .package g => [.units g.contains]

theorem bindParts_append (parts parts' : List Part) :
    bindParts (parts ++ parts') = (do bindParts parts; bindParts parts') := by
  induction parts with
  | nil => simp [bindParts]
  | cons part parts ih => simp only [List.cons_append, bindParts, ih, bind_assoc]

theorem leads_bindParts_cons {part : Part} {parts : List Part} {b c : Binding} :
    Leads (bindParts (part :: parts)) b () c ↔
      ∃ a, Leads part.bind b () a ∧ Leads (bindParts parts) a () c := by
  refine Leads.bind_iff.trans ⟨fun ⟨_, a, h⟩ => ⟨a, h⟩, fun ⟨a, h⟩ => ⟨(), a, h⟩⟩

theorem parts_hands {n : Text} (hn : n.isEmpty = false) (parts : List Part) :
    Hands n (parts.flatMap (Part.routines n)) (bindParts parts) := by
  induction parts with
  | nil => exact .pure _
  | cons part parts ih =>
    rw [List.flatMap_cons]
    refine .bind ?_ fun _ => ih
    cases part with
    | units us => exact .declareUnits us
    | decls ds => exact visitDecls_hands hn false ds

/-! Headings with the directive and bodies after them. -/

/-- A heading that may share its name, with its body elsewhere. -/
def Announces (d : CallableDecl) : Prop :=
  d.hasDirective .OVERLOAD = true ∧ d.body = none ∧ d.external = none

section Bodies

variable {p d : CallableDecl} {hs bs : List CallableDecl}

theorem foldl_headings (hp : Announces p) (hhs : ∀ h ∈ hs, Announces h) :
    hs.foldl succeed p = p := by
  induction hs with
  | nil => rfl
  | cons h hs ih =>
    obtain ⟨hh, hhs⟩ := List.forall_mem_cons.mp hhs
    have hstays : succeed p h = p := by simp [succeed, overload, hp.1, hh.1]
    rw [List.foldl_cons, hstays]
    exact ih hhs

/-- A body without the directive keeps its name. -/
theorem foldl_body (hbody : p.body.isSome = true) (hp : p.hasDirective .OVERLOAD = false) :
    bs.foldl succeed p = p := by
  induction bs with
  | nil => rfl
  | cons d bs ih =>
    have hstays : succeed p d = p := by
      rw [Option.isSome_iff_exists] at hbody
      obtain ⟨body, hbody⟩ := hbody
      simp [succeed, overload, completes, hp, hbody]
    rw [List.foldl_cons, hstays]
    exact ih

/-- After bodies a name denotes the heading still, or the first body without the directive. -/
theorem foldl_bodies (hp : Announces p) (hbs : ∀ d ∈ bs, d.body.isSome = true) :
    if bs.all (·.hasDirective .OVERLOAD) then bs.foldl succeed p = p
    else (bs.foldl succeed p).body.isSome = true ∧
      (bs.foldl succeed p).hasDirective .OVERLOAD = false := by
  induction bs with
  | nil => rfl
  | cons d bs ih =>
    obtain ⟨hd, hbs⟩ := List.forall_mem_cons.mp hbs
    obtain ⟨hdirective, hbody, hexternal⟩ := hp
    rw [List.all_cons, List.foldl_cons]
    cases hoverload : d.hasDirective .OVERLOAD with
    | true =>
      have hstays : succeed p d = p := by simp [succeed, overload, hdirective, hoverload]
      rw [hstays, Bool.true_and]
      exact ih hbs
    | false =>
      have hreplaced : succeed p d = d := by
        simp [succeed, overload, completes, hoverload, hbody, hexternal, hd]
      rw [hreplaced, Bool.false_and, if_neg Bool.false_ne_true, foldl_body hd hoverload]
      exact ⟨hd, hoverload⟩

/-- A name that was free before headings and bodies, and denotes a routine in the end, denotes
what is left of them in between. -/
theorem Follows.after_headings {rs : List CallableDecl} {x : Option (Option CallableDecl)}
    {q : CallableDecl} (hp : Announces p) (hhs : ∀ h ∈ hs, Announces h)
    (h : Follows (p :: hs ++ bs) none x) (k : Follows rs x (some (some q))) :
    x = some (some (bs.foldl succeed p)) := by
  obtain _ | _ | r := x
  · cases h
  · cases k
  · obtain ⟨_, _, heq, rfl⟩ := h
    obtain ⟨rfl, rfl⟩ := List.cons.inj heq
    rw [List.append_eq, List.foldl_append, foldl_headings hp hhs]

end Bodies

section Reports

variable {b c e : Binding} {d p : CallableDecl}

/-- A routine is reported if its name denotes a routine that it neither overloads nor completes. -/
theorem declareRoutine_reports (hb : b.scopes.inner ≠ []) (hname : d.name.isEmpty = false)
    (hp : b.scopes.findLocal? d.name = some (.callable p)) :
    Ends (declareRoutine (b.scopes.findLocal? d.name) d)
      { b with scopes := b.scopes.enter d.name (some (.callable d)) }
      (fun _ c => c.errors.toList = b.errors.toList ++
        if overload p d || completes p d then []
        else [⟨b.path, d.info.line, .scope (b.scopes.error .redeclared d.name)⟩])
      fun _ _ => True := by
  rw [hp]
  unfold declareRoutine
  dsimp only
  split
  · rename_i hoverload
    rw [hoverload, Bool.true_or, if_pos rfl, List.append_nil]
    rfl
  · rename_i hoverload
    rw [eq_false_of_ne_true hoverload, Bool.false_or]
    split
    · obtain ⟨u, -, hredeclare⟩ := Scopes.redeclare_inside d.name (some (.callable d))
        (.callable d) hp hb
      rw [Ends.bind_iff, getScopes_iff, hredeclare, List.append_nil]
      rfl
    · unfold registerRoutine
      rw [Ends.bind_iff, getScopes_iff]
      dsimp only
      split
      · rename_i t ht
        obtain ⟨u, ⟨f, g, rest, hinner, -, hadd⟩, -⟩ := Scopes.onTop_of_register_inside ht hb rfl
        have hf : f.find? d.name = some (.callable p) := by
          simpa [Scopes.findLocal?, Scopes.top, hinner] using hp
        rw [Frame.add?, hf] at hadd
        cases hadd
      · rename_i x hx
        obtain ⟨rfl, -⟩ := Scopes.register_inside_error hx hb rfl hname
        exact Array.toList_push

/-- How binding goes through a routine that is declared where it stands: from `b` it is declared
around its own frame in `c`, and what is inside is bound up to `e`. -/
structure RoutineRun (d : CallableDecl) (b c e : Binding) : Prop where
  declared : Leads (declareRoutine (b.scopes.findLocal? d.name) d)
    { b with scopes := b.scopes.enter d.name (some (.callable d)) } () c
  inside : Leads (do insideOf d; leave) c () e

theorem routineRun_of_leads {n : Text} (hd : declares n d = true)
    (h : Leads (visitCallable d) b () e) : ∃ c, RoutineRun d b c e := by
  have hmethod : (!d.owner.isEmpty && d.body.isSome) = false :=
    Bool.not_eq_true' _ |>.mp (Bool.and_eq_true_iff.mp hd).2
  rw [visitCallable_eq, if_neg (ne_true_of_eq_false hmethod)] at h
  obtain ⟨_, _, hscopes, h⟩ := Leads.bind_iff.mp h
  cases hscopes
  obtain ⟨_, _, henter, h⟩ := Leads.bind_iff.mp h
  cases henter
  obtain ⟨_, c, hdeclared, h⟩ := Leads.bind_iff.mp h
  exact ⟨c, hdeclared, h⟩

end Reports

/-- Where routines of one name stand in a scope, first headings with the directive and then bodies,
and the name is not taken by something else, the declaration of a body is reported if and only if a
body before it omits the directive: exactly one error is found then, that the name is redeclared,
and else none. -/
theorem overload_bodies_reported {n : Text} {parts : List Part} {b c : Binding}
    {hs bs : List CallableDecl} (hb : b.scopes.inner ≠ []) (hn : n.isEmpty = false)
    (h : Leads (bindParts parts) b () c) (hfree : b.scopes.findLocal? n = none)
    (hroutine : ∃ p, c.scopes.findLocal? n = some (.callable p))
    (hroutines : parts.flatMap (Part.routines n) = hs ++ bs) (hne : hs ≠ [])
    (hhs : ∀ d ∈ hs, Announces d) (hbs : ∀ d ∈ bs, d.body.isSome = true)
    {front back : List Part} {pre post : List Decl} {d : CallableDecl} {before : List CallableDecl}
    (hparts : parts = front ++ .decls (pre ++ .callable d :: post) :: back)
    (hd : declares n d = true)
    (hbefore : front.flatMap (Part.routines n) ++ routinesOf n pre = hs ++ before) :
    ∃ e f g, Leads (do bindParts front; visitDecls false pre) b () e ∧ RoutineRun d e f g ∧
      Leads (do visitDecls false post; bindParts back) g () c ∧
      f.errors.toList = e.errors.toList ++
        if before.all (·.hasDirective .OVERLOAD) then []
        else [⟨e.path, d.info.line, .scope (e.scopes.error .redeclared d.name)⟩] := by
  have hsame : d.name.lower = n.lower := eq_of_beq (Bool.and_eq_true_iff.mp hd).1
  have hname : d.name.isEmpty = false := by
    rw [← Text.isEmpty_lower, hsame, Text.isEmpty_lower, hn]
  -- the run up to the routine and from there on
  subst hparts
  have hsplit : bindParts (front ++ .decls (pre ++ .callable d :: post) :: back) = (do
      bindParts front
      visitDecls false pre
      visitCallable d
      visitDecls false post
      bindParts back) := by
    rw [bindParts_append, bindParts, Part.bind, visitDecls_split]
    simp only [bind_assoc]
  rw [hsplit] at h
  obtain ⟨_, a, hfront, h⟩ := Leads.bind_iff.mp h
  obtain ⟨_, e, hpre, h⟩ := Leads.bind_iff.mp h
  obtain ⟨_, g, hcallable, hrest⟩ := Leads.bind_iff.mp h
  have hreached : Leads (do bindParts front; visitDecls false pre) b () e :=
    Leads.bind_iff.mpr ⟨(), a, hfront, hpre⟩
  obtain ⟨f, hrun⟩ := routineRun_of_leads hd hcallable
  refine ⟨e, f, g, hreached, hrun, hrest, ?_⟩
  -- the name denotes the first heading, or what took its place
  have hto := hreached.ends ((parts_hands hn front).bind
    (fun _ => visitDecls_hands hn false pre) b hb)
  have hon := h.ends ((visitCallable_hands d hn).bind (fun _ =>
    (visitDecls_hands hn false post).bind fun _ => parts_hands hn back) e hto.inner_ne_nil)
  rw [hbefore] at hto
  have hheld := hto.top
  have hleft := hon.top
  obtain ⟨q, hq⟩ := hroutine
  have hstart : b.scopes.top.held n = none := by
    rw [Frame.held, show b.scopes.top.find? n = none from hfree]
    rfl
  rw [hstart] at hheld
  rw [Frame.held_eq_routine.mpr hq] at hleft
  obtain ⟨heading, hs, rfl⟩ := List.exists_cons_of_ne_nil hne
  obtain ⟨hheading, hhs⟩ := List.forall_mem_cons.mp hhs
  have hdenotes : e.scopes.findLocal? d.name =
      some (.callable (before.foldl succeed heading)) := by
    unfold Scopes.findLocal?
    rw [e.scopes.top.find?_congr hsame, ← Frame.held_eq_routine]
    exact Follows.after_headings hheading hhs hheld hleft
  have hbodies : ∀ p ∈ before ++ [d], p.body.isSome = true := by
    have heq : (heading :: hs) ++ bs = (heading :: hs) ++ (before ++ d ::
        (routinesOf n post ++ back.flatMap (Part.routines n))) := by
      rw [← hroutines, ← List.append_assoc, ← hbefore]
      simp [Part.routines, routinesOf, hd, Decl.routine?]
    intro p hp
    refine hbs p ?_
    rw [List.append_cancel_left heq]
    simp only [List.mem_append, List.mem_cons] at hp ⊢
    tauto
  have hdbody : d.body.isSome = true := hbodies d (by simp)
  have hafter := foldl_bodies hheading fun p hp => hbodies p (List.mem_append_left _ hp)
  rw [hrun.declared.ends (declareRoutine_reports hto.inner_ne_nil hname hdenotes)]
  split at hafter
  · rename_i hall
    obtain ⟨-, hbody, hexternal⟩ := hheading
    have hcompletes : completes heading d = true := by
      simp [completes, hbody, hexternal, hdbody]
    rw [hafter, if_pos hall, hcompletes, Bool.or_true, if_pos rfl]
  · rename_i hsome
    obtain ⟨hbody, hdirective⟩ := hafter
    obtain ⟨body, hbody⟩ := Option.isSome_iff_exists.mp hbody
    rw [if_neg hsome, overload, completes, hdirective, hbody]
    rfl

/-- The routine `F` with a parameter of the given type: a heading with the directive. -/
def headingOf (first : Nat) (type : Text) : CallableDecl :=
  let node (id : Nat) : NodeInfo := { id, line := 1 }
  let param : ParamDecl :=
    { info := node (first + 1), name := "X", type := some (.named ⟨node first, type⟩) }
  { info := node (first + 2), name := "F", params := some [param],
    directives := [⟨.OVERLOAD, none⟩] }

/-- A body of `F` for the same parameter that omits the directive. -/
def bodyOf (first : Nat) (type : Text) : CallableDecl :=
  let node (id : Nat) : NodeInfo := { id, line := 1 }
  { headingOf first type with
    info := node (first + 5)
    directives := []
    body := some ⟨node (first + 4), [], .compound (node (first + 3)) [.empty (node (first + 2))]⟩ }

/-- A unit that announces `F` for two types and gives both bodies. -/
def overloadUnit : Goal :=
  .unit { info := { id := 19, line := 1 }, name := "U",
          publicDecls := [.callable (headingOf 1 "Integer"), .callable (headingOf 4 "Byte")],
          ownDecls := [.callable (bodyOf 7 "Integer"), .callable (bodyOf 13 "Byte")] }

/-- The state in which the unit is bound. -/
def overloadStart : Binding := { scopes := .initial {}, notes := .forTree 19 }

theorem routines_overloadUnit : (scopeOf overloadUnit).flatMap (Part.routines "F") =
    [headingOf 1 "Integer", headingOf 4 "Byte"] ++ [bodyOf 7 "Integer", bodyOf 13 "Byte"] := by
  have hdeclares (d : CallableDecl) (hname : d.name = "F") (howner : d.owner = ∅) :
      declares "F" d = true := by
    unfold declares
    rw [hname, howner]
    have hself : (Text.lower "F" == Text.lower "F") = true := beq_self_eq_true (Text.lower "F")
    rw [hself]
    rfl
  simp [scopeOf, overloadUnit, Part.routines, routinesOf, Decl.routine?, hdeclares, headingOf,
    bodyOf]

theorem announces_headings :
    ∀ d ∈ [headingOf 1 "Integer", headingOf 4 "Byte"], Announces d := by
  intro d hd
  obtain rfl | hd := List.mem_cons.mp hd
  · exact ⟨rfl, rfl, rfl⟩
  · obtain rfl := List.mem_singleton.mp hd
    exact ⟨rfl, rfl, rfl⟩

theorem isSome_bodies :
    ∀ d ∈ [bodyOf 7 "Integer", bodyOf 13 "Byte"], d.body.isSome = true := by
  intro d hd
  obtain rfl | hd := List.mem_cons.mp hd
  · rfl
  · obtain rfl := List.mem_singleton.mp hd
    rfl

/-- The bodies are those of procedures. -/
example : (bodyOf 7 "Integer").isFunction = false := by decide +kernel

theorem overload_bodies_reported_second :
    overloadStart.scopes.inner ≠ [] ∧ Text.isEmpty "F" = false ∧
    overloadStart.scopes.findLocal? "F" = none ∧
    ∃ c, Leads (bindParts (scopeOf overloadUnit)) overloadStart () c ∧
      (∃ p, c.scopes.findLocal? "F" = some (.callable p)) ∧
      (scopeOf overloadUnit).flatMap (Part.routines "F") =
        [headingOf 1 "Integer", headingOf 4 "Byte"] ++ [bodyOf 7 "Integer", bodyOf 13 "Byte"] ∧
      (∀ d ∈ [headingOf 1 "Integer", headingOf 4 "Byte"], Announces d) ∧
      (∀ d ∈ [bodyOf 7 "Integer", bodyOf 13 "Byte"], d.body.isSome = true) ∧
      declares "F" (bodyOf 13 "Byte") = true ∧
      ∃ e f : Binding, f.errors.toList = e.errors.toList ++
        [⟨e.path, 1, .scope (e.scopes.error .redeclared "F")⟩] := by
  have hends : endsWith ((bindParts (scopeOf overloadUnit)).run.run overloadStart) (fun c =>
      ((c.scopes.findLocal? "F").bind Decl.routine?).isSome) = true := by decide +kernel
  obtain ⟨c, hrun, hends⟩ := exists_of_endsWith hends
  obtain ⟨p, hp⟩ := Option.isSome_iff_exists.mp hends
  obtain ⟨d, hd, hdp⟩ := Option.bind_eq_some_iff.mp hp
  obtain rfl : d = .callable p := by
    cases d <;> cases hdp
    rfl
  let front : List Part := [.units [], .decls [.callable (headingOf 1 "Integer"),
    .callable (headingOf 4 "Byte")], .units []]
  let pre : List Decl := [.callable (bodyOf 7 "Integer")]
  have hparts : scopeOf overloadUnit =
      front ++ .decls (pre ++ .callable (bodyOf 13 "Byte") :: []) :: [] := rfl
  have hall : (front.flatMap (Part.routines "F") ++ routinesOf "F" pre) ++ [bodyOf 13 "Byte"] =
      ([headingOf 1 "Integer", headingOf 4 "Byte"] ++ [bodyOf 7 "Integer"]) ++
        [bodyOf 13 "Byte"] := routines_overloadUnit
  have hbefore := List.append_cancel_right hall
  have hinner : overloadStart.scopes.inner ≠ [] := by simp [overloadStart, Scopes.initial]
  obtain ⟨e, f, g, -, -, -, herrors⟩ := overload_bodies_reported hinner (by decide) hrun rfl
    ⟨p, hd⟩ routines_overloadUnit (List.cons_ne_nil _ _) announces_headings isSome_bodies
    hparts (by decide) hbefore
  exact ⟨hinner, by decide, rfl, c, hrun, ⟨p, hd⟩, routines_overloadUnit, announces_headings,
    isSome_bodies, by decide, e, f, herrors⟩

/-- The second body is reported, though it is one of two bodies for two headings. -/
theorem secondBody_redeclared :
    (scopeOf overloadUnit).flatMap (Part.routines "F") =
      [headingOf 1 "Integer", headingOf 4 "Byte"] ++ [bodyOf 7 "Integer", bodyOf 13 "Byte"] ∧
    (∀ d ∈ [headingOf 1 "Integer", headingOf 4 "Byte"], Announces d) ∧
    ∃ c, ofGoal {} ∅ overloadUnit 19 = (.ok (), c) ∧
      ∃ f ∈ c.errors, f.complaint = .scope ⟨.redeclared, "F", "global"⟩ := by
  have hends : endsWith (ofGoal {} ∅ overloadUnit 19) (fun c =>
      c.errors.any (·.complaint.isScope ⟨.redeclared, "F", "global"⟩)) = true := by decide +kernel
  obtain ⟨c, hc, hends⟩ := exists_of_endsWith hends
  obtain ⟨k, hk, -, -, hf⟩ := Array.any_iff_exists.mp hends
  exact ⟨routines_overloadUnit, announces_headings, c, hc, c.errors[k], Array.getElem_mem hk,
    Complaint.eq_of_isScope hf⟩

end Binding
end ObjectPascal
