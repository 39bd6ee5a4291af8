import Mathlib.Logic.Relation
import ObjectPascal.Proofs.Constant
import ObjectPascal.Scope.Builtin

/-!
What the language declares. Loading only adds to a frame: a name keeps the declaration that it got
first. So the standard types mean what the first declarations say, for every dialect and platform.
Constants are declared with literals, and no two of them share a number.
-/

namespace ObjectPascal

/-- What the language declares is no variable, and the variables of its types are fields. -/
def Decl.IsNative : Decl → Prop
  | .var _ | .param _ => False
  | .composite c => ∀ v, .var v ∈ c.members → v.kind = .field
  | _ => True

/-- A declaration with a constant value of its own. All others are plain in this respect. -/
def Decl.isValued : Decl → Bool
  | .const _ | .enumMember _ => true
  | _ => false

/-- The forms of the values that constants of the language have. -/
def Expr.isLiteral : Expr → Bool
  | .bool .. | .int .. | .real .. => true
  | _ => false

namespace Frame

variable {f g h : Frame}

/-- All that one frame declares, another one declares in the same way. -/
def Includes (f g : Frame) : Prop := ∀ name d, f.find? name = some d → g.find? name = some d

theorem Includes.refl (f : Frame) : f.Includes f := fun _ _ h => h

theorem Includes.trans (hfg : f.Includes g) (hgh : g.Includes h) : f.Includes h :=
  fun name d hd => hgh name d (hfg name d hd)

theorem includes_addFirst (f : Frame) (name : Text) (d : Decl) :
    f.Includes (f.addFirst name d) := by
  intro name' d' hd
  unfold addFirst add?
  split
  · exact hd
  · obtain ⟨e, he, rfl⟩ := Option.map_eq_some_iff.mp hd
    simp [find?, he]

theorem find?_of_addFirst {name other : Text} {d e : Decl}
    (h : (f.addFirst name d).find? other = some e) : f.find? other = some e ∨ e = d := by
  unfold addFirst add? at h
  split at h
  · exact .inl h
  · obtain ⟨entry, hentry, rfl⟩ := Option.map_eq_some_iff.mp h
    rw [Option.getD_some, List.find?_append, Option.or_eq_some_iff] at hentry
    obtain hold | ⟨-, hnew⟩ := hentry
    · exact .inl (by rw [find?, hold, Option.map_some])
    · rw [List.mem_singleton.mp (List.mem_of_find?_eq_some hnew)]
      exact .inr rfl

theorem native_addFirst (hf : ∀ name d, f.find? name = some d → d.IsNative) {name : Text} {d : Decl}
    (hd : d.IsNative) : ∀ other e, (f.addFirst name d).find? other = some e → e.IsNative :=
  fun other e he => (find?_of_addFirst he).elim (hf other e) fun heq => heq ▸ hd

/-- A frame with more names of the language, each of which was free when it was declared. -/
def AddsTo : Frame → Frame → Prop :=
  Relation.ReflTransGen fun f g => ∃ (name : Text) (d : Decl), d.IsNative ∧ g = f.addFirst name d

theorem AddsTo.includes (h : f.AddsTo g) : f.Includes g := by
  induction h with
  | refl => exact .refl f
  | tail _ hstep ih =>
    obtain ⟨name, d, -, rfl⟩ := hstep
    exact ih.trans (includes_addFirst _ name d)

theorem AddsTo.native (h : f.AddsTo g) (hf : ∀ name d, f.find? name = some d → d.IsNative) :
    ∀ name d, g.find? name = some d → d.IsNative := by
  induction h with
  | refl => exact hf
  | tail _ hstep ih =>
    obtain ⟨name, d, hd, rfl⟩ := hstep
    exact native_addFirst ih hd

theorem AddsTo.owner (h : f.AddsTo g) : g.owner = f.owner := by
  induction h with
  | refl => rfl
  | tail _ hstep ih =>
    obtain ⟨name, d, -, rfl⟩ := hstep
    rw [← ih, addFirst, add?]
    split <;> rfl

end Frame

namespace Scopes

/-- A name of the language keeps its type when more is declared. -/
theorem runtimeTypeWithin_of_includes {f g : Frame} (h : f.Includes g) {n : Nat} {d : TypeDecl}
    {t : TypeExpr} (ht : runtimeTypeWithin f n d = some t) : runtimeTypeWithin g n d = some t := by
  induction n generalizing d with
  | zero => cases ht
  | succ n ih =>
    unfold runtimeTypeWithin at ht ⊢
    split at ht
    · split at ht
      · rename_i next hnext
        rw [h _ _ hnext]
        exact ih ht
      · cases ht
    · exact ht

theorem Gives.of_includes {s t : Scopes} {name : Text} {sort : ValueSort} (h : s.Gives name sort)
    (hst : s.runtime.Includes t.runtime) : t.Gives name sort := by
  obtain ⟨type, htype, hsort⟩ := Option.map_eq_some_iff.mp h
  suffices ht : t.builtin? name = some type by
    rw [Gives, ht]
    exact congrArg some hsort
  unfold builtin? at htype ⊢
  split at htype
  · rename_i d hd
    rw [hst _ _ hd]
    exact runtimeTypeWithin_of_includes hst htype
  · rename_i d hd
    rw [hst _ _ hd]
    exact htype
  · cases htype

theorem Standard.of_includes {s t : Scopes} (h : s.Standard)
    (hst : s.runtime.Includes t.runtime) : t.Standard :=
  ⟨fun name hname => (h.ordinal name hname).of_includes hst, h.real.of_includes hst,
    h.string.of_includes hst⟩

end Scopes

namespace Builtin

variable {α β : Type}

/-- Loading that keeps what is declared. -/
def Grows (m : Load α) : Prop := ∀ l : Loading, l.frame.Includes (m.run l).2.frame

/-- A step of loading: a node gets a number, a name that is free gets a declaration without a
value, or it gets a constant, which is numbered next to its value. -/
inductive Step (l : Loading) : Loading → Prop
  | node : Step l { l with last := l.last + 1 }
  | plain (name : Text) (d : Decl) (hd : d.IsNative) (hplain : d.isValued = false) :
    Step l { l with frame := l.frame.addFirst name d }
  | constant (name : Text) (d : ConstDecl) (v : Expr) (hvalue : d.value = some v)
      (hliteral : v.isLiteral = true) (hv : v.info.id = l.last + 1) (hd : d.info.id = l.last + 2) :
    Step l { frame := l.frame.addFirst name (.const d), last := l.last + 3 }

/-- Loading that only declares names that are free. -/
def Adds (m : Load α) : Prop := ∀ l : Loading, Relation.ReflTransGen Step l (m.run l).2

namespace Adds

theorem addsTo {m : Load α} (h : Adds m) (l : Loading) : l.frame.AddsTo (m.run l).2.frame := by
  have hsteps := h l
  generalize (m.run l).2 = k at hsteps
  induction hsteps with
  | refl => exact .refl
  | tail _ hstep ih =>
    cases hstep with
    | node => exact ih
    | plain name d hd _ => exact ih.tail ⟨name, d, hd, rfl⟩
    | constant name d => exact ih.tail ⟨name, .const d, trivial, rfl⟩

theorem grows {m : Load α} (h : Adds m) : Grows m := fun l => (h.addsTo l).includes

theorem pure (a : α) : Adds (Pure.pure a : Load α) := fun _ => .refl

theorem bind {m : Load α} {k : α → Load β} (hm : Adds m) (hk : ∀ a, Adds (k a)) :
    Adds (m >>= k) := fun l => (hm l).trans (hk _ _)

theorem node : Adds node := fun _ => .single .node

theorem declare (name : Text) {d : Decl} (hd : d.IsNative) (hplain : d.isValued = false) :
    Adds (declare name d) := fun _ => .single (.plain name d hd hplain)

theorem named (name : Text) : Adds (named name) := node.bind fun _ => pure _

theorem typeDecl (name : Text) (type : NodeInfo → TypeExpr) : Adds (typeDecl name type) :=
  node.bind fun _ => node.bind fun _ => declare _ trivial rfl

theorem routine (kind : RoutineKind) (name : Text) (result : Option Text) :
    Adds (routine kind name result) := by
  have hresult : Adds (result.mapM Builtin.named) := by
    cases result with
    | none => exact pure _
    | some t => exact (named t).bind fun _ => pure _
  exact node.bind fun _ => hresult.bind fun _ => pure _

theorem method (kind : RoutineKind) (name : Text) (result : Option Text)
    (directives : List Kind) : Adds (method kind name result directives) :=
  (routine _ _ _).bind fun _ => pure _

theorem param (kind : ParamKind) (name type : Text) : Adds (param kind name type) :=
  node.bind fun _ => (named _).bind fun _ => pure _

/-- A field is used as one. -/
theorem field (visibility : Visibility) (name type : Text) {k : VarDecl → Load β}
    (hk : ∀ v, v.kind = .field → Adds (k v)) : Adds (field visibility name type >>= k) := by
  have hfield : Adds (Builtin.field visibility name type) :=
    node.bind fun _ => (named _).bind fun _ => pure _
  exact fun l => (hfield l).trans (hk _ rfl _)

theorem composite (name : Text) (kind : CompositeKind) (heritage : List Text)
    {members : List Member} (h : ∀ v, .var v ∈ members → v.kind = .field) :
    Adds (composite name kind heritage members) := by
  refine node.bind fun _ => node.bind fun _ => declare _ (fun v hv => ?_) rfl
  obtain ⟨m, hm, hmv⟩ := List.mem_map.mp hv
  cases m with
  | var w =>
    cases hmv
    exact h _ hm
  | callable d => cases hmv
  | property d => cases hmv

/-- A type with methods only. -/
theorem methods (name : Text) (kind : CompositeKind) (heritage : List Text)
    (ds : List CallableDecl) :
    Adds (Builtin.composite name kind heritage (ds.map .callable)) :=
  composite name kind heritage fun _ hv => by
    obtain ⟨_, _, h⟩ := List.mem_map.mp hv
    cases h

/-- A constant whose value is a literal. -/
theorem constant (name type : Text) {value : NodeInfo → Expr}
    (hliteral : ∀ i, (value i).isLiteral = true) (hinfo : ∀ i, (value i).info = i) :
    Adds (constant name type value) := fun _ =>
  .single (.constant name _ _ rfl (hliteral _) (congrArg NodeInfo.id (hinfo _)) rfl)

theorem forIn {f : α → PUnit → Load (ForInStep PUnit)} (hf : ∀ a u, Adds (f a u)) (l : List α) :
    Adds (ForIn.forIn l PUnit.unit f) := by
  induction l with
  | nil => exact pure _
  | cons a l ih =>
    rw [List.forIn_cons]
    refine (hf a _).bind fun step => ?_
    cases step with
    | done _ => exact pure _
    | yield _ => exact ih

theorem ordinal (kind : OrdinalKind) (size : Nat) (signed : Bool) (name : Text) :
    Adds (ordinal kind size signed name) := typeDecl _ _

theorem realType (size : Nat) (name : Text) : Adds (realType size name) := typeDecl _ _

theorem synonym (name target : Text) : Adds (synonym name target) := typeDecl _ _

theorem target (name : Text) : Adds (target name) := by
  have hget : Adds (get : Load Loading) := fun _ => .refl
  refine hget.bind fun l => ?_
  split <;> exact pure _

theorem loadOrdinals (pointer : Nat) (char : Text) : Adds (loadOrdinals pointer char) :=
  (ordinal _ _ _ _).bind fun _ => (ordinal _ _ _ _).bind fun _ => (ordinal _ _ _ _).bind fun _ =>
    (ordinal _ _ _ _).bind fun _ => (ordinal _ _ _ _).bind fun _ => (ordinal _ _ _ _).bind fun _ =>
    (ordinal _ _ _ _).bind fun _ => (ordinal _ _ _ _).bind fun _ => (ordinal _ _ _ _).bind fun _ =>
    (ordinal _ _ _ _).bind fun _ => (ordinal _ _ _ _).bind fun _ => (ordinal _ _ _ _).bind fun _ =>
    (ordinal _ _ _ _).bind fun _ => (ordinal _ _ _ _).bind fun _ => (synonym _ _).bind fun _ =>
    (ordinal _ _ _ _).bind fun _ => (ordinal _ _ _ _).bind fun _ => (ordinal _ _ _ _).bind fun _ =>
    (ordinal _ _ _ _).bind fun _ => (realType _ _).bind fun _ => (realType _ _).bind fun _ =>
    (realType _ _).bind fun _ => (realType _ _).bind fun _ => (realType _ _).bind fun _ =>
    (realType _ _).bind fun _ => realType _ _

theorem loadStrings (wide : Bool) (string : Text) : Adds (loadStrings wide string) :=
  (typeDecl _ _).bind fun _ => (typeDecl _ _).bind fun _ => (typeDecl _ _).bind fun _ =>
    (typeDecl _ _).bind fun _ => (synonym _ _).bind fun _ => (typeDecl _ _).bind fun _ =>
    (target _).bind fun _ => (typeDecl _ _).bind fun _ => (target _).bind fun _ =>
    (typeDecl _ _).bind fun _ => (synonym _ _).bind fun _ => (typeDecl _ _).bind fun _ =>
    typeDecl _ _

theorem loadComposites : Adds loadComposites :=
  (method _ _ _ _).bind fun _ => (method _ _ _ _).bind fun _ => (method _ _ _ _).bind fun _ =>
    (method _ _ _ _).bind fun _ => (method _ _ _ _).bind fun _ => (method _ _ _ _).bind fun _ =>
    (method _ _ _ _).bind fun _ => (methods _ _ _ _).bind fun _ => (named _).bind fun _ =>
    (typeDecl _ _).bind fun _ => (method _ _ _ _).bind fun _ => (param _ _ _).bind fun _ =>
    (param _ _ _).bind fun _ => (method _ _ _ _).bind fun _ => (method _ _ _ _).bind fun _ =>
    (methods _ _ _ _).bind fun _ => (typeDecl _ _).bind fun _ => (typeDecl _ _).bind fun _ =>
    (typeDecl _ _).bind fun _ => field _ _ _ fun count hcount =>
    (composite _ _ _ fun _ hv => by
      cases List.mem_singleton.mp hv
      exact hcount).bind fun _ =>
    field _ _ _ fun message hmessage => (method _ _ _ _).bind fun _ => (param _ _ _).bind fun _ =>
    node.bind fun _ => (named _).bind fun _ => composite _ _ _ fun _ hv => by
      obtain hv | hv := List.mem_cons.mp hv
      · cases hv
        exact hmessage
      · simp at hv

theorem loadConstants (version : Float) : Adds (loadConstants version) :=
  (constant _ _ (fun _ => rfl) fun _ => rfl).bind fun _ =>
    (constant _ _ (fun _ => rfl) fun _ => rfl).bind fun _ =>
    (constant _ _ (fun _ => rfl) fun _ => rfl).bind fun _ =>
    (constant _ _ (fun _ => rfl) fun _ => rfl).bind fun _ =>
    (constant _ _ (fun _ => rfl) fun _ => rfl).bind fun _ =>
    constant _ _ (fun _ => rfl) fun _ => rfl

theorem loadRoutines : Adds loadRoutines :=
  (forIn (fun _ _ => (routine _ _ _).bind fun _ =>
    (declare (d := .callable _) _ trivial rfl).bind fun _ => pure _) _).bind fun _ =>
  (forIn (fun _ _ => (routine _ _ _).bind fun _ =>
    (declare (d := .callable _) _ trivial rfl).bind fun _ => pure _) _).bind fun _ => pure _

theorem load (config : Config) : Adds (load config) :=
  (loadOrdinals _ _).bind fun _ => (loadStrings _ _).bind fun _ => loadComposites.bind fun _ =>
    (loadConstants _).bind fun _ => loadRoutines

end Adds

/-- The types that come before all else. -/
def loadTypes (pointer : Nat) (unicode : Bool) : Load Unit := do
  loadOrdinals pointer (if unicode then "WideChar" else "AnsiChar")
  loadStrings unicode (if unicode then "UnicodeString" else "AnsiString")

theorem run_bind (m : Load α) (k : α → Load β) (l : Loading) :
    (m >>= k).run l = (k (m.run l).1).run (m.run l).2 := rfl

theorem load_eq (config : Config) : load config = (do
    loadTypes (if config.pointerSize = 0 then 4 else config.pointerSize)
      (config.supports .unicodeString)
    loadComposites
    loadConstants config.compilerVersion
    loadRoutines) := by
  simp only [load, loadTypes, defaultChar, defaultString, bind_assoc]

theorem addsTo_runtime (config : Config) :
    Frame.AddsTo { name := "runtime" } (.runtime config) :=
  (Adds.load config).addsTo {}

/-- The frame of the language declares nothing but what is native. -/
theorem native_runtime {config : Config} {name : Text} {d : Decl}
    (h : (Frame.runtime config).find? name = some d) : d.IsNative :=
  (addsTo_runtime config).native (fun _ _ => nofun) name d h

/-- What is loaded so far: the constants of the language have literals as values, and their numbers
and those of their values tell them apart. All numbers are between the base and the last one. -/
structure Loading.Numbered (l : Loading) : Prop where
  base_le : base ≤ l.last
  valued : ∀ name d, l.frame.find? name = some d → d.isValued = true →
    ∃ c v, d = .const c ∧ c.value = some v ∧ v.isLiteral = true
  range : ∀ name c v, l.frame.find? name = some (.const c) → c.value = some v →
    (base < c.info.id ∧ c.info.id ≤ l.last) ∧ base < v.info.id ∧ v.info.id ≤ l.last
  apart : ∀ name name' c d v w, l.frame.find? name = some (.const c) →
    l.frame.find? name' = some (.const d) → c.value = some v → d.value = some w →
    c.info.id = d.info.id ∨ v.info.id = w.info.id → c = d

theorem Step.numbered {l k : Loading} (h : Step l k) (hl : l.Numbered) : k.Numbered := by
  cases h with
  | node =>
    refine ⟨Nat.le_succ_of_le hl.base_le, hl.valued, fun name c v hc hv => ?_, hl.apart⟩
    obtain ⟨⟨hbase, hlast⟩, hbase', hlast'⟩ := hl.range name c v hc hv
    exact ⟨⟨hbase, Nat.le_succ_of_le hlast⟩, hbase', Nat.le_succ_of_le hlast'⟩
  | plain name d _ hplain =>
    have hold {other : Text} {e : Decl} (he : (l.frame.addFirst name d).find? other = some e)
        (hvalued : e.isValued = true) : l.frame.find? other = some e := by
      refine (Frame.find?_of_addFirst he).resolve_right fun heq => ?_
      rw [heq, hplain] at hvalued
      cases hvalued
    exact ⟨hl.base_le, fun other e he hvalued => hl.valued other e (hold he hvalued) hvalued,
      fun other c v hc hv => hl.range other c v (hold hc rfl) hv,
      fun other other' c d v w hc hd => hl.apart other other' c d v w (hold hc rfl) (hold hd rfl)⟩
  | constant name d v hvalue hliteral hv hd =>
    have hbase := hl.base_le
    refine ⟨Nat.le_add_right_of_le hbase, fun other e he hvalued => ?_,
      fun other c w hc hw => ?_, fun other other' c c' w w' hc hc' hw hw' hid => ?_⟩
    · obtain hold | rfl := Frame.find?_of_addFirst he
      · exact hl.valued other e hold hvalued
      · exact ⟨d, v, rfl, hvalue, hliteral⟩
    · obtain hold | heq := Frame.find?_of_addFirst hc
      · have hrange := hl.range other c w hold hw
        dsimp only
        omega
      · cases heq
        rw [hvalue] at hw
        cases hw
        dsimp only
        omega
    · obtain hold | heq := Frame.find?_of_addFirst hc <;> obtain hold' | heq' := Frame.find?_of_addFirst hc'
      · exact hl.apart other other' c c' w w' hold hold' hw hw' hid
      · have hrange := hl.range other c w hold hw
        cases heq'
        rw [hvalue] at hw'
        cases hw'
        omega
      · have hrange := hl.range other' c' w' hold' hw'
        cases heq
        rw [hvalue] at hw
        cases hw
        omega
      · cases heq
        cases heq'
        rfl

/-- The constants of the language have numbers of their own. -/
theorem exists_numbered_runtime (config : Config) :
    ∃ l : Loading, l.frame = .runtime config ∧ l.Numbered := by
  refine ⟨((load config).run {}).2, rfl, ?_⟩
  have hsteps := Adds.load config {}
  generalize ((load config).run {}).2 = l at hsteps
  induction hsteps with
  | refl => exact ⟨Nat.le_refl _, fun _ _ => nofun, fun _ _ _ => nofun, fun _ _ _ _ _ _ => nofun⟩
  | tail _ hstep ih => exact hstep.numbered ih

theorem includes_runtime (config : Config) :
    ((loadTypes (if config.pointerSize = 0 then 4 else config.pointerSize)
      (config.supports .unicodeString)).run {}).2.frame.Includes (.runtime config) := by
  have hrest : Adds (do loadComposites; loadConstants config.compilerVersion; loadRoutines) :=
    Adds.loadComposites.bind fun _ => (Adds.loadConstants _).bind fun _ => Adds.loadRoutines
  rw [Frame.runtime, load_eq, run_bind]
  exact hrest.grows _

end Builtin

theorem Config.pointerSize_mem (config : Config) : config.pointerSize ∈ [0, 4, 8] := by
  unfold pointerSize
  dsimp only
  split
  · decide
  · split <;> decide

namespace Scopes

instance (s : Scopes) (name : Text) (sort : ValueSort) : Decidable (s.Gives name sort) :=
  inferInstanceAs (Decidable (_ = _))

/-- Without a platform pointers have four bytes. -/
example : Config.pointerSize {} = 4 := by decide +kernel

theorem standard_iff (s : Scopes) : s.Standard ↔
    (∀ name ∈ (["Integer", "Int64", "UInt64", "Cardinal", "Boolean", "Char"] : List Text),
      s.Gives name .integral) ∧ s.Gives "Extended" .real ∧ s.Gives "string" .string :=
  ⟨fun h => ⟨h.ordinal, h.real, h.string⟩, fun h => ⟨h.1, h.2.1, h.2.2⟩⟩

instance (s : Scopes) : Decidable s.Standard := decidable_of_iff' _ s.standard_iff

theorem standard_loadTypes : ∀ pointer ∈ [4, 8], ∀ unicode : Bool,
    ({ config := {}, inner := [], runtime := ((Builtin.loadTypes pointer unicode).run {}).2.frame }
      : Scopes).Standard := by
  decide +kernel

/-- The standard types are what they should be for every dialect and platform. -/
theorem standard_initial (config : Config) : (initial config).Standard := by
  have hpointer : (if config.pointerSize = 0 then 4 else config.pointerSize) ∈ [4, 8] := by
    have hmem := config.pointerSize_mem
    simp only [List.mem_cons, List.not_mem_nil, or_false] at hmem
    obtain h | h | h := hmem
    all_goals simp [h]
  have hincludes := Builtin.includes_runtime config
  have hearly := standard_loadTypes _ hpointer (config.supports .unicodeString)
  unfold initial
  generalize ((Builtin.loadTypes _ _).run {}).2.frame = early at hincludes hearly
  generalize Frame.runtime config = runtime at hincludes ⊢
  exact hearly.of_includes hincludes

end Scopes
end ObjectPascal
