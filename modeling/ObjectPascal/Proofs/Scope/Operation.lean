import ObjectPascal.Proofs.Scope.Loading
import ObjectPascal.Proofs.Scope.Level

/-!
Operations on scopes that are carried out in place, as one stack that everyone shares. Some of them
change the stack before they find an error, and then have to take back what they did: declaring a
name writes its frame back, and loading a type pushes frames while it is still looking up further
names. They turn out to be what the functions on whole stacks do, and to leave no trace of a failure.
So whatever is done to the scopes of a source, the frame of the language stays at the bottom, and
the names of each frame are those that it declares.
-/

namespace ObjectPascal

/-- Declares a name if it is free, and tells whether it was. -/
def Frame.put (f : Frame) (name : Text) (d : Decl) : Bool × Frame :=
  match f.add? name d with
  | some g => (true, g)
  | none => (false, f)

namespace Scopes

variable {s t : Scopes}

/-! In place. -/

/-- What is left of a stack: the new one, or the old one after an error. -/
def left (s : Scopes) : Except ScopeError Scopes → Scopes
  | .ok t => t
  | .error _ => s

/-- Declares a name. Its frame is written back whether or not the name was free. -/
def registerHere (s : Scopes) (name : Text) (d : Decl) : Except ScopeError Unit × Scopes :=
  let i := s.targetOf d
  let f := (s.frame? i).getD s.top
  if name.isEmpty then (.error ⟨.invalidIdentifier, name, f.name⟩, s)
  else
    let (added, g) := f.put name d
    (if added then .ok () else .error ⟨.redeclared, name, f.name⟩, s.modifyFrame i fun _ => g)

/-- Pushes a frame for each ancestor of a type. What was pushed before an error stays pushed. -/
def pushAncestors : Nat → List Text → CompositeDecl → ExceptT ScopeError (StateM Loaded) Unit
  | 0, _, c => do throw ((← get).scopes.error .circularHeritage c.name)
  | n + 1, path, c =>
    c.ancestors.forM fun h => do
      let l ← get
      if path.contains h.lower then throw (l.scopes.error .circularHeritage h)
      if l.names.contains h.lower then return
      let ancestor ← l.scopes.fetchComposite h
      pushAncestors n (h.lower :: path) ancestor
      modify fun l => ⟨l.scopes.pushMembers ancestor true, h.lower :: l.names, l.count + 1⟩

/-- Pushes the frames of a type and its ancestors, and tells the number of ancestors. After an error
all that was pushed is popped. -/
def loadHere (s : Scopes) (type : Text) : Except ScopeError Nat × Scopes :=
  match s.fetchComposite type with
  | .error e => (.error e, s)
  | .ok c =>
    match (pushAncestors s.heritageBound [c.name.lower] c).run.run { scopes := s } with
    | (.error e, l) => (.error e, l.scopes.unwindTo s.depth)
    | (.ok _, l) => (.ok l.count, l.scopes.pushMembers c false)

/-- What can be done to the stack. -/
inductive Operation where
  | enter (name : Text) (owner : Option Decl)
  | leave
  | register (name : Text) (d : Decl)
  | redeclare (name : Text) (d : Decl)
  | loadHeritage (type : Text)
  | enterMethod (type method : Text)
  | leaveMethod (context : MethodContext)

/-- What an operation leads to, on whole stacks. There is no outcome if the frame of the language
would be left or a method from a stack that is not its own, or if the search for the method never
ends. -/
def Operation.outcome (s : Scopes) : Operation → Option (Except ScopeError Scopes)
  | .enter name owner => some (.ok (s.enter name owner))
  | .leave => s.leave?.map fun (_, t) => .ok t
  | .register name d => some (s.register name d)
  | .redeclare name d => some (s.redeclare name d)
  | .loadHeritage type => some ((s.loadHeritage type).map (·.1))
  | .enterMethod type method => (s.enterMethod type method).run.map (·.map (·.1))
  | .leaveMethod context => match s.leaveMethod context with
    | (.ok _, t) => some (.ok t)
    | (.error _, _) => none

/-- Carries out an operation in place. -/
def Operation.perform (s : Scopes) : Operation → Option (Except ScopeError Unit × Scopes)
  | .enter name owner => some (.ok (), s.enter name owner)
  | .leave => s.leave?.map fun (_, t) => (.ok (), t)
  | .register name d => some (s.registerHere name d)
  | .redeclare name d => match s.lookup? name with
    | none => some (.error (s.error .notFound name), s)
    | some (_, i) => some (.ok (), s.modifyFrame i fun f => f.replace name d)
  | .loadHeritage type => match s.loadHere type with
    | (.error e, t) => some (.error e, t)
    | (.ok _, t) => some (.ok (), t)
  | .enterMethod type method => (s.fetchMember type method).run.map fun
    | .error e => (.error e, s)
    | .ok m => match s.loadHere type with
      | (.error e, t) => (.error e, t)
      | (.ok _, t) => (.ok (), t.enter method (some m.decl))
  | .leaveMethod context => match s.leaveMethod context with
    | (.ok _, t) => some (.ok (), t)
    | (.error _, _) => none

/-- What becomes of the scopes of a source by operations in any order, also by such as fail. -/
inductive Reached (config : Config) : Scopes → Prop
  | initial : Reached config (.initial config)
  | step {s t : Scopes} {op : Operation} {r : Except ScopeError Unit} :
      Reached config s → op.perform s = some (r, t) → Reached config t

/-! What fails leaves no trace. -/

theorem exists_inner_of_lt_depth {i : Nat} (hi : i < s.depth) :
    i = 0 ∨ ∃ pre f rest, s.inner = pre ++ f :: rest ∧ i = rest.length + 1 := by
  cases i with
  | zero => exact .inl rfl
  | succ i =>
    have hlt : s.inner.length - 1 - i < s.inner.length := by
      unfold depth at hi
      omega
    refine .inr ⟨s.inner.take (s.inner.length - 1 - i), s.inner[s.inner.length - 1 - i],
      s.inner.drop (s.inner.length - 1 - i + 1), ?_, ?_⟩
    · rw [List.getElem_cons_drop, List.take_append_drop]
    · rw [List.length_drop]
      unfold depth at hi
      omega

theorem targetOf_lt_depth (s : Scopes) (d : Decl) : s.targetOf d < s.depth := by
  unfold targetOf depth
  split <;> omega

theorem frame?_zero (s : Scopes) : s.frame? 0 = some s.runtime := by
  simp [frame?, frames]

/-- Writing a frame back changes nothing. -/
theorem modifyFrame_same {i : Nat} (hi : i < s.depth) :
    s.modifyFrame i (fun _ => (s.frame? i).getD s.top) = s := by
  obtain rfl | ⟨pre, f, rest, hs, rfl⟩ := exists_inner_of_lt_depth hi
  · rw [frame?_zero]
    rfl
  · rw [modifyFrame_of_inner hs, frame?_of_inner hs, Option.getD_some, ← hs, withInner_self]

theorem registerHere_eq (s : Scopes) (name : Text) (d : Decl) :
    s.registerHere name d =
      ((s.register name d).map fun _ => (), s.left (s.register name d)) := by
  unfold registerHere register Frame.put
  dsimp only
  split
  · rfl
  · cases hadd : ((s.frame? (s.targetOf d)).getD s.top).add? name d with
    | some g => rfl
    | none =>
      -- the name is taken, so the frame that is written back is the old one
      have hsame := modifyFrame_same (s.targetOf_lt_depth d)
      simp only [Bool.false_eq_true, if_false, hsame]
      rfl

/-- A stack with new frames, all of them tidy, above those of another one. -/
def Above (s t : Scopes) : Prop :=
  ∃ pushed : List Frame, (∀ f ∈ pushed, f.Tidy) ∧ t = s.withInner (pushed ++ s.inner)

theorem Above.refl (s : Scopes) : s.Above s := ⟨[], nofun, rfl⟩

theorem Above.trans {u : Scopes} (hst : s.Above t) (htu : t.Above u) : s.Above u := by
  obtain ⟨pushed, hpushed, rfl⟩ := hst
  obtain ⟨more, hmore, rfl⟩ := htu
  refine ⟨more ++ pushed, fun f hf => ?_, by simp⟩
  exact (List.mem_append.1 hf).elim (hmore f) (hpushed f)

theorem Above.unwindTo (h : s.Above t) : t.unwindTo s.depth = s := by
  obtain ⟨pushed, -, rfl⟩ := h
  exact unwindTo_append s pushed

theorem above_enter (s : Scopes) (name : Text) (owner : Option Decl) :
    s.Above (s.enter name owner) :=
  ⟨[{ name, owner }], by simpa using Frame.tidy_empty name owner, rfl⟩

theorem above_pushMembers (s : Scopes) (c : CompositeDecl) (inherited : Bool) :
    s.Above (s.pushMembers c inherited) := by
  refine ⟨[_], fun f hf => ?_, rfl⟩
  obtain rfl := List.mem_singleton.1 hf
  exact Frame.tidy_foldl_addFirst (Frame.tidy_empty _ _) _

/-- From `l`, a computation in place comes to the same end as one on whole stacks, and an error
leaves at most new frames above the old ones. -/
def Loads (m : ExceptT ScopeError (StateM Loaded) Unit) (l : Loaded)
    (r : Except ScopeError Loaded) : Prop :=
  Ends m l (fun _ k => r = .ok k ∧ l.scopes.Above k.scopes) fun e k =>
    r = .error e ∧ l.scopes.Above k.scopes

namespace Loads

variable {m m' : ExceptT ScopeError (StateM Loaded) Unit} {l : Loaded}

theorem bind {r : Except ScopeError Loaded} {f : Loaded → Except ScopeError Loaded}
    (hm : Loads m l r) (hf : ∀ k, Loads m' k (f k)) : Loads (m >>= fun _ => m') l (r >>= f) := by
  unfold Loads
  rw [Ends.bind_iff]
  refine hm.mono (fun _ k ⟨hr, hk⟩ => ?_) fun e k ⟨hr, hk⟩ => ?_
  · subst hr
    apply (hf k).mono
    · intro _ k' ⟨hfk, hk'⟩
      exact ⟨hfk, hk.trans hk'⟩
    · intro e k' ⟨hfk, hk'⟩
      exact ⟨hfk, hk.trans hk'⟩
  · subst hr
    exact ⟨rfl, hk⟩

theorem forM {f : Text → ExceptT ScopeError (StateM Loaded) Unit}
    {g : Loaded → Text → Except ScopeError Loaded} (hf : ∀ l h, Loads (f h) l (g l h))
    (names : List Text) (l : Loaded) : Loads (names.forM f) l (names.foldlM g l) := by
  induction names generalizing l with
  | nil => exact ⟨rfl, .refl _⟩
  | cons h names ih =>
    rw [List.foldlM_cons]
    exact (hf l h).bind ih

end Loads

/-- Pushing ancestors in place does what loading them does. -/
theorem pushAncestors_loads (n : Nat) (path : List Text) (c : CompositeDecl) (l : Loaded) :
    Loads (pushAncestors n path c) l (loadAncestors n path c l) := by
  induction n generalizing path c l with
  | zero => exact ⟨rfl, .refl _⟩
  | succ n ih =>
    rw [pushAncestors, loadAncestors]
    apply Loads.forM
    intro l h
    -- the cases are those of the search: a circle, an ancestor that is there already, a new one
    dsimp only
    unfold Loads
    simp only [Ends.bind_iff, Ends.get_iff]
    split
    · exact ⟨rfl, .refl _⟩
    · split
      · exact ⟨rfl, .refl _⟩
      · cases hfetch : l.scopes.fetchComposite h with
        | error e => exact ⟨rfl, .refl _⟩
        | ok ancestor =>
          exact (ih (h.lower :: path) ancestor l).bind fun k =>
            ⟨rfl, above_pushMembers k.scopes ancestor true⟩

/-- Loading in place comes to what loading on whole stacks does: after an error nothing is left of
the frames that were pushed, however many they are. -/
theorem loadHere_eq (s : Scopes) (type : Text) :
    s.loadHere type =
      ((s.loadHeritage type).map (·.2), s.left ((s.loadHeritage type).map (·.1))) := by
  unfold loadHere loadHeritage
  cases s.fetchComposite type with
  | error e => rfl
  | ok c =>
    have hloads := pushAncestors_loads s.heritageBound [c.name.lower] c { scopes := s }
    unfold Loads Ends at hloads
    dsimp only
    split at hloads
    · rename_i heq
      obtain ⟨hload, -⟩ := hloads
      rw [heq]
      simp [hload, left, bind, Except.bind, Except.map, pure, Except.pure]
    · rename_i heq
      obtain ⟨hload, habove⟩ := hloads
      rw [heq]
      dsimp only
      rw [habove.unwindTo]
      simp [hload, left, bind, Except.bind, Except.map]

theorem above_of_loadHeritage {type : Text} {n : Nat} (h : s.loadHeritage type = .ok (t, n)) :
    s.Above t := by
  obtain ⟨c, -, h⟩ := bind_eq_ok.1 h
  obtain ⟨l, hl, h⟩ := bind_eq_ok.1 h
  cases h
  have hloads := pushAncestors_loads s.heritageBound [c.name.lower] c { scopes := s }
  unfold Loads Ends at hloads
  split at hloads
  · obtain rfl := Except.ok.inj (hl.symm.trans hloads.1)
    exact hloads.2.trans (above_pushMembers _ c false)
  · cases hl.symm.trans hloads.1

/-- An operation in place does what it does on whole stacks. -/
theorem perform_eq (s : Scopes) (op : Operation) :
    op.perform s = (op.outcome s).map fun r => (r.map fun _ => (), s.left r) := by
  cases op with
  | enter name owner => rfl
  | leave =>
    unfold Operation.perform Operation.outcome
    rw [Option.map_map]
    rfl
  | register name d => exact congrArg some (s.registerHere_eq name d)
  | redeclare name d =>
    simp only [Operation.perform, Operation.outcome, redeclare]
    cases s.lookup? name <;> rfl
  | loadHeritage type =>
    simp only [Operation.perform, Operation.outcome, loadHere_eq]
    cases s.loadHeritage type <;> rfl
  | enterMethod type method =>
    simp only [Operation.perform, Operation.outcome, enterMethod, loadHere_eq]
    rw [ExceptT.run_bind]
    -- an endless search, a method that is not found, and then the load that may fail
    obtain _ | _ | m := (s.fetchMember type method).run
    · rfl
    · rfl
    · cases s.loadHeritage type <;> rfl
  | leaveMethod context =>
    simp only [Operation.perform, Operation.outcome]
    obtain ⟨_ | _, t⟩ := s.leaveMethod context <;> rfl

theorem perform_loadHeritage_of_error {type : Text} {e : ScopeError}
    (h : s.loadHeritage type = .error e) :
    Operation.perform s (.loadHeritage type) = some (.error e, s) := by
  rw [perform_eq, Operation.outcome, h]
  rfl

/-- An operation that fails leaves the stack with all its frames as it was. -/
theorem perform_atomic {op : Operation} {e : ScopeError}
    (h : op.perform s = some (.error e, t)) : t = s := by
  rw [perform_eq] at h
  obtain ⟨r, -, hr⟩ := Option.map_eq_some_iff.1 h
  cases r with
  | ok u => cases hr
  | error e' => exact (congrArg Prod.snd hr).symm

/-! What every operation keeps. -/

/-- A stack above the frame of the language, to which names may have been added, of tidy frames. -/
structure Sound (config : Config) (s : Scopes) : Prop where
  bottom : (Frame.runtime config).GrowsTo s.runtime
  tidy : ∀ f ∈ s.frames, f.Tidy

namespace Sound

variable {config : Config}

theorem initial (config : Config) : Sound config (.initial config) := by
  have hgrows := Frame.GrowsTo.refl (Frame.runtime config)
  have htidy := Frame.tidy_runtime config
  unfold Scopes.initial
  constructor
  · dsimp only
    exact hgrows
  · intro f hf
    dsimp only [frames] at hf
    obtain hf | hf := List.mem_append.1 hf
    · obtain rfl := List.mem_singleton.1 hf
      exact Frame.tidy_empty _ _
    · rw [List.mem_singleton.1 hf]
      exact htidy

theorem runtime (h : s.Sound config) : s.runtime.Tidy := h.tidy _ (by simp [frames])

theorem inner (h : s.Sound config) : ∀ f ∈ s.inner, f.Tidy :=
  fun f hf => h.tidy f (by simp [frames, hf])

theorem withInner (h : s.Sound config) {inner : List Frame} (hinner : ∀ f ∈ inner, f.Tidy) :
    (s.withInner inner).Sound config := by
  refine ⟨h.bottom, fun f hf => ?_⟩
  obtain hf | rfl := List.mem_append.1 hf |>.imp_right List.mem_singleton.1
  · exact hinner f hf
  · exact h.runtime

theorem above (h : s.Sound config) (hst : s.Above t) : t.Sound config := by
  obtain ⟨pushed, hpushed, rfl⟩ := hst
  exact h.withInner fun f hf => (List.mem_append.1 hf).elim (hpushed f) (h.inner f)

theorem unwindTo (h : s.Sound config) (depth : Nat) : (s.unwindTo depth).Sound config :=
  h.withInner fun f hf => h.inner f (List.mem_of_mem_drop hf)

theorem leave (h : s.Sound config) {f : Frame} (ht : s.leave? = some (f, t)) : t.Sound config := by
  unfold leave? at ht
  split at ht
  · cases ht
  · rename_i g rest hs
    cases ht
    exact h.withInner fun f hf => h.inner f (by simp [hs, hf])

/-- A frame may be replaced by a tidy one that has grown from it. -/
theorem modifyFrame (h : s.Sound config) {i : Nat} (hi : i < s.depth) {g : Frame → Frame}
    (hg : ∀ f, s.frame? i = some f → f.Tidy → f.GrowsTo (g f) ∧ (g f).Tidy) :
    (s.modifyFrame i g).Sound config := by
  obtain rfl | ⟨pre, f, rest, hs, rfl⟩ := exists_inner_of_lt_depth hi
  · obtain ⟨hgrows, htidy⟩ := hg s.runtime s.frame?_zero h.runtime
    refine ⟨h.bottom.trans hgrows, fun f hf => ?_⟩
    obtain hf | rfl := List.mem_append.1 hf |>.imp_right List.mem_singleton.1
    · exact h.inner f hf
    · exact htidy
  · have hinner := h.inner
    rw [hs] at hinner
    rw [modifyFrame_of_inner hs]
    apply h.withInner
    intro f' hf'
    simp only [List.mem_append, List.mem_cons] at hinner hf'
    obtain hf' | rfl | hf' := hf'
    · exact hinner f' (.inl hf')
    · exact (hg f (frame?_of_inner hs) (hinner f (.inr (.inl rfl)))).2
    · exact hinner f' (.inr (.inr hf'))

theorem register (h : s.Sound config) {name : Text} {d : Decl} (ht : s.register name d = .ok t) :
    t.Sound config := by
  unfold Scopes.register at ht
  dsimp only at ht
  split at ht
  · cases ht
  · split at ht
    · cases ht
    · rename_i g hg
      cases ht
      refine h.modifyFrame (s.targetOf_lt_depth d) fun f hf htidy => ?_
      rw [hf, Option.getD_some] at hg
      exact ⟨Frame.growsTo_of_add? hg, htidy.add? hg⟩

theorem redeclare (h : s.Sound config) {name : Text} {d : Decl}
    (ht : s.redeclare name d = .ok t) : t.Sound config := by
  unfold Scopes.redeclare at ht
  split at ht
  · cases ht
  · rename_i e i hlookup
    cases ht
    refine h.modifyFrame (lt_depth_of_lookup? hlookup) fun f _ htidy => ?_
    exact ⟨Frame.growsTo_replace f name d, htidy.replace name d⟩

theorem leaveMethod (h : s.Sound config) {context : MethodContext}
    (ht : s.leaveMethod context = (.ok (), t)) : t.Sound config := by
  unfold Scopes.leaveMethod at ht
  split at ht
  · cases ht
  · split at ht
    · cases ht
    · rename_i f u hleave
      split at ht
      · cases ht
        exact (h.leave hleave).unwindTo _
      · cases ht

/-- Every operation that succeeds keeps the stack sound. -/
theorem outcome (h : s.Sound config) {op : Operation} (ht : op.outcome s = some (.ok t)) :
    t.Sound config := by
  cases op with
  | enter name owner =>
    cases ht
    exact h.above (above_enter s name owner)
  | leave =>
    obtain ⟨⟨f, u⟩, hleave, ht⟩ := Option.map_eq_some_iff.1 ht
    cases ht
    exact h.leave hleave
  | register name d => exact h.register (Option.some.inj ht)
  | redeclare name d => exact h.redeclare (Option.some.inj ht)
  | loadHeritage type =>
    have hload := Option.some.inj ht
    cases hr : s.loadHeritage type with
    | error e =>
      rw [hr] at hload
      cases hload
    | ok r =>
      rw [hr] at hload
      cases hload
      exact h.above (above_of_loadHeritage hr)
  | enterMethod type method =>
    obtain ⟨r, hrun, hr⟩ := Option.map_eq_some_iff.1 ht
    cases r with
    | error e => cases hr
    | ok r =>
      cases hr
      obtain ⟨m, -, hrun⟩ := Search.bind_eq_ok.1 hrun
      obtain ⟨⟨u, n⟩, hload, hrun⟩ := Search.bind_eq_ok.1 hrun
      cases hrun
      exact (h.above (above_of_loadHeritage (Option.some.inj hload))).above (above_enter u method _)
  | leaveMethod context =>
    simp only [Operation.outcome] at ht
    split at ht
    · rename_i u hleave
      cases ht
      exact h.leaveMethod hleave
    · cases ht

theorem perform (h : s.Sound config) {op : Operation} {r : Except ScopeError Unit}
    (ht : op.perform s = some (r, t)) : t.Sound config := by
  rw [perform_eq] at ht
  obtain ⟨q, hq, hr⟩ := Option.map_eq_some_iff.1 ht
  cases q with
  | ok u =>
    cases hr
    exact h.outcome hq
  | error e =>
    cases hr
    exact h

end Sound

/-- Whatever is done to the scopes of a source, the frame of the language stays at the bottom, with
no name taken from it, the names of every frame differ and are those that it declares, and an
operation that fails leaves all frames as they were. -/
theorem reached_tidy_atomic {config : Config} (h : Reached config s) :
    (∃ f, s.frames.getLast? = some f ∧ (Frame.runtime config).GrowsTo f) ∧
      (∀ f ∈ s.frames, f.Tidy) ∧
      ∀ op e t, Operation.perform s op = some (.error e, t) → t = s := by
  have hsound : s.Sound config := by
    induction h with
    | initial => exact .initial config
    | step _ hstep ih => exact ih.perform hstep
  refine ⟨⟨s.runtime, ?_, hsound.bottom⟩, hsound.tidy, fun op e t hfail => perform_atomic hfail⟩
  simp [frames]

/-- A record. -/
def point : CompositeDecl where
  info := { id := 1, line := 1 }
  name := "P"
  kind := .record
  type := .record { id := 2, line := 1 } false [] none

/-- A type that names the record among its ancestors and then itself. -/
def ring : CompositeDecl where
  info := { id := 3, line := 2 }
  name := "R"
  kind := .classType
  heritage := ["P", "R"]
  type := .classType { id := 4, line := 2 } ["P", "R"] [] false

/-- The global names after both types are declared. -/
def ringDeclared : Scopes :=
  (((Scopes.initial {}).registerHere "P" (.composite point)).2.registerHere "R"
    (.composite ring)).2

/-- The frame of the record is on top when the circle is found, and it is popped again. -/
theorem reached_tidy_atomic_ring :
    Reached {} ringDeclared ∧ ∃ t, Operation.perform ringDeclared (.loadHeritage "R") =
      some (.error ⟨.circularHeritage, "R", "P"⟩, t) ∧ t = ringDeclared := by
  have hpoint : Operation.perform (.initial {}) (.register "P" (.composite point)) =
      some ((Scopes.initial {}).registerHere "P" (.composite point)) := rfl
  have hdeclared : Operation.perform ((Scopes.initial {}).registerHere "P" (.composite point)).2
      (.register "R" (.composite ring)) = some (_, ringDeclared) := rfl
  have hreached : Reached {} ringDeclared := (Reached.initial.step hpoint).step hdeclared
  have hring : ringDeclared.fetchComposite "R" = .ok ring := rfl
  have hload : ringDeclared.loadHeritage "R" = .error ⟨.circularHeritage, "R", "P"⟩ := by
    obtain ⟨n, hn⟩ := Nat.exists_eq_add_of_le' (four_le_heritageBound ringDeclared)
    unfold loadHeritage
    rw [hring, hn]
    rfl
  have hfail := perform_loadHeritage_of_error hload
  exact ⟨hreached, _, hfail, (reached_tidy_atomic hreached).2.2 _ _ _ hfail⟩

end Scopes
end ObjectPascal
