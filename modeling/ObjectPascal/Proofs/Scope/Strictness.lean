import ObjectPascal.Folding.Fold
import ObjectPascal.Proofs.Scope.Loading
import ObjectPascal.Scope.Builtin

/-!
Scopes do not look at whether names are resolved strictly. Every search finds the same, every
operation leads to the same frames, and folding gives the same values.
-/

namespace ObjectPascal.Scopes

/-- The same scopes with names resolved strictly or not. -/
def strictly (s : Scopes) (strict : Bool) : Scopes := { s with config := { s.config with strict } }

variable (s : Scopes) (k : Bool)

section Searches

theorem top_strictly : (s.strictly k).top = s.top := rfl

theorem depth_strictly : (s.strictly k).depth = s.depth := rfl

theorem error_strictly (fault : ScopeFault) (name : Text) :
    (s.strictly k).error fault name = s.error fault name := rfl

theorem lookup?_strictly (name : Text) : (s.strictly k).lookup? name = s.lookup? name := rfl

theorem find?_strictly (name : Text) : (s.strictly k).find? name = s.find? name := rfl

theorem findLocal?_strictly (name : Text) : (s.strictly k).findLocal? name = s.findLocal? name :=
  rfl

theorem fetchCallable_strictly (name : Text) :
    (s.strictly k).fetchCallable name = s.fetchCallable name := rfl

theorem resolve_strictly : (s.strictly k).resolve = s.resolve := by
  have hwithin (n : Nat) (t : TypeExpr) :
      (s.strictly k).resolveWithin n t = s.resolveWithin n t := by
    induction n generalizing t with
    | zero => rfl
    | succ n ih => cases t <;> simp only [resolveWithin, find?_strictly, ih]
  exact funext (hwithin aliasLimit)

theorem fetchComposite_strictly (name : Text) :
    (s.strictly k).fetchComposite name = s.fetchComposite name := by
  have hwithin (n : Nat) (t : Text) :
      (s.strictly k).compositeWithin name n t = s.compositeWithin name n t := by
    induction n generalizing t with
    | zero => rfl
    | succ n ih =>
      unfold compositeWithin
      simp only [find?_strictly, error_strictly, ih]
  exact hwithin aliasLimit name

theorem memberNamed_strictly (search : List Text → CompositeDecl → Option Found) :
    (s.strictly k).memberNamed search = s.memberNamed search := by
  funext path h
  unfold memberNamed
  rw [fetchComposite_strictly, error_strictly]

theorem memberAmong_strictly (search : List Text → CompositeDecl → Option Found) :
    (s.strictly k).memberAmong search = s.memberAmong search := by
  funext path names
  induction names generalizing path with
  | nil => rfl
  | cons h names ih =>
    unfold memberAmong
    simp only [memberNamed_strictly, ih]

theorem memberWithin_strictly (name : Text) (n : Nat) :
    (s.strictly k).memberWithin name n = s.memberWithin name n := by
  induction n with
  | zero => rfl
  | succ n ih =>
    funext path c
    unfold memberWithin
    rw [ih, memberAmong_strictly]

theorem fetchMember_strictly (type name : Text) :
    (s.strictly k).fetchMember type name = s.fetchMember type name := by
  have hbound : (s.strictly k).searchBound = s.searchBound := rfl
  have hmember : Found.member (s.strictly k) type name = Found.member s type name := rfl
  unfold fetchMember
  rw [fetchComposite_strictly, hbound, hmember]
  simp only [memberWithin_strictly]

end Searches

section Operations

theorem modifyFrame_strictly (i : Nat) (f : Frame → Frame) :
    (s.strictly k).modifyFrame i f = (s.modifyFrame i f).strictly k := by
  cases i <;> rfl

theorem leave?_strictly :
    (s.strictly k).leave? = s.leave?.map fun (f, t) => (f, t.strictly k) := by
  obtain ⟨config, inner, runtime⟩ := s
  cases inner <;> rfl

theorem register_strictly (name : Text) (d : Decl) :
    (s.strictly k).register name d = (s.register name d).map (·.strictly k) := by
  have htarget : (s.strictly k).targetOf d = s.targetOf d := rfl
  have hframe (i : Nat) : (s.strictly k).frame? i = s.frame? i := rfl
  unfold register
  simp only [htarget, hframe, top_strictly, modifyFrame_strictly]
  split
  · rfl
  · split <;> rfl

theorem redeclare_strictly (name : Text) (d : Decl) :
    (s.strictly k).redeclare name d = (s.redeclare name d).map (·.strictly k) := by
  unfold redeclare
  simp only [lookup?_strictly, error_strictly, modifyFrame_strictly]
  split <;> rfl

/-- The ancestors on the stack, with names resolved strictly or not. -/
def Loaded.strictly (k : Bool) (l : Loaded) : Loaded := { l with scopes := l.scopes.strictly k }

/-- A loop over computations that commute with a map commutes with it. -/
theorem foldlM_map {ε α β : Type} {f : β → α → Except ε β} {g : β → β}
    (h : ∀ b a, f (g b) a = (f b a).map g) (l : List α) (b : β) :
    l.foldlM f (g b) = (l.foldlM f b).map g := by
  induction l generalizing b with
  | nil => rfl
  | cons a l ih =>
    rw [List.foldlM_cons, List.foldlM_cons, h]
    cases f b a with
    | error e => rfl
    | ok c => exact ih c

theorem loadAncestors_strictly (n : Nat) (path : List Text) (c : CompositeDecl) (l : Loaded) :
    loadAncestors n path c (l.strictly k) = (loadAncestors n path c l).map (Loaded.strictly k) := by
  induction n generalizing path c l with
  | zero => rfl
  | succ n ih =>
    rw [loadAncestors_succ, loadAncestors_succ]
    refine foldlM_map (fun l h => ?_) c.ancestors l
    have herror : (l.strictly k).scopes.error .circularHeritage h =
        l.scopes.error .circularHeritage h := rfl
    have hfetch : (l.strictly k).scopes.fetchComposite h = l.scopes.fetchComposite h :=
      fetchComposite_strictly l.scopes k h
    have hnames : (l.strictly k).names = l.names := rfl
    unfold loadAncestor
    rw [herror, hfetch, hnames]
    split
    · rfl
    · split
      · rfl
      · cases l.scopes.fetchComposite h with
        | error e => rfl
        | ok a =>
          change (loadAncestors n _ a (l.strictly k) >>= _) =
            Except.map _ (loadAncestors n _ a l >>= _)
          rw [ih]
          cases loadAncestors n (h.lower :: path) a l <;> rfl

theorem loadHeritage_strictly (type : Text) : (s.strictly k).loadHeritage type =
    (s.loadHeritage type).map fun (t, n) => (t.strictly k, n) := by
  have hbound : (s.strictly k).heritageBound = s.heritageBound := rfl
  unfold loadHeritage
  rw [fetchComposite_strictly, hbound]
  cases s.fetchComposite type with
  | error e => rfl
  | ok c =>
    have hload := loadAncestors_strictly k s.heritageBound [c.name.lower] c { scopes := s }
    change (loadAncestors _ _ _ (Loaded.strictly k { scopes := s }) >>= _) =
      Except.map _ (loadAncestors _ _ _ { scopes := s } >>= _)
    rw [hload]
    cases loadAncestors s.heritageBound [c.name.lower] c { scopes := s } <;> rfl

theorem enterMethod_strictly (type method : Text) : (s.strictly k).enterMethod type method =
    (fun (t, c) => (t.strictly k, c)) <$> s.enterMethod type method := by
  unfold enterMethod
  rw [fetchMember_strictly, loadHeritage_strictly]
  obtain _ | _ | m := s.fetchMember type method
  · rfl
  · rfl
  · cases s.loadHeritage type <;> rfl

theorem leaveMethod_strictly (c : MethodContext) : (s.strictly k).leaveMethod c =
    ((s.leaveMethod c).1, (s.leaveMethod c).2.strictly k) := by
  unfold leaveMethod
  rw [leave?_strictly, depth_strictly]
  split
  · rfl
  · cases s.leave? with
    | none => rfl
    | some r =>
      obtain ⟨f, t⟩ := r
      dsimp only [Option.map_some]
      split <;> rfl

end Operations

/-- Scopes begin in the same way whether names are resolved strictly or not. -/
theorem initial_strictly (config : Config) :
    initial { config with strict := k } = (initial config).strictly k := by
  have hpointer : Config.pointerSize { config with strict := k } = config.pointerSize := rfl
  have hsupports : Config.supports { config with strict := k } = config.supports := rfl
  have hversion : Config.compilerVersion { config with strict := k } = config.compilerVersion := rfl
  unfold initial strictly Frame.runtime Builtin.load Builtin.defaultString Builtin.defaultChar
  simp only [hpointer, hsupports, hversion]

end ObjectPascal.Scopes

namespace ObjectPascal.Folding

variable (s : Scopes) (k : Bool)

theorem typeArg_strictly (e : Expr) : typeArg (s.strictly k) e = typeArg s e := by
  unfold typeArg
  simp only [Scopes.resolve_strictly]

theorem call_strictly (callee arg : Expr) (folded : Fold (Option Constant)) :
    call (s.strictly k) callee arg folded = call s callee arg folded := by
  have hsize : sizeOf (s.strictly k) = sizeOf s := rfl
  have hliteral : literal (s.strictly k) = literal s := rfl
  have hfunction : function (s.strictly k) = function s := rfl
  unfold call
  rw [typeArg_strictly, hsize, hliteral, hfunction]

theorem visit_strictly (again : Elsewhere) (active : List NodeInfo) (e : Expr) :
    visit (s.strictly k) again active e = visit s again active e := by
  have hunary : unary (s.strictly k) = unary s := rfl
  have hbinary : binary (s.strictly k) = binary s := rfl
  induction e using visit.induct with
  | case1 e ih =>
    unfold visit
    congr 1
    split
    · rfl
    · rfl
    · rfl
    · rfl
    · rfl
    · rfl
    · rfl
    · rw [ih, hunary]
    · rw [ih.1, ih.2, hbinary]
    · rw [ih, call_strictly]
    · rfl

theorem fold_strictly (e : Expr) : fold (s.strictly k) e = fold s e := by
  have hwithin (n : Nat) : foldWithin (s.strictly k) n = foldWithin s n := by
    induction n with
    | zero => rfl
    | succ n ih =>
      funext active e
      unfold foldWithin
      rw [ih]
      simp only [visit_strictly]
  unfold fold
  simp only [hwithin]

theorem subrangeSize_strictly (low high : Expr) :
    subrangeSize (s.strictly k) low high = subrangeSize s low high := by
  have hbound (e : Expr) : subrangeBound (s.strictly k) e = subrangeBound s e := by
    unfold subrangeBound
    rw [fold_strictly]
  unfold subrangeSize
  rw [hbound, hbound]

end ObjectPascal.Folding
