import ObjectPascal.Proofs.Binding.NonLocal
import ObjectPascal.Proofs.Binding.Upkeep
import ObjectPascal.Proofs.Closure.Nesting
import ObjectPascal.Proofs.Text

/-!
Which variables a closure needs. The search reports a nested routine with the variables and
parameters of the routines around it that the statements of the routine mention by name. A variable
that is only the control variable of a loop is not mentioned by an expression, and so it is left
out.
-/

namespace ObjectPascal

/-- Whether a node refers to a declaration by itself. No source holds such a node; one is made for
each name that is bound. -/
def Node.isIdent : Node → Bool
  | .expr (.ident ..) => true
  | _ => false

namespace Closure

open Binding

variable {c : Binding} {g : Goal} {outer : List CallableDecl} {d : CallableDecl} {n : Nested}

/-! What the search reports. -/

theorem mem_inDecls {path : List Text} {ds : List Decl} : n ∈ inDecls c outer path ds ↔
    ∃ f, .callable f ∈ ds ∧ n ∈ inRoutine c outer path f := by
  induction ds with
  | nil => simp [inDecls]
  | cons e ds ih => cases e <;> simp [inDecls, ih, or_and_right, exists_or]

theorem inRoutine_of_body {path : List Text} {b : Block} (hb : d.body = some b) :
    inRoutine c outer path d = own c outer (path ++ [d.qualifiedName]) d ++
      inDecls c (outer ++ [d]) (path ++ [d.qualifiedName]) b.decls := by
  cases d
  cases hb
  cases b
  rw [inRoutine]

theorem exists_body {path : List Text} (h : n ∈ inRoutine c outer path d) :
    ∃ b, d.body = some b := by
  cases d with
  | mk i name owner kind classMethod params result directives body =>
    cases body with
    | none =>
      rw [inRoutine] at h
      cases h
    | some b => exact ⟨b, rfl⟩

theorem mem_own {path : List Text} : n ∈ own c outer path d ↔
    outer ≠ [] ∧ n = nestedOf c outer path d ∧ n.captures ≠ [] := by
  unfold own
  cases outer <;> simp [List.mem_filter]

theorem decls_capturesOf (taken : List Text) (as : List Access) :
    (capturesOf taken as).map (·.decl) = as.map (·.decl) := by
  induction as generalizing taken with
  | nil => rfl
  | cons a as ih => exact congrArg (a.decl :: ·) (ih _)

/-- The variables that a routine needs. -/
def needs (c : Binding) (outer : List CallableDecl) (d : CallableDecl) : List Decl :=
  (accesses c outer d).map (·.decl)

theorem accessed_nestedOf (path : List Text) :
    (nestedOf c outer path d).accessed = needs c outer d := decls_capturesOf _ _

theorem captures_eq_nil_iff {path : List Text} :
    (nestedOf c outer path d).captures = [] ↔ needs c outer d = [] := by
  rw [← accessed_nestedOf path, Nested.accessed, List.map_eq_nil_iff]

/-- The names on the way to what stands in some routines. -/
def pathTo (g : Goal) (outer : List CallableDecl) : List Text :=
  g.name :: outer.map (·.qualifiedName)

theorem pathTo_append : pathTo g (outer ++ [d]) = pathTo g outer ++ [d.qualifiedName] := by
  simp [pathTo]

/-- What is found in a routine is about itself or about a routine inside. -/
theorem Nests.exists_own (h : Nests g outer d) (hn : n ∈ inRoutine c outer (pathTo g outer) d) :
    ∃ outer' f, Nests g outer' f ∧ f.body.isSome = true ∧
      n ∈ own c outer' (pathTo g (outer' ++ [f])) f := by
  induction hsize : sizeOf d using Nat.strong_induction_on generalizing outer d with
  | h k ih =>
    obtain ⟨b, hb⟩ := exists_body hn
    rw [inRoutine_of_body hb, ← pathTo_append] at hn
    obtain hn | hn := List.mem_append.mp hn
    · exact ⟨outer, d, h, hb ▸ rfl, hn⟩
    · obtain ⟨f, hf, hn⟩ := mem_inDecls.mp hn
      have hinside : f ∈ blockRoutines d.body := hb ▸ subset_blockRoutines hf f.mem_routines
      exact ih _ (hsize ▸ f.sizeOf_lt_of_mem_body d hinside) (h.inner hb hf) hn rfl

/-- What is found in a nested routine is found in the source. -/
theorem Nests.subset_analyze (h : Nests g outer d) :
    inRoutine c outer (pathTo g outer) d ⊆ analyze c g := by
  induction h with
  | top h => exact fun n hn => mem_inDecls.mpr ⟨_, h, hn⟩
  | inner hf hb h ih =>
    intro n hn
    refine ih ?_
    rw [inRoutine_of_body hb, ← pathTo_append]
    exact List.mem_append_right _ (mem_inDecls.mpr ⟨_, h, hn⟩)

/-- The search reports the nested routines with a body that need any variable. -/
theorem mem_analyze_iff : n ∈ analyze c g ↔ ∃ outer d, Nests g outer d ∧ outer ≠ [] ∧
    d.body.isSome = true ∧ n = nestedOf c outer (pathTo g (outer ++ [d])) d ∧
      needs c outer d ≠ [] := by
  constructor
  · intro hn
    obtain ⟨d, hd, hn⟩ := mem_inDecls.mp hn
    obtain ⟨outer, f, hf, hbody, hn⟩ := (Nests.top hd).exists_own hn
    obtain ⟨houter, rfl, hcaptures⟩ := mem_own.mp hn
    exact ⟨outer, f, hf, houter, hbody, rfl, mt captures_eq_nil_iff.mpr hcaptures⟩
  · rintro ⟨outer, d, hd, houter, hbody, rfl, hneeds⟩
    obtain ⟨b, hb⟩ := Option.isSome_iff_exists.mp hbody
    refine hd.subset_analyze ?_
    rw [inRoutine_of_body hb, ← pathTo_append]
    exact List.mem_append_left _ (mem_own.mpr ⟨houter, rfl, mt captures_eq_nil_iff.mp hneeds⟩)

/-! Declarations met once. -/

section Distinct

variable {seen : List NodeInfo} {a : Access} {as : List Access}

theorem distinct_subset (seen : List NodeInfo) (as : List Access) : distinct seen as ⊆ as := by
  induction as generalizing seen with
  | nil => exact List.Subset.refl _
  | cons b as ih =>
    rw [distinct]
    split
    · exact List.subset_cons_of_subset _ (ih seen)
    · exact List.cons_subset_cons _ (ih _)

theorem info_notMem_seen (ha : a ∈ distinct seen as) : a.decl.info ∉ seen := by
  induction as generalizing seen with
  | nil => cases ha
  | cons b as ih =>
    rw [distinct] at ha
    split at ha
    · exact ih ha
    · rename_i hb
      obtain rfl | ha := List.mem_cons.mp ha
      · simpa using hb
      · exact fun hseen => ih ha (List.mem_cons_of_mem _ hseen)

theorem nodup_infos (seen : List NodeInfo) (as : List Access) :
    ((distinct seen as).map (·.decl.info)).Nodup := by
  induction as generalizing seen with
  | nil => exact List.nodup_nil
  | cons b as ih =>
    rw [distinct]
    split
    · exact ih seen
    · rw [List.map_cons, List.nodup_cons]
      refine ⟨fun hb => ?_, ih _⟩
      obtain ⟨a, ha, heq⟩ := List.mem_map.mp hb
      exact info_notMem_seen ha (heq ▸ List.mem_cons_self)

/-- An access is kept if it is the first to its declaration. -/
theorem exists_mem_distinct (ha : a ∈ as) (hseen : a.decl.info ∉ seen) :
    ∃ b ∈ distinct seen as, b.decl.info = a.decl.info := by
  induction as generalizing seen with
  | nil => cases ha
  | cons b as ih =>
    rw [distinct]
    split
    · rename_i hb
      obtain rfl | ha := List.mem_cons.mp ha
      · exact absurd (by simpa using hb) hseen
      · exact ih ha hseen
    · by_cases heq : b.decl.info = a.decl.info
      · exact ⟨b, List.mem_cons_self, heq⟩
      · have ha : a ∈ as := (List.mem_cons.mp ha).resolve_left fun hab => heq (hab ▸ rfl)
        have hunseen : a.decl.info ∉ b.decl.info :: seen := by simp [Ne.symm heq, hseen]
        obtain ⟨b', hb', heq'⟩ := ih ha hunseen
        exact ⟨b', List.mem_cons_of_mem _ hb', heq'⟩

end Distinct

/-! Who owns a variable. -/

/-- What is known of a bound source: whose the variables without a source are, and which names are
marked. -/
structure Settled (g : Goal) (last : Nat) (c : Binding) : Prop where
  separate : Separate g last
  made : ∀ p ∈ c.implicit, last < p.1.info.id
  distinct : c.implicit.Pairwise fun p q => p.1.info.id ≠ q.1.info.id
  marked : ∀ r ∈ g.routines, ∀ b, r.body = some b → ∀ i name, .expr (.name i name) ∈ b.body.nodes →
    (c.notes.isNonLocal i = true ↔ ∃ v, c.notes.declOf i = some v ∧
      ∃ q ∈ g.routines, r ∈ blockRoutines q.body ∧ q.Owns c.implicit v)

theorem settled_of_ofGoal {config : Config} {path : Text} {last : Nat}
    (hg : Separate g last) (h : ofGoal config path g last = (.ok (), c))
    (hmethods : ∀ m ∈ g.routines, m.owner.isEmpty = false → m.body.isSome = true →
      ∃ heading, c.notes.declOf m.info = some (.callable heading)) : Settled g last c where
  separate := hg
  made p hp := ((hg.ends h).1.implicit p hp).1
  distinct := (inOrder_of_ofGoal (A := fun _ => True) h hg.room (fun _ _ _ => trivial)
    fun _ _ => trivial).1.distinct
  marked r hr _ hb i _ hi :=
    ((hg.ends h).2.resolve_left (Separate.not_unbound hmethods) r i (name_watched hr hb hi)).marked

/-- The variables and parameters of a bound source, with the routines that own them. -/
def homesIn (g : Goal) (c : Binding) : List (Node × Option CallableDecl) :=
  g.homes ++ c.implicit.map fun p => (.decl (.var p.1), some p.2)

theorem mem_homesIn_of_owns {f : CallableDecl} {v : Decl} (hf : f ∈ g.routines)
    (h : f.Owns c.implicit v) : (.decl v, some f) ∈ homesIn g c := by
  have hsource (hv : f.Owns [] v) : (.decl v, some f) ∈ homesIn g c :=
    List.mem_append_left _ (Goal.homes_subset hf hv.mem_homes)
  cases v with
  | param p => exact hsource h
  | var v =>
    obtain h | h := h
    · exact hsource (.inl h)
    · exact List.mem_append_right _ (List.mem_map.mpr ⟨_, h, rfl⟩)
  | _ => cases h

/-- What the search takes for owned is told by numbers. -/
theorem exists_home_of_owns {f : CallableDecl} {v : Decl} (hf : f ∈ g.routines)
    (h : owns c f v = true) : ∃ w r, (.decl w, some r) ∈ homesIn g c ∧
      w.info = v.info ∧ r.info = f.info := by
  have hsource {w : Decl} (hw : f.Owns [] w) (hinfo : w.info = v.info) :
      ∃ w r, (.decl w, some r) ∈ homesIn g c ∧ w.info = v.info ∧ r.info = f.info :=
    ⟨w, f, List.mem_append_left _ (Goal.homes_subset hf hw.mem_homes), hinfo, rfl⟩
  cases v with
  | param p =>
    obtain ⟨q, hq, hinfo⟩ := List.any_eq_true.mp h
    exact hsource (w := .param q) hq (beq_iff_eq.mp hinfo)
  | var v =>
    obtain h | h := Bool.or_eq_true_iff.mp h
    · obtain ⟨l, hl, hinfo⟩ := List.any_eq_true.mp h
      unfold localDecls at hl
      cases hb : f.body with
      | none =>
        rw [hb] at hl
        cases hl
      | some b =>
        rw [hb] at hl
        cases l with
        | var w => exact hsource (w := .var w) (.inl ⟨b, hb, hl⟩) (beq_iff_eq.mp hinfo)
        | _ => cases hinfo
    · obtain ⟨⟨w, r⟩, hw, hinfo⟩ := List.any_eq_true.mp h
      obtain ⟨hinfo, hr⟩ := Bool.and_eq_true_iff.mp hinfo
      exact ⟨.var w, r, List.mem_append_right _ (List.mem_map.mpr ⟨_, hw, rfl⟩),
        beq_iff_eq.mp hinfo, beq_iff_eq.mp hr⟩
  | _ => cases h

theorem owns_of_owns {f : CallableDecl} {v : Decl} (h : f.Owns c.implicit v) :
    owns c f v = true := by
  cases v with
  | param p => exact List.any_eq_true.mpr ⟨p, h, beq_self_eq_true _⟩
  | var v =>
    refine Bool.or_eq_true_iff.mpr (h.imp ?_ fun h => ?_)
    · rintro ⟨b, hb, hv⟩
      refine List.any_eq_true.mpr ⟨.var v, ?_, beq_self_eq_true _⟩
      rw [localDecls, hb]
      exact hv
    · exact List.any_eq_true.mpr ⟨(v, f), h, by simp⟩
  | _ => cases h

namespace Settled

variable {last : Nat} (h : Settled g last c)
include h

/-- A number belongs to one variable, which has one owner. -/
theorem home_unique {x y : Node} {o o' : Option CallableDecl} (hx : (x, o) ∈ homesIn g c)
    (hy : (y, o') ∈ homesIn g c) (hid : x.info.id = y.info.id) : (x, o) = (y, o') := by
  have hsub := g.homes_sublist.trans (sublist_visits g.nodes)
  have hsource {p : Node × Option CallableDecl} (hp : p ∈ g.homes) : p.1.info.id ≤ last :=
    h.separate.range _ (hsub.subset (List.mem_map.mpr ⟨p, hp, rfl⟩))
  have hmade {p : Node × Option CallableDecl}
      (hp : p ∈ c.implicit.map fun p => (Node.decl (.var p.1), some p.2)) : last < p.1.info.id := by
    obtain ⟨q, hq, rfl⟩ := List.mem_map.mp hp
    exact h.made q hq
  obtain hx | hx := List.mem_append.mp hx <;> obtain hy | hy := List.mem_append.mp hy
  · exact ((h.separate.homes _ hx).subperm hsub.subperm).home_unique hx hy rfl hid.symm
  · exact absurd (hid ▸ hsource hx) (Nat.not_le.mpr (hmade hy))
  · exact absurd (hid ▸ hsource hy) (Nat.not_le.mpr (hmade hx))
  · obtain ⟨p, hp, hpx⟩ := List.mem_map.mp hx
    obtain ⟨q, hq, hqy⟩ := List.mem_map.mp hy
    cases hpx
    cases hqy
    have hnodup : (c.implicit.map (·.1.info.id)).Nodup := List.pairwise_map.mpr h.distinct
    rw [List.inj_on_of_nodup_map hnodup hp hq hid]

/-- A variable has one owner at most. -/
theorem owner_unique {f q : CallableDecl} {v : Decl} (hf : f ∈ g.routines) (hq : q ∈ g.routines)
    (hv : q.Owns c.implicit v) (howns : owns c f v = true) : f = q := by
  obtain ⟨w, r, hr, hw, hrf⟩ := exists_home_of_owns hf howns
  have heq := h.home_unique hr (mem_homesIn_of_owns hq hv) (congrArg NodeInfo.id hw)
  have hrq : r = q := Option.some.inj (Prod.mk.inj heq).2
  have hmet {r : CallableDecl} (hr : r ∈ g.routines) :
      .decl (.callable r) ∈ g.nodes.flatMap visits :=
    (sublist_visits g.nodes).subset (mem_nodes_of_mem_goal hr)
  have hnode := (h.separate.routines f hf).eq_of_mem (hmet hf) (hmet hq) rfl
    (congrArg NodeInfo.id (hrq ▸ hrf))
  exact Decl.callable.inj (Node.decl.inj hnode)

/-- Variables of routines have different numbers. -/
theorem owned_unique {f q : CallableDecl} {v w : Decl} (hf : f ∈ g.routines) (hq : q ∈ g.routines)
    (hv : f.Owns c.implicit v) (hw : q.Owns c.implicit w) (hinfo : v.info = w.info) : v = w := by
  have heq := h.home_unique (mem_homesIn_of_owns hf hv) (mem_homesIn_of_owns hq hw)
    (congrArg NodeInfo.id hinfo)
  cases heq
  rfl

end Settled

/-! What statements mention. -/

/-- The statements of a routine mention a variable by name. -/
def Mentions (c : Binding) (d : CallableDecl) (v : Decl) : Prop :=
  ∃ b, d.body = some b ∧ ∃ i name, .expr (.name i name) ∈ b.body.nodes ∧ c.notes.declOf i = some v

theorem accessOf_name {i : NodeInfo} {name : Text} {a : Access} :
    accessOf c outer (.expr (.name i name)) = some a ↔ c.notes.declOf i = some a.decl ∧
      outer.findIdx? (owns c · a.decl) = some a.place ∧ c.notes.isNonLocal i = true ∧
        outer[a.place]? = some a.source := by
  constructor
  · intro h
    obtain ⟨v, hv, h⟩ := Option.bind_eq_some_iff.mp h
    split at h
    · cases h
    · rename_i place hplace
      split at h
      · rename_i hmarked
        obtain ⟨source, hsource, rfl⟩ := Option.map_eq_some_iff.mp h
        exact ⟨hv, hplace, hmarked, hsource⟩
      · cases h
  · rintro ⟨hv, hplace, hmarked, hsource⟩
    simp [accessOf, hv, hplace, hmarked, hsource]

theorem name_of_accessOf {x : Node} {a : Access} (h : accessOf c outer x = some a)
    (hx : x.isIdent = false) : ∃ i name, x = .expr (.name i name) := by
  unfold accessOf at h
  dsimp only at h
  split at h
  · exact ⟨_, _, rfl⟩
  · cases hx
  · cases h

theorem mem_accesses {a : Access} : a ∈ accesses c outer d ↔
    a ∈ Closure.distinct [] (((d.body.map fun b => b.body.nodes).getD []).filterMap
      (accessOf c outer)) :=
  (List.mergeSort_perm _ _).mem_iff

theorem nodup_accesses : ((accesses c outer d).map (·.decl.info)).Nodup :=
  ((List.mergeSort_perm _ _).map _).nodup_iff.mpr (nodup_infos _ _)

/-- What the statements of a routine hold is held by the routine. -/
theorem mem_nodes_of_body {b : Block} {x : Node} (hb : d.body = some b)
    (hx : x ∈ b.body.nodes) : x ∈ (Node.decl (.callable d)).nodes := by
  have hblock : .block b ∈ (Node.decl (.callable d)).children :=
    List.mem_append_right _ (List.mem_map.mpr ⟨b, hb ▸ List.mem_singleton_self b, rfl⟩)
  have hbody : .stmt b.body ∈ (Node.block b).children :=
    List.mem_append_right _ (List.mem_singleton_self _)
  have hx : x ∈ (Node.stmt b.body).nodes := hx
  exact Node.mem_nodes_trans hx
    (Node.mem_nodes_of_child (Node.mem_nodes_of_child (Node.self_mem _) hblock) hbody)

namespace Settled

variable {last : Nat} (h : Settled g last c)
include h

theorem once : ∀ f ∈ g.routines, Once f.info.id (Node.goal g).nodes := fun f hf =>
  (h.separate.routines f hf).subperm (sublist_visits g.nodes).subperm

/-- What is reported as used is mentioned, and a routine around owns it. -/
theorem sound (hnames : ∀ x ∈ g.nodes, x.isIdent = false) (hd : Nests g outer d)
    {a : Access} (ha : a ∈ accesses c outer d) :
    Mentions c d a.decl ∧ outer[a.place]? = some a.source ∧ a.source.Owns c.implicit a.decl := by
  have ha := distinct_subset _ _ (mem_accesses.mp ha)
  obtain ⟨x, hx, ha⟩ := List.mem_filterMap.mp ha
  cases hb : d.body with
  | none =>
    rw [hb] at hx
    cases hx
  | some b =>
    rw [hb] at hx
    have hnode := Node.mem_nodes_trans (mem_nodes_of_body hb hx) hd.mem_nodes
    obtain ⟨i, name, rfl⟩ := name_of_accessOf ha (hnames x hnode)
    obtain ⟨hdecl, hplace, hmarked, hsource⟩ := accessOf_name.mp ha
    obtain ⟨v, hv, q, hq, hqd, howns⟩ := (h.marked d hd.mem_routines b hb i name hx).mp hmarked
    obtain rfl := Option.some.inj (hdecl.symm.trans hv)
    -- the routine that is found owns it too, and it has only one owner
    obtain ⟨hlt, hfound, -⟩ := List.findIdx?_eq_some_iff_getElem.mp hplace
    have hat : outer[a.place] = a.source :=
      Option.some.inj ((List.getElem?_eq_getElem hlt).symm.trans hsource)
    have hin : a.source ∈ g.routines := hd.outer_subset (List.mem_of_getElem? hsource)
    obtain rfl := h.owner_unique hin hq howns (hat ▸ hfound)
    exact ⟨⟨b, hb, i, name, hx, hdecl⟩, hsource, howns⟩

/-- What is mentioned is reported as used if a routine around owns it. -/
theorem complete (hnames : ∀ x ∈ g.nodes, x.isIdent = false) (hd : Nests g outer d)
    {v : Decl} {f : CallableDecl} (hf : f ∈ outer) (hv : f.Owns c.implicit v)
    (hm : Mentions c d v) : ∃ a ∈ accesses c outer d, a.decl = v := by
  obtain ⟨b, hb, i, name, hx, hdecl⟩ := hm
  have hmarked := (h.marked d hd.mem_routines b hb i name hx).mpr
    ⟨v, hdecl, f, hd.outer_subset hf, hd.mem_blockRoutines hf d.mem_routines, hv⟩
  obtain ⟨place, hplace⟩ : ∃ place, outer.findIdx? (owns c · v) = some place := by
    rw [← Option.isSome_iff_exists, List.findIdx?_isSome]
    exact List.any_eq_true.mpr ⟨f, hf, owns_of_owns hv⟩
  obtain ⟨hlt, -, -⟩ := List.findIdx?_eq_some_iff_getElem.mp hplace
  have haccess : accessOf c outer (.expr (.name i name)) = some ⟨place, outer[place], v⟩ :=
    accessOf_name.mpr ⟨hdecl, hplace, hmarked, List.getElem?_eq_getElem hlt⟩
  have hfound : ⟨place, outer[place], v⟩ ∈
      ((d.body.map fun b => b.body.nodes).getD []).filterMap (accessOf c outer) :=
    List.mem_filterMap.mpr ⟨_, hb ▸ hx, haccess⟩
  -- another access to the same declaration may have come before
  obtain ⟨a, ha, hinfo⟩ := exists_mem_distinct hfound List.not_mem_nil
  have ha := mem_accesses.mpr ha
  obtain ⟨-, hsource, howns⟩ := h.sound hnames hd ha
  exact ⟨a, ha, h.owned_unique (hd.outer_subset (List.mem_of_getElem? hsource))
    (hd.outer_subset hf) howns hv hinfo⟩

end Settled

/-! The order of accesses. -/

theorem Access.le_iff {a b : Access} : a.le b = true ↔
    a.place < b.place ∨ a.place = b.place ∧ a.decl.name.le b.decl.name = true := by
  simp only [Access.le, Bool.or_eq_true, Bool.and_eq_true, decide_eq_true_eq, beq_iff_eq]

theorem Access.le_total (a b : Access) : (a.le b || b.le a) = true := by
  rw [Bool.or_eq_true, le_iff, le_iff]
  obtain hlt | heq | hlt := Nat.lt_trichotomy a.place b.place
  · exact .inl (.inl hlt)
  · exact ((Bool.or_eq_true _ _).mp (Text.le_total a.decl.name b.decl.name)).imp
      (fun h => .inr ⟨heq, h⟩) fun h => .inr ⟨heq.symm, h⟩
  · exact .inr (.inl hlt)

theorem Access.le_trans (a b c : Access) (h : a.le b = true) (k : b.le c = true) :
    a.le c = true := by
  rw [le_iff] at *
  obtain h | ⟨hab, h⟩ := h
  · exact .inl (k.elim (Nat.lt_trans h) fun hk => hk.1 ▸ h)
  · exact k.imp (hab ▸ ·) fun hk => ⟨hab.trans hk.1, Text.le_trans h hk.2⟩

theorem pairwise_accesses : (accesses c outer d).Pairwise fun a b => a.le b = true :=
  List.pairwise_mergeSort Access.le_trans Access.le_total _

/-- What stands at a smaller place stands in front. -/
theorem pair_sublist {α : Type} {l : List α} {i j : Nat} {x y : α} (hx : l[i]? = some x)
    (hy : l[j]? = some y) (hij : i < j) : [x, y].Sublist l := by
  obtain ⟨hj, rfl⟩ := List.getElem?_eq_some_iff.mp hy
  have hfront : x ∈ l.take j := List.mem_of_getElem? ((List.getElem?_take_of_lt hij).trans hx)
  have hback : l[j] ∈ l.drop j := by
    rw [List.drop_eq_getElem_cons hj]
    exact List.mem_cons_self
  have hpair := (List.singleton_sublist.mpr hfront).append (List.singleton_sublist.mpr hback)
  rwa [List.take_append_drop] at hpair

/-- The variables of the routines around a routine that its statements mention by name, each once.
Those of outer routines come first, and those of one routine are ordered by their names. -/
structure Captured (c : Binding) (outer : List CallableDecl) (d : CallableDecl)
    (vs : List Decl) : Prop where
  mem : ∀ v, v ∈ vs ↔ (∃ f ∈ outer, f.Owns c.implicit v) ∧ Mentions c d v
  once : (vs.map Decl.info).Nodup
  ordered : vs.Pairwise fun v w => ∀ f ∈ outer, ∀ q ∈ outer, f.Owns c.implicit v →
    q.Owns c.implicit w → [f, q].Sublist outer ∨ f = q ∧ v.name.le w.name = true

theorem Settled.captured {last : Nat} (h : Settled g last c)
    (hnames : ∀ x ∈ g.nodes, x.isIdent = false) (hd : Nests g outer d) :
    Captured c outer d (needs c outer d) where
  mem v := by
    constructor
    · intro hv
      obtain ⟨a, ha, rfl⟩ := List.mem_map.mp hv
      obtain ⟨hmentions, hsource, howns⟩ := h.sound hnames hd ha
      exact ⟨⟨a.source, List.mem_of_getElem? hsource, howns⟩, hmentions⟩
    · rintro ⟨⟨f, hf, howns⟩, hmentions⟩
      exact List.mem_map.mpr (h.complete hnames hd hf howns hmentions)
  once := by
    rw [needs, List.map_map]
    exact nodup_accesses
  ordered := by
    refine List.pairwise_map.mpr (pairwise_accesses.imp_of_mem fun {a b} ha hb hle => ?_)
    obtain ⟨-, hplace, hown⟩ := h.sound hnames hd ha
    obtain ⟨-, hplace', hown'⟩ := h.sound hnames hd hb
    intro f hf q hq hfa hqb
    obtain rfl := h.owner_unique (hd.outer_subset hf)
      (hd.outer_subset (List.mem_of_getElem? hplace)) hown (owns_of_owns hfa)
    obtain rfl := h.owner_unique (hd.outer_subset hq)
      (hd.outer_subset (List.mem_of_getElem? hplace')) hown' (owns_of_owns hqb)
    obtain hlt | ⟨heq, hname⟩ := Access.le_iff.mp hle
    · exact .inl (pair_sublist hplace hplace' hlt)
    · refine .inr ⟨?_, hname⟩
      exact Option.some.inj (hplace.symm.trans (heq ▸ hplace'))

namespace Settled

variable {last : Nat} (h : Settled g last c)
include h

/-- What is reported about a nested routine. -/
theorem mem_analyze (hd : Nests g outer d) (hn : n ∈ analyze c g) (hnd : n.routine = d) :
    n.outer = outer ∧ n.accessed = needs c outer d ∧ needs c outer d ≠ [] := by
  obtain ⟨outer', f, hf, -, -, rfl, hneeds⟩ := mem_analyze_iff.mp hn
  obtain rfl : f = d := hnd
  obtain rfl := hd.outer_unique h.once hf
  exact ⟨rfl, accessed_nestedOf _, hneeds⟩

/-- A nested routine that needs a variable is reported. -/
theorem exists_mem_analyze (hnames : ∀ x ∈ g.nodes, x.isIdent = false)
    (hd : Nests g outer d) (houter : outer ≠ []) (hneeds : needs c outer d ≠ []) :
    ∃ n ∈ analyze c g, n.routine = d := by
  obtain ⟨v, hv⟩ := List.exists_mem_of_ne_nil _ hneeds
  obtain ⟨-, b, hb, -⟩ := ((h.captured hnames hd).mem v).mp hv
  exact ⟨_, mem_analyze_iff.mpr ⟨outer, d, hd, houter, hb ▸ rfl, rfl, hneeds⟩, rfl⟩

end Settled

/-- A nested routine of a source that is bound to its end, where every method with a body is bound
to a method of its type, is reported if and only if its statements mention a variable or parameter
of a routine around by name. What is reported are the routines around it, and exactly these
variables in their order. -/
theorem analyze_exact {config : Config} {path : Text} {last : Nat} (hg : Separate g last)
    (hnames : ∀ x ∈ g.nodes, x.isIdent = false)
    (h : ofGoal config path g last = (.ok (), c))
    (hmethods : ∀ m ∈ g.routines, m.owner.isEmpty = false → m.body.isSome = true →
      ∃ heading, c.notes.declOf m.info = some (.callable heading))
    (hd : Nests g outer d) (houter : outer ≠ []) :
    ∃ vs, Captured c outer d vs ∧ ((∃ n ∈ analyze c g, n.routine = d) ↔ vs ≠ []) ∧
      ∀ n ∈ analyze c g, n.routine = d → n.outer = outer ∧ n.accessed = vs := by
  have hsettled := settled_of_ofGoal hg h hmethods
  refine ⟨needs c outer d, hsettled.captured hnames hd, ⟨?_, ?_⟩, fun n hn hnd => ?_⟩
  · rintro ⟨n, hn, hnd⟩
    exact (hsettled.mem_analyze hd hn hnd).2.2
  · exact hsettled.exists_mem_analyze hnames hd houter
  · obtain ⟨houter, haccessed, -⟩ := hsettled.mem_analyze hd hn hnd
    exact ⟨houter, haccessed⟩

/-- The variable of a procedure. -/
def sharedVariable : VarDecl :=
  let node (id : Nat) : NodeInfo := { id, line := 1 }
  { info := node 5, name := "V", type := some (.named { info := node 4, name := "Integer" }) }

/-- A procedure with `V` as the control variable of its loop. -/
def countingRoutine : CallableDecl :=
  let node (id : Nat) : NodeInfo := { id, line := 1 }
  let loop : Stmt :=
    .forTo (node 15) "V" (.int (node 12) 1 "1") (.int (node 13) 2 "2") false (.empty (node 14))
  { info := node 18, name := "Count", kind := .procedure,
    body := some ⟨node 17, [], .compound (node 16) [loop]⟩ }

/-- A procedure that declares the variable, with one procedure that sets it and one that counts. -/
def sharingRoutine : CallableDecl :=
  let node (id : Nat) : NodeInfo := { id, line := 1 }
  { info := node 21, name := "Outer", kind := .procedure,
    body := some ⟨node 20, [.var sharedVariable, .callable settingRoutine,
      .callable countingRoutine], .compound (node 19) []⟩ }

/-- A program with these procedures. -/
def sharingProgram : Goal :=
  let node (id : Nat) : NodeInfo := { id, line := 1 }
  .program { info := node 24, name := "P",
             block := ⟨node 23, [.callable sharingRoutine], .compound (node 22) []⟩ }

/-- What the program holds. -/
example : sharingProgram.nodes.length = 21 := by decide +kernel

theorem separate_sharingProgram : Separate sharingProgram 24 :=
  .of_watched (by decide +kernel) (by decide +kernel) (by decide +kernel) (by decide +kernel)
    (by decide +kernel)

theorem nests_in_sharing {d : CallableDecl}
    (h : .callable d ∈ [Decl.callable settingRoutine, .callable countingRoutine]) :
    Nests sharingProgram [sharingRoutine] d :=
  .inner (.top (List.mem_singleton_self _)) rfl (List.mem_cons_of_mem _ h)

/-- The procedure that sets the variable needs it. -/
theorem analyze_exact_setting : Separate sharingProgram 24 ∧
    (∀ x ∈ sharingProgram.nodes, x.isIdent = false) ∧
    ∃ c, ofGoal {} ∅ sharingProgram 24 = (.ok (), c) ∧
      (∀ m ∈ sharingProgram.routines, m.owner.isEmpty = false → m.body.isSome = true →
        ∃ heading, c.notes.declOf m.info = some (.callable heading)) ∧
      Nests sharingProgram [sharingRoutine] settingRoutine ∧ [sharingRoutine] ≠ [] ∧
      ∃ vs, Captured c [sharingRoutine] settingRoutine vs ∧
        ((∃ n ∈ analyze c sharingProgram, n.routine = settingRoutine) ↔ vs ≠ []) ∧
        ∀ n ∈ analyze c sharingProgram, n.routine = settingRoutine →
          n.outer = [sharingRoutine] ∧ n.accessed = vs := by
  have hends : (ofGoal {} ∅ sharingProgram 24).1.isOk = true := by decide +kernel
  have hnames : ∀ x ∈ sharingProgram.nodes, x.isIdent = false := by decide +kernel
  have howners : ∀ m ∈ sharingProgram.routines, m.owner.isEmpty = true := by decide +kernel
  generalize hrun : ofGoal {} ∅ sharingProgram 24 = r at hends
  obtain ⟨_ | _, c⟩ := r
  · cases hends
  · have hmethods : ∀ m ∈ sharingProgram.routines, m.owner.isEmpty = false →
        m.body.isSome = true → ∃ heading, c.notes.declOf m.info = some (.callable heading) :=
      fun m hm howner => absurd (howners m hm) (Bool.eq_false_iff.mp howner)
    have hnests := nests_in_sharing List.mem_cons_self
    exact ⟨separate_sharingProgram, hnames, c, rfl, hmethods, hnests, List.cons_ne_nil _ _,
      analyze_exact separate_sharingProgram hnames hrun hmethods hnests (List.cons_ne_nil _ _)⟩

/-- The procedure that counts is not reported, though it uses the variable of the procedure around
it, and nothing is wrong with the program. -/
theorem control_variable_missed : ∃ c, ofGoal {} ∅ sharingProgram 24 = (.ok (), c) ∧
    c.isClean = true ∧ Nests sharingProgram [sharingRoutine] countingRoutine ∧
    sharingRoutine.Owns c.implicit (.var sharedVariable) ∧
    (∃ b i low high down body, countingRoutine.body = some b ∧
      .stmt (.forTo i sharedVariable.name low high down body) ∈ b.body.nodes) ∧
    ∀ n ∈ analyze c sharingProgram, n.routine ≠ countingRoutine := by
  have hends : endsWith (ofGoal {} ∅ sharingProgram 24) (fun c =>
      c.isClean && (analyze c sharingProgram).all (·.routine.name != "Count")) = true := by
    decide +kernel
  obtain ⟨c, hrun, hends⟩ := exists_of_endsWith hends
  obtain ⟨hclean, hall⟩ := Bool.and_eq_true_iff.mp hends
  refine ⟨c, hrun, hclean, nests_in_sharing (List.mem_cons_of_mem _ List.mem_cons_self),
    .inl ⟨_, rfl, List.mem_cons_self⟩, ⟨_, _, _, _, _, _, rfl, List.mem_of_getElem? (i := 1) rfl⟩, ?_⟩
  rintro n hn hroutine
  have hname := List.all_eq_true.mp hall n hn
  rw [hroutine] at hname
  cases hname

end Closure
end ObjectPascal
