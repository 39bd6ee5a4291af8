import ObjectPascal.Proofs.Scope.Inheritance

/-!
The frames that loading a type pushes. They stand for the names that lead to its ancestors, one
frame for each name, and every ancestor stands above its own ones. An ancestor that goes by two
names has two frames; if there is none, then the frames are those of the ancestors themselves.
-/

namespace ObjectPascal.Scopes

open Relation

variable {s t : Scopes} {c a b : CompositeDecl} {key : Text} {k : Nat}
  {line : List (Text × CompositeDecl)}

/-- A name, in small letters, by which a type comes to one of its ancestors. -/
def LeadsTo (s : Scopes) (c : CompositeDecl) (key : Text) (a : CompositeDecl) : Prop :=
  ∃ x h, ReflTransGen s.Ascends c x ∧ h ∈ x.ancestors ∧ h.lower = key ∧ s.fetchComposite h = .ok a

theorem LeadsTo.ascends (h : s.LeadsTo c key a) : TransGen s.Ascends c a := by
  obtain ⟨x, g, hx, hg, -, hfetch⟩ := h
  exact .tail' hx ⟨g, hg, hfetch⟩

theorem exists_leadsTo_iff : (∃ key, s.LeadsTo c key a) ↔ TransGen s.Ascends c a := by
  constructor
  · rintro ⟨key, h⟩
    exact h.ascends
  · intro h
    obtain ⟨x, hx, g, hg, hfetch⟩ := TransGen.tail'_iff.1 h
    exact ⟨g.lower, x, g, hx, hg, rfl, hfetch⟩

/-- The frames of a type are those of the old stack, one for every name that leads to an ancestor,
and its own. -/
structure NamedHeritage (s t : Scopes) (c : CompositeDecl) (k : Nat)
    (line : List (Text × CompositeDecl)) : Prop where
  count : k = line.length
  frames : t = s.withInner (c.frame false :: line.map (·.2.frame true) ++ s.inner)
  /-- No name has two frames. -/
  nodup : (line.map (·.1)).Nodup
  /-- The frames are those of the names that lead to ancestors. -/
  named : ∀ key a, (key, a) ∈ line ↔ s.LeadsTo c key a
  /-- Below the frame of an ancestor there are those of all names that lead on from it. -/
  above : ∀ pre e rest, line = pre ++ e :: rest → ∀ key b, s.LeadsTo e.2 key b → (key, b) ∈ rest

/-- The frames of a type are those of the old stack, one for every ancestor, and its own. -/
structure ExactHeritage (s t : Scopes) (c : CompositeDecl) (k : Nat)
    (ancestors : List CompositeDecl) : Prop where
  count : k = ancestors.length
  frames : t = s.withInner (c.frame false :: ancestors.map (·.frame true) ++ s.inner)
  /-- No ancestor has two frames. -/
  nodup : ancestors.Nodup
  /-- The frames are those of the proper ancestors. -/
  proper : ∀ a, a ∈ ancestors ↔ TransGen s.Ascends c a
  /-- Below the frame of an ancestor there are those of all its own ancestors. -/
  above : ∀ pre a rest, ancestors = pre ++ a :: rest → ∀ b, TransGen s.Ascends a b → b ∈ rest

theorem Lineage.mem_iff (h : s.Lineage c line)
    (hc : ∀ g ∈ c.ancestors, g.lower ∈ line.map (·.1)) :
    (key, a) ∈ line ↔ s.LeadsTo c key a := by
  constructor
  · exact h.origin
  · rintro ⟨x, g, hx, hg, rfl, hfetch⟩
    have hkey : g.lower ∈ line.map (·.1) := by
      obtain rfl | ⟨key, hmem⟩ := h.mem_of_reached hc hx
      · exact hc g hg
      · exact h.closed hmem g hg
    exact h.mem_of_fetch hkey hfetch

theorem Lineage.mem_below {pre rest : List (Text × CompositeDecl)} {e : Text × CompositeDecl}
    (h : s.Lineage c (pre ++ e :: rest)) (hb : s.LeadsTo e.2 key b) : (key, b) ∈ rest := by
  obtain ⟨x, g, hx, hg, rfl, hfetch⟩ := hb
  have hupper : s.Lineage c (e :: rest) := h.suffix
  have hrest : s.Lineage c rest := suffix (List.singleton_append ▸ hupper)
  exact hrest.mem_of_fetch (hupper.descends hx g hg) hfetch

/-- What is loaded has no circles. -/
theorem Lineage.not_circle (h : s.Lineage c line)
    (hc : ∀ g ∈ c.ancestors, g.lower ∈ line.map (·.1)) {x : CompositeDecl}
    (hx : ReflTransGen s.Ascends c x) : ¬TransGen s.Ascends x x := by
  apply not_transGen_of_acc
  obtain rfl | ⟨key, hmem⟩ := h.mem_of_reached hc hx
  · exact h.acc_self hc
  · exact h.acc hmem

namespace NamedHeritage

variable (h : s.NamedHeritage t c k line)

include h

theorem mem_types_iff : a ∈ line.map (·.2) ↔ TransGen s.Ascends c a := by
  rw [← exists_leadsTo_iff]
  constructor
  · intro ha
    obtain ⟨⟨key, a⟩, hmem, rfl⟩ := List.mem_map.1 ha
    exact ⟨key, (h.named key a).1 hmem⟩
  · rintro ⟨key, hkey⟩
    exact List.mem_map.2 ⟨(key, a), (h.named key a).2 hkey, rfl⟩

/-- Types that go by one name each have one frame each. -/
theorem types_nodup
    (hone : ∀ a key key', s.LeadsTo c key a → s.LeadsTo c key' a → key = key') :
    (line.map (·.2)).Nodup := by
  refine (h.nodup.of_map _).map_on fun e he e' he' hsame => ?_
  have hkey : e.1 = e'.1 :=
    hone e.2 _ _ ((h.named _ _).1 he) ((h.named _ _).1 (hsame ▸ he'))
  exact Prod.ext hkey hsame

theorem exact (hone : ∀ a key key', s.LeadsTo c key a → s.LeadsTo c key' a → key = key') :
    s.ExactHeritage t c k (line.map (·.2)) where
  count := by rw [List.length_map, ← h.count]
  frames := by
    rw [h.frames, List.map_map]
    rfl
  nodup := h.types_nodup hone
  proper _ := h.mem_types_iff
  above pre a rest hsplit b hab := by
    obtain ⟨upper, lower, rfl, rfl, hlower⟩ := List.map_eq_append_iff.1 hsplit
    obtain ⟨e, lower, rfl, rfl, rfl⟩ := List.map_eq_cons_iff.1 hlower
    obtain ⟨key, hkey⟩ := exists_leadsTo_iff.2 hab
    exact List.mem_map.2 ⟨(key, b), h.above upper e lower rfl key b hkey, rfl⟩

/-- If there are as many frames as ancestors, then each ancestor goes by one name. -/
theorem one_name {ancestors : List CompositeDecl} (hexact : s.ExactHeritage t c k ancestors)
    {key' : Text} (ha : s.LeadsTo c key a) (ha' : s.LeadsTo c key' a) : key = key' := by
  have hsub : ancestors ⊆ line.map (·.2) := fun b hb =>
    h.mem_types_iff.2 ((hexact.proper b).1 hb)
  have hperm : ancestors.Perm (line.map (·.2)) := by
    apply (hexact.nodup.subperm hsub).perm_of_length_le
    rw [List.length_map, ← h.count, ← hexact.count]
  have hnodup : (line.map (·.2)).Nodup := hperm.nodup_iff.1 hexact.nodup
  have heq : (key, a) = (key', a) :=
    List.inj_on_of_nodup_map hnodup ((h.named _ _).2 ha) ((h.named _ _).2 ha') rfl
  exact congrArg Prod.fst heq

end NamedHeritage

/-- Whenever a type is loaded, it is not its own ancestor, and the new frames are one for each name
that leads to an ancestor, above those of all names that lead on from there, and one for the type.
They are one for each ancestor, above those of all its own ancestors, just if no ancestor goes by
two names. -/
theorem loadHeritage_frames {type : Text} (h : s.loadHeritage type = .ok (t, k)) :
    ∃ c line, s.fetchComposite type = .ok c ∧ ¬TransGen s.Ascends c c ∧
      s.NamedHeritage t c k line ∧
      ((∃ ancestors, s.ExactHeritage t c k ancestors) ↔
        ∀ a key key', s.LeadsTo c key a → s.LeadsTo c key' a → key = key') := by
  obtain ⟨c, hc, -⟩ := bind_eq_ok.1 h
  obtain ⟨line, hline, hclosed, hcount, hframes⟩ := lineage_of_loadHeritage hc h
  have hnamed : s.NamedHeritage t c k line :=
    { count := hcount
      frames := hframes
      nodup := hline.nodup
      named := fun _ _ => hline.mem_iff hclosed
      above := by
        rintro pre e rest rfl key b hb
        exact hline.mem_below hb }
  refine ⟨c, line, hc, hline.not_circle hclosed .refl, hnamed, ?_, fun hone => ?_⟩
  · rintro ⟨ancestors, hexact⟩ a key key' ha ha'
    exact hnamed.one_name hexact ha ha'
  · exact ⟨_, hnamed.exact hone⟩

theorem diamond_one_name {key : Text}
    (h : diamond.LeadsTo (classOf 4 "D" ["L", "R"] []) key a) : key = a.name.lower := by
  obtain ⟨x, g, hx, hg, rfl, hfetch⟩ := h
  have hclass := diamond_reached hx
  have hfetched {d : CompositeDecl} (hd : diamond.fetchComposite d.name = .ok d)
      (hname : g = d.name) : g.lower = a.name.lower := by
    subst hname
    obtain rfl := Except.ok.inj (hd.symm.trans hfetch)
    rfl
  have hroot : g = Text.ofString "TObject" → g.lower = a.name.lower :=
    hfetched (d := classOf 1 "TObject" [] [fieldOf 1 "Tag" .public_]) rfl
  simp only [diamondClasses, List.mem_cons, List.not_mem_nil, or_false] at hclass
  obtain rfl | rfl | rfl | rfl := hclass
  · cases hg
  · exact hroot (List.mem_singleton.1 hg)
  · exact hroot (List.mem_singleton.1 hg)
  · obtain hg | hg := List.mem_cons.1 hg
    · exact hfetched (d := classOf 2 "L" ["TObject"] []) rfl hg
    · exact hfetched (d := classOf 3 "R" ["TObject"] []) rfl (List.mem_singleton.1 hg)

/-- The root that both sides of a diamond descend from is loaded once. -/
theorem loadHeritage_frames_diamond : ∃ t ancestors, diamond.loadHeritage "D" = .ok (t, 3) ∧
    diamond.ExactHeritage t (classOf 4 "D" ["L", "R"] []) 3 ancestors := by
  obtain ⟨t, hload⟩ : ∃ t, diamond.loadHeritage "D" = .ok (t, 3) := by
    obtain ⟨n, hn⟩ := Nat.exists_eq_add_of_le' diamond.four_le_heritageBound
    have hfetch : diamond.fetchComposite "D" = .ok (classOf 4 "D" ["L", "R"] []) := rfl
    unfold loadHeritage
    rw [hfetch, hn]
    exact ⟨_, rfl⟩
  obtain ⟨c, line, hc, -, -, hexact⟩ := loadHeritage_frames hload
  obtain rfl : classOf 4 "D" ["L", "R"] [] = c := Except.ok.inj hc
  obtain ⟨ancestors, hancestors⟩ := hexact.2 fun a key key' h h' =>
    (diamond_one_name h).trans (diamond_one_name h').symm
  exact ⟨t, ancestors, hload, hancestors⟩

/-- A class that names the root of all classes twice, the second time by another name. -/
def byTwoNames : Scopes :=
  (Scopes.initial {}).withInner
    [{ name := "global", entries := [
      { name := "TObject", decl := .composite (classOf 1 "TObject" [] []) },
      { name := "TRoot", decl := .type (otherName 2 "TRoot" "TObject") },
      { name := "D", decl := .composite (classOf 3 "D" ["TObject", "TRoot"] []) }] }]

/-- Its only ancestor has two frames. -/
theorem loadHeritage_byTwoNames : ∃ t, byTwoNames.loadHeritage "D" = .ok (t, 2) ∧
    byTwoNames.fetchComposite "D" = .ok (classOf 3 "D" ["TObject", "TRoot"] []) ∧
    (∀ a, TransGen byTwoNames.Ascends (classOf 3 "D" ["TObject", "TRoot"] []) a ↔
      a = classOf 1 "TObject" [] []) ∧
    ¬∃ ancestors,
      byTwoNames.ExactHeritage t (classOf 3 "D" ["TObject", "TRoot"] []) 2 ancestors := by
  have hfetch : byTwoNames.fetchComposite "D" = .ok (classOf 3 "D" ["TObject", "TRoot"] []) := rfl
  have hroot : byTwoNames.fetchComposite "TObject" = .ok (classOf 1 "TObject" [] []) := rfl
  have halias : byTwoNames.fetchComposite "TRoot" = .ok (classOf 1 "TObject" [] []) := rfl
  obtain ⟨t, hload⟩ : ∃ t, byTwoNames.loadHeritage "D" = .ok (t, 2) := by
    obtain ⟨n, hn⟩ := Nat.exists_eq_add_of_le' byTwoNames.four_le_heritageBound
    unfold loadHeritage
    rw [hfetch, hn]
    exact ⟨_, rfl⟩
  have hstep (a : CompositeDecl) :
      byTwoNames.Ascends (classOf 3 "D" ["TObject", "TRoot"] []) a ↔
        a = classOf 1 "TObject" [] [] := by
    change (∃ h ∈ [Text.ofString "TObject", Text.ofString "TRoot"],
      byTwoNames.fetchComposite h = .ok a) ↔ _
    simp [hroot, halias, eq_comm]
  have honly (a : CompositeDecl) :
      TransGen byTwoNames.Ascends (classOf 3 "D" ["TObject", "TRoot"] []) a ↔
        a = classOf 1 "TObject" [] [] := by
    constructor
    · intro ha
      induction ha with
      | single ha => exact (hstep _).1 ha
      | tail _ hb ih =>
        subst ih
        obtain ⟨h, hh, -⟩ := hb
        cases hh
    · rintro rfl
      exact .single ((hstep _).2 rfl)
  refine ⟨t, hload, hfetch, honly, ?_⟩
  rintro ⟨ancestors, hexact⟩
  -- two frames for two ancestors, but there is only one
  have hall : ∀ a ∈ ancestors, a = classOf 1 "TObject" [] [] := fun a ha =>
    (honly a).1 ((hexact.proper a).1 ha)
  have hlength : ancestors = List.replicate 2 (classOf 1 "TObject" [] []) :=
    List.eq_replicate_iff.2 ⟨hexact.count.symm, hall⟩
  have hnodup := hexact.nodup
  rw [hlength] at hnodup
  simp at hnodup

end ObjectPascal.Scopes

/-!
When a type can be loaded. All names of ancestors must denote types, and no type may be its own
ancestor. The one thing that can still go wrong is that the frames of ancestors stand on the stack
while names of further ancestors are looked up: a member with such a name hides the type.
-/

namespace ObjectPascal.Scopes

open Relation

variable {s : Scopes} {c x a : CompositeDecl} {h type : Text}

/-- The names that the search for a type goes through: that of the type, and if this is an alias,
those that it stands for. -/
def namesWithin (s : Scopes) : Nat → Text → List Text
  | 0, _ => []
  | n + 1, name =>
    name :: match s.find? name with
      | some (.type ⟨_, _, .named t⟩) => s.namesWithin n t.name
      | _ => []

/-- The names that stand for the type of a name. -/
def namesOf (s : Scopes) (name : Text) : List Text := s.namesWithin aliasLimit name

/-- All names of ancestors denote types, and no type is its own ancestor. -/
structure SoundHeritage (s : Scopes) (c : CompositeDecl) : Prop where
  known : ∀ x, ReflTransGen s.Ascends c x → ∀ h ∈ x.ancestors, ∃ a, s.fetchComposite h = .ok a
  not_circle : ∀ x, ReflTransGen s.Ascends c x → ¬TransGen s.Ascends x x

/-- Among the names of ancestors, the declared name of a type denotes this type. -/
def NamedAsDeclared (s : Scopes) (c : CompositeDecl) : Prop :=
  ∀ x, ReflTransGen s.Ascends c x → ∀ h ∈ x.ancestors, h.lower = c.name.lower →
    s.fetchComposite h = .ok c

/-- Some ancestor hands on a member whose name stands for the type of a name. -/
def HiddenByMember (s : Scopes) (c : CompositeDecl) (h : Text) : Prop :=
  ∃ g ∈ s.namesOf h, ∃ a, TransGen s.Ascends c a ∧
    ∃ m ∈ a.members, m.visibility.isInheritable = true ∧ m.name.lower = g.lower

/-- A name of an ancestor that a member hides is reported as an invalid identifier. -/
def ReportsHidden (s : Scopes) (c : CompositeDecl) (e : ScopeError) : Prop :=
  e.fault = .invalidIdentifier ∧
    (∃ x, ReflTransGen s.Ascends c x ∧ e.name ∈ x.ancestors) ∧ s.HiddenByMember c e.name

/-! Looking up a name through the frames of ancestors. -/

section Above

variable {pushed : List Frame}

theorem find?_withInner_append (s : Scopes) (pushed : List Frame) (name : Text) :
    (s.withInner (pushed ++ s.inner)).find? name =
      (pushed.findSome? (·.find? name)).or (s.find? name) := by
  have hframes : (s.withInner (pushed ++ s.inner)).frames = pushed ++ s.frames := by
    simp [frames, withInner]
  rw [find?_eq_findSome?, find?_eq_findSome?, hframes, List.findSome?_append]

/-- A type that a name denotes below frames of members is found from above, or else one of the names
on the way to it is the name of a member. -/
theorem compositeWithin_above (hpushed : MemberFrames pushed) {first g : Text} {n : Nat}
    (ha : s.compositeWithin first n g = .ok a) :
    (s.withInner (pushed ++ s.inner)).compositeWithin first n g = .ok a ∨
      (s.withInner (pushed ++ s.inner)).compositeWithin first n g =
          .error ((s.withInner (pushed ++ s.inner)).error .invalidIdentifier first) ∧
        ∃ name ∈ s.namesWithin n g, ∃ f ∈ pushed, (f.find? name).isSome = true := by
  induction n generalizing g with
  | zero => cases ha
  | succ n ih =>
    rw [compositeWithin] at ha ⊢
    rw [find?_withInner_append]
    cases hfound : pushed.findSome? (·.find? g) with
    | some d =>
      -- a member is found in place of the type
      right
      obtain ⟨f, hf, hd⟩ := List.exists_of_findSome?_eq_some hfound
      obtain ⟨b, inherited, rfl⟩ := hpushed f hf
      refine ⟨?_, g, .head _, _, hf, by rw [hd]; rfl⟩
      rw [CompositeDecl.find?_frame] at hd
      obtain ⟨m, -, rfl⟩ := Option.map_eq_some_iff.1 hd
      cases m <;> rfl
    | none =>
      rw [Option.none_or]
      split at ha
      · cases ha
      · exact .inl ha
      · rename_i t hd
        obtain hok | ⟨herror, name, hname, hdeclared⟩ := ih ha
        · exact .inl hok
        · refine .inr ⟨herror, name, ?_, hdeclared⟩
          rw [namesWithin, hd]
          exact .tail _ hname
      · cases ha

theorem LoadedAs.fetch_or_hidden {l : Loaded} {line : List (Text × CompositeDecl)}
    (hl : s.LoadedAs c l line) (ha : s.fetchComposite h = .ok a) :
    l.scopes.fetchComposite h = .ok a ∨
      l.scopes.fetchComposite h = .error (l.scopes.error .invalidIdentifier h) ∧
        s.HiddenByMember c h := by
  have hpushed : MemberFrames (line.map (·.2.frame true)) := by
    intro f hf
    obtain ⟨e, -, rfl⟩ := List.mem_map.1 hf
    exact ⟨e.2, true, rfl⟩
  rw [hl.scopes]
  refine (compositeWithin_above hpushed ha).imp id fun ⟨herror, g, hg, f, hf, hdeclared⟩ => ?_
  refine ⟨herror, g, hg, ?_⟩
  obtain ⟨⟨key, b⟩, hmem, rfl⟩ := List.mem_map.1 hf
  rw [CompositeDecl.find?_frame, Option.isSome_map, List.find?_isSome] at hdeclared
  obtain ⟨m, hm, hname⟩ := hdeclared
  obtain ⟨hm, hvisible⟩ := List.mem_filter.1 hm
  exact ⟨b, reached_of_mem hl.lineage hmem, m, hm, by simpa using hvisible, beq_iff_eq.1 hname⟩

end Above

/-! Loading what can be loaded. -/

/-- The names on the way are those of types that lead to this one. -/
def OnLoadingWay (s : Scopes) (c : CompositeDecl) (path : List Text) (x : CompositeDecl) : Prop :=
  ∀ y, ReflTransGen s.Ascends c y → ∀ h ∈ y.ancestors, h.lower ∈ path →
    ∃ b, s.fetchComposite h = .ok b ∧ ReflTransGen s.Ascends b x

theorem OnLoadingWay.step {path : List Text} (hway : s.OnLoadingWay c path x)
    (hh : h ∈ x.ancestors) (ha : s.fetchComposite h = .ok a) :
    s.OnLoadingWay c (h.lower :: path) a := by
  intro y hy g hg hmem
  obtain hsame | hmem := List.mem_cons.1 hmem
  · exact ⟨a, fetchComposite_congr hsame.symm ha, .refl⟩
  · obtain ⟨b, hb, hbx⟩ := hway y hy g hg hmem
    exact ⟨b, hb, hbx.tail ⟨h, hh, ha⟩⟩

/-- Loading succeeds, or it reports a hidden name. -/
def LoadsOrReports (s : Scopes) (c : CompositeDecl) (r : Except ScopeError Loaded) : Prop :=
  (∃ l line, r = .ok l ∧ s.LoadedAs c l line) ∨ ∃ e, r = .error e ∧ s.ReportsHidden c e

theorem loadAncestor_loadsOrReports {n : Nat} {path : List Text} {l : Loaded}
    {line : List (Text × CompositeDecl)} (hsound : s.SoundHeritage c)
    (hx : ReflTransGen s.Ascends c x) (hh : h ∈ x.ancestors) (hway : s.OnLoadingWay c path x)
    (hl : s.LoadedAs c l line)
    (hload : ∀ a, s.fetchComposite h = .ok a →
      s.LoadsOrReports c (loadAncestors n (h.lower :: path) a l)) :
    s.LoadsOrReports c (loadAncestor (loadAncestors n) path l h) := by
  obtain ⟨a, ha⟩ := hsound.known x hx h hh
  have hxa : s.Ascends x a := ⟨h, hh, ha⟩
  have hfree : ¬path.contains h.lower = true := by
    intro hmem
    obtain ⟨b, hb, hbx⟩ := hway x hx h hh (List.contains_iff_mem.1 hmem)
    obtain rfl := Except.ok.inj (hb.symm.trans ha)
    exact hsound.not_circle b (hx.tail hxa) (.tail' hbx hxa)
  cases hrun : loadAncestor (loadAncestors n) path l h with
  | ok m =>
    have hadds := loadAncestor_adds
      (fun b hb j hj => loadAncestors_adds hl (hx.tail hb) hj) hl hx hh hrun
    obtain ⟨new, hm, -⟩ := hadds
    exact .inl ⟨m, _, rfl, hm⟩
  | error e =>
    refine .inr ⟨e, rfl, ?_⟩
    unfold loadAncestor at hrun
    rw [if_neg hfree] at hrun
    split at hrun
    · cases hrun
    obtain hok | ⟨herror, hhidden⟩ := hl.fetch_or_hidden ha
    · rw [hok] at hrun
      obtain ⟨j, line', hj, -⟩ | ⟨e', he', hreports⟩ := hload a ha
      · change (loadAncestors n (h.lower :: path) a l >>= _) = _ at hrun
        rw [hj] at hrun
        cases hrun
      · change (loadAncestors n (h.lower :: path) a l >>= _) = _ at hrun
        rw [he'] at hrun
        cases hrun
        exact hreports
    · rw [herror] at hrun
      cases hrun
      exact ⟨rfl, ⟨x, hx, hh⟩, hhidden⟩

/-- With enough steps the ancestors of a type are loaded, or a hidden name is reported. -/
theorem loadAncestors_loadsOrReports (hsound : s.SoundHeritage c)
    (hx : ReflTransGen s.Ascends c x) (hacc : Acc (fun x y => s.Ascends y x) x) :
    ∃ n, ∀ m ≥ n, ∀ path l line, s.LoadedAs c l line → s.OnLoadingWay c path x →
      s.LoadsOrReports c (loadAncestors m path x l) := by
  induction hacc with
  | intro x _ ih =>
    -- a number of steps that is enough for some of the ancestors
    have hloop (names : List Text) (hsub : ∀ h ∈ names, h ∈ x.ancestors) :
        ∃ n, ∀ m ≥ n, ∀ path l line, s.LoadedAs c l line → s.OnLoadingWay c path x →
          s.LoadsOrReports c (names.foldlM (loadAncestor (loadAncestors m) path) l) := by
      induction names with
      | nil => exact ⟨0, fun _ _ _ l line hl _ => .inl ⟨l, line, rfl, hl⟩⟩
      | cons h names ihnames =>
        have hh : h ∈ x.ancestors := hsub h (.head _)
        obtain ⟨a, ha⟩ := hsound.known x hx h hh
        have hxa : s.Ascends x a := ⟨h, hh, ha⟩
        obtain ⟨n, hn⟩ := ih a hxa (hx.tail hxa)
        obtain ⟨k, hk⟩ := ihnames fun g hg => hsub g (.tail h hg)
        refine ⟨max n k, fun m hm path l line hl hway => ?_⟩
        have hfirst : s.LoadsOrReports c (loadAncestor (loadAncestors m) path l h) := by
          refine loadAncestor_loadsOrReports hsound hx hh hway hl fun b hb => ?_
          obtain rfl := Except.ok.inj (ha.symm.trans hb)
          exact hn m (le_of_max_le_left hm) _ l line hl (hway.step hh ha)
        rw [List.foldlM_cons]
        obtain ⟨j, line', hj, hline'⟩ | ⟨e, he, hreports⟩ := hfirst
        · rw [hj]
          exact hk m (le_of_max_le_right hm) path j line' hline' hway
        · rw [he]
          exact .inr ⟨e, rfl, hreports⟩
    obtain ⟨n, hn⟩ := hloop x.ancestors fun _ hh => hh
    refine ⟨n + 1, fun m hm path l line hl hway => ?_⟩
    obtain ⟨m, rfl⟩ : ∃ k, m = k + 1 := Nat.exists_eq_add_of_le' (Nat.le_of_add_left_le hm)
    rw [loadAncestors_succ]
    exact hn m (Nat.le_of_add_le_add_right hm) path l line hl hway

theorem SoundHeritage.acc (hsound : s.SoundHeritage c) : Acc (fun x y => s.Ascends y x) c := by
  have hall (x : { x // ReflTransGen s.Ascends c x }) : Acc (fun x y => s.Ascends y x) x.1 := by
    induction x using (wellFounded_reached hsound.not_circle).induction with
    | _ x ih => exact Acc.intro _ fun y hy => ih ⟨y, x.2.tail hy⟩ hy
  exact hall ⟨c, .refl⟩

theorem Lineage.sound {line : List (Text × CompositeDecl)} (h : s.Lineage c line)
    (hc : ∀ g ∈ c.ancestors, g.lower ∈ line.map (·.1)) : s.SoundHeritage c where
  known _ hx _ hh := h.fetch_of_reached hc hx hh
  not_circle _ hx := h.not_circle hc hx

/-- A type can only be loaded if all names of ancestors denote types and no type is its own
ancestor. If this holds, and the declared name of the type is not the name of another ancestor, then
it is loaded, or a name of an ancestor is reported that is looked up through the name of a member
that some ancestor hands on. -/
theorem loadHeritage_iff_sound (hc : s.fetchComposite type = .ok c) :
    (∀ r, s.loadHeritage type = .ok r → s.SoundHeritage c) ∧
    (s.SoundHeritage c → s.NamedAsDeclared c →
      (∃ r, s.loadHeritage type = .ok r) ∨
        ∃ e, s.loadHeritage type = .error e ∧ s.ReportsHidden c e) := by
  refine ⟨fun ⟨t, k⟩ h => ?_, fun hsound hnamed => ?_⟩
  · obtain ⟨line, hline, hclosed, -, -⟩ := lineage_of_loadHeritage hc h
    exact hline.sound hclosed
  · obtain ⟨n, hn⟩ := loadAncestors_loadsOrReports hsound .refl hsound.acc
    have hstart : s.LoadedAs c { scopes := s } [] := ⟨rfl, rfl, rfl, .nil⟩
    have hway : s.OnLoadingWay c [c.name.lower] c := by
      intro y hy h hh hmem
      exact ⟨c, hnamed y hy h hh (List.mem_singleton.1 hmem), .refl⟩
    have hload := hn (max n s.heritageBound) (le_max_left _ _) _ _ _ hstart hway
    rw [loadAncestors_heritageBound hc (le_max_right _ _)] at hload
    unfold loadHeritage
    rw [hc]
    obtain ⟨l, -, hl, -⟩ | ⟨e, he, hreports⟩ := hload
    · left
      change ∃ r, (loadAncestors _ _ c _ >>= _) = _
      rw [hl]
      exact ⟨_, rfl⟩
    · right
      change ∃ e, (loadAncestors _ _ c _ >>= _) = _ ∧ _
      rw [he]
      exact ⟨e, rfl, hreports⟩

/-- Types that are declared on later lines than their ancestors have no circles. -/
theorem SoundHeritage.of_later {types : List CompositeDecl} (hc : c ∈ types)
    (hlater : ∀ x ∈ types, ∀ h ∈ x.ancestors, ∃ a ∈ types,
      s.fetchComposite h = .ok a ∧ a.info.line < x.info.line) : s.SoundHeritage c := by
  have hstep {x a : CompositeDecl} (hx : x ∈ types) (ha : s.Ascends x a) :
      a ∈ types ∧ a.info.line < x.info.line := by
    obtain ⟨h, hh, hfetch⟩ := ha
    obtain ⟨b, hb, hfetch', hline⟩ := hlater x hx h hh
    obtain rfl := Except.ok.inj (hfetch'.symm.trans hfetch)
    exact ⟨hb, hline⟩
  have hreached {x : CompositeDecl} (hx : ReflTransGen s.Ascends c x) : x ∈ types := by
    induction hx with
    | refl => exact hc
    | tail _ ha ih => exact (hstep ih ha).1
  have hline {x a : CompositeDecl} (hx : x ∈ types) (ha : TransGen s.Ascends x a) :
      a ∈ types ∧ a.info.line < x.info.line := by
    induction ha with
    | single ha => exact hstep hx ha
    | tail _ ha ih => exact ⟨(hstep ih.1 ha).1, (hstep ih.1 ha).2.trans ih.2⟩
  refine ⟨fun x hx h hh => ?_, fun x hx hcircle => ?_⟩
  · obtain ⟨a, -, hfetch, -⟩ := hlater x (hreached hx) h hh
    exact ⟨a, hfetch⟩
  · exact lt_irrefl _ (hline (hreached hx) hcircle).2

/-- Types that are found by their names have no circles if their ancestors are on earlier lines. -/
theorem SoundHeritage.of_names {types : List CompositeDecl} (hc : c ∈ types)
    (hfetch : ∀ a ∈ types, s.fetchComposite a.name = .ok a)
    (hlater : ∀ x ∈ types, ∀ h ∈ x.ancestors, ∃ a ∈ types,
      a.name = h ∧ a.info.line < x.info.line) : s.SoundHeritage c := by
  refine of_later hc fun x hx h hh => ?_
  obtain ⟨a, ha, rfl, hline⟩ := hlater x hx h hh
  exact ⟨a, ha, hfetch a ha, hline⟩

/-- Both sides of a diamond and its root denote types, no circle is among them, and none has the
name of the class below them. -/
theorem loadHeritage_iff_sound_diamond :
    diamond.fetchComposite "D" = .ok (classOf 4 "D" ["L", "R"] []) ∧
      diamond.SoundHeritage (classOf 4 "D" ["L", "R"] []) ∧
      diamond.NamedAsDeclared (classOf 4 "D" ["L", "R"] []) ∧
      ((∃ r, diamond.loadHeritage "D" = .ok r) ∨ ∃ e, diamond.loadHeritage "D" = .error e ∧
        diamond.ReportsHidden (classOf 4 "D" ["L", "R"] []) e) := by
  have hfetch : diamond.fetchComposite "D" = .ok (classOf 4 "D" ["L", "R"] []) := rfl
  have hsound : diamond.SoundHeritage (classOf 4 "D" ["L", "R"] []) := by
    have hmem : classOf 4 "D" ["L", "R"] [] ∈ diamondClasses := by simp [diamondClasses]
    refine .of_names hmem ?_ (by decide)
    simp only [diamondClasses, List.forall_mem_cons]
    exact ⟨rfl, rfl, rfl, rfl, List.forall_mem_nil _⟩
  have hnamed : diamond.NamedAsDeclared (classOf 4 "D" ["L", "R"] []) := by
    intro x hx h hh hlower
    have hclass := diamond_reached hx
    have hnone : ∀ y ∈ diamondClasses, ∀ g ∈ y.ancestors, g.lower ≠ Text.lower "D" := by decide
    exact absurd hlower (hnone x hclass h hh)
  exact ⟨hfetch, hsound, hnamed, (loadHeritage_iff_sound hfetch).2 hsound hnamed⟩

/-- A class that descends from two others, where the second one is named like a field of the
first. -/
def hiddenAncestorClasses : List CompositeDecl :=
  [classOf 1 "TObject" [] [], classOf 2 "Base" ["TObject"] [fieldOf 2 "Foo" .public_],
    classOf 3 "Foo" ["TObject"] [], classOf 4 "T" ["Base", "Foo"] []]

/-- The scopes with these classes. -/
def hiddenAncestor : Scopes := declaring hiddenAncestorClasses

/-- A class that descends from another one of the same name, and is itself known by another name. -/
def namesake : Scopes :=
  (Scopes.initial {}).withInner
    [{ name := "global", entries := [
      { name := "T", decl := .composite (classOf 1 "TObject" [] []) },
      { name := "Alias", decl := .composite (classOf 2 "T" ["T"] []) }] }]

/-- All ancestors are types without circles, but the second one cannot be loaded after the first:
its name is found to be that of a field. And the ancestor with the name of the type itself is taken
for a circle. -/
theorem loadHeritage_hidden :
    (hiddenAncestor.fetchComposite "T" = .ok (classOf 4 "T" ["Base", "Foo"] []) ∧
      hiddenAncestor.SoundHeritage (classOf 4 "T" ["Base", "Foo"] []) ∧
      hiddenAncestor.loadHeritage "T" = .error ⟨.invalidIdentifier, "Foo", "Base"⟩) ∧
    (namesake.fetchComposite "Alias" = .ok (classOf 2 "T" ["T"] []) ∧
      namesake.SoundHeritage (classOf 2 "T" ["T"] []) ∧
      namesake.loadHeritage "Alias" = .error ⟨.circularHeritage, "T", "global"⟩) := by
  have hT : hiddenAncestor.fetchComposite "T" = .ok (classOf 4 "T" ["Base", "Foo"] []) := rfl
  have hZ : namesake.fetchComposite "Alias" = .ok (classOf 2 "T" ["T"] []) := rfl
  refine ⟨⟨hT, ?_, ?_⟩, hZ, ?_, ?_⟩
  · have hmem : classOf 4 "T" ["Base", "Foo"] [] ∈ hiddenAncestorClasses := by
      simp [hiddenAncestorClasses]
    refine .of_names hmem ?_ (by decide)
    simp only [hiddenAncestorClasses, List.forall_mem_cons]
    exact ⟨rfl, rfl, rfl, rfl, nofun⟩
  · obtain ⟨n, hn⟩ := Nat.exists_eq_add_of_le' hiddenAncestor.four_le_heritageBound
    unfold loadHeritage
    rw [hT, hn]
    rfl
  · have hmem : classOf 2 "T" ["T"] [] ∈ [classOf 1 "TObject" [] [], classOf 2 "T" ["T"] []] :=
      .tail _ (.head _)
    apply SoundHeritage.of_later hmem
    intro x hx h hh
    obtain rfl | hx := List.mem_cons.1 hx
    · cases hh
    · obtain rfl := List.mem_singleton.1 hx
      obtain rfl := List.mem_singleton.1 hh
      exact ⟨_, .head _, rfl, by decide⟩
  · obtain ⟨n, hn⟩ := Nat.exists_eq_add_of_le' namesake.four_le_heritageBound
    unfold loadHeritage
    rw [hZ, hn]
    rfl

end ObjectPascal.Scopes
