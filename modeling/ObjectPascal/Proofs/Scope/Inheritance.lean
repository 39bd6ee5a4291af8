import ObjectPascal.Proofs.Scope.Loading

/-!
Members by their qualified and by their bare name. The search for a member goes through the
ancestors in the order in which they are named, and stops at the first type that has the member. The
frames of a loaded type are searched from the top, where the ancestors that are named last stand.
Both agree if there is one type only at which the search can stop, and if the members there can be
inherited; otherwise they need not.
-/

namespace ObjectPascal

theorem Member.decl_injective {m m' : Member} (h : m.decl = m'.decl) : m = m' := by
  cases m <;> cases m' <;> cases h <;> rfl

namespace Scopes

open Relation

variable {s : Scopes} {name : Text} {c : CompositeDecl}

/-! What the search finds in a hierarchy without circles. -/

/-- A type at which the search for a member stops. -/
def StopsAt (s : Scopes) (name : Text) (c b : CompositeDecl) (m : Member) : Prop :=
  ReflTransGen (s.GoesOn name) c b ∧ b.member? name = some m

/-- What a search in a type comes to: a member of the type itself or one that ancestors hand on, or
that there are no such members. -/
def Finds (s : Scopes) (name : Text) (c : CompositeDecl) : Option Member → Prop
  | some m => ∃ b, s.StopsAt name c b m ∧ (b = c ∨ m.visibility.isInheritable = true)
  | none => c.member? name = none ∧ ∀ b m, s.StopsAt name c b m → ¬m.visibility.isInheritable = true

/-- The same about the types of several names, of which only what they hand on counts. -/
def FindsAmong (s : Scopes) (name : Text) (names : List Text) : Option Member → Prop
  | some m => m.visibility.isInheritable = true ∧
      ∃ h ∈ names, ∃ a b, s.fetchComposite h = .ok a ∧ s.StopsAt name a b m
  | none => ∀ h ∈ names, ∀ a b m, s.fetchComposite h = .ok a → s.StopsAt name a b m →
      ¬m.visibility.isInheritable = true

theorem FindsAmong.inherited {found : Option Member} (hmember : c.member? name = none)
    (h : s.FindsAmong name c.ancestors found) : s.Finds name c found := by
  cases found with
  | some m =>
    obtain ⟨hm, g, hg, a, b, hfetch, hab, hb⟩ := h
    exact ⟨b, ⟨.head ⟨hmember, g, hg, hfetch⟩ hab, hb⟩, .inr hm⟩
  | none =>
    refine ⟨hmember, fun b m ⟨hcb, hb⟩ => ?_⟩
    obtain rfl | ⟨a, ⟨-, g, hg, hfetch⟩, hab⟩ := hcb.cases_head
    · cases hmember.symm.trans hb
    · exact h g hg a b m hfetch ⟨hab, hb⟩

/-- What a type hands on to its descendants. -/
theorem Finds.among {h : Text} {a : CompositeDecl} {found : Option Member}
    (ha : s.fetchComposite h = .ok a) (hfound : s.Finds name a found) :
    s.FindsAmong name [h] (found.filter (·.visibility.isInheritable)) := by
  have hpassed (hno : ∀ b m, s.StopsAt name a b m → ¬m.visibility.isInheritable = true) :
      s.FindsAmong name [h] none := by
    intro g hg a' b m ha'
    obtain rfl := List.mem_singleton.1 hg
    obtain rfl := Except.ok.inj (ha.symm.trans ha')
    exact hno b m
  cases found with
  | none => exact hpassed hfound.2
  | some m =>
    obtain ⟨b, hb, hown⟩ := hfound
    rw [Option.filter_some]
    split
    · rename_i hm
      exact ⟨hm, h, .head _, a, b, ha, hb⟩
    · rename_i hm
      -- the type has the member itself, so that the search does not go beyond it
      obtain rfl := hown.resolve_right hm
      refine hpassed fun b' m' ⟨hab', hb'⟩ => ?_
      obtain rfl | ⟨_, ⟨hnone, -⟩, -⟩ := hab'.cases_head
      · obtain rfl := Option.some.inj (hb.2.symm.trans hb')
        exact hm
      · cases hnone.symm.trans hb.2

/-- From any way that the search can come to a type, it ends without an error. -/
def Answers (s : Scopes) (name : Text) (path : List Text) (a : CompositeDecl) : Prop :=
  ∀ way ⊆ path, ∃ n found after, s.memberWithin name n way a = some (.ok (found, after)) ∧
    after ⊆ way ∧ s.Finds name a found

theorem memberNamed_answers {path way : List Text} {h : Text} {a : CompositeDecl}
    (hway : way ⊆ path) (hfree : h.lower ∉ path) (ha : s.fetchComposite h = .ok a)
    (hanswers : s.Answers name path a) :
    ∃ n found after,
      s.memberNamed (s.memberWithin name n) way h = some (.ok (found, after)) ∧
        after ⊆ way ∧ s.FindsAmong name [h] found := by
  obtain ⟨n, found, after, hrun, hafter, hfound⟩ := hanswers way hway
  have hnamed :=
    memberNamed_of_fetch (f := s.memberWithin name n) (fun hmem => hfree (hway hmem)) ha
  rw [hrun] at hnamed
  exact ⟨n, _, after, hnamed, hafter, hfound.among ha⟩

theorem memberAmong_answers {path way names : List Text} (hway : way ⊆ path)
    (hnames : ∀ h ∈ names, h.lower ∉ path ∧ ∃ a, s.fetchComposite h = .ok a ∧
      s.Answers name path a) :
    ∃ n found after,
      s.memberAmong (s.memberWithin name n) way names = some (.ok (found, after)) ∧
        after ⊆ way ∧ s.FindsAmong name names found := by
  induction names generalizing way with
  | nil => exact ⟨0, none, way, rfl, fun _ h => h, nofun⟩
  | cons h names ih =>
    obtain ⟨hfree, a, ha, hanswers⟩ := hnames h (.head _)
    obtain ⟨n, found, after, hrun, hafter, hfound⟩ := memberNamed_answers hway hfree ha hanswers
    cases found with
    | some m =>
      refine ⟨n, some m, after, by rw [memberAmong, hrun], hafter, ?_⟩
      obtain ⟨hm, g, hg, hrest⟩ := hfound
      exact ⟨hm, g, List.mem_singleton.1 hg ▸ .head _, hrest⟩
    | none =>
      obtain ⟨k, found, after', hrun', hafter', hfound'⟩ :=
        ih (fun x hx => hway (hafter hx)) fun g hg => hnames g (.tail h hg)
      -- both searches give their answers with the larger number of steps
      have hfirst := memberNamed_mono (fun _ _ _ => memberWithin_mono (le_max_left n k)) hrun
      have hrest := memberAmong_mono (fun _ _ _ => memberWithin_mono (le_max_right n k)) hrun'
      refine ⟨max n k, found, after', ?_, fun x hx => hafter (hafter' hx), ?_⟩
      · rw [memberAmong, hfirst]
        exact hrest
      · cases found with
        | none =>
          intro g hg
          obtain rfl | hg := List.mem_cons.1 hg
          · exact hfound g (.head _)
          · exact hfound' g hg
        | some m =>
          obtain ⟨hm, g, hg, hrest⟩ := hfound'
          exact ⟨hm, g, .tail h hg, hrest⟩

/-- No type is its own ancestor, all names of ancestors are known, and those that are declared names
of types in the hierarchy denote these types. -/
structure Hierarchy (s : Scopes) (c : CompositeDecl) : Prop where
  acc : Acc (fun a b => s.Ascends b a) c
  known : ∀ a, ReflTransGen s.Ascends c a → ∀ h ∈ a.ancestors, ∃ b, s.fetchComposite h = .ok b
  named : ∀ a b, ReflTransGen s.Ascends c a → ReflTransGen s.Ascends c b →
    ∀ h ∈ a.ancestors, h.lower = b.name.lower → s.fetchComposite h = .ok b

theorem Hierarchy.acc_reached (hc : s.Hierarchy c) {x : CompositeDecl}
    (hx : ReflTransGen s.Ascends c x) : Acc (fun a b => s.Ascends b a) x := by
  induction hx with
  | refl => exact hc.acc
  | tail _ hstep ih => exact ih.inv hstep

/-- The search does not come back to a type. -/
theorem Hierarchy.not_circle (hc : s.Hierarchy c) {x : CompositeDecl}
    (hx : ReflTransGen s.Ascends c x) : ¬TransGen (s.GoesOn name) x x := by
  apply not_circle_of_acc
  exact Subrelation.accessible (fun h => h.ascends) (hc.acc_reached hx)

/-- An ancestor is not on the way that leads to it. -/
theorem Hierarchy.not_mem_way (hc : s.Hierarchy c) {path : List Text} {x a : CompositeDecl}
    {h : Text} (hx : ReflTransGen s.Ascends c x) (hh : h ∈ x.ancestors)
    (ha : s.fetchComposite h = .ok a) (hway : s.OnWay name c path a) : h.lower ∉ path := by
  intro hmem
  obtain ⟨b, hb, hname, hba⟩ := hway _ hmem
  have hfetch : s.fetchComposite h = .ok b := hc.named x b hx hb h hh hname.symm
  obtain rfl := Except.ok.inj (hfetch.symm.trans ha)
  exact hc.not_circle hb hba

theorem memberWithin_answers (hc : s.Hierarchy c) {x : CompositeDecl}
    (hx : ReflTransGen s.Ascends c x) (path : List Text) (hway : s.OnWay name c path x) :
    s.Answers name path x := by
  have hacc := hc.acc_reached hx
  induction hacc generalizing path with
  | intro x hacc ih =>
    intro way hsub
    cases hm : x.member? name with
    | some m =>
      refine ⟨1, some m, way, ?_, fun _ h => h, x, ⟨.refl, hm⟩, .inl rfl⟩
      rw [memberWithin, hm]
    | none =>
      have hsub' : way.insert x.name.lower ⊆ path.insert x.name.lower := fun n hn =>
        List.mem_insert_iff.2 ((List.mem_insert_iff.1 hn).imp_right fun h => hsub h)
      have hnames : ∀ h ∈ x.ancestors, h.lower ∉ path.insert x.name.lower ∧
          ∃ a, s.fetchComposite h = .ok a ∧ s.Answers name (path.insert x.name.lower) a := by
        intro h hh
        obtain ⟨a, ha⟩ := hc.known x hx h hh
        have hgoes : s.GoesOn name x a := ⟨hm, h, hh, ha⟩
        have hwaya := hway.step hx hgoes
        exact ⟨hc.not_mem_way hx hh ha hwaya, a, ha,
          ih a hgoes.ascends (hx.tail hgoes.ascends) _ hwaya⟩
      obtain ⟨n, found, after, hrun, hafter, hfound⟩ := memberAmong_answers hsub' hnames
      refine ⟨n + 1, found, stepBack after x, ?_, ?_, hfound.inherited hm⟩
      · rw [memberWithin, hm]
        simp only [hrun, Option.map_some]
        rfl
      · intro k hk
        obtain ⟨hk, hne⟩ := List.mem_filter.1 hk
        obtain rfl | hk := List.mem_insert_iff.1 (hafter hk)
        · simp at hne
        · exact hk

/-- In such a hierarchy the search for a member comes to an answer. -/
theorem fetchMember_finds (name : Text) {type : Text} (hfetch : s.fetchComposite type = .ok c)
    (hc : s.Hierarchy c) : ∃ found, s.Finds name c found ∧ (s.fetchMember type name).run = some
      (match found with
      | some m => .ok m
      | none => .error (s.error .memberNotFound (type ++ Text.ofString "." ++ name))) := by
  obtain ⟨n, found, after, hrun, -, hfound⟩ :=
    memberWithin_answers hc .refl [] (s.noneOnWay name c) [] fun _ h => h
  have hbound := memberWithin_searchBound ⟨.nil, nofun⟩ (mem_composites_of_fetch hfetch) hrun
  refine ⟨found, hfound, ?_⟩
  rw [fetchMember_of_ok hfetch, hbound]
  cases found <;> rfl

/-! What the frames declare. -/

/-- The two ways to compare names agree about the members of a type. -/
def Folds (name : Text) (a : CompositeDecl) : Prop :=
  ∀ m ∈ a.members, m.name.sameFold name = (m.name.lower == name.lower)

section Frames

variable {a : CompositeDecl} {m : Member}

/-- They do for ASCII names. -/
theorem folds_of_isAscii (hname : name.isAscii = true)
    (hmembers : ∀ m ∈ a.members, m.name.isAscii = true) : Folds name a := by
  intro m hm
  have hlower (t : Text) (ht : t.isAscii = true) : t.lower.bytes = t.bytes.map Text.asciiLower := by
    unfold Text.lower
    rw [if_pos ht]
  rw [Text.sameFold, hname, hmembers m hm, Bool.and_self, if_pos rfl, Bool.eq_iff_iff, beq_iff_eq,
    beq_iff_eq, ← hlower name hname, ← hlower m.name (hmembers m hm)]
  exact ⟨congrArg Text.mk, congrArg Text.bytes⟩

theorem member?_eq_find? (ha : Folds name a) :
    a.member? name = a.members.find? (·.name.lower == name.lower) := by
  unfold CompositeDecl.member? Folds at *
  generalize a.members = members at ha ⊢
  induction members with
  | nil => rfl
  | cons m members ih =>
    rw [List.find?_cons, List.find?_cons, ha m (.head _), ih fun k hk => ha k (.tail m hk)]

/-- The frame of a type that is searched itself declares what the search finds. -/
theorem find?_own_frame (ha : Folds name a) :
    (a.frame false).find? name = (a.member? name).map (·.decl) := by
  rw [CompositeDecl.find?_frame, member?_eq_find? ha]
  simp

/-- The frame of an ancestor declares a name if some member of this name is inheritable. -/
theorem isSome_find?_frame (ha : Folds name a) :
    ((a.frame true).find? name).isSome = true ↔
      ∃ m ∈ a.members, m.visibility.isInheritable = true ∧ m.name.sameFold name = true := by
  rw [CompositeDecl.find?_frame, Option.isSome_map, List.find?_isSome]
  constructor
  · rintro ⟨m, hm, hname⟩
    obtain ⟨hm, hvisible⟩ := List.mem_filter.1 hm
    exact ⟨m, hm, by simpa using hvisible, (ha m hm).trans hname⟩
  · rintro ⟨m, hm, hvisible, hname⟩
    exact ⟨m, List.mem_filter.2 ⟨hm, by simpa using hvisible⟩, (ha m hm).symm.trans hname⟩

theorem find?_frame_of_member (ha : Folds name a) (hm : a.member? name = some m)
    (hvisible : m.visibility.isInheritable = true) :
    (a.frame true).find? name = some m.decl := by
  rw [member?_eq_find? ha, List.find?_eq_some_iff_append] at hm
  obtain ⟨hname, before, after, hmembers, hbefore⟩ := hm
  rw [CompositeDecl.find?_frame, hmembers, List.filter_append, List.filter_cons_of_pos (by simpa),
    List.find?_append, List.find?_cons_of_pos (by simpa using hname)]
  -- no member before this one has the name, be it inheritable or not
  have hnone : (before.filter fun m => !true || m.visibility.isInheritable).find?
      (·.name.lower == name.lower) = none :=
    List.find?_eq_none.2 fun k hk => by simpa using hbefore k (List.mem_of_mem_filter hk)
  rw [hnone]
  rfl

end Frames

/-! Where searches stop. -/

/-- On the way to a type the search has stopped somewhere, or it goes on from there. -/
theorem stopsAt_or_goesOn (name : Text) {x : CompositeDecl} (hx : ReflTransGen s.Ascends c x) :
    (∃ b m, s.StopsAt name c b m ∧ ReflTransGen s.Ascends b x) ∨
      (ReflTransGen (s.GoesOn name) c x ∧ x.member? name = none) := by
  have hend {x : CompositeDecl} (hx : ReflTransGen (s.GoesOn name) c x) :
      (∃ b m, s.StopsAt name c b m ∧ ReflTransGen s.Ascends b x) ∨
        (ReflTransGen (s.GoesOn name) c x ∧ x.member? name = none) := by
    cases hm : x.member? name with
    | some m => exact .inl ⟨x, m, ⟨hx, hm⟩, .refl⟩
    | none => exact .inr ⟨hx, rfl⟩
  induction hx with
  | refl => exact hend .refl
  | tail _ hstep ih =>
    obtain ⟨b, m, hb, hbx⟩ | ⟨hgoes, hnone⟩ := ih
    · exact .inl ⟨b, m, hb, hbx.tail hstep⟩
    · exact hend (hgoes.tail ⟨hnone, hstep⟩)

/-- If a type has the member, then the search stops there or before. -/
theorem exists_stopsAt {x : CompositeDecl} {m : Member} (hx : ReflTransGen s.Ascends c x)
    (hm : x.member? name = some m) : ∃ b m', s.StopsAt name c b m' := by
  obtain ⟨b, m', hb, -⟩ | ⟨-, hnone⟩ := stopsAt_or_goesOn name hx
  · exact ⟨b, m', hb⟩
  · cases hm.symm.trans hnone

theorem StopsAt.reached {b : CompositeDecl} {m : Member} (h : s.StopsAt name c b m) :
    ReflTransGen s.Ascends c b := ReflTransGen.mono (fun _ _ => GoesOn.ascends) _ _ h.1

section Agreement

variable {line : List (Text × CompositeDecl)} {b : CompositeDecl} {m : Member}

/-- The type at which the search stops is the uppermost of those whose frames declare the name, if
the search can stop nowhere else. -/
theorem uppermost_of_unique (hline : s.Lineage c line) {key : Text} (hmem : (key, b) ∈ line)
    (hunique : ∀ b' m', s.StopsAt name c b' m' → b' = b)
    {pre rest : List (Text × CompositeDecl)} {e : Text × CompositeDecl}
    (hsplit : line = pre ++ e :: rest) (hpre : (key, b) ∉ pre) {m' : Member}
    (he : e.2.member? name = some m') : e.2 = b := by
  by_contra hne
  subst hsplit
  obtain ⟨x, h, hx, hh, hkey, hfetch⟩ := hline.origin (List.mem_append_right _ (.head _))
  -- the type that led to the frame comes from the one where the search stops
  have hbx : ReflTransGen s.Ascends b x := by
    obtain ⟨b', k, hb', hbx⟩ | ⟨hgoes, hnone⟩ := stopsAt_or_goesOn name hx
    · rw [← hunique b' k hb']
      exact hbx
    · exact absurd (hunique e.2 m' ⟨hgoes.tail ⟨hnone, h, hh, hfetch⟩, he⟩) hne
  have hrest : (key, b) ∈ rest := by
    obtain hmem | hmem := List.mem_append.1 hmem
    · exact absurd hmem hpre
    · obtain rfl | hmem := List.mem_cons.1 hmem
      · exact absurd rfl hne
      · exact hmem
  have hupper : s.Lineage c (e :: rest) := hline.suffix
  obtain ⟨before, after, rfl⟩ := List.append_of_mem hrest
  have hlower : s.Lineage c ((key, b) :: after) := by
    rw [← List.cons_append] at hupper
    exact hupper.suffix
  have hbelow : h.lower ∈ after.map (·.1) := hlower.descends hbx h hh
  -- so the name of the frame stands below once more
  apply (List.nodup_cons.1 hupper.nodup).1
  rw [hkey] at hbelow
  rw [List.map_append, List.map_cons]
  exact List.mem_append_right _ (.tail _ hbelow)

/-- The frames that are pushed for a type and for its ancestors. -/
def heritageFrames (c : CompositeDecl) (line : List (Text × CompositeDecl)) : List Frame :=
  c.frame false :: line.map (·.2.frame true)

variable (hline : s.Lineage c line) (hclosed : ∀ h ∈ c.ancestors, h.lower ∈ line.map (·.1))
  (hfolds : ∀ a, ReflTransGen s.Ascends c a → Folds name a)

include hline

theorem reached_of_mem {key : Text} (hmem : (key, b) ∈ line) : TransGen s.Ascends c b := by
  obtain ⟨x, h, hx, hh, -, hfetch⟩ := hline.origin hmem
  exact TransGen.tail' hx ⟨h, hh, hfetch⟩

include hclosed hfolds

/-- What the search finds is declared. -/
theorem declared_of_finds (h : s.Finds name c (some m)) :
    ∃ f ∈ heritageFrames c line, (f.find? name).isSome = true := by
  obtain ⟨b, hb, hown⟩ := h
  obtain rfl | ⟨key, hmem⟩ := hline.mem_of_reached hclosed hb.reached
  · refine ⟨_, .head _, ?_⟩
    rw [find?_own_frame (hfolds b .refl), hb.2]
    rfl
  · obtain rfl | hvisible := hown
    · refine ⟨_, .head _, ?_⟩
      rw [find?_own_frame (hfolds b .refl), hb.2]
      rfl
    · refine ⟨_, .tail _ (List.mem_map_of_mem hmem), ?_⟩
      rw [isSome_find?_frame (hfolds b hb.reached)]
      have hname : m.name.sameFold name = true := by
        simpa using List.find?_some hb.2
      exact ⟨m, List.mem_of_find?_eq_some hb.2, hvisible, hname⟩

variable (hvisible : ∀ a m, TransGen s.Ascends c a → a.member? name = some m →
  m.visibility.isInheritable = true)

include hvisible

omit hclosed in
/-- If nothing is found, nothing is declared. -/
theorem not_declared_of_finds (h : s.Finds name c none) :
    ∀ f ∈ heritageFrames c line, f.find? name = none := by
  obtain ⟨hnone, hno⟩ := h
  intro f hf
  obtain rfl | hf := List.mem_cons.1 hf
  · rw [find?_own_frame (hfolds c .refl), hnone]
    rfl
  · obtain ⟨⟨key, a⟩, hmem, rfl⟩ := List.mem_map.1 hf
    have ha := reached_of_mem hline hmem
    rw [← Option.not_isSome_iff_eq_none]
    intro hsome
    obtain ⟨k, hk, -, hname⟩ := (isSome_find?_frame (hfolds a ha.to_reflTransGen)).1 hsome
    -- the first member of this name lets the search stop somewhere, above the type itself
    obtain ⟨m, hm⟩ : ∃ m, a.member? name = some m :=
      Option.isSome_iff_exists.1 (List.find?_isSome.2 ⟨k, hk, hname⟩)
    obtain ⟨b, m', hb⟩ := exists_stopsAt ha.to_reflTransGen hm
    obtain heq | hcb := reflTransGen_iff_eq_or_transGen.1 hb.reached
    · cases hnone.symm.trans (heq ▸ hb.2)
    · exact hno b m' hb (hvisible b m' hcb hb.2)

/-- What the search finds is found on the stack, if the search can stop at one type only. -/
theorem lookup?_of_finds (hunique : ∀ b b' m m', s.StopsAt name c b m → s.StopsAt name c b' m' →
      b = b') (h : s.Finds name c (some m)) :
    ∃ i, s.depth ≤ i ∧
      (s.withInner (heritageFrames c line ++ s.inner)).lookup? name = some (m.decl, i) := by
  obtain ⟨b, hb, -⟩ := h
  cases hc : c.member? name with
  | some m' =>
    -- the type has the member itself, and its frame is on top
    obtain rfl := hunique c b m' m ⟨.refl, hc⟩ hb
    obtain rfl := Option.some.inj (hc.symm.trans hb.2)
    have hinner : (s.withInner (heritageFrames c line ++ s.inner)).inner =
        [] ++ c.frame false :: (line.map (·.2.frame true) ++ s.inner) := rfl
    refine ⟨_, ?_, lookup?_of_inner hinner nofun ?_⟩
    · unfold depth
      simp
    · rw [find?_own_frame (hfolds c .refl), hc]
      rfl
  | none =>
    have hcb : TransGen s.Ascends c b := by
      obtain heq | hcb := reflTransGen_iff_eq_or_transGen.1 hb.reached
      · cases hc.symm.trans (heq ▸ hb.2)
      · exact hcb
    have hdeclares : (b.frame true).find? name = some m.decl :=
      find?_frame_of_member (hfolds b hb.reached) hb.2 (hvisible b m hcb hb.2)
    obtain rfl | ⟨key, hmem⟩ := hline.mem_of_reached hclosed hb.reached
    · cases hc.symm.trans hb.2
    -- the uppermost frame of an ancestor that declares the name
    have hsome : (line.find? fun e => ((e.2.frame true).find? name).isSome).isSome = true :=
      List.find?_isSome.2 ⟨(key, b), hmem, by rw [hdeclares]; rfl⟩
    obtain ⟨e, he⟩ := Option.isSome_iff_exists.1 hsome
    obtain ⟨hdeclared, pre, rest, hsplit, hpre⟩ := List.find?_eq_some_iff_append.1 he
    have hnot : (key, b) ∉ pre := by
      intro hmem
      have hno := hpre _ hmem
      rw [hdeclares] at hno
      cases hno
    have hheir : e.2 = b := by
      have hreach : ReflTransGen s.Ascends c e.2 :=
        (reached_of_mem hline (hsplit ▸ List.mem_append_right _ (.head _))).to_reflTransGen
      obtain ⟨k, hk, -, hname⟩ := (isSome_find?_frame (hfolds e.2 hreach)).1 hdeclared
      obtain ⟨m', hm'⟩ : ∃ m', e.2.member? name = some m' :=
        Option.isSome_iff_exists.1 (List.find?_isSome.2 ⟨k, hk, hname⟩)
      exact uppermost_of_unique hline hmem (fun b' m' hb' => hunique b' b m' m hb' hb) hsplit hnot
        hm'
    have hinner : (s.withInner (heritageFrames c line ++ s.inner)).inner =
        (c.frame false :: pre.map (·.2.frame true)) ++
          e.2.frame true :: (rest.map (·.2.frame true) ++ s.inner) := by
      rw [withInner_inner, heritageFrames, hsplit]
      simp
    refine ⟨_, ?_, lookup?_of_inner hinner ?_ (hheir ▸ hdeclares)⟩
    · unfold depth
      simp
    · intro f hf
      obtain rfl | hf := List.mem_cons.1 hf
      · rw [find?_own_frame (hfolds c .refl), hc]
        rfl
      · obtain ⟨e', he', rfl⟩ := List.mem_map.1 hf
        simpa using hpre e' he'

end Agreement

/-- Both ways to a member agree. If a type can be loaded, the declared names of types in its
hierarchy denote these types, and the name is compared in the same way on both sides, then the
search finds a member or reports that there is none, and what it finds is declared in some frame. If
moreover no ancestor keeps its first member of the name to itself, then nothing is found only if no
frame declares the name. And if the search can stop at one type only, then the stack leads to just
the member that the search finds. -/
theorem fetchMember_agrees {type name : Text} {t : Scopes} {k : Nat}
    (hfetch : s.fetchComposite type = .ok c) (hload : s.loadHeritage type = .ok (t, k))
    (hnamed : ∀ a b, ReflTransGen s.Ascends c a → ReflTransGen s.Ascends c b →
      ∀ h ∈ a.ancestors, h.lower = b.name.lower → s.fetchComposite h = .ok b)
    (hfolds : ∀ a, ReflTransGen s.Ascends c a → Folds name a) :
    ((∃ m, (s.fetchMember type name).run = some (.ok m)) ∨ (s.fetchMember type name).run =
      some (.error (s.error .memberNotFound (type ++ Text.ofString "." ++ name)))) ∧
    (∀ m, (s.fetchMember type name).run = some (.ok m) →
      ∃ f ∈ t.inner.take (k + 1), (f.find? name).isSome = true) ∧
    ((∀ a m, TransGen s.Ascends c a → a.member? name = some m →
        m.visibility.isInheritable = true) →
      ((s.fetchMember type name).run =
          some (.error (s.error .memberNotFound (type ++ Text.ofString "." ++ name))) ↔
        ∀ f ∈ t.inner.take (k + 1), f.find? name = none) ∧
      ((∀ b b' m m', s.StopsAt name c b m → s.StopsAt name c b' m' → b = b') →
        ∀ m, (s.fetchMember type name).run = some (.ok m) ↔
          ∃ i, s.depth ≤ i ∧ t.lookup? name = some (m.decl, i))) := by
  obtain ⟨line, hline, hclosed, rfl, rfl⟩ := lineage_of_loadHeritage hfetch hload
  have hierarchy : s.Hierarchy c :=
    ⟨hline.acc_self hclosed, fun a ha h hh => hline.fetch_of_reached hclosed ha hh, hnamed⟩
  obtain ⟨found, hfinds, hrun⟩ := fetchMember_finds name hfetch hierarchy
  have hpushed : (s.withInner (c.frame false :: line.map (·.2.frame true) ++ s.inner)).inner.take
      (line.length + 1) = heritageFrames c line := by
    simp [heritageFrames]
  rw [hpushed, hrun]
  cases found with
  | some m =>
    obtain ⟨f, hf, hsome⟩ := declared_of_finds hline hclosed hfolds hfinds
    refine ⟨.inl ⟨m, rfl⟩, fun _ _ => ⟨f, hf, hsome⟩, fun hvisible => ⟨?_, ?_⟩⟩
    · constructor
      · intro h
        cases h
      · intro hnone
        rw [hnone f hf] at hsome
        cases hsome
    · intro hunique m'
      obtain ⟨i, hi, hlookup⟩ := lookup?_of_finds hline hclosed hfolds hvisible hunique hfinds
      constructor
      · intro h
        cases h
        exact ⟨i, hi, hlookup⟩
      · rintro ⟨j, -, hj⟩
        have hdecl := congrArg Prod.fst (Option.some.inj (hlookup.symm.trans hj))
        rw [Member.decl_injective hdecl]
  | none =>
    refine ⟨.inr rfl, nofun, fun hvisible => ?_⟩
    have hnone := not_declared_of_finds hline hfolds hvisible hfinds
    refine ⟨⟨fun _ => hnone, fun _ => rfl⟩, fun _ m => ?_⟩
    constructor
    · intro h
      cases h
    · rintro ⟨i, hi, hlookup⟩
      -- what is found on the stack is found below the frames that were pushed
      have hbelow := (lookup?_withInner_append hnone).symm.trans hlookup
      have hlt := lt_depth_of_lookup? hbelow
      omega

/-! Hierarchies where both ways agree, and others where they do not. -/

/-- A class with its members. -/
def classOf (line : Nat) (name : Text) (heritage : List Text) (members : List Member) :
    CompositeDecl where
  info := { id := line, line }
  name
  kind := .classType
  heritage
  members
  type := .classType { id := line + 100, line } heritage members false

/-- A field. -/
def fieldOf (line : Nat) (name : Text) (visibility : Visibility) : Member :=
  .var { info := { id := line + 200, line }, name, kind := .field, visibility }

/-- The scopes of a source that declares some classes. -/
def declaring (classes : List CompositeDecl) : Scopes :=
  (Scopes.initial {}).withInner
    [{ name := "global", entries := classes.map fun c => { name := c.name, decl := .composite c } }]

/-- A root, two classes that descend from it, and a class that descends from both. -/
def diamondClasses : List CompositeDecl :=
  [classOf 1 "TObject" [] [fieldOf 1 "Tag" .public_], classOf 2 "L" ["TObject"] [],
    classOf 3 "R" ["TObject"] [], classOf 4 "D" ["L", "R"] []]

/-- The scopes with these classes. -/
def diamond : Scopes := declaring diamondClasses

theorem diamond_reached {a : CompositeDecl}
    (ha : ReflTransGen diamond.Ascends (classOf 4 "D" ["L", "R"] []) a) : a ∈ diamondClasses := by
  induction ha with
  | refl => simp [diamondClasses]
  | @tail a b _ hab ih =>
    obtain ⟨h, hh, hfetch⟩ := hab
    have hroot : diamond.fetchComposite "TObject" =
      .ok (classOf 1 "TObject" [] [fieldOf 1 "Tag" .public_]) := rfl
    have hleft : diamond.fetchComposite "L" = .ok (classOf 2 "L" ["TObject"] []) := rfl
    have hright : diamond.fetchComposite "R" = .ok (classOf 3 "R" ["TObject"] []) := rfl
    have hknown : h ∈ (["TObject", "L", "R"] : List Text) := by
      simp only [diamondClasses, List.mem_cons, List.not_mem_nil, or_false] at ih
      obtain rfl | rfl | rfl | rfl := ih
      · exact absurd hh List.not_mem_nil
      · exact List.mem_singleton.1 hh ▸ .head _
      · exact List.mem_singleton.1 hh ▸ .head _
      · exact .tail _ hh
    simp only [List.mem_cons, List.not_mem_nil, or_false] at hknown
    obtain rfl | rfl | rfl := hknown
    · cases hroot.symm.trans hfetch
      simp [diamondClasses]
    · cases hleft.symm.trans hfetch
      simp [diamondClasses]
    · cases hright.symm.trans hfetch
      simp [diamondClasses]

theorem fetchMember_agrees_diamond : ∃ t i, diamond.loadHeritage "D" = .ok (t, 3) ∧
    (diamond.fetchMember "D" "tag").run = some (.ok (fieldOf 1 "Tag" .public_)) ∧
    diamond.depth ≤ i ∧ t.lookup? "tag" = some ((fieldOf 1 "Tag" .public_).decl, i) := by
  have hfetch : diamond.fetchComposite "D" = .ok (classOf 4 "D" ["L", "R"] []) := rfl
  have hnamed : ∀ b ∈ diamondClasses, diamond.fetchComposite b.name = .ok b := by
    intro b hb
    simp only [diamondClasses, List.mem_cons, List.not_mem_nil, or_false] at hb
    obtain rfl | rfl | rfl | rfl := hb <;> rfl
  have hfolds : ∀ a ∈ diamondClasses, Folds "tag" a := by
    intro a ha
    apply folds_of_isAscii (by decide)
    intro m hm
    simp only [diamondClasses, List.mem_cons, List.not_mem_nil, or_false] at ha
    obtain rfl | rfl | rfl | rfl := ha
    · rw [List.mem_singleton.1 hm]
      decide
    all_goals cases hm
  -- only the root has the member
  have honly : ∀ a ∈ diamondClasses, ∀ m, a.member? "tag" = some m →
      a = classOf 1 "TObject" [] [fieldOf 1 "Tag" .public_] ∧ m = fieldOf 1 "Tag" .public_ := by
    intro a ha m hm
    simp only [diamondClasses, List.mem_cons, List.not_mem_nil, or_false] at ha
    obtain rfl | rfl | rfl | rfl := ha
    · exact ⟨rfl, Option.some.inj (hm.symm.trans rfl)⟩
    all_goals cases hm
  obtain ⟨t, hload, hlookup⟩ : ∃ t, diamond.loadHeritage "D" = .ok (t, 3) ∧
      t.lookup? "tag" = some ((fieldOf 1 "Tag" .public_).decl, 2) := by
    obtain ⟨n, hn⟩ := Nat.exists_eq_add_of_le' diamond.four_le_heritageBound
    unfold loadHeritage
    rw [hfetch, hn]
    exact ⟨_, rfl, rfl⟩
  have hagrees := fetchMember_agrees hfetch hload
    (fun a b _ hb h _ hlower =>
      fetchComposite_congr hlower.symm (hnamed b (diamond_reached hb)))
    fun a ha => hfolds a (diamond_reached ha)
  have hvisible : ∀ a m, TransGen diamond.Ascends (classOf 4 "D" ["L", "R"] []) a →
      a.member? "tag" = some m → m.visibility.isInheritable = true := by
    intro a m ha hm
    rw [(honly a (diamond_reached ha.to_reflTransGen) m hm).2]
    rfl
  have hunique : ∀ b b' m m', diamond.StopsAt "tag" (classOf 4 "D" ["L", "R"] []) b m →
      diamond.StopsAt "tag" (classOf 4 "D" ["L", "R"] []) b' m' → b = b' := by
    intro b b' m m' hb hb'
    rw [(honly b (diamond_reached hb.reached) m hb.2).1,
      (honly b' (diamond_reached hb'.reached) m' hb'.2).1]
  have hdepth : diamond.depth ≤ 2 := Nat.le_refl 2
  exact ⟨t, 2, hload, ((hagrees.2.2 hvisible).2 hunique _).2 ⟨2, hdepth, hlookup⟩, hdepth, hlookup⟩

/-- A class whose ancestor keeps a field to itself that is named like one of its own ancestor. The
root of all classes is declared once more, so that the one of the language is not needed. -/
def hidden : Scopes := declaring
  [classOf 0 "TObject" [] [], classOf 1 "Base" [] [fieldOf 1 "Tag" .public_],
    classOf 2 "Mid" ["Base"] [fieldOf 2 "Tag" .strictPrivate], classOf 3 "D" ["Mid"] []]

/-- A class that inherits a field from the ancestor that it names first, and another one from the
ancestor that it names last. -/
def twofold : Scopes := declaring
  [classOf 0 "TObject" [] [], classOf 1 "Base" [] [fieldOf 1 "Tag" .public_],
    classOf 2 "A" ["Base"] [], classOf 3 "B" [] [fieldOf 3 "Tag" .public_],
    classOf 4 "D" ["A", "B"] []]

/-- A member that an ancestor keeps to itself stops the search, although a frame declares the name
for another type. And of two members the search finds the one of the ancestor named first, while the
stack leads to the other one. -/
theorem fetchMember_disagrees :
    ((hidden.fetchMember "D" "Tag").run = some (.error (hidden.error .memberNotFound "D.Tag")) ∧
      ∃ t, hidden.loadHeritage "D" = .ok (t, 3) ∧
        ∃ f ∈ t.inner.take 4, (f.find? "Tag").isSome = true) ∧
    (twofold.fetchMember "D" "Tag").run = some (.ok (fieldOf 1 "Tag" .public_)) ∧
      ∃ t d, twofold.loadHeritage "D" = .ok (t, 4) ∧ t.lookup? "Tag" = some (d, 5) ∧
        d ≠ (fieldOf 1 "Tag" .public_).decl := by
  have hhidden : hidden.fetchComposite "D" = .ok (classOf 3 "D" ["Mid"] []) := rfl
  have htwofold : twofold.fetchComposite "D" = .ok (classOf 4 "D" ["A", "B"] []) := rfl
  refine ⟨⟨?_, ?_⟩, ?_, ?_⟩
  · have hrun : hidden.memberWithin "Tag" 2 [] (classOf 3 "D" ["Mid"] []) = some (.ok (none, [])) :=
      rfl
    rw [fetchMember_of_ok hhidden,
      memberWithin_searchBound ⟨.nil, nofun⟩ (mem_composites_of_fetch hhidden) hrun]
    rfl
  · obtain ⟨n, hn⟩ := Nat.exists_eq_add_of_le' hidden.four_le_heritageBound
    unfold loadHeritage
    rw [hhidden, hn]
    exact ⟨_, rfl, (classOf 1 "Base" [] [fieldOf 1 "Tag" .public_]).frame true,
      .tail _ (.tail _ (.head _)), rfl⟩
  · have hrun : twofold.memberWithin "Tag" 3 [] (classOf 4 "D" ["A", "B"] []) =
        some (.ok (some (fieldOf 1 "Tag" .public_), [])) := rfl
    rw [fetchMember_of_ok htwofold,
      memberWithin_searchBound ⟨.nil, nofun⟩ (mem_composites_of_fetch htwofold) hrun]
    rfl
  · obtain ⟨n, hn⟩ := Nat.exists_eq_add_of_le' twofold.four_le_heritageBound
    unfold loadHeritage
    rw [htwofold, hn]
    refine ⟨_, (fieldOf 3 "Tag" .public_).decl, rfl, rfl, fun h => ?_⟩
    have hline : (3 : Nat) = 1 := congrArg (·.info.line) h
    cases hline

end Scopes
end ObjectPascal
