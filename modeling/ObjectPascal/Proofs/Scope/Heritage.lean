import Mathlib.Data.Set.Finite.List
import Mathlib.Logic.Relation
import Mathlib.Order.WellFounded
import ObjectPascal.Proofs.Scope.Level
import ObjectPascal.Proofs.Scope.Search
import ObjectPascal.Scope.Builtin

/-!
The search for a member among ancestors. It stops at circles because it remembers the declared names
of the types on its way, but it compares them with the names that the types are reached by. So it
ends if no type comes back to itself through other names only, and then it reports every circle that
nothing else stops it from meeting. Otherwise it may go round for ever.
-/

namespace ObjectPascal.Scopes

open Relation

variable {s : Scopes} {name : Text}

/-- A type names another one among its ancestors. -/
def Ascends (s : Scopes) (c a : CompositeDecl) : Prop :=
  ∃ h ∈ c.ancestors, s.fetchComposite h = .ok a

/-- A type names another one among its ancestors, and not by its declared name. -/
def AscendsByAlias (s : Scopes) (c a : CompositeDecl) : Prop :=
  ∃ h ∈ c.ancestors, s.fetchComposite h = .ok a ∧ h.lower ≠ a.name.lower

/-- An ancestor of a type that does not have the member itself, so that the search goes on to it. -/
def GoesOn (s : Scopes) (name : Text) (c a : CompositeDecl) : Prop :=
  c.member? name = none ∧ s.Ascends c a

theorem GoesOn.ascends {c a : CompositeDecl} (h : s.GoesOn name c a) : s.Ascends c a := h.2

/-- What the outcome of a search tells about the type that was searched: where a member was found,
what went wrong, or that everything was searched, so that no way goes on for ever. -/
def Explains (s : Scopes) (name : Text) (c : CompositeDecl) : Found → Prop
  | .ok (some m, _) => (c.member? name = some m ∨ m.visibility.isInheritable = true) ∧
      ∃ a, ReflTransGen s.Ascends c a ∧ a.member? name = some m
  | .ok (none, _) => Acc (fun a b => s.GoesOn name b a) c
  | .error e => (∃ h, e = s.error .circularHeritage h) ∨
      ∃ a h, ReflTransGen s.Ascends c a ∧ h ∈ a.ancestors ∧ s.fetchComposite h = .error e

/-- The same about the types of several names. -/
def ExplainsAmong (s : Scopes) (name : Text) (names : List Text) : Found → Prop
  | .ok (some m, path) => m.visibility.isInheritable = true ∧
      ∃ h ∈ names, ∃ a, s.fetchComposite h = .ok a ∧ s.Explains name a (.ok (some m, path))
  | .ok (none, _) => ∀ h ∈ names, ∀ a, s.fetchComposite h = .ok a →
      Acc (fun a b => s.GoesOn name b a) a
  | .error e => (∃ h, e = s.error .circularHeritage h) ∨ ∃ h ∈ names,
      s.fetchComposite h = .error e ∨
        ∃ a, s.fetchComposite h = .ok a ∧ s.Explains name a (.error e)

/-- What is found out about the ancestors of a type tells about the type. -/
theorem ExplainsAmong.inherited {c : CompositeDecl} {r : Found}
    (h : s.ExplainsAmong name c.ancestors r) :
    s.Explains name c (r.map fun (found, path) => (found, stepBack path c)) := by
  rcases r with e | ⟨_ | m, path⟩
  · obtain hcircle | ⟨g, hg, hfetch | ⟨a, hfetch, ha⟩⟩ := h
    · exact .inl hcircle
    · exact .inr ⟨c, g, .refl, hg, hfetch⟩
    · refine ha.imp id fun ⟨b, f, hab, hf, herror⟩ => ?_
      exact ⟨b, f, .head ⟨g, hg, hfetch⟩ hab, hf, herror⟩
  · refine Acc.intro c fun a ha => ?_
    obtain ⟨g, hg, hfetch⟩ := ha.ascends
    exact h g hg a hfetch
  · obtain ⟨hm, g, hg, a, hfetch, -, b, hab, hb⟩ := h
    exact ⟨.inr hm, b, .head ⟨g, hg, hfetch⟩ hab, hb⟩

/-- What was found out about one name holds among more of them, if nothing was found. -/
theorem ExplainsAmong.weaken {h : Text} {names : List Text} {r : Found}
    (hr : s.ExplainsAmong name [h] r) (hfound : ∀ path, r ≠ .ok (none, path)) :
    s.ExplainsAmong name (h :: names) r := by
  rcases r with e | ⟨_ | m, path⟩
  · refine hr.imp id fun ⟨g, hg, hrest⟩ => ?_
    exact ⟨g, List.mem_singleton.1 hg ▸ .head _, hrest⟩
  · exact absurd rfl (hfound path)
  · obtain ⟨hm, g, hg, hrest⟩ := hr
    exact ⟨hm, g, List.mem_singleton.1 hg ▸ .head _, hrest⟩

theorem ExplainsAmong.cons {h : Text} {names path : List Text} {r : Found}
    (hfirst : s.ExplainsAmong name [h] (.ok (none, path))) (hr : s.ExplainsAmong name names r) :
    s.ExplainsAmong name (h :: names) r := by
  rcases r with e | ⟨_ | m, after⟩
  · refine hr.imp id fun ⟨g, hg, hrest⟩ => ?_
    exact ⟨g, .tail h hg, hrest⟩
  · intro g hg
    obtain rfl | hg := List.mem_cons.1 hg
    · exact hfirst g (.head _)
    · exact hr g hg
  · obtain ⟨hm, g, hg, hrest⟩ := hr
    exact ⟨hm, g, .tail h hg, hrest⟩

/-- The search does not go on from a type that has the member for itself only. -/
theorem acc_of_passed {c : CompositeDecl} {found : Option Member} {path : List Text}
    (h : s.Explains name c (.ok (found, path)))
    (hpassed : found.filter (·.visibility.isInheritable) = none) :
    Acc (fun a b => s.GoesOn name b a) c := by
  cases found with
  | none => exact h
  | some m =>
    have hm : ¬m.visibility.isInheritable = true := by simpa using hpassed
    refine Acc.intro c fun a ha => ?_
    have hown : c.member? name = some m := h.1.resolve_right hm
    rw [ha.1] at hown
    cases hown

/-- A type from which no way goes on for ever does not lead back to itself. -/
theorem not_transGen_of_acc {r : CompositeDecl → CompositeDecl → Prop} {c : CompositeDecl}
    (h : Acc (fun a b => r b a) c) : ¬TransGen r c c := by
  intro hcircle
  have hswap : TransGen (fun a b => r b a) c c := transGen_swap.2 hcircle
  have hacc : Acc (TransGen fun a b => r b a) c := h.transGen
  clear h hcircle
  induction hacc with
  | intro c _ ih => exact ih c hswap hswap

theorem not_circle_of_acc {c : CompositeDecl} (h : Acc (fun a b => s.GoesOn name b a) c) :
    ¬TransGen (s.GoesOn name) c c := not_transGen_of_acc h

section Explains

variable {f : List Text → CompositeDecl → Option Found}

theorem memberNamed_explains (hf : ∀ path c r, f path c = some r → s.Explains name c r)
    {path : List Text} {h : Text} {r : Found} (hr : s.memberNamed f path h = some r) :
    s.ExplainsAmong name [h] r := by
  unfold memberNamed at hr
  split at hr
  · cases hr
    exact .inl ⟨h, rfl⟩
  · split at hr
    · rename_i e he
      cases hr
      exact .inr ⟨h, .head _, .inl he⟩
    · rename_i c hc
      obtain ⟨q, hq, rfl⟩ := Option.map_eq_some_iff.1 hr
      have hexplains := hf _ _ _ hq
      rcases q with e | ⟨found, after⟩
      · exact .inr ⟨h, .head _, .inr ⟨c, hc, hexplains⟩⟩
      · change s.ExplainsAmong name [h] (.ok (found.filter (·.visibility.isInheritable), after))
        cases hfound : found.filter (·.visibility.isInheritable) with
        | none =>
          intro g hg a ha
          obtain rfl := List.mem_singleton.1 hg
          obtain rfl := Except.ok.inj (hc.symm.trans ha)
          exact acc_of_passed hexplains hfound
        | some m =>
          obtain ⟨rfl, hinheritable⟩ := Option.filter_eq_some_iff.1 hfound
          exact ⟨hinheritable, h, .head _, c, hc, hexplains⟩

theorem memberAmong_explains (hf : ∀ path c r, f path c = some r → s.Explains name c r)
    {path names : List Text} {r : Found} (hr : s.memberAmong f path names = some r) :
    s.ExplainsAmong name names r := by
  induction names generalizing path with
  | nil =>
    cases hr
    exact nofun
  | cons h names ih =>
    rw [memberAmong] at hr
    split at hr
    · rename_i after hfirst
      exact (memberNamed_explains hf hfirst).cons (ih hr)
    · rename_i hfirst
      refine (memberNamed_explains hf hr).weaken fun after heq => ?_
      exact hfirst after (hr.trans (congrArg some heq))

end Explains

theorem memberWithin_explains {n : Nat} {path : List Text} {c : CompositeDecl} {r : Found}
    (hr : s.memberWithin name n path c = some r) : s.Explains name c r := by
  induction n generalizing path c r with
  | zero => cases hr
  | succ n ih =>
    rw [memberWithin] at hr
    split at hr
    · rename_i m hm
      cases hr
      exact ⟨.inl hm, c, .refl, hm⟩
    · obtain ⟨q, hq, rfl⟩ := Option.map_eq_some_iff.1 hr
      exact (memberAmong_explains (fun _ _ _ => ih) hq).inherited

/-! Types that can be reached. -/

theorem mem_of_reached {c a : CompositeDecl} (h : ReflTransGen s.Ascends c a) :
    a ∈ c :: s.composites := by
  obtain rfl | ⟨b, -, g, -, hfetch⟩ := h.cases_tail
  · exact .head _
  · exact .tail _ (mem_composites_of_fetch hfetch)

section Ends

variable {c₀ : CompositeDecl}

/-- How many names of types that can be reached are not on the way. -/
def freeNames (s : Scopes) (c₀ : CompositeDecl) (path : List Text) : Nat :=
  (((c₀ :: s.composites).map (·.name.lower)).toFinset.filter (· ∉ path)).card

theorem freeNames_insert_lt {c : CompositeDecl} {path : List Text}
    (hc : ReflTransGen s.Ascends c₀ c) (hfree : c.name.lower ∉ path) :
    s.freeNames c₀ (path.insert c.name.lower) < s.freeNames c₀ path := by
  refine Finset.card_lt_card (Finset.ssubset_iff_of_subset ?_ |>.2 ⟨c.name.lower, ?_, ?_⟩)
  · intro n hn
    simp only [Finset.mem_filter, List.mem_insert_iff, not_or] at hn ⊢
    exact ⟨hn.1, hn.2.2⟩
  · have hname : c.name.lower ∈ (c₀ :: s.composites).map (·.name.lower) :=
      List.mem_map_of_mem (mem_of_reached hc)
    simp only [Finset.mem_filter, List.mem_toFinset]
    exact ⟨hname, hfree⟩
  · simp

/-- The names on the way are those of types from which the search came here. -/
def OnWay (s : Scopes) (name : Text) (c₀ : CompositeDecl) (path : List Text) (c : CompositeDecl) :
    Prop :=
  ∀ n ∈ path, ∃ b, ReflTransGen s.Ascends c₀ b ∧ b.name.lower = n ∧ TransGen (s.GoesOn name) b c

theorem noneOnWay (s : Scopes) (name : Text) (c : CompositeDecl) : s.OnWay name c [] c := nofun

theorem OnWay.step {path : List Text} {c a : CompositeDecl} (h : s.OnWay name c₀ path c)
    (hc : ReflTransGen s.Ascends c₀ c) (ha : s.GoesOn name c a) :
    s.OnWay name c₀ (path.insert c.name.lower) a := by
  intro n hn
  obtain rfl | hn := List.mem_insert_iff.1 hn
  · exact ⟨c, hc, rfl, .single ha⟩
  · obtain ⟨b, hb, hname, hbc⟩ := h n hn
    exact ⟨b, hb, hname, hbc.tail ha⟩

/-- There are finitely many types, so that without circles no way goes on for ever. -/
theorem wellFounded_reached {r : CompositeDecl → CompositeDecl → Prop}
    (hcircle : ∀ a, ReflTransGen s.Ascends c₀ a → ¬TransGen r a a) :
    WellFounded fun a b : { c // ReflTransGen s.Ascends c₀ c } => r b.1 a.1 := by
  let q (a b : { c // ReflTransGen s.Ascends c₀ c }) : Prop := r b.1 a.1
  have hfinite : Finite { c // ReflTransGen s.Ascends c₀ c } :=
    (List.finite_toSet (c₀ :: s.composites)).subset fun c hc => mem_of_reached hc
  have hirrefl : Std.Irrefl (TransGen q) := by
    refine ⟨fun a ha => hcircle a.1 a.2 ?_⟩
    have hlift : TransGen (fun x y => r y x) a.1 a.1 := ha.lift Subtype.val fun _ _ h => h
    exact transGen_swap.1 hlift
  have hwf : WellFounded (TransGen q) := Finite.wellFounded_of_trans_of_irrefl _
  have hsub : Subrelation q (TransGen q) := fun h => .single h
  exact hsub.wf hwf

theorem wellFounded_byAlias
    (halias : ∀ a, ReflTransGen s.Ascends c₀ a → ¬TransGen s.AscendsByAlias a a) :
    WellFounded fun a b : { c // ReflTransGen s.Ascends c₀ c } => s.AscendsByAlias b.1 a.1 :=
  wellFounded_reached halias

/-- A search comes to an end, and if it passes a type, the names on the way are those before. -/
def Settles (s : Scopes) (name : Text) (path : List Text) (c : CompositeDecl) : Prop :=
  ∃ n r, s.memberWithin name n path c = some r ∧ ∀ found after, r = .ok (found, after) →
    found.filter (·.visibility.isInheritable) = none → after = path

/-- The search by a name comes to an end if that in the type of the name does. -/
theorem memberNamed_settles {path : List Text} {h : Text}
    (hname : h.lower ∉ path → ∀ c, s.fetchComposite h = .ok c → s.Settles name path c) :
    ∃ n r, s.memberNamed (s.memberWithin name n) path h = some r ∧
      ∀ after, r = .ok (none, after) → after = path := by
  by_cases hpath : h.lower ∈ path
  · refine ⟨0, .error (s.error .circularHeritage h), ?_, fun _ h => by cases h⟩
    rw [memberNamed, if_pos (List.contains_iff_mem.2 hpath)]
  · cases hc : s.fetchComposite h with
    | error e =>
      refine ⟨0, .error e, ?_, fun _ h => by cases h⟩
      rw [memberNamed, if_neg fun hmem => hpath (List.contains_iff_mem.1 hmem), hc]
    | ok c =>
      obtain ⟨n, r, hr, hkept⟩ := hname hpath c hc
      refine ⟨n, _, by rw [memberNamed_of_fetch hpath hc, hr]; rfl, fun after heq => ?_⟩
      rcases r with e | ⟨found, after'⟩
      · cases heq
      · have hpair := Except.ok.inj heq
        obtain rfl : after' = after := congrArg Prod.snd hpair
        exact hkept found after' rfl (congrArg Prod.fst hpair)

/-- The search among ancestors comes to an end if that in each of them does. -/
theorem memberAmong_settles {path names : List Text}
    (hnames : ∀ h ∈ names, h.lower ∉ path → ∀ c, s.fetchComposite h = .ok c →
      s.Settles name path c) :
    ∃ n r, s.memberAmong (s.memberWithin name n) path names = some r ∧
      ∀ after, r = .ok (none, after) → after = path := by
  induction names with
  | nil =>
    refine ⟨0, .ok (none, path), rfl, fun after heq => ?_⟩
    cases heq
    rfl
  | cons h names ih =>
    obtain ⟨n, q, hq, hkept⟩ := memberNamed_settles (hnames h (.head _))
    obtain ⟨k, r, hr, hrest⟩ := ih fun g hg => hnames g (.tail h hg)
    -- both searches give their answers with the larger number of steps
    have hq' := memberNamed_mono (fun _ _ _ => memberWithin_mono (le_max_left n k)) hq
    have hr' := memberAmong_mono (fun _ _ _ => memberWithin_mono (le_max_right n k)) hr
    rcases q with e | ⟨_ | m, after⟩
    · exact ⟨max n k, .error e, by rw [memberAmong, hq'], fun _ h => by cases h⟩
    · obtain rfl := hkept after rfl
      exact ⟨max n k, r, by rw [memberAmong, hq']; exact hr', hrest⟩
    · exact ⟨max n k, .ok (some m, after), by rw [memberAmong, hq'], fun _ h => by cases h⟩

theorem memberWithin_settles
    (hunique : ∀ a b, ReflTransGen s.Ascends c₀ a → ReflTransGen s.Ascends c₀ b →
      a.name.lower = b.name.lower → a = b)
    (halias : ∀ a, ReflTransGen s.Ascends c₀ a → ¬TransGen s.AscendsByAlias a a)
    (c : { c // ReflTransGen s.Ascends c₀ c }) (path : List Text)
    (hway : s.OnWay name c₀ path c.1) : s.Settles name path c.1 := by
  -- Either a name is added to the way, or a type is reached by another name than its own.
  induction hn : s.freeNames c₀ (path.insert c.1.name.lower) using Nat.strong_induction_on
    generalizing c path with
  | _ n ihn =>
  induction c using (wellFounded_byAlias halias).induction generalizing path with
  | _ c ihc =>
  subst hn
  cases hm : c.1.member? name with
  | some m =>
    refine ⟨1, .ok (some m, path), ?_, ?_⟩
    · rw [memberWithin, hm]
    · intro found after h _
      cases h
      rfl
  | none =>
    have hstep (h : Text) (hh : h ∈ c.1.ancestors) (hfree : h.lower ∉ path.insert c.1.name.lower)
        (a : CompositeDecl) (ha : s.fetchComposite h = .ok a) :
        s.Settles name (path.insert c.1.name.lower) a := by
      have hgoes : s.GoesOn name c.1 a := ⟨hm, h, hh, ha⟩
      have hreach : ReflTransGen s.Ascends c₀ a := c.2.tail hgoes.ascends
      have hwaya := hway.step c.2 hgoes
      by_cases hknown : a.name.lower ∈ path.insert c.1.name.lower
      · have halias : s.AscendsByAlias c.1 a := ⟨h, hh, ha, fun heq => hfree (heq ▸ hknown)⟩
        refine ihc ⟨a, hreach⟩ halias _ hwaya ?_
        rw [List.insert_of_mem hknown]
      · refine ihn _ ?_ ⟨a, hreach⟩ _ hwaya rfl
        exact freeNames_insert_lt hreach hknown
    obtain ⟨n, r, hr, hkept⟩ := memberAmong_settles hstep
    have hrun : s.memberWithin name (n + 1) path c.1 =
        some (r.map fun (found, path) => (found, stepBack path c.1)) := by
      rw [memberWithin, hm]
      simp only [hr, Option.map_some]
    refine ⟨n + 1, _, hrun, fun found after h hpassed => ?_⟩
    rcases r with e | ⟨found', after'⟩
    · cases h
    · cases h
      -- what is found among ancestors is inheritable, so nothing was found
      have hexplains := memberAmong_explains (fun _ _ _ => memberWithin_explains) hr
      obtain rfl : found = none := by
        cases found with
        | none => rfl
        | some m => simp [hexplains.1] at hpassed
      obtain rfl := hkept _ rfl
      -- a type that was searched in vain is not on the way already
      have hacc : Acc (fun a b => s.GoesOn name b a) c.1 := memberWithin_explains hrun
      have hnew : c.1.name.lower ∉ path := by
        intro hmem
        obtain ⟨b, hb, hname, hbc⟩ := hway _ hmem
        obtain rfl := hunique b c.1 hb c.2 hname
        exact not_circle_of_acc hacc hbc
      have hkeep : ∀ n ∈ path, n ≠ c.1.name.lower := fun n hn heq => hnew (heq ▸ hn)
      simpa [stepBack, List.insert_of_not_mem hnew] using hkeep

end Ends

/-- If nobody has the member, a search in vain has seen all ancestors of ancestors. -/
theorem acc_of_reached {c a : CompositeDecl} (hc : Acc (fun a b => s.GoesOn name b a) c)
    (hnone : ∀ a, ReflTransGen s.Ascends c a → a.member? name = none)
    (ha : ReflTransGen s.Ascends c a) : Acc (fun a b => s.GoesOn name b a) a := by
  induction ha with
  | refl => exact hc
  | tail hb hba ih => exact ih.inv ⟨hnone _ hb, hba⟩

theorem goesOn_of_ascends {c a : CompositeDecl}
    (hnone : ∀ a, ReflTransGen s.Ascends c a → a.member? name = none)
    (ha : TransGen s.Ascends c a) : TransGen (s.GoesOn name) c a := by
  induction ha with
  | single ha => exact .single ⟨hnone c .refl, ha⟩
  | tail hb hba ih => exact ih.tail ⟨hnone _ hb.to_reflTransGen, hba⟩

/-- A search that nothing else stops meets a circle. -/
theorem error_of_circle {c : CompositeDecl} {r : Found} (hr : s.Explains name c r)
    (hknown : ∀ a, ReflTransGen s.Ascends c a → ∀ g ∈ a.ancestors, ∃ b, s.fetchComposite g = .ok b)
    (hnone : ∀ a, ReflTransGen s.Ascends c a → a.member? name = none)
    (hcircle : ∃ a, ReflTransGen s.Ascends c a ∧ TransGen s.Ascends a a) :
    ∃ g, r = .error (s.error .circularHeritage g) := by
  rcases r with e | ⟨_ | m, path⟩
  · obtain ⟨g, rfl⟩ | ⟨a, g, ha, hg, herror⟩ := hr
    · exact ⟨g, rfl⟩
    · obtain ⟨b, hb⟩ := hknown a ha g hg
      cases herror.symm.trans hb
  · obtain ⟨a, ha, hcircle⟩ := hcircle
    have hacc := acc_of_reached hr hnone ha
    have hnonea (b : CompositeDecl) (hb : ReflTransGen s.Ascends a b) : b.member? name = none :=
      hnone b (ha.trans hb)
    exact absurd (goesOn_of_ascends hnonea hcircle) (not_circle_of_acc hacc)
  · obtain ⟨-, a, ha, hm⟩ := hr
    cases (hnone a ha).symm.trans hm

theorem fetchMember_of_error {type : Text} {e : ScopeError} (h : s.fetchComposite type = .error e) :
    (s.fetchMember type name).run = some (.error e) := by
  unfold fetchMember
  rw [h]
  rfl

theorem fetchMember_of_ok {type : Text} {c : CompositeDecl} (h : s.fetchComposite type = .ok c) :
    (s.fetchMember type name).run =
      (s.memberWithin name s.searchBound [] c).map (Found.member s type name) := by
  unfold fetchMember
  rw [h]
  rfl

/-- A member that is found has the name that it was looked for by, up to case. -/
theorem sameFold_of_fetchMember {type : Text} {m : Member}
    (h : (s.fetchMember type name).run = some (.ok m)) : m.name.sameFold name = true := by
  cases hfetch : s.fetchComposite type with
  | error e =>
    rw [fetchMember_of_error hfetch] at h
    cases h
  | ok c =>
    rw [fetchMember_of_ok hfetch] at h
    obtain ⟨r, hr, hm⟩ := Option.map_eq_some_iff.1 h
    obtain e | ⟨_ | found, path⟩ := r
    · cases hm
    · cases hm
    · obtain rfl : found = m := Except.ok.inj hm
      obtain ⟨-, a, -, ha⟩ := memberWithin_explains hr
      exact (List.find?_eq_some_iff_append.1 ha).1

/-- The frame of a method belongs to the member that was found for it. -/
theorem enterMethod_top {type method : Text} {t : Scopes} {context : MethodContext}
    (h : (s.enterMethod type method).run = some (.ok (t, context))) :
    2 ≤ t.inner.length ∧ t.top.name = method ∧
      ∃ m : Member, t.top.owner = some m.decl ∧ m.name.sameFold method = true := by
  obtain ⟨m, hm, h⟩ := Search.bind_eq_ok.1 h
  obtain ⟨⟨u, n⟩, hu, h⟩ := Search.bind_eq_ok.1 h
  obtain ⟨pushed, rfl, hpushed⟩ := loadHeritage_eq (Option.some.inj hu)
  cases h
  refine ⟨?_, rfl, m, rfl, sameFold_of_fetchMember hm⟩
  simp [enter, hpushed]
  omega

/-- The search for a member ends if, among the types that can be reached, no two share a name and
none comes back to itself by names other than declared ones. If moreover all names of ancestors are
known, nobody has the member, and some type is its own ancestor, then this circle is reported. -/
theorem fetchMember_ends (s : Scopes) (type name : Text)
    (h : ∀ c, s.fetchComposite type = .ok c →
      (∀ a b, ReflTransGen s.Ascends c a → ReflTransGen s.Ascends c b →
        a.name.lower = b.name.lower → a = b) ∧
      ∀ a, ReflTransGen s.Ascends c a → ¬TransGen s.AscendsByAlias a a) :
    (∃ r, (s.fetchMember type name).run = some r) ∧
    ∀ c, s.fetchComposite type = .ok c →
      (∀ a, ReflTransGen s.Ascends c a → ∀ g ∈ a.ancestors, ∃ b, s.fetchComposite g = .ok b) →
      (∀ a, ReflTransGen s.Ascends c a → a.member? name = none) →
      (∃ a, ReflTransGen s.Ascends c a ∧ TransGen s.Ascends a a) →
      ∃ g, (s.fetchMember type name).run = some (.error (s.error .circularHeritage g)) := by
  cases hfetch : s.fetchComposite type with
  | error e => exact ⟨⟨.error e, fetchMember_of_error hfetch⟩, nofun⟩
  | ok c =>
    obtain ⟨hunique, halias⟩ := h c hfetch
    obtain ⟨n, r, hn, -⟩ := memberWithin_settles hunique halias ⟨c, .refl⟩ [] (s.noneOnWay name c)
    have hr : s.memberWithin name s.searchBound [] c = some r :=
      memberWithin_searchBound ⟨.nil, nofun⟩ (mem_composites_of_fetch hfetch) hn
    have hrun : (s.fetchMember type name).run = some (Found.member s type name r) := by
      rw [fetchMember_of_ok hfetch, hr]
      rfl
    refine ⟨⟨_, hrun⟩, ?_⟩
    intro c' hc' hknown hnone hcircle
    cases hc'
    obtain ⟨g, rfl⟩ := error_of_circle (memberWithin_explains hr) hknown hnone hcircle
    exact ⟨g, hrun⟩

/-- A class on a line with the name of its ancestor. -/
def heir (line : Nat) (name ancestor : Text) : CompositeDecl where
  info := { id := line, line }
  name
  kind := .classType
  heritage := [ancestor]
  type := .classType { id := line + 100, line } [ancestor] [] false

/-- Another name for a type. -/
def otherName (line : Nat) (name type : Text) : TypeDecl where
  info := { id := line, line }
  name
  type := .named ⟨{ id := line + 100, line }, type⟩

/-- Two classes that are ancestors of each other, where one is named by another name. -/
def knot : Scopes :=
  (Scopes.initial {}).withInner
    [{ name := "global", entries := [{ name := "A", decl := .composite (heir 1 "A" "Z") },
      { name := "B", decl := .composite (heir 2 "B" "A") },
      { name := "Z", decl := .type (otherName 3 "Z" "B") }] }]

theorem fetchMember_ends_knot :
    (∀ c, knot.fetchComposite "A" = .ok c →
      (∀ a b, ReflTransGen knot.Ascends c a → ReflTransGen knot.Ascends c b →
        a.name.lower = b.name.lower → a = b) ∧
      ∀ a, ReflTransGen knot.Ascends c a → ¬TransGen knot.AscendsByAlias a a) ∧
    ∃ g, (knot.fetchMember "A" "q").run = some (.error (knot.error .circularHeritage g)) := by
  have hA : knot.fetchComposite "A" = .ok (heir 1 "A" "Z") := rfl
  have hZ : knot.fetchComposite "Z" = .ok (heir 2 "B" "A") := rfl
  have hAB (a : CompositeDecl) : knot.Ascends (heir 1 "A" "Z") a ↔ a = heir 2 "B" "A" := by
    change (∃ h ∈ [Text.ofString "Z"], knot.fetchComposite h = .ok a) ↔ _
    simp [hZ, eq_comm]
  have hBA (a : CompositeDecl) : knot.Ascends (heir 2 "B" "A") a ↔ a = heir 1 "A" "Z" := by
    change (∃ h ∈ [Text.ofString "A"], knot.fetchComposite h = .ok a) ↔ _
    simp [hA, eq_comm]
  have hreach (a : CompositeDecl) (ha : ReflTransGen knot.Ascends (heir 1 "A" "Z") a) :
      a = heir 1 "A" "Z" ∨ a = heir 2 "B" "A" := by
    induction ha with
    | refl => exact .inl rfl
    | tail _ hstep ih =>
      obtain rfl | rfl := ih
      · exact .inr ((hAB _).1 hstep)
      · exact .inl ((hBA _).1 hstep)
  have hnames : (heir 1 "A" "Z").name.lower ≠ (heir 2 "B" "A").name.lower := by decide
  -- the second class is reached by another name, the first one by its own
  have hown (a : CompositeDecl) : ¬knot.AscendsByAlias (heir 2 "B" "A") a := by
    rintro ⟨h, hh, hfetch, hne⟩
    obtain rfl : h = Text.ofString "A" := List.mem_singleton.1 hh
    rw [hA] at hfetch
    cases hfetch
    exact hne rfl
  have hne : heir 1 "A" "Z" ≠ heir 2 "B" "A" := fun h => hnames (by rw [h])
  have hconditions : ∀ c, knot.fetchComposite "A" = .ok c →
      (∀ a b, ReflTransGen knot.Ascends c a → ReflTransGen knot.Ascends c b →
        a.name.lower = b.name.lower → a = b) ∧
      ∀ a, ReflTransGen knot.Ascends c a → ¬TransGen knot.AscendsByAlias a a := by
    intro c hc
    obtain rfl := Except.ok.inj (hA.symm.trans hc)
    refine ⟨fun a b ha hb hab => ?_, fun a ha hcircle => ?_⟩
    · obtain rfl | rfl := hreach a ha <;> obtain rfl | rfl := hreach b hb
      · rfl
      · exact absurd hab hnames
      · exact absurd hab.symm hnames
      · rfl
    · obtain ⟨b, hab, hba⟩ := TransGen.head'_iff.1 hcircle
      obtain rfl | rfl := hreach a ha
      · obtain ⟨h, hh, hfetch, -⟩ := hab
        obtain rfl := (hAB b).1 ⟨h, hh, hfetch⟩
        obtain heq | ⟨d, hd, -⟩ := hba.cases_head
        · exact hne heq.symm
        · exact hown d hd
      · exact hown b hab
  have hknown : ∀ a, ReflTransGen knot.Ascends (heir 1 "A" "Z") a →
      ∀ g ∈ a.ancestors, ∃ b, knot.fetchComposite g = .ok b := by
    intro a ha g hg
    obtain rfl | rfl := hreach a ha
    · exact ⟨_, (List.mem_singleton.1 hg) ▸ hZ⟩
    · exact ⟨_, (List.mem_singleton.1 hg) ▸ hA⟩
  have hnone : ∀ a, ReflTransGen knot.Ascends (heir 1 "A" "Z") a → a.member? "q" = none := by
    intro a ha
    obtain rfl | rfl := hreach a ha <;> rfl
  have hcircle : TransGen knot.Ascends (heir 1 "A" "Z") (heir 1 "A" "Z") :=
    .tail (.single ((hAB _).2 rfl)) ((hBA _).2 rfl)
  exact ⟨hconditions, (fetchMember_ends knot "A" "q" hconditions).2 _ hA hknown hnone
    ⟨_, .refl, hcircle⟩⟩

/-- The global names after the class is declared. -/
def heirDeclared : Scopes :=
  (Scopes.initial {}).withInner
    [{ name := "global", entries := [{ name := "X", decl := .composite (heir 1 "X" "Y") }] }]

/-- The global names after its other name is declared too. -/
def aliasDeclared : Scopes :=
  (Scopes.initial {}).withInner
    [{ name := "global", entries := [{ name := "X", decl := .composite (heir 1 "X" "Y") },
      { name := "Y", decl := .type (otherName 2 "Y" "X") }] }]

theorem register_alias :
    heirDeclared.register "Y" (.type (otherName 2 "Y" "X")) = .ok aliasDeclared := by
  have hempty : ¬(Text.ofString "Y").isEmpty = true := by decide
  have hfree : heirDeclared.top.find? "Y" = none := rfl
  have hplace : heirDeclared.targetOf (.type (otherName 2 "Y" "X")) = [].length + 1 := rfl
  have hinner : heirDeclared.inner = [] ++ heirDeclared.top :: [] := rfl
  unfold register
  simp only [hplace, frame?_of_inner hinner, Option.getD_some, if_neg hempty, Frame.add?, hfree]
  rw [modifyFrame_of_inner hinner]
  simp [heirDeclared, aliasDeclared, top]

/-- The search for a member of a class that is its own ancestor by another name never ends: no
number of steps is enough. -/
theorem fetchMember_endless :
    (Scopes.initial {}).register "X" (.composite (heir 1 "X" "Y")) = .ok heirDeclared ∧
    heirDeclared.register "Y" (.type (otherName 2 "Y" "X")) = .ok aliasDeclared ∧
    (∀ n, aliasDeclared.memberWithin "q" n [] (heir 1 "X" "Y") = none) ∧
    (aliasDeclared.fetchMember "X" "q").run = none := by
  have hX : aliasDeclared.fetchComposite "X" = .ok (heir 1 "X" "Y") := rfl
  have hY : aliasDeclared.fetchComposite "Y" = .ok (heir 1 "X" "Y") := rfl
  have hnone (n : Nat) (path : List Text) (hpath : ∀ k ∈ path, k = Text.lower "X") :
      aliasDeclared.memberWithin "q" n path (heir 1 "X" "Y") = none := by
    induction n generalizing path with
    | zero => rfl
    | succ n ih =>
      -- only the declared name of the class is ever on the way, and it is never asked for
      have hway : ∀ k ∈ path.insert (Text.lower "X"), k = Text.lower "X" := by
        intro k hk
        obtain hk | hk := List.mem_insert_iff.1 hk
        · exact hk
        · exact hpath k hk
      have hfree : Text.lower "Y" ∉ path.insert (Text.lower "X") := fun hmem =>
        absurd (hway _ hmem) (by decide)
      have hnamed : aliasDeclared.memberNamed (aliasDeclared.memberWithin "q" n)
          (path.insert (Text.lower "X")) "Y" = none := by
        rw [memberNamed_of_fetch hfree hY, ih _ hway]
        rfl
      have hmember : (heir 1 "X" "Y").member? "q" = none := rfl
      have hamong : aliasDeclared.memberAmong (aliasDeclared.memberWithin "q" n)
          (path.insert (Text.lower "X")) [Text.ofString "Y"] = none := by
        rw [memberAmong, hnamed]
      rw [memberWithin, hmember]
      exact Option.map_eq_none_iff.2 hamong
  refine ⟨rfl, register_alias, fun n => hnone n [] (List.forall_mem_nil _), ?_⟩
  rw [fetchMember_of_ok hX, hnone _ [] (List.forall_mem_nil _)]
  rfl

end ObjectPascal.Scopes
