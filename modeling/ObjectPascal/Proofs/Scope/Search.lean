import Mathlib.Data.Fintype.BigOperators
import Mathlib.Data.Fintype.Card
import Mathlib.Data.Fintype.Option
import Mathlib.Data.List.Nodup
import ObjectPascal.Scope.Heritage

/-!
The bound on the search for a member. With more steps a search gives the same answer, and one that
comes to an answer at all does so within the bound: the types that it has below each other differ,
or else the names on the way do. So a search that fails at the bound is one that never ends.
-/

namespace ObjectPascal.Scopes

variable {s : Scopes} {name : Text} {f g : List Text → CompositeDecl → Option Found}

/-! One search within another. -/

theorem memberNamed_of_fetch {path : List Text} {h : Text} {c : CompositeDecl}
    (hpath : h.lower ∉ path) (hc : s.fetchComposite h = .ok c) :
    s.memberNamed f path h = (f path c).map
      (·.map fun (found, path) => (found.filter (·.visibility.isInheritable), path)) := by
  have hcontains : ¬path.contains h.lower = true := fun hmem => hpath (List.contains_iff_mem.1 hmem)
  rw [memberNamed, if_neg hcontains, hc]

/-- A search that comes to an answer by `f` and not by `g` asks for a type. -/
theorem fetch_of_memberNamed {path : List Text} {h : Text}
    (hfg : s.memberNamed f path h ≠ s.memberNamed g path h) :
    h.lower ∉ path ∧ ∃ c, s.fetchComposite h = .ok c := by
  unfold memberNamed at hfg
  split at hfg
  · exact absurd rfl hfg
  · rename_i hcontains
    refine ⟨fun hmem => hcontains (List.contains_iff_mem.2 hmem), ?_⟩
    split at hfg
    · exact absurd rfl hfg
    · exact ⟨_, ‹_›⟩

theorem memberNamed_mono (hfg : ∀ path c r, f path c = some r → g path c = some r)
    {path : List Text} {h : Text} {r : Found} (hr : s.memberNamed f path h = some r) :
    s.memberNamed g path h = some r := by
  by_contra hne
  obtain ⟨hpath, c, hc⟩ := fetch_of_memberNamed fun heq => hne (heq ▸ hr)
  rw [memberNamed_of_fetch hpath hc] at hr hne
  obtain ⟨q, hq, rfl⟩ := Option.map_eq_some_iff.1 hr
  exact hne (by rw [hfg _ _ _ hq]; rfl)

theorem memberAmong_mono (hfg : ∀ path c r, f path c = some r → g path c = some r)
    {path names : List Text} {r : Found} (hr : s.memberAmong f path names = some r) :
    s.memberAmong g path names = some r := by
  induction names generalizing path with
  | nil => exact hr
  | cons h names ih =>
    rw [memberAmong] at hr ⊢
    cases hq : s.memberNamed f path h with
    | none =>
      rw [hq] at hr
      cases hr
    | some q =>
      rw [hq] at hr
      rw [memberNamed_mono hfg hq]
      rcases q with e | ⟨_ | m, after⟩
      · exact hr
      · exact ih hr
      · exact hr

/-- With more steps a search gives the same answer. -/
theorem memberWithin_mono {n k : Nat} (hnk : n ≤ k) {path : List Text} {c : CompositeDecl}
    {r : Found} (hr : s.memberWithin name n path c = some r) :
    s.memberWithin name k path c = some r := by
  induction n generalizing k path c r with
  | zero => cases hr
  | succ n ih =>
    obtain ⟨k, rfl⟩ : ∃ j, k = j + 1 := ⟨k - 1, by omega⟩
    rw [memberWithin] at hr ⊢
    split at hr
    · exact hr
    · obtain ⟨q, hq, rfl⟩ := Option.map_eq_some_iff.1 hr
      rw [memberAmong_mono (fun _ _ _ => ih (by omega)) hq]
      rfl

/-! Types in sight. -/

theorem mem_frames_of_lookup {d : Decl} {i : Nat} (h : s.lookup? name = some (d, i)) :
    ∃ f ∈ s.frames, f.find? name = some d := by
  have hgo (frames : List Frame) (k : Nat) (h : lookup?.go name frames k = some (d, i)) :
      ∃ f ∈ frames, f.find? name = some d := by
    induction frames generalizing k with
    | nil => cases h
    | cons f frames ih =>
      rw [lookup?.go] at h
      split at h
      · rename_i e he
        cases h
        exact ⟨f, .head _, he⟩
      · obtain ⟨g, hg, hfind⟩ := ih _ h
        exact ⟨g, .tail f hg, hfind⟩
  exact hgo _ _ h

theorem mem_composites_of_find {c : CompositeDecl} (h : s.find? name = some (.composite c)) :
    c ∈ s.composites := by
  obtain ⟨⟨d, i⟩, hlookup, rfl⟩ := Option.map_eq_some_iff.1 h
  obtain ⟨f, hf, hfind⟩ := mem_frames_of_lookup hlookup
  obtain ⟨e, he, hdecl⟩ := Option.map_eq_some_iff.1 hfind
  have hentry : e ∈ f.entries := List.mem_of_find?_eq_some he
  refine List.mem_flatMap.2 ⟨f, hf, List.mem_filterMap.2 ⟨e, hentry, ?_⟩⟩
  rw [hdecl]

theorem mem_composites_of_fetch {h : Text} {c : CompositeDecl}
    (hfetch : s.fetchComposite h = .ok c) : c ∈ s.composites := by
  have hwithin (n : Nat) (g : Text) (hg : s.compositeWithin h n g = .ok c) : c ∈ s.composites := by
    induction n generalizing g with
    | zero => cases hg
    | succ n ih =>
      rw [compositeWithin] at hg
      split at hg
      · cases hg
      · rename_i d hd
        cases hg
        exact mem_composites_of_find hd
      · exact ih _ hg
      · cases hg
  exact hwithin _ _ hfetch

/-! Names on the way. -/

/-- Names of types in sight, none of them twice. -/
def KnownWay (s : Scopes) (path : List Text) : Prop :=
  path.Nodup ∧ ∀ n ∈ path, n ∈ s.composites.map (·.name.lower)

/-- A search that leaves only such names on the way. -/
def KeepsWay (s : Scopes) (f : List Text → CompositeDecl → Option Found) : Prop :=
  ∀ path c found after, c ∈ s.composites → s.KnownWay path →
    f path c = some (.ok (found, after)) → s.KnownWay after

theorem KeepsWay.named (hf : s.KeepsWay f) {path after : List Text} {h : Text}
    {found : Option Member} (hpath : s.KnownWay path)
    (hr : s.memberNamed f path h = some (.ok (found, after))) : s.KnownWay after := by
  unfold memberNamed at hr
  split at hr
  · cases hr
  · split at hr
    · cases hr
    · rename_i c hc
      obtain ⟨q, hq, hmap⟩ := Option.map_eq_some_iff.1 hr
      cases q with
      | error e => cases hmap
      | ok q =>
        cases hmap
        exact hf _ _ _ _ (mem_composites_of_fetch hc) hpath hq

theorem KeepsWay.among (hf : s.KeepsWay f) {path after names : List Text} {found : Option Member}
    (hpath : s.KnownWay path) (hr : s.memberAmong f path names = some (.ok (found, after))) :
    s.KnownWay after := by
  induction names generalizing path with
  | nil =>
    cases hr
    exact hpath
  | cons h names ih =>
    rw [memberAmong] at hr
    split at hr
    · exact ih (hf.named hpath ‹_›) hr
    · exact hf.named hpath hr

theorem KnownWay.insert {path : List Text} {c : CompositeDecl} (hpath : s.KnownWay path)
    (hc : c ∈ s.composites) : s.KnownWay (path.insert c.name.lower) := by
  refine ⟨hpath.1.insert, fun n hn => ?_⟩
  obtain rfl | hn := List.mem_insert_iff.1 hn
  · exact List.mem_map_of_mem hc
  · exact hpath.2 n hn

theorem memberWithin_keepsWay (n : Nat) : s.KeepsWay (s.memberWithin name n) := by
  induction n with
  | zero => exact fun _ _ _ _ _ _ hr => nomatch hr
  | succ n ih =>
    intro path c found after hc hpath hr
    rw [memberWithin] at hr
    split at hr
    · cases hr
      exact hpath
    · obtain ⟨q, hq, hmap⟩ := Option.map_eq_some_iff.1 hr
      cases q with
      | error e => cases hmap
      | ok q =>
        cases hmap
        have hafter := ih.among (hpath.insert hc) hq
        exact ⟨hafter.1.filter _, fun n hn => hafter.2 n (List.mem_of_mem_filter hn)⟩

/-! Searches that take long. -/

/-- A search that comes to an answer in one more step than `n`. -/
def Takes (s : Scopes) (name : Text) (n : Nat) (path : List Text) (c : CompositeDecl) : Prop :=
  s.memberWithin name n path c = none ∧ s.memberWithin name (n + 1) path c ≠ none

theorem Takes.unique {n k : Nat} {path : List Text} {c : CompositeDecl}
    (hn : s.Takes name n path c) (hk : s.Takes name k path c) : n = k := by
  have hle {i j : Nat} (hi : s.Takes name i path c) (hj : s.Takes name j path c) : j ≤ i := by
    by_contra hlt
    obtain ⟨r, hr⟩ := Option.ne_none_iff_exists'.1 hi.2
    have hmono := memberWithin_mono (by omega : i + 1 ≤ j) hr
    rw [hj.1] at hmono
    cases hmono
  exact le_antisymm (hle hk hn) (hle hn hk)

/-- If a search needs `g` and not only `f`, it does so for a type below. -/
theorem exists_below (hf : s.KeepsWay f) (hfg : ∀ path c r, f path c = some r → g path c = some r)
    {path names : List Text} (hpath : s.KnownWay path) (hnone : s.memberAmong f path names = none)
    (hsome : s.memberAmong g path names ≠ none) :
    ∃ path' c, s.KnownWay path' ∧ c ∈ s.composites ∧ f path' c = none ∧ g path' c ≠ none := by
  induction names generalizing path with
  | nil => cases hnone
  | cons h names ih =>
    rw [memberAmong] at hnone hsome
    cases hq : s.memberNamed f path h with
    | none =>
      have hne : s.memberNamed f path h ≠ s.memberNamed g path h := by
        intro heq
        rw [← heq, hq] at hsome
        exact hsome rfl
      obtain ⟨hfree, c, hc⟩ := fetch_of_memberNamed hne
      rw [memberNamed_of_fetch hfree hc] at hq hne
      refine ⟨path, c, hpath, mem_composites_of_fetch hc, Option.map_eq_none_iff.1 hq, ?_⟩
      intro hg
      rw [memberNamed_of_fetch hfree hc, hq, hg] at hne
      exact hne rfl
    | some q =>
      rw [hq] at hnone
      rw [memberNamed_mono hfg hq] at hsome
      rcases q with e | ⟨_ | m, after⟩
      · cases hnone
      · exact ih (hf.named hpath hq) hnone hsome
      · cases hnone

theorem Takes.below {n : Nat} {path : List Text} {c : CompositeDecl} (hpath : s.KnownWay path)
    (hc : c ∈ s.composites) (h : s.Takes name (n + 1) path c) :
    ∃ path' c', s.KnownWay path' ∧ c' ∈ s.composites ∧ s.Takes name n path' c' := by
  obtain ⟨hnone, hsome⟩ := h
  rw [memberWithin] at hnone hsome
  split at hnone
  · cases hnone
  · rename_i hmember
    rw [hmember] at hsome
    have hsome' := fun heq => hsome (Option.map_eq_none_iff.2 heq)
    obtain ⟨path', c', hpath', hc', hf, hg⟩ := exists_below (memberWithin_keepsWay n)
      (fun _ _ _ => memberWithin_mono (Nat.le_succ n)) (hpath.insert hc)
      (Option.map_eq_none_iff.1 hnone) hsome'
    exact ⟨path', c', hpath', hc', hf, hg⟩

/-- A long search has all shorter ones below it. -/
theorem Takes.all_below {n : Nat} {path : List Text} {c : CompositeDecl} (hpath : s.KnownWay path)
    (hc : c ∈ s.composites) (h : s.Takes name n path c) (i : Nat) (hi : i ≤ n) :
    ∃ path' c', s.KnownWay path' ∧ c' ∈ s.composites ∧ s.Takes name i path' c' := by
  induction n generalizing path c with
  | zero =>
    obtain rfl : i = 0 := by omega
    exact ⟨path, c, hpath, hc, h⟩
  | succ n ih =>
    obtain rfl | hlt := Nat.eq_or_lt_of_le hi
    · exact ⟨path, c, hpath, hc, h⟩
    · obtain ⟨path', c', hpath', hc', h'⟩ := h.below hpath hc
      exact ih hpath' hc' h' (by omega)

/-! Counting. -/

section Count

open Classical

/-- Ways as rows of a fixed length: each place holds a name of a type in sight, or nothing. -/
abbrev Row (s : Scopes) : Type :=
  Fin s.composites.length → Option (s.composites.map (·.name.lower)).toFinset

theorem card_row_le (s : Scopes) :
    Fintype.card s.Row ≤ (s.composites.length + 1) ^ s.composites.length := by
  have hnames : (s.composites.map (·.name.lower)).toFinset.card ≤ s.composites.length := by
    simpa using List.toFinset_card_le (s.composites.map (·.name.lower))
  rw [Fintype.card_fun, Fintype.card_option, Fintype.card_coe, Fintype.card_fin]
  exact Nat.pow_le_pow_left (by omega) _

/-- A way as a row. -/
def rowOf {path : List Text} (hpath : s.KnownWay path) : s.Row := fun j =>
  path[j.val]?.pmap (fun n hn => ⟨n, hn⟩) fun n hn =>
    List.mem_toFinset.2 (hpath.2 n (List.mem_of_getElem? hn))

theorem length_le_of_knownWay {path : List Text} (hpath : s.KnownWay path) :
    path.length ≤ s.composites.length := by
  have hsub : path ⊆ s.composites.map (·.name.lower) := hpath.2
  simpa using (hpath.1.subperm hsub).length_le

theorem rowOf_inj {path path' : List Text} (hpath : s.KnownWay path) (hpath' : s.KnownWay path')
    (h : rowOf hpath = rowOf hpath') : path = path' := by
  refine List.ext_getElem? fun j => ?_
  by_cases hj : j < s.composites.length
  · have hcell := congrArg (Option.map Subtype.val) (congrFun h ⟨j, hj⟩)
    simpa [rowOf, Option.map_pmap] using hcell
  · have hlength := length_le_of_knownWay hpath
    have hlength' := length_le_of_knownWay hpath'
    rw [List.getElem?_eq_none (by omega), List.getElem?_eq_none (by omega)]

/-- A search that comes to an answer takes fewer steps than there are ways and types. -/
theorem Takes.lt_searchBound {n : Nat} {path : List Text} {c : CompositeDecl}
    (hpath : s.KnownWay path) (hc : c ∈ s.composites) (h : s.Takes name n path c) :
    n + 1 ≤ s.searchBound := by
  choose way type hway htype htakes using h.all_below hpath hc
  let code (i : Fin (n + 1)) : s.Row × s.composites.toFinset :=
    (rowOf (hway i (by omega)), ⟨type i (by omega), List.mem_toFinset.2 (htype i (by omega))⟩)
  have hcode : Function.Injective code := by
    intro i j hij
    have hways := rowOf_inj (hway i (by omega)) (hway j (by omega)) (congrArg Prod.fst hij)
    have htypes : type i _ = type j _ := congrArg (fun p => p.2.val) hij
    have hi := htakes i (by omega)
    rw [hways, htypes] at hi
    exact Fin.ext (hi.unique (htakes j (by omega)))
  have hcard := Fintype.card_le_of_injective code hcode
  rw [Fintype.card_prod, Fintype.card_coe, Fintype.card_fin] at hcard
  calc n + 1 ≤ Fintype.card s.Row * s.composites.toFinset.card := hcard
    _ ≤ (s.composites.length + 1) ^ s.composites.length * (s.composites.length + 1) :=
      Nat.mul_le_mul (card_row_le s) (Nat.le_succ_of_le (List.toFinset_card_le _))
    _ = s.searchBound := (pow_succ _ _).symm

end Count

/-- A search that comes to an answer at all does so within the bound. -/
theorem memberWithin_searchBound {n : Nat} {path : List Text} {c : CompositeDecl} {r : Found}
    (hpath : s.KnownWay path) (hc : c ∈ s.composites)
    (hr : s.memberWithin name n path c = some r) :
    s.memberWithin name s.searchBound path c = some r := by
  induction n with
  | zero => cases hr
  | succ n ih =>
    cases hn : s.memberWithin name n path c with
    | some r' =>
      have hmono := memberWithin_mono (Nat.le_succ n) hn
      rw [hr] at hmono
      cases hmono
      exact ih hn
    | none =>
      have htakes : s.Takes name n path c := ⟨hn, by rw [hr]; exact Option.some_ne_none r⟩
      exact memberWithin_mono (htakes.lt_searchBound hpath hc) hr

end ObjectPascal.Scopes
