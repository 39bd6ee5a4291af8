import ObjectPascal.Proofs.Closure.Captures

/-!
The names of closure parameters. A parameter has the name of its variable, or the first numbered
form of it that is not taken by the routine or by an earlier parameter. Different numbers give names
that differ in small letters too, so there are more of these forms than names that are taken, and
the search for a free one comes to an end.
-/

namespace ObjectPascal.Closure

open Binding

section Names

variable {taken : List Text} {name : Text}

/-- A name with a number behind it. -/
def numbered (name : Text) (i : Nat) : Text := name ++ Text.ofString "_" ++ Text.ofNat i

/-- How a parameter for a variable is named where some names are taken: like the variable, or with
the first number from 1 on that gives a free name. -/
inductive Named (taken : List Text) (name : Text) : Text → Prop
  | kept (hfree : name.lower ∉ taken) : Named taken name name
  | numbered {i : Nat} (hi : 1 ≤ i) (htaken : name.lower ∈ taken)
      (hfirst : ∀ j, 1 ≤ j → j < i → (numbered name j).lower ∈ taken)
      (hfree : (numbered name i).lower ∉ taken) : Named taken name (numbered name i)

theorem lower_numbered (name : Text) (i : Nat) :
    (numbered name i).lower = name.lower ++ Text.ofString "_" ++ Text.ofNat i := by
  have hbar : (Text.ofString "_").isAscii = true := by decide
  have hlower : (Text.ofString "_").lower = Text.ofString "_" := by decide
  rw [numbered, Text.lower_append _ (Text.isAscii_ofNat i), Text.lower_append _ hbar,
    Text.lower_ofNat, hlower]

/-- Different numbers give names that differ in more than case. -/
theorem numbered_inj {i j : Nat} (h : (numbered name i).lower = (numbered name j).lower) :
    i = j := by
  rw [lower_numbered, lower_numbered] at h
  have hbytes := congrArg Text.bytes h
  simp only [Text.bytes_append, List.append_cancel_left_eq] at hbytes
  exact Text.ofNat_inj (congrArg Text.mk hbytes)

/-- One of the first numbers gives a free name, as there are more of them than names taken. -/
theorem exists_free (taken : List Text) (name : Text) :
    ∃ i ≤ taken.length, (numbered name (i + 1)).lower ∉ taken := by
  by_contra hall
  push Not at hall
  let forms := (List.range (taken.length + 1)).map fun i => (numbered name (i + 1)).lower
  have hnodup : forms.Nodup :=
    List.nodup_range.map fun i j hij => Nat.succ.inj (numbered_inj hij)
  have hsub : forms ⊆ taken := by
    intro t ht
    obtain ⟨i, hi, rfl⟩ := List.mem_map.mp ht
    exact hall i (Nat.lt_succ_iff.mp (List.mem_range.mp hi))
  have hle : forms.length ≤ taken.length := (List.subperm_of_subset hnodup hsub).length_le
  have hlength : forms.length = taken.length + 1 := by simp [forms]
  omega

theorem freshName_eq (taken : List Text) (name : Text) : freshName taken name =
    ((name :: (List.range (taken.length + 1)).map fun i => numbered name (i + 1)).find?
      fun t => !taken.contains t.lower).getD name := rfl

/-- The search for a name ends with a free one. -/
theorem freshName_named (taken : List Text) (name : Text) :
    Named taken name (freshName taken name) := by
  by_cases hname : name.lower ∈ taken
  · obtain ⟨i, hi, hfree⟩ := exists_free taken name
    cases hfind : (List.range (taken.length + 1)).find? fun i =>
        !taken.contains (numbered name (i + 1)).lower with
    | none =>
      have htaken := List.find?_eq_none.mp hfind i (List.mem_range.mpr (Nat.lt_succ_of_le hi))
      simp [hfree] at htaken
    | some k =>
      obtain ⟨hk, -, hbefore⟩ := List.find?_range_eq_some.mp hfind
      have hfresh : freshName taken name = numbered name (k + 1) := by
        rw [freshName_eq, List.find?_cons_of_neg (by simpa using hname), List.find?_map]
        exact congrArg (fun o => (o.map fun i => numbered name (i + 1)).getD name) hfind
      rw [hfresh]
      refine .numbered (Nat.succ_pos k) hname ?_ (by simpa using hk)
      intro j hj hjk
      obtain ⟨j, rfl⟩ := Nat.exists_eq_add_of_le' hj
      simpa using hbefore j (Nat.lt_of_succ_lt_succ hjk)
  · have hkept : freshName taken name = name := by
      rw [freshName_eq, List.find?_cons_of_pos (by simpa using hname)]
      rfl
    rw [hkept]
    exact .kept hname

theorem Named.free {t : Text} (h : Named taken name t) : t.lower ∉ taken := by
  cases h with
  | kept hfree => exact hfree
  | numbered _ _ _ hfree => exact hfree

/-- Only which names are taken matters. -/
theorem Named.congr {taken' : List Text} (heq : ∀ t, t ∈ taken ↔ t ∈ taken') {t : Text}
    (h : Named taken name t) : Named taken' name t := by
  cases h with
  | kept hfree => exact .kept fun hin => hfree ((heq _).mpr hin)
  | numbered hi htaken hfirst hfree =>
    exact .numbered hi ((heq _).mp htaken) (fun j hj hlt => (heq _).mp (hfirst j hj hlt))
      fun hin => hfree ((heq _).mpr hin)

end Names

/-! The parameters of a routine, one after the other. -/

/-- Each parameter is named where the names of the earlier ones are taken too. -/
theorem capturesOf_named (taken : List Text) (as : List Access) (i : Nat) (x : Capture)
    (hx : (capturesOf taken as)[i]? = some x) :
    Named (taken ++ ((capturesOf taken as).take i).map (·.name.lower)) x.decl.name x.name := by
  induction as generalizing taken i with
  | nil => cases hx
  | cons a as ih =>
    rw [capturesOf] at hx ⊢
    cases i with
    | zero =>
      obtain rfl := Option.some.inj hx
      rw [List.take_zero, List.map_nil, List.append_nil]
      exact freshName_named taken a.decl.name
    | succ i =>
      -- The name given first counts as taken from then on.
      have hrest := ih _ i hx
      refine hrest.congr fun t => ?_
      simp only [List.take_succ_cons, List.map_cons, List.mem_append, List.mem_cons]
      tauto

theorem capturesOf_nodup (taken : List Text) (as : List Access) :
    (∀ x ∈ capturesOf taken as, x.name.lower ∉ taken) ∧
      ((capturesOf taken as).map (·.name.lower)).Nodup := by
  induction as generalizing taken with
  | nil => exact ⟨fun x hx => absurd hx List.not_mem_nil, List.nodup_nil⟩
  | cons a as ih =>
    obtain ⟨hfree, hnodup⟩ := ih ((freshName taken a.decl.name).lower :: taken)
    constructor
    · intro x hx
      rcases List.mem_cons.mp hx with rfl | hx
      · exact (freshName_named taken a.decl.name).free
      · exact fun hin => hfree x hx (List.mem_cons_of_mem _ hin)
    · rw [capturesOf, List.map_cons, List.nodup_cons]
      refine ⟨fun hin => ?_, hnodup⟩
      obtain ⟨x, hx, heq⟩ := List.mem_map.mp hin
      exact hfree x hx (heq ▸ List.mem_cons_self)

theorem origins_capturesOf (taken : List Text) (as : List Access) :
    (capturesOf taken as).map (fun x => (x.source, x.decl)) = as.map fun a => (a.source, a.decl) := by
  induction as generalizing taken with
  | nil => rfl
  | cons a as ih => exact congrArg ((a.source, a.decl) :: ·) (ih _)

/-- The names that are taken in a nested routine: those of its parameters and declarations. -/
def Nested.taken (n : Nested) : List Text :=
  n.routine.paramList.map (·.name.lower) ++ (localDecls n.routine).map (·.name.lower)

/-- The names of closure parameters are fresh. In every nested routine that is reported there is one
parameter for each variable from outside that its statements use. The names of the parameters differ
from each other, from those of the routine's own parameters and from those of its declarations in
more than case. Each is the name of the variable, if this is not taken by the routine or by an
earlier parameter, and otherwise the name with the first number from 1 on that makes it free; it is
marked as renamed exactly if it is not the name of the variable. -/
theorem closure_names_fresh {c : Binding} {g : Goal} {n : Nested} (hn : n ∈ analyze c g) :
    n.captures.map (fun x => (x.source, x.decl)) =
      (accesses c n.outer n.routine).map (fun a => (a.source, a.decl)) ∧
    (n.captures.map (·.name.lower)).Nodup ∧
    (∀ x ∈ n.captures, (∀ p ∈ n.routine.paramList, x.name.lower ≠ p.name.lower) ∧
      ∀ d ∈ localDecls n.routine, x.name.lower ≠ d.name.lower) ∧
    ∀ i x, n.captures[i]? = some x →
      Named (n.taken ++ (n.captures.take i).map (·.name.lower)) x.decl.name x.name ∧
        (x.isRenamed = true ↔ x.name ≠ x.decl.name) := by
  obtain ⟨outer, d, -, -, -, rfl, -⟩ := mem_analyze_iff.mp hn
  have hcaptures : (nestedOf c outer (pathTo g (outer ++ [d])) d).captures =
      capturesOf (nestedOf c outer (pathTo g (outer ++ [d])) d).taken (accesses c outer d) := rfl
  obtain ⟨hfree, hnodup⟩ :=
    capturesOf_nodup (nestedOf c outer (pathTo g (outer ++ [d])) d).taken (accesses c outer d)
  rw [hcaptures]
  refine ⟨origins_capturesOf _ _, hnodup, fun x hx => ⟨fun p hp heq => ?_, fun e he heq => ?_⟩,
    fun i x hx => ⟨capturesOf_named _ _ i x hx, ?_⟩⟩
  · exact hfree x hx (List.mem_append_left _ (List.mem_map.mpr ⟨p, hp, heq.symm⟩))
  · exact hfree x hx (List.mem_append_right _ (List.mem_map.mpr ⟨e, he, heq.symm⟩))
  · rw [Capture.isRenamed, bne_iff_ne]

/-- A procedure that exports the name `V` and sets the variable of that name around it. -/
def exportingRoutine : CallableDecl :=
  let node (id : Nat) : NodeInfo := { id, line := 1 }
  let assignment : Stmt := .assign (node 6) (.name (node 4) "V") (.int (node 5) 1 "1")
  { info := node 9, name := "Inner", kind := .procedure,
    body := some ⟨node 8, [.exported { info := node 3, name := "V" }],
      .compound (node 7) [assignment]⟩ }

/-- A program with this procedure in another one that declares the variable. -/
def exportingProgram : Goal :=
  let node (id : Nat) : NodeInfo := { id, line := 1 }
  let declared : VarDecl :=
    { info := node 2, name := "V", type := some (.named { info := node 1, name := "Integer" }) }
  let outer : CallableDecl :=
    { info := node 12, name := "Outer", kind := .procedure,
      body := some ⟨node 11, [.var declared, .callable exportingRoutine], .compound (node 10) []⟩ }
  .program { info := node 15, name := "P",
             block := ⟨node 14, [.callable outer], .compound (node 13) []⟩ }

/-- The exported name is taken, so the parameter for the variable is numbered. -/
theorem closure_names_fresh_exporting : ∃ c, ofGoal {} ∅ exportingProgram 15 = (.ok (), c) ∧
    ∃ n ∈ analyze c exportingProgram, n.captures.map (·.name) = [numbered "V" 1] ∧
      ∀ x ∈ n.captures, (∀ d ∈ localDecls n.routine, x.name.lower ≠ d.name.lower) ∧
        x.isRenamed = true := by
  have hends : endsWith (ofGoal {} ∅ exportingProgram 15) (fun c =>
      (analyze c exportingProgram).map (fun n => n.captures.map fun x => (x.name, x.decl.name)) ==
        [[(numbered "V" 1, Text.ofString "V")]]) = true := by decide +kernel
  obtain ⟨c, hc, hends⟩ := exists_of_endsWith hends
  obtain ⟨n, rest, hn, hnames, -⟩ := List.map_eq_cons_iff.mp (eq_of_beq hends)
  have hmem : n ∈ analyze c exportingProgram := hn ▸ List.mem_cons_self
  obtain ⟨-, -, hfree, hnamed⟩ := closure_names_fresh hmem
  have hname : n.captures.map (·.name) = [numbered "V" 1] := by
    have hfst := congrArg (List.map Prod.fst) hnames
    rwa [List.map_map] at hfst
  refine ⟨c, hc, n, hmem, hname, fun x hx => ⟨(hfree x hx).2, ?_⟩⟩
  obtain ⟨i, hi⟩ := List.mem_iff_getElem?.mp hx
  have hpair : (x.name, x.decl.name) ∈ [(numbered "V" 1, Text.ofString "V")] :=
    hnames ▸ List.mem_map.mpr ⟨x, hx, rfl⟩
  obtain ⟨hxname, hdecl⟩ := Prod.mk.inj (List.mem_singleton.mp hpair)
  rw [(hnamed i x hi).2, hxname, hdecl]
  decide

end ObjectPascal.Closure
