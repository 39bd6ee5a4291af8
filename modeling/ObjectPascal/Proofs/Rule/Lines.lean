import ObjectPascal.Proofs.Rule.Provenance
import ObjectPascal.Proofs.Token.Extent

/-!
The lines recorded in the nodes of a parse. The tokens of a source are on ascending lines, and so
are those that a reduction covers, since they stand side by side in the source. A node is on the
line of one of these tokens and so not above the first or below the last. Two rules find nothing
but a name, which has lost its line; their nodes can be on the line of the token behind the name.
-/

namespace ObjectPascal

section Tokens

/-- Reading on leads to no line above. -/
theorem Place.le_line_behind (p : Place) (s : List UInt8) : p.line ≤ (p.behind s).line := by
  induction s generalizing p with
  | nil => exact Nat.le_refl _
  | cons b s ih =>
    have hpast : p.line ≤ (p.past b).line := by
      unfold past
      split
      · exact Nat.le_succ _
      · exact Nat.le_refl _
    exact Nat.le_trans hpast (ih (p.past b))

/-- The lines of tokens ascend. -/
def Ascending (ts : List Token) : Prop := ts.Pairwise fun t u => t.line ≤ u.line

/-- The tokens ahead of a cursor are on ascending lines from its own on. -/
theorem Cursor.Stands.ascending {c : Cursor} {s r : List UInt8} (h : c.Stands s r) (fuel : Nat) :
    Ascending (((c.tokensWithin fuel).map (·.1)).filter (·.kind != .eof)) ∧
      ∀ t ∈ ((c.tokensWithin fuel).map (·.1)).filter (·.kind != .eof),
        (Place.first.behind s).line ≤ t.line := by
  induction fuel generalizing c s r with
  | zero => exact ⟨.nil, nofun⟩
  | succ fuel ih =>
    obtain ⟨gap, extent, r', rfl, _, hstands, _, htoken⟩ := h.next
    obtain ⟨hrest, hle⟩ := ih hstands
    rw [tokensWithin]
    by_cases he : c.next.1.kind = .eof
    · simp [he, Ascending]
    · obtain ⟨_, hplace, _⟩ := htoken he
      have hline : c.next.1.line = (Place.first.behind (s ++ gap)).line := congrArg Place.line hplace
      have hfrom : (Place.first.behind s).line ≤ c.next.1.line := by
        rw [hline, Place.behind_append]
        exact Place.le_line_behind _ gap
      have hnext : c.next.1.line ≤ (Place.first.behind (s ++ gap ++ extent)).line := by
        rw [hline, Place.behind_append _ (s ++ gap)]
        exact Place.le_line_behind _ extent
      rw [List.map_cons, List.filter_cons_of_pos (by simpa using he), if_neg he]
      refine ⟨List.pairwise_cons.mpr ⟨fun t ht => Nat.le_trans hnext (hle t ht), hrest⟩, ?_⟩
      rw [List.forall_mem_cons]
      exact ⟨hfrom, fun t ht => Nat.le_trans hfrom (Nat.le_trans hnext (hle t ht))⟩

/-- The tokens of a source in front of its end are on ascending lines. -/
theorem Supply.ascending_ofText (source : Text) :
    Ascending (((ofText source).ahead.map (·.1)).takeWhile (·.kind != .eof)) := by
  have hall := ((Cursor.start_stands source).ascending ((Cursor.start source).size + 1)).1
  refine hall.sublist ?_
  have hcode : ((ofText source).ahead.map (·.1)).Sublist ((Cursor.start source).tokens.map (·.1)) := by
    rw [ofText, List.map_map]
    exact List.filter_sublist.map Prod.fst
  -- No token in front of the end is lost when all end tokens are left out.
  have hkeep {p : Token → Bool} (l : List Token) : (l.takeWhile p).filter p = l.takeWhile p :=
    List.filter_eq_self.mpr fun _ ht => List.mem_takeWhile_imp ht
  rw [← hkeep]
  exact ((List.takeWhile_sublist _).trans hcode).filter _

/-- A token among others on ascending lines is between the first and the last of them. -/
theorem Ascending.between {ts : List Token} (h : Ascending ts) {first last t : Token}
    (hfirst : first ∈ ts.head?) (hlast : last ∈ ts.getLast?) (ht : t ∈ ts) :
    first.line ≤ t.line ∧ t.line ≤ last.line := by
  constructor
  · obtain ⟨rest, rfl⟩ := List.head?_eq_some_iff.mp hfirst
    rcases List.mem_cons.mp ht with rfl | ht
    · exact Nat.le_refl _
    · exact (List.pairwise_cons.mp h).1 t ht
  · obtain ⟨front, rfl⟩ := List.getLast?_eq_some_iff.mp hlast
    rcases List.mem_append.mp ht with ht | ht
    · exact (List.pairwise_append.mp h).2.2 t ht last List.mem_cons_self
    · rw [List.mem_singleton.mp ht]

end Tokens

namespace Rule

open Grammar (Tables Move Run Configuration shifted)

section Lines

variable {t : Tables} {config : Config} {source : Text} {origin : Nat} {ms before : List Move}
  {c d : Configuration Value Goal Nat} {i id : Nat}

theorem ascending_covered (ht : grammar.tables = .ok t)
    (h : Run t (semantics config origin) { supply := .ofText source, memory := 0 } before c) :
    Ascending (covered before i) :=
  (Supply.ascending_ofText source).sublist
    ((covered_suffix before i).sublist.trans (shifted_prefix_ofText ht h).sublist)

/-- A node is on a line between those of the first and the last token that its reduction covers, if
the rule does not find nothing but a name. -/
theorem Placed.line_between {goal : Goal} {pos : Nat → Nat}
    (h : Placed config source origin goal t ms pos) {x : Node} (hx : x ∈ goal.nodes)
    (hnumbers : Numbers t (semantics config origin) { supply := .ofText source, memory := 0 } ms
      x.info.id before i d) {first last : Token} (hfirst : first ∈ (covered before i).head?)
    (hlast : last ∈ (covered before i).getLast?) :
    (first.line ≤ x.info.line ∧ x.info.line ≤ last.line) ∨
      (NameOnly i ∧ x.info.line = d.token.line) := by
  obtain ⟨before', j, d', horigin⟩ := h.recorded x hx
  obtain ⟨rfl, rfl, rfl⟩ := horigin.numbers.unique h.tables hnumbers
  rcases horigin.line with hnil | ⟨u, hu, hline⟩ | hnext
  · rw [hnil] at hfirst
    cases hfirst
  · rw [← hline]
    exact .inl ((ascending_covered h.tables hnumbers.run).between hfirst hlast hu)
  · exact .inr hnext

end Lines

/-- Every source is rejected, or it is accepted with a tree whose nodes were each numbered by one
reduction. If this covers a token then the line recorded in the node is not above the line of the
first token covered and not below that of the last one. The exception are the rules that find
nothing but a name, for a type that is only named and for a unit that is used without a file. Their
nodes are on the line of their text, or on that of the token behind it. -/
theorem lines_within_text (config : Config) (source : Text) (origin : Nat) :
    (∃ place message,
      (parse config source origin).result = .error (.rejection place message)) ∨
    ∃ goal t ms c, (parse config source origin).result = .ok goal ∧ grammar.tables = .ok t ∧
      Run t (semantics config origin) { supply := .ofText source, memory := 0 } ms c ∧
      c.goal = some goal ∧ ∀ x ∈ goal.nodes,
        (∃ before i d, Numbers t (semantics config origin)
          { supply := .ofText source, memory := 0 } ms x.info.id before i d) ∧
        ∀ before i d, Numbers t (semantics config origin)
            { supply := .ofText source, memory := 0 } ms x.info.id before i d →
          ∀ first ∈ (covered before i).head?, ∀ last ∈ (covered before i).getLast?,
            (first.line ≤ x.info.line ∧ x.info.line ≤ last.line) ∨
              (NameOnly i ∧ x.info.line = d.token.line) := by
  refine (rejected_or_placed config source origin).imp_right ?_
  rintro ⟨goal, t, ms, pos, hresult, hplaced⟩
  obtain ⟨c, hrun, _, hgoal⟩ := hplaced.run
  refine ⟨goal, t, ms, c, hresult, hplaced.tables, hrun, hgoal, fun x hx => ⟨?_, ?_⟩⟩
  · obtain ⟨before, i, d, horigin⟩ := hplaced.recorded x hx
    exact ⟨before, i, d, horigin.numbers⟩
  · intro before i d hnumbers first hfirst last hlast
    exact hplaced.line_between hx hnumbers hfirst hlast

/-- A semicolon on the second line is looked at where the first line ends with the name of a
type. -/
def betweenLines : Configuration Value Goal Nat where
  values := [⟨.text, Text.ofString "Integer"⟩]
  ahead := some ⟨.semicolon, 1, ⟨2, 1⟩, ";"⟩
  supply := ⟨[], ⟨2, 2⟩⟩
  lastLine := 1
  memory := 0

/-- The type is recorded on the second line, although its name is read on the first. -/
theorem type_on_next_line : ∃ i e, NameOnly i ∧ betweenLines.lastLine = 1 ∧
    betweenLines.valueOf (semantics {} 0) i betweenLines.values = .ok e ∧
    e.value = ⟨.type, .named ⟨⟨1, 2, 0⟩, Text.ofString "Integer"⟩⟩ := by
  obtain ⟨r, hr, hlhs, hrhs, hvalue⟩ : ∃ r ∈ all, r.lhs = .namedType ∧
      r.rhs = [.phrase .qualident] ∧ ∃ e, reduction {} 0 r 2 betweenLines.values 0 = .ok e ∧
      e.value = ⟨.type, .named ⟨⟨1, 2, 0⟩, Text.ofString "Integer"⟩⟩ := by
    have hmem : simpleTypes ⊆ all := fun r hr => by simp [all, types, hr]
    exact ⟨_, hmem (List.mem_of_getElem? (i := 13) rfl), rfl, rfl, _, rfl, rfl⟩
  obtain ⟨i, hi⟩ := exists_production hr
  obtain ⟨e, he, hnode⟩ := hvalue
  exact ⟨i, e, .inl ⟨r, hi, hlhs, hrhs⟩, rfl, (valueOf_eq_reduction hi _ _).trans he, hnode⟩

end Rule

end ObjectPascal
