import ObjectPascal.Proofs.Rule.Pieces

/-!
Builders put nodes where their text is. What a builder makes of arguments that are arranged in a
stretch of tokens is arranged in the same stretch: a new node is put at the word it is made for, or
where the stretch begins, and its direct parts are those of the arguments, in their order.
-/

namespace ObjectPascal.Rule

open Scene (Held Spans Arranged)

variable {α β : Type} {σ : Scene} {P R : Places → Prop}

/-- Where nodes are placed so that `P` holds, what the builder gives can be placed so that `Q`
holds, and all nodes keep their places. -/
def Goes (σ : Scene) (P : Places → Prop) (b : Build α) (Q : α → Places → Prop) : Prop :=
  ∀ site v last m, b site m.last = .ok (v, last) → site.line = σ.line → σ.first ≤ m.last → P m →
    ∃ m', m.Extends m' ∧ m'.last = last ∧ Q v m'

/-- What holds of places still holds when there are more. -/
def Lasting (P : Places → Prop) : Prop := ∀ m m', m.Extends m' → P m → P m'

theorem lasting_arranged (a : Nat) (ps : List Piece) (b : Nat) :
    Lasting fun m => σ.Arranged m a ps b := fun _ _ hm h => h.extend hm

/-- The number is new, and the place is kept for its node. -/
structure Scene.Kept (σ : Scene) (m : Places) (i : NodeInfo) (p : Nat) : Prop where
  new : σ.first < i.id
  numbered : i.id ≤ m.last
  pos : m.pos i.id = p

theorem Scene.Kept.extend {m m' : Places} {i : NodeInfo} {p : Nat} (h : σ.Kept m i p)
    (hm : m.Extends m') : σ.Kept m' i p :=
  ⟨h.new, Nat.le_trans h.numbered hm.1, (hm.2 _ h.numbered).trans h.pos⟩

/-- A new node stands where the stretch begins. -/
structure Scene.Leads (σ : Scene) (m : Places) (n : Node) : Prop where
  pos : m.pos n.info.id = σ.lo
  held : ∀ x ∈ n.nodes, σ.Held m x

theorem Scene.Leads.extend {m m' : Places} {n : Node} (h : σ.Leads m n) (hm : m.Extends m') :
    σ.Leads m' n :=
  ⟨(hm.2 _ (h.held n n.self_mem).numbered).trans h.pos, fun x hx => (h.held x hx).extend hm⟩

namespace Goes

variable {b : Build α} {Q Q' : α → Places → Prop}

theorem pure {a : α} (h : ∀ m, P m → Q a m) : Goes σ P (Pure.pure a : Build α) Q := by
  rintro site _ _ m ⟨⟩ _ _ hm
  exact ⟨m, .refl m, rfl, h m hm⟩

theorem bind {k : α → Build β} {T : β → Places → Prop} (hb : Goes σ P b Q)
    (hk : ∀ a, Goes σ (Q a) (k a) T) : Goes σ P (b >>= k) T := by
  intro site v last m h hline hfirst hm
  obtain ⟨⟨a, last'⟩, hrun, hrest⟩ := bind_eq_ok.mp h
  obtain ⟨m', hext, rfl, hm'⟩ := hb site a last' m hrun hline hfirst hm
  obtain ⟨m'', hext', hlast, hm''⟩ :=
    hk a site v last m' hrest hline (Nat.le_trans hfirst hext.1) hm'
  exact ⟨m'', hext.trans hext', hlast, hm''⟩

theorem mono (hb : Goes σ R b Q) (hP : ∀ m, P m → R m) (hQ : ∀ a m, Q a m → Q' a m) :
    Goes σ P b Q' := by
  intro site v last m h hline hfirst hm
  obtain ⟨m', hext, hlast, hm'⟩ := hb site v last m h hline hfirst (hP m hm)
  exact ⟨m', hext, hlast, hQ v m' hm'⟩

/-- What lasts stays beside. -/
theorem beside (hR : Lasting R) (hb : Goes σ P b Q) :
    Goes σ (fun m => P m ∧ R m) b fun a m => Q a m ∧ R m := by
  intro site v last m h hline hfirst ⟨hm, hr⟩
  obtain ⟨m', hext, hlast, hm'⟩ := hb site v last m h hline hfirst hm
  exact ⟨m', hext, hlast, hm', hR m m' hext hr⟩

theorem ite {c : Prop} [Decidable c] {b b' : Build α} (hb : Goes σ P b Q) (hb' : Goes σ P b' Q) :
    Goes σ P (if c then b else b') Q := by
  split
  · exact hb
  · exact hb'

theorem read : Goes σ P (MonadReader.read : Build Site) fun site m => P m ∧ site.line = σ.line := by
  rintro site _ _ m ⟨⟩ hline _ hm
  exact ⟨m, .refl m, rfl, hm, hline⟩

theorem reject (line : Nat) (message : Text) : Goes σ P (Rule.reject line message : Build α) Q := by
  rintro site v last m ⟨⟩

theorem require (f : Feature) (line : Nat) (what : Text) :
    Goes σ P (Rule.require f line what) fun _ => P :=
  read.bind fun _ => ite (pure fun _ h => h.1) ((reject _ _).mono (fun _ h => h) fun _ _ h => h)

/-- Any place can be kept for the node of a new number. -/
theorem nodeAt (hP : Lasting P) (line p : Nat) :
    Goes σ P (Rule.nodeAt line) fun i m => (P m ∧ σ.Kept m i p) ∧ i.line = line := by
  rintro site _ _ m ⟨⟩ _ hfirst hm
  have hext : m.Extends ⟨Function.update m.pos (m.last + 1) p, m.last + 1⟩ := by
    refine ⟨Nat.le_succ _, fun i hi => Function.update_of_ne ?_ _ _⟩
    omega
  refine ⟨_, hext, rfl, ⟨hP m _ hext hm, ?_⟩, rfl⟩
  exact ⟨Nat.lt_succ_of_le hfirst, Nat.le_refl _, Function.update_self _ _ _⟩

theorem node (hP : Lasting P) (p : Nat) :
    Goes σ P Rule.node fun i m => (P m ∧ σ.Kept m i p) ∧ i.line = σ.line := by
  refine read.bind fun site => ?_
  intro site' v last m h hline hfirst ⟨hm, hsite⟩
  rw [← hsite]
  exact nodeAt hP site.line p site' v last m h hline hfirst hm

theorem forIn {k : β → α → Build (ForInStep α)} (hk : ∀ x a, Goes σ P (k x a) fun _ => P)
    (l : List β) (a : α) : Goes σ P (ForIn.forIn l a k) fun _ => P := by
  induction l generalizing a with
  | nil => exact pure fun _ h => h
  | cons x l ih =>
    rw [List.forIn_cons]
    refine (hk x a).bind fun step => ?_
    cases step with
    | done a => exact pure fun _ h => h
    | yield a => exact ih a

/-- A builder works on a part of a stretch, and what stands around stays. -/
theorem within {ps : List Piece} {g : α → List Piece}
    (hb : ∀ a c, σ.lo ≤ a → c ≤ σ.hi →
      Goes σ (fun m => σ.Arranged m a ps c) b fun v m => σ.Arranged m a (g v) c)
    (front back : List Piece) {a c : Nat} (ha : σ.lo ≤ a) (hc : c ≤ σ.hi) :
    Goes σ (fun m => σ.Arranged m a (front ++ (ps ++ back)) c) b fun v m =>
      σ.Arranged m a (front ++ (g v ++ back)) c := by
  intro site v last m h hline hfirst hm
  obtain ⟨d, hfront, hm⟩ := hm.split
  obtain ⟨e, hps, hback⟩ := hm.split
  obtain ⟨m', hext, hlast, hm'⟩ := hb d e (Nat.le_trans ha hfront.le)
    (Nat.le_trans hback.le hc) site v last m h hline hfirst hps
  exact ⟨m', hext, hlast, (hfront.extend hext).append (hm'.append (hback.extend hext))⟩

/-- What is built of one part after the other stands as the parts do. -/
theorem mapM {k : β → Build α} {f : β → List Piece} {g : α → List Piece}
    (hk : ∀ x a c, σ.lo ≤ a → c ≤ σ.hi →
      Goes σ (fun m => σ.Arranged m a (f x) c) (k x) fun y m => σ.Arranged m a (g y) c)
    (l : List β) {a c : Nat} (ha : σ.lo ≤ a) (hc : c ≤ σ.hi) :
    Goes σ (fun m => σ.Arranged m a (l.flatMap f) c) (l.mapM k) fun ys m =>
      σ.Arranged m a (ys.flatMap g) c := by
  induction l generalizing a c with
  | nil => exact pure fun _ h => h
  | cons x l ih =>
    rw [List.mapM_cons, List.flatMap_cons]
    refine (within (hk x) [] (l.flatMap f) ha hc).bind fun y => ?_
    have hrest := within (fun a c ha hc => ih ha hc) (g y) [] ha hc
    simp only [List.append_nil] at hrest
    exact hrest.bind fun ys => pure fun m h => h

end Goes

section Seats

variable {m : Places} {n d : Node} {i : NodeInfo} {w : Word} {a c : Nat} {ps : List Piece}

/-- A rule may put the node where its stretch begins, over nodes that it finds there. -/
def Seated (admits : Node → Bool) (i : NodeInfo) (ns : List Node) (n : Node) : Prop :=
  n.info = i ∧ wordOf n = none ∧ admits n = true ∧
    (n.children.Sublist ns ∨ (n.isExport = true ∧ ∀ c ∈ n.children, c ∈ ns))

theorem behind_word (h : σ.Arranged m a (.word w :: ps) c) : σ.Arranged m (a + 1) ps c := by
  cases h with
  | word hp _ _ h => exact h.mono_left (Nat.succ_le_succ hp)

/-- What is told of a node that is put where the stretch begins. -/
theorem tells_of_kept (hk : σ.Kept m i σ.lo) (hline : i.line = σ.line) (hi : n.info = i)
    (hword : wordOf n = none) (ha : σ.admits n = true) : σ.Tells n (m.pos n.info.id) := by
  refine .inr ⟨hi ▸ hk.new, ?_⟩
  rw [Scene.Puts, hword, hi]
  exact ⟨hk.pos, hline, ha⟩

theorem spans_of_kept (hk : σ.Kept m i σ.lo) (hline : i.line = σ.line) (hi : n.info = i)
    (ha : σ.admits n = true) : σ.Spans m n σ.lo σ.hi := by
  subst hi
  refine ⟨Nat.le_of_eq hk.pos.symm, ?_, ?_, ?_⟩
  all_goals rw [hk.pos]
  · exact σ.le
  · exact σ.full n ha
  · rw [hline]
    exact σ.lined n ha

/-- A node that is put where the stretch begins, over pieces of the stretch. -/
theorem seat (hk : σ.Kept m i σ.lo) (hline : i.line = σ.line)
    (h : σ.Arranged m σ.lo ps σ.hi) (hn : Seated σ.admits i (nodesOf ps) n) :
    σ.Arranged m σ.lo [.node n] σ.hi := by
  obtain ⟨hi, hword, ha, hparts⟩ := hn
  have htakes : n.TakesFrom (nodesOf ps) := hparts.elim .of_sublist fun h => .of_isExport h.1 h.2
  refine .node (spans_of_kept hk hline hi ha)
    (h.held ?_ ?_ (tells_of_kept hk hline hi hword ha) htakes) (.nil (Nat.le_refl _))
  · rw [hi]
    exact hk.numbered
  · rw [hi]
    exact Nat.le_of_eq hk.pos

/-- A node over another new node, which stands where the stretch begins, and pieces behind a
word. -/
theorem seat_cons {ns : List Node} (hk : σ.Kept m i σ.lo) (hline : i.line = σ.line)
    (h : σ.Arranged m σ.lo (.word w :: ps) σ.hi) (hi : n.info = i) (hword : wordOf n = none)
    (ha : σ.admits n = true) (hd : σ.Leads m d) (hchildren : n.children = d :: ns) (hsub : ns.Sublist (nodesOf ps)) :
    σ.Arranged m σ.lo [.node n] σ.hi := by
  obtain ⟨hall, hpair⟩ := (behind_word h).nodes
  refine .node (spans_of_kept hk hline hi ha)
    (Held.nodes ?_ (tells_of_kept hk hline hi hword ha) (fun c hc => ?_) ?_)
    (.nil (Nat.le_refl _))
  · rw [hi]
    exact hk.numbered
  · rw [hi, hk.pos]
    rw [hchildren] at hc
    rcases List.mem_cons.mp hc with rfl | hc
    · exact ⟨Nat.le_of_eq hd.pos.symm, hd.held⟩
    · obtain ⟨hle, hc⟩ := hall c (hsub.subset hc)
      exact ⟨Nat.le_of_succ_le hle, hc⟩
  · rw [Node.InOrder, hchildren, List.pairwise_cons]
    refine ⟨fun c hc => .inl ?_, (hpair.sublist hsub).imp .inl⟩
    have hle := (hall c (hsub.subset hc)).1
    rw [Node.Precedes, hd.pos]
    exact ⟨Nat.le_of_succ_le hle, fun _ => hle⟩

/-- A new node without parts is held. -/
theorem leaf_held (hk : σ.Kept m i σ.lo) (hline : i.line = σ.line) (hi : n.info = i)
    (hword : wordOf n = none) (ha : σ.admits n = true) (hn : n.children = []) :
    ∀ x ∈ n.nodes, σ.Held m x := by
  refine Held.nodes ?_ (tells_of_kept hk hline hi hword ha) ?_ ?_
  · rw [hi]
    exact hk.numbered
  · simp [hn]
  · simp [Node.InOrder, hn]

/-- A node that is put at the word it is made for. -/
theorem spans_of_word {p : Nat} {t : Token} (hk : σ.Kept m i p) (hline : i.line = w.line)
    (hlo : σ.lo ≤ p) (hhi : p < σ.hi) (ht : σ.tokens[p]? = some t) (hw : w.Fits t)
    (hi : n.info = i) {s : Option Text} (hword : wordOf n = some ⟨i.line, s⟩)
    (hs : ∀ u ∈ s, u ∈ w.text) :
    σ.Spans m n p (p + 1) ∧ σ.Tells n (m.pos n.info.id) := by
  subst hi
  refine ⟨⟨Nat.le_of_eq hk.pos.symm, ?_, fun _ => ?_, fun _ => ?_⟩, .inr ⟨hk.new, ?_⟩⟩
  all_goals rw [hk.pos]
  · exact Nat.le_succ p
  · exact Nat.lt_succ_self p
  · exact ⟨p, t, Nat.le_refl p, Nat.lt_succ_self p, ht, hw.1.trans hline.symm⟩
  · rw [Scene.Puts, hword]
    exact ⟨hlo, hhi, t, ht, hw.1.trans hline.symm, fun u hu => hw.2 u (hs u hu)⟩

namespace Goes

/-- A builder that makes a node of a word. -/
theorem word {f : NodeInfo → α} {n : α → Node} {s : Option Text} {l : List Piece}
    (hinfo : ∀ i, (n (f i)).info = i) (hword : ∀ i, wordOf (n (f i)) = some ⟨i.line, s⟩)
    (hs : ∀ u ∈ s, u ∈ w.text) (htakes : ∀ i, (n (f i)).TakesFrom (nodesOf l))
    (ha : σ.lo ≤ a) (hc : c ≤ σ.hi) :
    Goes σ (fun m => σ.Arranged m a (.word w :: l) c) (do return f (← Rule.nodeAt w.line))
      fun v m => σ.Arranged m a [.node (n v)] c := by
  intro site v last m h hline hfirst hm
  cases hm with
  | @word _ p _ _ t _ hp ht hw hm =>
    have hall : Goes σ (fun m => σ.Arranged m (p + 1) l c) (do return f (← Rule.nodeAt w.line))
        fun v m => σ.Arranged m a [.node (n v)] c := by
      refine (nodeAt (lasting_arranged _ _ _) w.line p).bind fun i => pure fun m hm => ?_
      obtain ⟨⟨hm, hk⟩, hi⟩ := hm
      obtain ⟨hspan, htells⟩ := spans_of_word hk hi (Nat.le_trans ha hp)
        (Nat.lt_of_lt_of_le hm.le hc) ht hw (hinfo i) (hword i) hs
      refine .node (hspan.mono hp hm.le) (hm.held ?_ ?_ htells (htakes i)) (.nil (Nat.le_refl c))
      · rw [hinfo]
        exact hk.numbered
      · rw [hinfo, hk.pos]
        exact Nat.le_succ p
    exact hall site v last m h hline hfirst hm

/-- The names of a group are numbered in turn, and the parts of all are those behind the names. -/
theorem names {f : Token → NodeInfo → α} {n : α → Node} {l : List Node}
    (hinfo : ∀ t i, (n (f t i)).info = i)
    (hword : ∀ t i, wordOf (n (f t i)) = some ⟨i.line, some t.text⟩)
    (hchildren : ∀ t i, (n (f t i)).children = l) (ts : List Token) (ha : σ.lo ≤ a)
    (hc : c ≤ σ.hi) :
    Goes σ (fun m => σ.Arranged m a ((ts.map nameWord).map .word ++ l.map .node) c)
      (ts.mapM fun t => do return f t (← Rule.nodeAt t.line)) fun vs m =>
      σ.Arranged m a ((vs.map n).map .node) c := by
  -- The parts stay behind the names while these are numbered.
  have hall (b : Nat) : Goes σ
      (fun m => σ.Arranged m a ((ts.map nameWord).map .word) b ∧ σ.Arranged m b (l.map .node) c)
      (ts.mapM fun t => do return f t (← Rule.nodeAt t.line)) fun vs m =>
      σ.Arranged m a ((vs.map n).map .node) b ∧ σ.Arranged m b (l.map .node) c := by
    induction ts generalizing a with
    | nil => exact pure fun _ h => h
    | cons t ts ih =>
      intro site v last m h hline hfirst ⟨hm, hcs⟩
      cases hm with
      | @word _ p _ _ u _ hp hu hw hm =>
        have hlo : σ.lo ≤ p := Nat.le_trans ha hp
        have hpb : p < b := hm.le
        have hone : Goes σ
            (fun m => σ.Arranged m (p + 1) ((ts.map nameWord).map .word) b ∧
              σ.Arranged m b (l.map .node) c)
            (do return f t (← Rule.nodeAt t.line)) fun v m =>
            (σ.Arranged m (p + 1) ((ts.map nameWord).map .word) b ∧
              σ.Arranged m b (l.map .node) c) ∧ σ.Arranged m a [.node (n v)] (p + 1) := by
          have hlasting : Lasting fun m => σ.Arranged m (p + 1) ((ts.map nameWord).map .word) b ∧
              σ.Arranged m b (l.map .node) c := fun _ _ hm h => ⟨h.1.extend hm, h.2.extend hm⟩
          refine (nodeAt hlasting t.line p).bind fun i => pure fun m hm => ?_
          obtain ⟨⟨⟨hts, hcs⟩, hk⟩, hi⟩ := hm
          have hsub : (n (f t i)).children.Sublist (nodesOf (l.map .node)) := by
            rw [hchildren, nodesOf_nodes]
          obtain ⟨hspan, htells⟩ := spans_of_word hk hi hlo
            (Nat.lt_of_lt_of_le hpb (Nat.le_trans hcs.le hc)) hu hw (hinfo t i) (hword t i)
            fun _ h => h
          refine ⟨⟨hts, hcs⟩, .node (hspan.mono hp (Nat.le_refl _)) (hcs.held ?_ ?_ htells
            (.of_sublist hsub)) (.nil (Nat.le_refl _))⟩
          · rw [hinfo]
            exact hk.numbered
          · rw [hinfo, hk.pos]
            exact Nat.le_of_lt hpb
        rw [List.mapM_cons] at h
        refine bind (T := fun vs m => σ.Arranged m a ((vs.map n).map .node) b ∧
          σ.Arranged m b (l.map .node) c) hone (fun v => ?_) site v last m h hline hfirst ⟨hm, hcs⟩
        refine (beside (lasting_arranged _ _ _) (ih (Nat.le_succ_of_le hlo))).bind fun vs =>
          pure fun m hm => ?_
        obtain ⟨⟨hvs, hcs⟩, hv⟩ := hm
        exact ⟨hv.append hvs, hcs⟩
  intro site v last m h hline hfirst hm
  obtain ⟨b, hts, hcs⟩ := hm.split
  obtain ⟨m', hext, hlast, hvs, hcs⟩ := hall b site v last m h hline hfirst ⟨hts, hcs⟩
  exact ⟨m', hext, hlast, hvs.mono_right hcs.le⟩

end Goes

end Seats

end ObjectPascal.Rule
