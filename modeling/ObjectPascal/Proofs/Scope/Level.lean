import Mathlib.Data.List.Basic
import Mathlib.Data.List.Nodup
import ObjectPascal.Proofs.Effect
import ObjectPascal.Proofs.Scope.Builtin
import ObjectPascal.Scope.Heritage

/-!
What the operations on scopes change. Declaring a name lets one frame grow, the innermost one or,
for a declaration with a frame of its own, the one around it; all other frames stay as they are.
Loading a type only pushes frames, and leaving a method pops exactly those that were pushed for
it.
-/

namespace ObjectPascal

namespace Frame

/-- The same frame, perhaps with new names after the old ones and new meanings of names. -/
structure GrowsTo (f g : Frame) : Prop where
  name : g.name = f.name
  owner : g.owner = f.owner
  names : f.names <+: g.names

theorem GrowsTo.refl (f : Frame) : f.GrowsTo f := ⟨rfl, rfl, List.prefix_rfl⟩

theorem GrowsTo.trans {f g h : Frame} (hfg : f.GrowsTo g) (hgh : g.GrowsTo h) : f.GrowsTo h :=
  ⟨hgh.name.trans hfg.name, hgh.owner.trans hfg.owner, hfg.names.trans hgh.names⟩

theorem growsTo_of_add? {f g : Frame} {name : Text} {d : Decl} (h : f.add? name d = some g) :
    f.GrowsTo g := by
  unfold add? at h
  split at h
  · cases h
  · obtain rfl := Option.some.inj h
    exact ⟨rfl, rfl, by simp [names]⟩

theorem growsTo_replace (f : Frame) (name : Text) (d : Decl) : f.GrowsTo (f.replace name d) := by
  unfold replace
  split
  · exact growsTo_of_add? ‹_›
  · refine ⟨rfl, rfl, ?_⟩
    have hnames (e : Entry) :
        (if e.key == name.lower then { e with decl := d } else e).name = e.name := by
      split <;> rfl
    simp only [names, List.map_map, Function.comp_def, hnames]
    exact List.prefix_rfl

end Frame

namespace Scopes

/-- The scopes with another stack above the frame of the language. -/
def withInner (s : Scopes) (inner : List Frame) : Scopes := { s with inner }

@[simp]
theorem withInner_inner (s : Scopes) (l : List Frame) : (s.withInner l).inner = l := rfl

@[simp]
theorem withInner_withInner (s : Scopes) (k l : List Frame) :
    (s.withInner k).withInner l = s.withInner l := rfl

@[simp]
theorem withInner_self (s : Scopes) : s.withInner s.inner = s := rfl

@[simp]
theorem depth_withInner (s : Scopes) (l : List Frame) : (s.withInner l).depth = l.length + 1 := rfl

/-- The same stack of frames, of which at most the innermost has grown. -/
def GrowsTo (s t : Scopes) : Prop :=
  ∃ f g rest, s.inner = f :: rest ∧ t = s.withInner (g :: rest) ∧ f.GrowsTo g

namespace GrowsTo

variable {s t u : Scopes}

theorem refl (h : s.inner ≠ []) : s.GrowsTo s := by
  obtain ⟨f, rest, hs⟩ := List.exists_cons_of_ne_nil h
  exact ⟨f, f, rest, hs, by rw [← hs]; rfl, .refl f⟩

theorem trans (hst : s.GrowsTo t) (htu : t.GrowsTo u) : s.GrowsTo u := by
  obtain ⟨f, g, rest, hs, rfl, hfg⟩ := hst
  obtain ⟨_, h, _, ht, rfl, hgh⟩ := htu
  obtain ⟨rfl, rfl⟩ := List.cons.inj ht
  exact ⟨f, h, rest, hs, rfl, hfg.trans hgh⟩

theorem inner_ne_nil (h : s.GrowsTo t) : s.inner ≠ [] := by
  obtain ⟨f, g, rest, hs, -⟩ := h
  simp [hs]

theorem reached (h : s.GrowsTo t) : t.GrowsTo t := by
  obtain ⟨f, g, rest, -, rfl, -⟩ := h
  exact refl (by simp)

theorem length_eq (h : s.GrowsTo t) : t.inner.length = s.inner.length := by
  obtain ⟨f, g, rest, hs, rfl, -⟩ := h
  simp [hs]

/-- All frames below the innermost one are the same. -/
theorem tail_frames (h : s.GrowsTo t) : t.frames.tail = s.frames.tail := by
  obtain ⟨f, g, rest, hs, rfl, -⟩ := h
  simp [frames, hs, withInner]

theorem top (h : s.GrowsTo t) : s.top.GrowsTo t.top := by
  obtain ⟨f, g, rest, hs, rfl, hfg⟩ := h
  simpa [Scopes.top, hs] using hfg

theorem runtime (h : s.GrowsTo t) : t.runtime = s.runtime := by
  obtain ⟨f, g, rest, -, rfl, -⟩ := h
  rfl

end GrowsTo

/-! Places of frames, counted from the bottom. -/

section Places

variable {s : Scopes} {pre rest : List Frame} {f : Frame}

theorem frame?_of_inner (hs : s.inner = pre ++ f :: rest) :
    s.frame? (rest.length + 1) = some f := by
  have hrev : s.frames.reverse = (s.runtime :: rest.reverse) ++ f :: pre.reverse := by
    simp [frames, hs]
  have hlen : rest.length + 1 = (s.runtime :: rest.reverse).length := by simp
  rw [frame?, hrev, hlen, List.getElem?_append_right (Nat.le_refl _), Nat.sub_self]
  rfl

theorem modifyFrame_of_inner (hs : s.inner = pre ++ f :: rest) (h : Frame → Frame) :
    s.modifyFrame (rest.length + 1) h = s.withInner (pre ++ h f :: rest) := by
  have hplace : s.inner.length - 1 - rest.length = pre.length := by
    rw [hs, List.length_append, List.length_cons]
    omega
  change { s with inner := s.inner.modify (s.inner.length - 1 - rest.length) h } = _
  rw [hplace, hs, List.modify_eq_take_cons_drop (by simp)]
  simp [withInner]

/-- A name that frames `pre` do not declare is found in the next one that does. -/
theorem lookup?_of_inner {name : Text} {d : Decl} (hs : s.inner = pre ++ f :: rest)
    (hpre : ∀ p ∈ pre, p.find? name = none) (hf : f.find? name = some d) :
    s.lookup? name = some (d, rest.length + 1) := by
  have hgo (k : List Frame) (hk : ∀ p ∈ k, p.find? name = none) (below : List Frame) (i : Nat) :
      lookup?.go name (k ++ f :: below) (i + k.length) = some (d, i) := by
    induction k with
    | nil => simp [lookup?.go, hf]
    | cons p k ih =>
      have hp := hk p (List.mem_cons_self ..)
      simpa [lookup?.go, hp] using ih fun q hq => hk q (List.mem_cons_of_mem p hq)
  have hdepth : s.depth - 1 = rest.length + 1 + pre.length := by
    simp [depth, hs]
    omega
  rw [lookup?, hdepth, frames, hs, List.append_assoc]
  exact hgo pre hpre _ _

/-- The frame that a name is found in has a place on the stack. -/
theorem lt_depth_of_lookup? {s : Scopes} {name : Text} {d : Decl} {i : Nat}
    (h : s.lookup? name = some (d, i)) : i < s.depth := by
  have hgo (frames : List Frame) (k : Nat) (h : lookup?.go name frames k = some (d, i)) :
      i ≤ k := by
    induction frames generalizing k with
    | nil => cases h
    | cons f frames ih =>
      rw [lookup?.go] at h
      split at h
      · cases h
        exact Nat.le_refl i
      · exact Nat.le_trans (ih _ h) (Nat.sub_le k 1)
  have hle : i ≤ s.depth - 1 := hgo _ _ h
  unfold depth at hle ⊢
  omega

/-- Frames that do not declare a name do not matter for it. -/
theorem lookup?_withInner_append {s : Scopes} {name : Text} {pushed : List Frame}
    (h : ∀ f ∈ pushed, f.find? name = none) :
    (s.withInner (pushed ++ s.inner)).lookup? name = s.lookup? name := by
  have hgo (k : List Frame) (hk : ∀ f ∈ k, f.find? name = none) (below : List Frame) (i : Nat) :
      lookup?.go name (k ++ below) (i + k.length) = lookup?.go name below i := by
    induction k with
    | nil => rfl
    | cons f k ih =>
      have hf := hk f (List.mem_cons_self ..)
      simpa [lookup?.go, hf] using ih fun g hg => hk g (List.mem_cons_of_mem f hg)
  have hdepth : (s.withInner (pushed ++ s.inner)).depth - 1 = s.depth - 1 + pushed.length := by
    simp [depth]
    omega
  rw [lookup?, hdepth, frames, withInner_inner, List.append_assoc]
  exact hgo pushed h _ _

/-- Declaring a name in a frame that is not at the bottom lets this frame grow. -/
theorem register_of_inner {name : Text} {d : Decl} {t : Scopes} (hs : s.inner = pre ++ f :: rest)
    (hplace : s.targetOf d = rest.length + 1) (h : s.register name d = .ok t) :
    ∃ g, f.GrowsTo g ∧ t = s.withInner (pre ++ g :: rest) := by
  unfold register at h
  simp only [hplace, frame?_of_inner hs, Option.getD_some] at h
  split at h
  · cases h
  · split at h
    · cases h
    · rename_i g hg
      rw [modifyFrame_of_inner hs] at h
      cases h
      exact ⟨g, Frame.growsTo_of_add? hg, rfl⟩

/-- Giving a name a new declaration lets the frame grow that declares it. -/
theorem redeclare_of_inner {name : Text} {d e : Decl} {t : Scopes} (hs : s.inner = pre ++ f :: rest)
    (hpre : ∀ p ∈ pre, p.find? name = none) (hf : f.find? name = some e)
    (h : s.redeclare name d = .ok t) : ∃ g, f.GrowsTo g ∧ t = s.withInner (pre ++ g :: rest) := by
  unfold redeclare at h
  rw [lookup?_of_inner hs hpre hf] at h
  dsimp only at h
  rw [modifyFrame_of_inner hs] at h
  cases h
  exact ⟨_, Frame.growsTo_replace f name d, rfl⟩

end Places

variable {s t : Scopes}

theorem growsTo_of_register {name : Text} {d : Decl} (h : s.register name d = .ok t)
    (hs : s.inner ≠ []) (hd : createsFrame d = false) : s.GrowsTo t := by
  obtain ⟨f, rest, hs⟩ := List.exists_cons_of_ne_nil hs
  have hplace : s.targetOf d = rest.length + 1 := by simp [targetOf, hd, depth, hs]
  obtain ⟨g, hg, rfl⟩ := register_of_inner (hs.trans (List.nil_append _).symm) hplace h
  exact ⟨f, g, rest, hs, rfl, hg⟩

/-- A declaration with a frame of its own is declared around the frame on top. -/
theorem growsTo_of_register_inside {name : Text} {d : Decl} {f : Frame}
    (h : (s.withInner (f :: s.inner)).register name d = .ok t) (hs : s.inner ≠ [])
    (hd : createsFrame d = true) : ∃ u, s.GrowsTo u ∧ t = u.withInner (f :: u.inner) := by
  obtain ⟨g, rest, hs⟩ := List.exists_cons_of_ne_nil hs
  have hplace : (s.withInner (f :: s.inner)).targetOf d = rest.length + 1 := by
    simp [targetOf, hd, hs]
  have hinner : (s.withInner (f :: s.inner)).inner = [f] ++ g :: rest := by simp [hs]
  obtain ⟨g', hg, rfl⟩ := register_of_inner hinner hplace h
  exact ⟨s.withInner (g' :: rest), ⟨g, g', rest, hs, rfl, hg⟩, rfl⟩

theorem growsTo_of_redeclare {name : Text} {d e : Decl} (h : s.redeclare name d = .ok t)
    (hs : s.inner ≠ []) (he : s.findLocal? name = some e) : s.GrowsTo t := by
  obtain ⟨f, rest, hs⟩ := List.exists_cons_of_ne_nil hs
  have hf : f.find? name = some e := by simpa [findLocal?, top, hs] using he
  obtain ⟨g, hg, rfl⟩ :=
    redeclare_of_inner (hs.trans (List.nil_append _).symm) (by simp) hf h
  exact ⟨f, g, rest, hs, rfl, hg⟩

/-- What the innermost frame declares can be given a new declaration from a new frame above it. -/
theorem growsTo_of_redeclare_inside {name own : Text} {owner : Option Decl} {d e : Decl}
    (h : (s.enter own owner).redeclare name d = .ok t) (hs : s.inner ≠ [])
    (he : s.findLocal? name = some e) :
    ∃ u, s.GrowsTo u ∧ t = u.enter own owner := by
  obtain ⟨f, rest, hs⟩ := List.exists_cons_of_ne_nil hs
  have hf : f.find? name = some e := by simpa [findLocal?, top, hs] using he
  have hinner : (s.enter own owner).inner = [{ name := own, owner }] ++ f :: rest := by
    simp [enter, hs]
  obtain ⟨g, hg, rfl⟩ := redeclare_of_inner hinner (by simp [Frame.find?]) hf h
  exact ⟨s.withInner (g :: rest), ⟨f, g, rest, hs, rfl, hg⟩, rfl⟩

/-! Frames that are pushed for types and methods. -/

/-- Popping down to a former number of frames removes what was pushed since. -/
theorem unwindTo_append (s : Scopes) (pushed : List Frame) :
    (s.withInner (pushed ++ s.inner)).unwindTo s.depth = s := by
  have hcount : (s.withInner (pushed ++ s.inner)).depth - s.depth = pushed.length := by
    simp [depth]
  rw [unwindTo, hcount]
  simp [withInner]

theorem pushMembers_eq (s : Scopes) (c : CompositeDecl) (inherited : Bool) :
    ∃ f, s.pushMembers c inherited = s.withInner (f :: s.inner) := ⟨_, rfl⟩

/-- Loading ancestors pushes one frame for each that is counted. -/
theorem loadAncestors_eq {n : Nat} {path : List Text} {c : CompositeDecl} {l m : Loaded}
    (h : loadAncestors n path c l = .ok m) :
    ∃ pushed, m.scopes = l.scopes.withInner (pushed ++ l.scopes.inner) ∧
      m.count = l.count + pushed.length := by
  induction n generalizing path c l m with
  | zero => cases h
  | succ n ih =>
    rw [loadAncestors] at h
    generalize c.ancestors = names at h
    induction names generalizing l with
    | nil =>
      cases h
      exact ⟨[], rfl, rfl⟩
    | cons name names ihnames =>
      rw [List.foldlM_cons] at h
      obtain ⟨l', hl', hrest⟩ := bind_eq_ok.1 h
      obtain ⟨rest, hm, hcount⟩ := ihnames hrest
      suffices hstep : ∃ pushed, l'.scopes = l.scopes.withInner (pushed ++ l.scopes.inner) ∧
          l'.count = l.count + pushed.length by
        obtain ⟨pushed, hl, hcount'⟩ := hstep
        refine ⟨rest ++ pushed, ?_, ?_⟩
        · simp [hm, hl]
        · simp [hcount, hcount']
          omega
      -- a name on the way breaks off, and one that is loaded already adds nothing
      dsimp only at hl'
      split at hl'
      · cases hl'
      · split at hl'
        · cases hl'
          exact ⟨[], rfl, rfl⟩
        · obtain ⟨ancestor, -, hl'⟩ := bind_eq_ok.1 hl'
          obtain ⟨k, hk, hl'⟩ := bind_eq_ok.1 hl'
          obtain ⟨pushed, hk, hcount⟩ := ih hk
          cases hl'
          obtain ⟨f, hf⟩ := pushMembers_eq k.scopes ancestor true
          refine ⟨f :: pushed, ?_, ?_⟩
          · rw [hf, hk]
            rfl
          · simp only [List.length_cons]
            omega

/-- Loading a type pushes a frame for each ancestor and one for the type. -/
theorem loadHeritage_eq {type : Text} {n : Nat} (h : s.loadHeritage type = .ok (t, n)) :
    ∃ pushed, t = s.withInner (pushed ++ s.inner) ∧ pushed.length = n + 1 := by
  obtain ⟨c, -, h⟩ := bind_eq_ok.1 h
  obtain ⟨l, hl, h⟩ := bind_eq_ok.1 h
  obtain ⟨pushed, hl, hcount⟩ := loadAncestors_eq hl
  obtain ⟨f, hf⟩ := pushMembers_eq l.scopes c false
  cases h
  exact ⟨f :: pushed, by rw [hf, hl]; rfl, by simp [hcount]⟩

/-- A sequence of searches finds something if both of them do. -/
theorem Search.bind_eq_ok {α β : Type} {x : Search α} {f : α → Search β} {b : β} :
    (x >>= f).run = some (.ok b) ↔ ∃ a, x.run = some (.ok a) ∧ (f a).run = some (.ok b) := by
  rw [ExceptT.run_bind]
  generalize x.run = r
  obtain _ | _ | a := r <;> simp

/-- Entering a method pushes its type and a frame of its own name, and remembers how many. -/
theorem enterMethod_eq {type method : Text} {context : MethodContext}
    (h : (s.enterMethod type method).run = some (.ok (t, context))) :
    ∃ f pushed, t = s.withInner (f :: (pushed ++ s.inner)) ∧ f.name = method ∧
      context.method = method ∧ context.depth = s.depth ∧
      pushed.length = context.ancestors + 1 := by
  obtain ⟨m, -, h⟩ := Search.bind_eq_ok.1 h
  obtain ⟨⟨u, n⟩, hu, h⟩ := Search.bind_eq_ok.1 h
  obtain ⟨pushed, rfl, hpushed⟩ := loadHeritage_eq (Option.some.inj hu)
  cases h
  exact ⟨_, pushed, rfl, rfl, rfl, rfl, hpushed⟩

/-- Leaving a method pops what was pushed for it, if its own frame is on top. -/
theorem leaveMethod_eq {f : Frame} {pushed : List Frame} {context : MethodContext}
    (hname : f.name = context.method) (hdepth : context.depth = s.depth)
    (hpushed : pushed.length = context.ancestors + 1) :
    (s.withInner (f :: (pushed ++ s.inner))).leaveMethod context = (.ok (), s) := by
  have hinside : (s.withInner (f :: (pushed ++ s.inner))).depth = context.inside := by
    simp [MethodContext.inside, hdepth, depth]
    omega
  have hfold : f.name.sameFold context.method = true := by
    rw [hname, Text.sameFold]
    split <;> simp
  unfold leaveMethod
  simp only [hinside, bne_self_eq_false, Bool.false_eq_true, if_false, leave?, withInner_inner,
    hfold, if_true]
  rw [hdepth]
  exact congrArg _ (unwindTo_append s pushed)

end Scopes
end ObjectPascal

/-!
Frames whose names differ and are just those that have a declaration. Every way of declaring a name
keeps a frame so, since a name that is taken is refused or keeps its old place.
-/

namespace ObjectPascal

namespace Frame

variable {f g : Frame} {name : Text} {d : Decl}

/-- No two of the names are the same in small letters, and in small letters they are the names under
which a declaration is found. -/
structure Tidy (f : Frame) : Prop where
  distinct : (f.names.map Text.lower).Nodup
  keys : ∀ name, (f.find? name).isSome = true ↔ name.lower ∈ f.names.map Text.lower

theorem isSome_find?_iff (f : Frame) (name : Text) :
    (f.find? name).isSome = true ↔ name.lower ∈ f.names.map Text.lower := by
  simp only [find?, names, Option.isSome_map, List.find?_isSome, List.map_map, List.mem_map,
    Function.comp_apply, beq_iff_eq]
  constructor
  · rintro ⟨e, he, hkey⟩
    exact ⟨e, he, e.key_eq.symm.trans hkey⟩
  · rintro ⟨e, he, hname⟩
    exact ⟨e, he, e.key_eq.trans hname⟩

/-- What is to show of a frame is that its names differ. -/
theorem tidy_iff : f.Tidy ↔ (f.names.map Text.lower).Nodup :=
  ⟨Tidy.distinct, fun h => ⟨h, f.isSome_find?_iff⟩⟩

theorem tidy_empty (name : Text) (owner : Option Decl) : Tidy { name, owner } :=
  tidy_iff.2 List.nodup_nil

/-- A name that is free is added after the others. -/
theorem names_of_add? (h : f.add? name d = some g) :
    name.lower ∉ f.names.map Text.lower ∧ g.names = f.names ++ [name] := by
  unfold add? at h
  split at h
  · cases h
  · rename_i hfree
    obtain rfl := Option.some.inj h
    refine ⟨fun hmem => ?_, by simp [names]⟩
    have hsome := (f.isSome_find?_iff name).2 hmem
    rw [hfree] at hsome
    cases hsome

theorem Tidy.add? (hf : f.Tidy) (h : f.add? name d = some g) : g.Tidy := by
  obtain ⟨hfree, hnames⟩ := names_of_add? h
  rw [tidy_iff, hnames, List.map_append]
  refine hf.distinct.append (List.nodup_singleton _) ?_
  simpa using hfree

theorem Tidy.addFirst (hf : f.Tidy) (name : Text) (d : Decl) : (f.addFirst name d).Tidy := by
  unfold Frame.addFirst
  cases h : f.add? name d with
  | none => exact hf
  | some g => exact hf.add? h

theorem Tidy.addsTo (hf : f.Tidy) (h : f.AddsTo g) : g.Tidy := by
  induction h with
  | refl => exact hf
  | tail _ hstep ih =>
    obtain ⟨name, d, -, rfl⟩ := hstep
    exact ih.addFirst name d

/-- A name that is taken keeps its place when it is given another declaration. -/
theorem names_of_replace (h : f.add? name d = none) : (f.replace name d).names = f.names := by
  have hname (e : Entry) :
      (if e.key == name.lower then { e with decl := d } else e).name = e.name := by
    split <;> rfl
  simp only [replace, h, names, List.map_map, Function.comp_def, hname]

theorem Tidy.replace (hf : f.Tidy) (name : Text) (d : Decl) : (f.replace name d).Tidy := by
  cases h : f.add? name d with
  | none =>
    rw [tidy_iff, names_of_replace h]
    exact hf.distinct
  | some g =>
    have hreplace : f.replace name d = g := by simp only [Frame.replace, h]
    rw [hreplace]
    exact hf.add? h

theorem tidy_foldl_addFirst (hf : f.Tidy) (members : List Member) :
    (members.foldl (fun f m => f.addFirst m.name m.decl) f).Tidy := by
  induction members generalizing f with
  | nil => exact hf
  | cons m members ih => exact ih (hf.addFirst m.name m.decl)

theorem tidy_runtime (config : Config) : (runtime config).Tidy :=
  (tidy_empty _ none).addsTo (Builtin.addsTo_runtime config)

end Frame
end ObjectPascal
