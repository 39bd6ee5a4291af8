import ObjectPascal.Grammar.Machine
import ObjectPascal.Proofs.Token.Locality

/-!
Places and offsets. A source is read without its byte order mark, line by line; so the place of a
byte tells its offset. If a source is cut behind a full stop and goes on otherwise, the tokens up to
the full stop stay.
-/

namespace ObjectPascal

/-- The length of the byte order mark of a source, if it has one. -/
def Text.markLength (source : Text) : Nat :=
  if [0xEF, 0xBB, 0xBF].isPrefixOf source.bytes then 3 else 0

theorem Text.markLength_le (source : Text) : source.markLength ≤ source.bytes.length := by
  unfold markLength
  split
  · rename_i h
    exact (List.isPrefixOf_iff_prefix.mp h).length_le
  · exact Nat.zero_le _

/-- The lines of a source with all their bytes. -/
def Text.rawLines (source : Text) : List (List UInt8) :=
  (source.bytes.drop source.markLength).splitOn 0x0A

/-- The offset of a place in a source. -/
def Place.offset (p : Place) (source : Text) : Nat :=
  source.markLength + ((source.rawLines.take (p.line - 1)).map fun line => line.length + 1).sum +
    (p.col - 1)

namespace Cursor

/-- A byte that ends no piece stands at the same place of the same piece whatever follows it. -/
theorem splitOn_stop {a b : UInt8} {xs p r : List UInt8} {A B : List (List UInt8)}
    (h : xs.splitOn a = A ++ (p ++ b :: r) :: B) :
    (∃ s, xs = A.flatMap (fun line => line ++ [a]) ++ p ++ b :: s) ∧
      ∀ y, ∃ first rest, y.splitOn a = first :: rest ∧
        (A.flatMap (fun line => line ++ [a]) ++ p ++ b :: y).splitOn a =
          A ++ (p ++ b :: first) :: rest := by
  induction xs generalizing A p with
  | nil =>
    rw [List.splitOn_nil] at h
    cases A with
    | nil => simp at h
    | cons line A => simp at h
  | cons x xs ih =>
    rw [List.splitOn_cons_eq_if_modifyHead] at h
    by_cases hx : x = a
    · subst hx
      rw [if_pos (by simp)] at h
      cases A with
      | nil => simp at h
      | cons line A =>
        obtain ⟨rfl, hrest⟩ := List.cons.inj h
        obtain ⟨⟨s, hs⟩, hall⟩ := ih hrest
        refine ⟨⟨s, by simp [hs]⟩, fun y => ?_⟩
        obtain ⟨first, rest, hy, hsplit⟩ := hall y
        refine ⟨first, rest, hy, ?_⟩
        simp only [List.flatMap_cons, List.nil_append, List.cons_append] at hsplit ⊢
        rw [List.splitOn_cons_eq_if_modifyHead, if_pos (by simp), hsplit]
    · rw [if_neg (by simpa using hx)] at h
      obtain ⟨head, pieces, hp⟩ := List.exists_cons_of_ne_nil (List.splitOn_ne_nil a xs)
      rw [hp, List.modifyHead_cons] at h
      have hne : ¬ (x == a) = true := by simpa using hx
      cases A with
      | cons line A =>
        obtain ⟨rfl, hrest⟩ := List.cons.inj h
        obtain ⟨⟨s, hs⟩, hall⟩ := ih (A := head :: A) (p := p) (by rw [hp, hrest]; rfl)
        refine ⟨⟨s, by simp [hs]⟩, fun y => ?_⟩
        obtain ⟨first, rest, hy, hsplit⟩ := hall y
        refine ⟨first, rest, hy, ?_⟩
        simp only [List.flatMap_cons, List.cons_append] at hsplit ⊢
        rw [List.splitOn_cons_eq_if_modifyHead, if_neg hne, hsplit, List.modifyHead_cons]
      | nil =>
        obtain ⟨hhead, rfl⟩ := List.cons.inj h
        cases p with
        | nil =>
          obtain ⟨rfl, rfl⟩ := List.cons.inj hhead
          refine ⟨⟨xs, rfl⟩, fun y => ?_⟩
          obtain ⟨first, rest, hy⟩ := List.exists_cons_of_ne_nil (List.splitOn_ne_nil a y)
          refine ⟨first, rest, hy, ?_⟩
          simp only [List.flatMap_nil, List.nil_append]
          rw [List.splitOn_cons_eq_if_modifyHead, if_neg hne, hy, List.modifyHead_cons]
        | cons c p =>
          obtain ⟨rfl, rfl⟩ := List.cons.inj hhead
          obtain ⟨⟨s, hs⟩, hall⟩ := ih (A := []) hp
          refine ⟨⟨s, by simp [hs]⟩, fun y => ?_⟩
          obtain ⟨first, rest, hy, hsplit⟩ := hall y
          refine ⟨first, rest, hy, ?_⟩
          simp only [List.flatMap_nil, List.nil_append, List.cons_append] at hsplit ⊢
          rw [List.splitOn_cons_eq_if_modifyHead, if_neg hne, hsplit, List.modifyHead_cons]

theorem trimLine_stop (p r : List UInt8) :
    trimLine (p ++ 0x2E :: r) = p ++ 0x2E :: trimLine r := by
  have hdrop := dropWhile_stop (f := (· == 0x0D)) rfl r.reverse p.reverse
  simp only [trimLine, List.reverse_append, List.reverse_cons, List.append_assoc,
    List.singleton_append, hdrop, List.reverse_reverse]

theorem trimLine_isPrefix (line : List UInt8) : trimLine line <+: line := by
  rw [trimLine, ← List.reverse_suffix, List.reverse_reverse]
  exact List.dropWhile_suffix _

/-- Only an empty piece at the very end is no line. -/
theorem exists_lines (s : List UInt8) : ∃ n, splitLines s = (s.splitOn 0x0A).take n := by
  unfold splitLines
  dsimp only
  split
  · exact ⟨_, List.dropLast_eq_take⟩
  · exact ⟨_, (List.take_length).symm⟩

theorem exists_splitLines {s line : List UInt8} {A rest : List (List UInt8)} (hne : line ≠ [])
    (h : s.splitOn 0x0A = A ++ line :: rest) : ∃ rest', splitLines s = A ++ line :: rest' := by
  unfold splitLines
  dsimp only
  rw [h]
  split
  · rename_i hlast
    cases rest with
    | nil => exact absurd (by simpa using hlast) hne
    | cons next rest =>
      exact ⟨(next :: rest).dropLast, by simp [List.dropLast_append_of_ne_nil]⟩
  · exact ⟨rest, rfl⟩

/-- The first piece begins as the whole, if it begins at all. -/
theorem head_of_splitOn {a b : UInt8} {x first : List UInt8} {rest : List (List UInt8)}
    (h : x.splitOn a = first :: rest) (hb : b ∈ first.head?) : b ∈ x.head? := by
  cases x with
  | nil =>
    rw [List.splitOn_nil] at h
    obtain ⟨rfl, _⟩ := List.cons.inj h
    exact hb
  | cons y x =>
    rw [List.splitOn_cons_eq_if_modifyHead] at h
    split at h
    · obtain ⟨rfl, _⟩ := List.cons.inj h
      cases hb
    · obtain ⟨head, pieces, hp⟩ := List.exists_cons_of_ne_nil (List.splitOn_ne_nil a x)
      rw [hp, List.modifyHead_cons] at h
      obtain ⟨rfl, _⟩ := List.cons.inj h
      exact hb

theorem head_of_isPrefix {b : UInt8} {x y : List UInt8} (h : x <+: y) (hb : b ∈ x.head?) :
    b ∈ y.head? := by
  obtain ⟨u, rfl⟩ := h
  cases x with
  | nil => cases hb
  | cons c x => exact hb

/-- A full stop that is seen on a line stands in the source, and whatever follows it there, up to it
the lines are the same. -/
theorem lines_stop {s p r : List UInt8} {mid l : List (List UInt8)}
    (h : (splitLines s).map trimLine = mid ++ (p ++ 0x2E :: r) :: l) :
    ∃ q u, s = q ++ 0x2E :: u ∧
      q.length = (((s.splitOn 0x0A).take mid.length).map fun line => line.length + 1).sum +
        p.length ∧
      ∀ x, ∃ r' l', (splitLines (q ++ 0x2E :: x)).map trimLine = mid ++ (p ++ 0x2E :: r') :: l' ∧
        ∀ b ∈ r'.head?, b ∈ x.head? := by
  obtain ⟨n, hn⟩ := exists_lines s
  rw [hn] at h
  obtain ⟨A, B, htake, rfl, hB⟩ := List.map_eq_append_iff.mp h
  obtain ⟨raw, B', rfl, hraw, rfl⟩ := List.map_eq_cons_iff.mp hB
  -- The line itself has at most carriage returns behind what is seen of it.
  obtain ⟨u, hu⟩ := trimLine_isPrefix raw
  rw [hraw, List.append_assoc, List.cons_append] at hu
  have hpieces : s.splitOn 0x0A =
      A ++ (p ++ 0x2E :: (r ++ u)) :: (B' ++ (s.splitOn 0x0A).drop n) := by
    rw [hu, ← List.cons_append, ← List.append_assoc, ← htake, List.take_append_drop]
  obtain ⟨⟨v, hv⟩, hall⟩ := splitOn_stop hpieces
  refine ⟨_, v, hv, ?_, fun x => ?_⟩
  · rw [hpieces, List.length_map, List.take_left, List.length_append, List.length_flatMap]
    simp
  · obtain ⟨first, rest, hx, hsplit⟩ := hall x
    obtain ⟨rest', hlines⟩ := exists_splitLines (by simp) hsplit
    refine ⟨trimLine first, rest'.map trimLine, ?_, fun b hb => ?_⟩
    · rw [hlines, List.map_append, List.map_cons, trimLine_stop]
    · exact head_of_splitOn hx (head_of_isPrefix (trimLine_isPrefix first) hb)

/-- The byte order mark is in front of every full stop. -/
theorem mark_stop (q x y : List UInt8) : [0xEF, 0xBB, 0xBF].isPrefixOf (q ++ 0x2E :: x) =
    [0xEF, 0xBB, 0xBF].isPrefixOf (q ++ 0x2E :: y) := by
  match q with
  | [] => rfl
  | [_] => simp [List.isPrefixOf]
  | [_, _] => simp [List.isPrefixOf]
  | _ :: _ :: _ :: _ => simp [List.isPrefixOf]

theorem start_eq (source : Text) : start source =
    { below := (splitLines (source.bytes.drop source.markLength)).map trimLine } := by
  simp only [start, Text.markLength]
  split <;> rfl

variable {source : Text} {t : Token} {d : Cursor} {ts post : List (Token × Cursor)}

/-- A source that is cut behind a full stop has the same tokens up to it, whatever follows, if the
last one in front of it is no number and the full stop does not become part of a longer mark. -/
theorem tokens_of_cut (h : (start source).tokens = ts ++ (t, d) :: post) (hdot : t.kind = .dot)
    (hv : ∀ x ∈ ts, x.1.kind ≠ .eof ∧ x.1.kind ≠ .invalid)
    (hlast : ∀ x ∈ ts.getLast?, x.1.kind ≠ .integer ∧ x.1.kind ≠ .real) :
    source.bytes[t.place.offset source]? = some 0x2E ∧
      ∀ x : List UInt8, (∀ b ∈ x.head?, b ≠ 0x2E ∧ b ≠ 0x29) →
        ∃ ts' d' post', (start ⟨source.bytes.take (t.place.offset source + 1) ++ x⟩).tokens =
          ts' ++ (t, d') :: post' ∧ d'.place = d.place ∧
          ts'.map (fun x => (x.1, x.2.place)) = ts.map fun x => (x.1, x.2.place) := by
  obtain ⟨f, hreads, hf⟩ := exists_reads h hv
  obtain ⟨hhere, hbelow, ht, _⟩ := next_of_dot hf hdot
  have hpasses := hreads.passes.trans f.seek_passes
  rw [start_eq] at hpasses
  -- The full stop is seen on one of the lines of the source.
  obtain ⟨p, hnil, _⟩ | ⟨mid, p, hlines, hline, hcol⟩ := hpasses
  · rw [hhere] at hnil
    simp at hnil
  rw [hhere] at hlines
  have hcol := hcol (by rw [hhere]; exact List.cons_ne_nil _ _)
  obtain ⟨q, u, hq, hlen, hall⟩ := lines_stop hlines
  have hmark := source.markLength_le
  have hbytes : source.bytes = source.bytes.take source.markLength ++ q ++ 0x2E :: u := by
    rw [List.append_assoc, ← hq, List.take_append_drop]
  have hoffset : t.place.offset source = (source.bytes.take source.markLength ++ q).length := by
    rw [List.length_append, List.length_take, Nat.min_eq_left hmark, hlen, ht]
    simp only [Place.offset, place, hline, hcol, Text.rawLines, Nat.zero_add,
      Nat.add_sub_cancel, Nat.add_assoc]
  have hlength : (source.bytes.take source.markLength).length = source.markLength := by
    rw [List.length_take, Nat.min_eq_left hmark]
  generalize source.bytes.take source.markLength = m at hbytes hoffset hlength
  refine ⟨by rw [hoffset, hbytes]; simp, fun x hx => ?_⟩
  have hcut : source.bytes.take (t.place.offset source + 1) ++ x = m ++ q ++ 0x2E :: x := by
    have hsplit : m ++ q ++ 0x2E :: u = m ++ q ++ [0x2E] ++ u := by simp
    have hlen : (m ++ q).length + 1 = (m ++ q ++ [0x2E]).length := by
      rw [List.length_append, List.length_append, List.length_append, List.length_singleton]
    rw [hoffset, hbytes, hsplit, hlen, List.take_left, List.append_assoc, List.singleton_append]
  have hsame : Text.markLength ⟨m ++ q ++ 0x2E :: x⟩ = source.markLength := by
    rw [Text.markLength, Text.markLength, hbytes, mark_stop _ x u]
  obtain ⟨r', l', hlines', hhead⟩ := hall x
  have hagree : Agree d.here r' d.below l' (start source) (start ⟨m ++ q ++ 0x2E :: x⟩) := by
    rw [start_eq, start_eq, hsame]
    have hdrop : (m ++ q ++ 0x2E :: x).drop source.markLength = q ++ 0x2E :: x := by
      rw [← hlength, List.append_assoc, List.drop_left]
    simp only [hdrop, hlines', hbelow]
    rw [show (splitLines (source.bytes.drop source.markLength)).map trimLine = _ from hlines]
    exact .below {} mid p
  rw [hcut]
  exact hagree.tokens h hdot hv hlast fun b hb => hx b (hhead b hb)

end Cursor

namespace Supply

variable {source : Text} {used rest : List (Token × Place)} {t : Token} {place : Place}

/-- A supply for a source that is cut behind a full stop hands out the same tokens up to it. -/
theorem ofText_cut (h : (ofText source).ahead = used ++ (t, place) :: rest) (hdot : t.kind = .dot)
    (hv : ∀ x ∈ used, x.1.kind ≠ .eof ∧ x.1.kind ≠ .invalid)
    (hlast : ∀ x ∈ used.getLast?, x.1.kind ≠ .integer ∧ x.1.kind ≠ .real) :
    source.bytes[t.place.offset source]? = some 0x2E ∧
      ∀ x : List UInt8, (∀ b ∈ x.head?, b ≠ 0x2E ∧ b ≠ 0x29) → ∃ rest',
        ofText ⟨source.bytes.take (t.place.offset source + 1) ++ x⟩ =
          ⟨used ++ (t, place) :: rest', (ofText source).here⟩ := by
  have hall : ((Cursor.start source).tokens.filter fun x => x.1.kind != .comment).map
      (fun x => (x.1, x.2.place)) = used ++ (t, place) :: rest := h
  obtain ⟨us, vs, hsplit, rfl, hvs⟩ := List.map_eq_append_iff.mp hall
  obtain ⟨⟨t', d⟩, ws, rfl, hy, rfl⟩ := List.map_eq_cons_iff.mp hvs
  obtain ⟨rfl, rfl⟩ := Prod.mk.inj hy
  obtain ⟨ts, ps, htokens, rfl, hps⟩ := List.filter_eq_append_iff.mp hsplit
  obtain ⟨cs, post, rfl, hcs, hkeep, rfl⟩ := List.filter_eq_cons_iff.mp hps
  have hcomment : ∀ x ∈ cs, x.1.kind = .comment := fun x hx => by simpa using hcs x hx
  rw [← List.append_assoc] at htokens
  -- Comments are neither invalid nor numbers, and all other tokens are handed out.
  have hvalid : ∀ x ∈ ts ++ cs, x.1.kind ≠ .eof ∧ x.1.kind ≠ .invalid := by
    intro x hx
    by_cases hk : x.1.kind = .comment
    · simp [hk]
    · rcases List.mem_append.mp hx with hx | hx
      · exact hv (x.1, x.2.place) (List.mem_map.mpr
          ⟨x, List.mem_filter.mpr ⟨hx, by simpa using hk⟩, rfl⟩)
      · exact absurd (hcomment x hx) hk
  have hend : ∀ x ∈ (ts ++ cs).getLast?, x.1.kind ≠ .integer ∧ x.1.kind ≠ .real := by
    intro x hx
    by_cases hk : x.1.kind = .comment
    · simp [hk]
    · obtain rfl : cs = [] := by
        by_contra hne
        rw [List.getLast?_append_of_ne_nil _ hne] at hx
        exact hk (hcomment x (List.mem_of_getLast? hx))
      rw [List.append_nil] at hx
      obtain ⟨init, rfl⟩ := List.getLast?_eq_some_iff.mp hx
      refine hlast (x.1, x.2.place) ?_
      simp [List.filter_append, hk]
  obtain ⟨hbyte, hcut⟩ := Cursor.tokens_of_cut htokens hdot hvalid hend
  refine ⟨hbyte, fun x hx => ?_⟩
  obtain ⟨ts', d', post', htokens', hplace, hmap⟩ := hcut x hx
  have hofText (source : Text) : ofText source =
      ⟨((Cursor.start source).tokens.map fun x => (x.1, x.2.place)).filter
        fun x => x.1.kind != .comment, ⟨0, 1⟩⟩ := by
    rw [List.filter_map]
    rfl
  have hnone : (cs.map fun x => (x.1, x.2.place)).filter (fun x => x.1.kind != .comment) = [] := by
    rw [List.filter_map, List.map_eq_nil_iff, List.filter_eq_nil_iff]
    exact hcs
  rw [hofText, hofText, htokens', List.map_append, hmap, List.map_append, List.filter_append,
    List.filter_append, hnone, List.append_nil, List.map_cons, hplace, List.filter_map]
  refine ⟨(post'.map fun x => (x.1, x.2.place)).filter fun x => x.1.kind != .comment, ?_⟩
  have hcode : (t'.kind != .comment) = true := hkeep
  simp only [List.filter_cons, hcode, ↓reduceIte]
  rfl

end Supply
end ObjectPascal
