import ObjectPascal.Proofs.Token.Account

/-!
Where a scanner stands, whether it keeps comments or not. A token that a scanner hands out without
its comments is the next token of a cursor behind some of them, so what holds of the next token of a
cursor holds of both kinds of scanners.
-/

namespace ObjectPascal

namespace Cursor

variable {c d : Cursor} {p r : List UInt8}

/-- No line that the cursor still has to read ends with a carriage return. -/
def Trimmed (c : Cursor) : Prop := ∀ line ∈ c.here :: c.below, line.getLast? ≠ some 0x0D

theorem getLast?_trimLine (line : List UInt8) : (trimLine line).getLast? ≠ some 0x0D := by
  intro hlast
  rw [trimLine, List.getLast?_reverse] at hlast
  have hfirst := List.head?_dropWhile_not (· == (0x0D : UInt8)) line.reverse
  rw [hlast] at hfirst
  simp at hfirst

theorem start_trimmed (source : Text) : (start source).Trimmed := by
  rw [start_eq]
  intro line hline
  rcases List.mem_cons.mp hline with rfl | hbelow
  · simp
  · obtain ⟨raw, _, rfl⟩ := List.mem_map.mp hbelow
    exact getLast?_trimLine raw

/-- The end of a line ends as the line does. -/
theorem getLast?_ne_of_append {b : UInt8} (front : List UInt8) {s : List UInt8}
    (h : (front ++ s).getLast? ≠ some b) : s.getLast? ≠ some b := by
  intro hs
  rw [List.getLast?_append, hs] at h
  exact h rfl

theorem Trimmed.passes (h : c.Trimmed) (hp : c.Passes d) : d.Trimmed := by
  intro line hline
  rcases hp with ⟨front, hhere, hbelow, _⟩ | ⟨mid, front, hbelow, _⟩
  · rcases List.mem_cons.mp hline with rfl | hmem
    · apply getLast?_ne_of_append front
      rw [← hhere]
      exact h _ List.mem_cons_self
    · rw [hbelow] at hmem
      exact h line (List.mem_cons_of_mem _ hmem)
  · have hall : ∀ l ∈ mid ++ (front ++ d.here) :: d.below, l.getLast? ≠ some 0x0D := by
      intro l hl
      rw [← hbelow] at hl
      exact h l (List.mem_cons_of_mem _ hl)
    rcases List.mem_cons.mp hline with rfl | hmem
    · apply getLast?_ne_of_append front
      exact hall _ (by simp)
    · exact hall line (by simp [hmem])

theorem Trimmed.atEnd (c : Cursor) : c.atEnd.Trimmed := by
  intro line hline
  obtain rfl : line = [] := by simpa [Cursor.atEnd] using hline
  simp

theorem Trimmed.count (h : c.Trimmed) : c.count.Trimmed := by
  intro line hline
  rw [count_here, count_below] at hline
  exact h line hline

/-- However a token is read, it leaves only ends of the lines. -/
theorem Trimmed.read (h : c.Trimmed) (m : Manner) (hm : m.Sound c.here) :
    (m.read c).2.Trimmed := by
  have hstretch {c' : Cursor} (hc : c'.Trimmed) {skip : Nat} {first find} (hf : Search first)
      (hg : Search find) {st : Stretch} (hst : c'.stretchHere skip first find = some st) :
      (c'.behind st).Trimmed :=
    hc.passes ((passes_advance c' skip).trans (stretchHere_passes hf hg hst))
  cases hm with
  | lexeme =>
    simp only [Manner.read, take]
    split
    · exact h.passes (passes_advance _ _)
    · exact h.count.passes (passes_advance _ _)
  | comment hskip hclose =>
    have hsearch := search_breakOn hclose []
    simp only [Manner.read, Cursor.comment]
    split
    · rename_i st hst
      exact hstretch h hsearch hsearch hst
    · exact Trimmed.atEnd c
  | assembler =>
    simp only [Manner.read, Cursor.assembler]
    split
    · rename_i st hst
      exact hstretch h.count (search_breakOnEnd true []) (search_breakOnEnd false []) hst
    · exact Trimmed.atEnd _

theorem Trimmed.next (h : c.Trimmed) : c.next.2.Trimmed := by
  have hseek := h.passes c.seek_passes
  cases hhere : c.seek.here with
  | nil =>
    have hnext : c.next = (c.seek.eof, c.seek) := by
      rw [Cursor.next]
      simp only [hhere]
    rwa [hnext]
  | cons b rest =>
    rw [next_eq (by rw [hhere]; exact List.cons_ne_nil _ _)]
    apply hseek.read
    rw [hhere]
    exact mannerOf_sound b rest

/-- The cursor has read the bytes `p` and has `r` ahead, in lines without carriage returns at their
ends. -/
structure Rests (c : Cursor) (p r : List UInt8) : Prop where
  stands : c.Stands p r
  trimmed : c.Trimmed

theorem start_rests (source : Text) :
    (start source).Rests [] (source.bytes.drop source.markLength) :=
  ⟨start_stands source, start_trimmed source⟩

theorem Rests.next (h : c.Rests p r) :
    ∃ q u, p ++ r = q ++ u ∧ p <+: q ∧ c.next.2.Rests q u := by
  obtain ⟨gap, extent, u, rfl, _, hstands, _⟩ := h.stands.next
  refine ⟨p ++ gap ++ extent, u, by simp only [List.append_assoc], ?_, hstands, h.trimmed.next⟩
  rw [List.append_assoc]
  exact List.prefix_append _ _

/-- A token without the comments in front of it is the next token of a cursor behind them. -/
theorem nextCodeWithin_eq {n : Nat} (hn : c.size < n) (h : c.Rests p r) :
    ∃ (d : Cursor) (q u : List UInt8), d.Rests q u ∧ p ++ r = q ++ u ∧ p <+: q ∧
      nextCodeWithin n c = d.next ∧ d.next.1.kind ≠ .comment := by
  induction n generalizing c p r with
  | zero => exact absurd hn (Nat.not_lt_zero _)
  | succ n ih =>
    rw [nextCodeWithin]
    by_cases hkind : c.next.1.kind = .comment
    · simp only [hkind, ↓reduceIte]
      -- A comment takes at least one byte, so less fuel is enough behind it.
      have hlt : c.next.2.size < c.size :=
        next_size_lt (t := c.next.1) rfl (by simp [hkind]) (by simp [hkind])
      obtain ⟨q, u, hsplit, hpre, hrests⟩ := h.next
      obtain ⟨d, q', u', hd, hsplit', hpre', heq, hd'⟩ := ih (by omega) hrests
      exact ⟨d, q', u', hd, hsplit.trans hsplit', hpre.trans hpre', heq, hd'⟩
    · simp only [hkind, ↓reduceIte]
      exact ⟨c, p, r, h, rfl, List.prefix_rfl, rfl, hkind⟩

/-- Where no comment comes next, it makes no difference whether comments are dropped. -/
theorem nextCode_of_ne (h : c.next.1.kind ≠ .comment) : c.nextCode = c.next := by
  rw [nextCode, nextCodeWithin]
  simp only [h, ↓reduceIte]

/-- More fuel than there are bytes and line ends ahead makes no difference. -/
theorem nextCodeWithin_congr {m n : Nat} (hm : c.size < m) (hn : c.size < n) :
    nextCodeWithin m c = nextCodeWithin n c := by
  induction m generalizing c n with
  | zero => exact absurd hm (Nat.not_lt_zero _)
  | succ m ih =>
    obtain ⟨n, rfl⟩ : ∃ k, n = k + 1 := ⟨n - 1, by omega⟩
    rw [nextCodeWithin, nextCodeWithin]
    by_cases hkind : c.next.1.kind = .comment
    · have hlt : c.next.2.size < c.size :=
        next_size_lt (t := c.next.1) rfl (by simp [hkind]) (by simp [hkind])
      simp only [hkind, ↓reduceIte]
      exact ih (by omega) (by omega)
    · simp only [hkind, ↓reduceIte]

/-- A comment that comes next is dropped. -/
theorem nextCode_of_comment (h : c.next.1.kind = .comment) :
    c.nextCode = c.next.2.nextCode := by
  have hlt : c.next.2.size < c.size :=
    next_size_lt (t := c.next.1) rfl (by simp [h]) (by simp [h])
  rw [nextCode, nextCodeWithin]
  simp only [h, ↓reduceIte]
  exact nextCodeWithin_congr hlt (Nat.lt_succ_self _)

section Faces

variable {gap w u rest here : List UInt8} {below : List (List UInt8)}

theorem seekFrom_head (c : Cursor) (line col : Nat) (here : List UInt8)
    (below : List (List UInt8)) :
    ∀ b ∈ (c.seekFrom line col here below).here.head?, isLayout b = false := by
  induction below generalizing line col here with
  | nil =>
    unfold seekFrom
    split
    · simp
    · exact head?_dropWhile here
  | cons next below ih =>
    unfold seekFrom
    split
    · exact ih _ _ _
    · exact head?_dropWhile here

/-- Seeking passes all the layout and nothing else. -/
theorem Stands.faces (h : c.Stands p (gap ++ r)) (hgap : ∀ b ∈ gap, isLayout b = true)
    (hne : r ≠ []) (hr : ∀ b ∈ r.head?, isLayout b = false) : c.seek.Faces (p ++ gap) r := by
  obtain ⟨gap', r', hsplit, hgap', hcase⟩ := h.seek
  obtain ⟨hgap_eq, hr_eq⟩ := takeWhile_of_class hgap hr
  rcases hcase with hfaces | ⟨_, rfl, _⟩
  · -- What is ahead of the cursor now begins with its next byte, which is no layout.
    obtain ⟨b, line, hb⟩ := List.exists_cons_of_ne_nil hfaces.here
    have hlines : Lines (([b] ++ line) :: c.seek.below) r' := by
      rw [List.singleton_append, ← hb]
      exact hfaces.lines
    obtain ⟨r'', rfl, _⟩ := hlines.advance
    have hb' : isLayout b = false := by
      apply seekFrom_head c c.line c.col c.here c.below
      rw [← Cursor.seek, hb]
      rfl
    obtain ⟨hgap_eq', hr_eq'⟩ := takeWhile_of_class hgap' (r := [b] ++ r'') (by simpa using hb')
    rw [hsplit] at hgap_eq hr_eq
    rw [← hgap_eq, ← hr_eq, hgap_eq', hr_eq']
    exact hfaces
  · obtain ⟨_, hr_eq'⟩ := takeWhile_of_class hgap' (r := []) (by simp)
    rw [hsplit, hr_eq'] at hr_eq
    exact absurd hr_eq.symm hne

/-- Bytes of one line that do not end with a carriage return are in the line as it is handed out. -/
theorem Lines.exists_here (h : Lines (here :: below) (w ++ rest)) (hfeed : 0x0A ∉ w)
    (hlast : w.getLast? ≠ some 0x0D) :
    ∃ u, here = w ++ u ∧ ∀ b ∈ u.head?, b ∈ rest.head? := by
  obtain ⟨cut, tail, hsplit, hcut, htail⟩ : ∃ cut tail, w ++ rest = here ++ (cut ++ tail) ∧
      (∀ b ∈ cut, b = 0x0D) ∧ ∀ b ∈ tail.head?, b = 0x0A := by
    generalize w ++ rest = s at h
    cases h with
    | @last _ cut _ hcut => exact ⟨cut, [], by simp, hcut, by simp⟩
    | @cons _ cut r _ _ hcut _ => exact ⟨cut, 0x0A :: r, rfl, hcut, by simp⟩
  rcases List.append_eq_append_iff.mp hsplit with ⟨u, hhere, hrest⟩ | ⟨v, hw, hrest⟩
  · refine ⟨u, hhere, fun b hb => ?_⟩
    rw [hrest, List.head?_append, Option.mem_def.mp hb]
    rfl
  · -- Only carriage returns are between the line and its end.
    have hv : ∀ b ∈ v, b = 0x0D := by
      rcases List.append_eq_append_iff.mp hrest with ⟨x, rfl, htail'⟩ | ⟨x, hcut', _⟩
      · cases x with
        | nil => simpa using hcut
        | cons b x =>
          have hb : b = 0x0A := htail b (by rw [htail']; rfl)
          exact absurd (by simp [hw, hb]) hfeed
      · intro b hb
        apply hcut
        rw [hcut']
        exact List.mem_append_left _ hb
    cases hlast' : v.getLast? with
    | none =>
      obtain rfl := List.getLast?_eq_none_iff.mp hlast'
      exact ⟨[], by simpa using hw.symm, by simp⟩
    | some b =>
      rw [hw, List.getLast?_append, hlast', hv b (List.mem_of_getLast? hlast')] at hlast
      exact absurd rfl hlast

/-- A token on one line is read off the first bytes of the line. -/
theorem Faces.take (h : c.Faces p (w ++ rest)) (hw : w ≠ []) (hhere : c.here = w ++ u)
    {f : List UInt8 → Lexeme} (hm : mannerOf (w ++ u) = .lexeme f) {kind : Kind} {text : Text}
    (hf : f (w ++ u) = ⟨kind, w.length, text⟩) :
    ((mannerOf c.here).read c).1 =
        ⟨kind, UInt16.ofNat w.length, Place.first.behind p, text⟩ ∧
      ((mannerOf c.here).read c).2.Stands (p ++ w) rest := by
  have hpass (c' : Cursor) (hc : c'.Faces p (w ++ rest)) (hhere' : c'.here = w ++ u) :
      (c'.advance w.length).Stands (p ++ w) rest := by
    obtain ⟨r', hr, hstands⟩ := hc.along hw hhere'
    rw [List.append_cancel_left hr]
    have hadvance : c'.advance w.length = { c' with col := c'.col + w.length, here := u } := by
      rw [Cursor.advance, hhere', List.drop_left]
    rwa [hadvance]
  rw [hhere, hm, Manner.read, hhere, hf, Cursor.take]
  simp only
  split
  · exact ⟨by rw [h.place], hpass c h hhere⟩
  · refine ⟨?_, hpass c.count h.count (by rw [count_here, hhere])⟩
    rw [h.count.place]

end Faces

/-- A cursor is told by the bytes that it has ahead in a source. -/
theorem Stands.ahead_eq {source : Text} (h : c.Stands p r)
    (hs : source.bytes.drop source.markLength = p ++ r) :
    source.bytes.drop (c.offset source) = r := by
  rw [h.offset hs, ← List.drop_drop, hs, List.drop_left]

end Cursor

namespace Scanner

/-- A scanner that is not stopped has read the bytes `p` behind the byte order mark of the source and
has `r` ahead. -/
structure At (s : Scanner) (source : Text) (p r : List UInt8) : Prop where
  running : s.stopped = false
  split : source.bytes.drop source.markLength = p ++ r
  rests : s.cursor.Rests p r

variable {s : Scanner} {source : Text} {p r : List UInt8}

theorem at_open (s : Scanner) (source path : Text) :
    (s.open_ source path).At source [] (source.bytes.drop source.markLength) :=
  ⟨rfl, rfl, Cursor.start_rests source⟩

/-- The token that a scanner hands out is the next one of a cursor: of its own, or of one behind the
comments that it drops. -/
theorem At.next_eq (h : s.At source p r) : ∃ (d : Cursor) (q u : List UInt8), d.Rests q u ∧
    p ++ r = q ++ u ∧ p <+: q ∧ s.next.1 = d.next.1 ∧ s.next.2.cursor = d.next.2 ∧
    (s.keepComments = true → d = s.cursor) ∧
    (s.keepComments = false → s.next.1.kind ≠ .comment) := by
  cases hkeep : s.keepComments with
  | true =>
    refine ⟨s.cursor, p, r, h.rests, rfl, List.prefix_rfl, ?_, ?_, fun _ => rfl, by simp⟩
    · simp [next, h.running, hkeep]
    · simp [next, h.running, hkeep]
  | false =>
    obtain ⟨d, q, u, hd, hsplit, hpre, heq, hkind⟩ :=
      Cursor.nextCodeWithin_eq (Nat.lt_succ_self _) h.rests
    have hnext : s.next = (d.next.1, { s with cursor := d.next.2, line := d.next.1.line }) := by
      rw [← heq]
      simp only [next, h.running, hkeep, Bool.false_eq_true, ↓reduceIte]
      rfl
    refine ⟨d, q, u, hd, hsplit, hpre, ?_, ?_, by simp, fun _ => ?_⟩
    · rw [hnext]
    · rw [hnext]
    · rw [hnext]
      exact hkind

/-- A token that is no comment is handed out whether comments are kept or not. -/
theorem At.next_of_ne (h : s.At source p r) (hkind : s.cursor.next.1.kind ≠ .comment) :
    s.next.1 = s.cursor.next.1 ∧ s.next.2.cursor = s.cursor.next.2 := by
  have hcode := Cursor.nextCode_of_ne hkind
  cases hkeep : s.keepComments with
  | true => simp [next, h.running, hkeep]
  | false => simp [next, h.running, hkeep, hcode]

theorem At.next (h : s.At source p r) : ∃ q u, s.next.2.At source q u := by
  obtain ⟨d, q, u, hd, hsplit, _, _, hcursor, _⟩ := h.next_eq
  obtain ⟨q', u', hsplit', _, hrests⟩ := hd.next
  refine ⟨q', u', h.running, ?_, ?_⟩
  · rw [h.split, hsplit, hsplit']
  · rwa [hcursor]

theorem At.after (h : s.At source p r) (n : Nat) : ∃ q u, (s.after n).At source q u := by
  induction n with
  | zero => exact ⟨p, r, h⟩
  | succ n ih =>
    obtain ⟨q, u, hat⟩ := ih
    exact hat.next

theorem At.offset (h : s.At source p r) :
    s.cursor.offset source = source.markLength + p.length := h.rests.stands.offset h.split

theorem At.ahead_eq (h : s.At source p r) : source.bytes.drop (s.cursor.offset source) = r :=
  h.rests.stands.ahead_eq h.split

end Scanner
end ObjectPascal
