import ObjectPascal.Proofs.Token.Cursor

/-!
Sources that agree up to a full stop. What is read in front of the full stop is the same in both,
except for a number directly in front of it, which may go on behind it; and the full stop itself is
read in both, unless it is the first byte of a longer mark.
-/

namespace ObjectPascal.Cursor

/-- Two cursors in sources that agree up to a full stop ahead of both. Behind it one source goes on
with `r` and the lines `l`, the other with `r'` and the lines `l'`. -/
inductive Agree (r r' : List UInt8) (l l' : List (List UInt8)) : Cursor → Cursor → Prop
  | here (c : Cursor) (p : List UInt8) : Agree r r' l l'
      { c with here := p ++ 0x2E :: r, below := l } { c with here := p ++ 0x2E :: r', below := l' }
  | below (c : Cursor) (mid : List (List UInt8)) (p : List UInt8) : Agree r r' l l'
      { c with below := mid ++ (p ++ 0x2E :: r) :: l }
      { c with below := mid ++ (p ++ 0x2E :: r') :: l' }

/-- The cursor has the full stop ahead. -/
def Until (r : List UInt8) (l : List (List UInt8)) (c : Cursor) : Prop :=
  ∃ e, c.Passes e ∧ e.here = 0x2E :: r ∧ e.below = l

variable {r r' : List UInt8} {l l' : List (List UInt8)} {c c' d : Cursor}

theorem Until.of_passes (h : c.Passes d) (hd : d.Until r l) : c.Until r l := by
  obtain ⟨e, hpasses, he⟩ := hd
  exact ⟨e, h.trans hpasses, he⟩

/-- If the lines below are those below the full stop, it stands on the line. -/
theorem Until.exists_here (h : c.Until r l) (hb : c.below = l) : ∃ p, c.here = p ++ 0x2E :: r := by
  obtain ⟨e, hpasses, he, hl⟩ := h
  obtain ⟨p, hp⟩ := hpasses.exists_here (hb.trans hl.symm)
  exact ⟨p, by rw [hp, he]⟩

theorem Until.below_length_le (h : c.Until r l) : l.length ≤ c.below.length := by
  obtain ⟨e, hpasses, _, rfl⟩ := h
  exact hpasses.below_length_le

theorem Until.size_le (h : c.Until r l) :
    r.length + 1 + (l.map fun line => line.length + 1).sum ≤ c.size := by
  obtain ⟨e, hpasses, he, rfl⟩ := h
  have hle := hpasses.size_le
  rwa [size_eq, he, List.length_cons] at hle

theorem Agree.place (h : Agree r r' l l' c c') : c'.place = c.place := by
  cases h <;> rfl

theorem Agree.count (h : Agree r r' l l' c c') : Agree r r' l l' c.count c'.count := by
  cases h with
  | here c p =>
    simp only [Cursor.count]
    split
    · exact .here c p
    · exact .here { c with sloc := c.sloc + 1, counted := c.line } p
  | below c mid p =>
    simp only [Cursor.count]
    split
    · exact .below c mid p
    · exact .below { c with sloc := c.sloc + 1, counted := c.line } mid p

theorem seekFrom_stop (c : Cursor) (line col : Nat) (p r : List UInt8) (l : List (List UInt8)) :
    c.seekFrom line col (p ++ 0x2E :: r) l =
      { c with
        line := line
        col := col + (p.takeWhile isLayout).length
        here := p.dropWhile isLayout ++ 0x2E :: r
        below := l } := by
  have hlayout : isLayout 0x2E = false := rfl
  have hdrop := dropWhile_stop hlayout p r
  have htake := takeWhile_stop hlayout p r
  cases l with
  | nil =>
    unfold seekFrom
    split
    · rename_i hnil
      rw [hdrop] at hnil
      exact absurd hnil (by simp)
    · rw [htake, hdrop]
  | cons next l =>
    unfold seekFrom
    split
    · rename_i hnil
      rw [hdrop] at hnil
      exact absurd hnil (by simp)
    · rw [htake, hdrop]

theorem Agree.seekFrom (c : Cursor) (b b' : List (List UInt8)) (line col : Nat)
    (here : List UInt8) (mid : List (List UInt8)) (p : List UInt8) : Agree r r' l l'
      ({ c with below := b }.seekFrom line col here (mid ++ (p ++ 0x2E :: r) :: l))
      ({ c with below := b' }.seekFrom line col here (mid ++ (p ++ 0x2E :: r') :: l')) := by
  induction mid generalizing line col here with
  | nil =>
    simp only [List.nil_append, Cursor.seekFrom]
    split
    · rw [seekFrom_stop, seekFrom_stop]
      exact .here { c with line := line + 1, col := 0 + (p.takeWhile isLayout).length } _
    · exact .below { c with line, col := col + (here.takeWhile isLayout).length,
                            here := here.dropWhile isLayout } [] p
  | cons next mid ih =>
    simp only [List.cons_append, Cursor.seekFrom]
    split
    · exact ih _ _ _
    · exact .below { c with line, col := col + (here.takeWhile isLayout).length,
                            here := here.dropWhile isLayout } (next :: mid) p

theorem Agree.seek (h : Agree r r' l l' c c') : Agree r r' l l' c.seek c'.seek := by
  cases h with
  | here c p =>
    simp only [Cursor.seek, seekFrom_stop]
    exact .here { c with col := c.col + (p.takeWhile isLayout).length } (p.dropWhile isLayout)
  | below c mid p => exact .seekFrom c _ _ c.line c.col c.here mid p

/-- On the line of the full stop only what is in front of it can be passed. -/
theorem Agree.advance (h : Agree r r' l l' c c') {n : Nat} (hu : (c.advance n).Until r l) :
    Agree r r' l l' (c.advance n) (c'.advance n) := by
  cases h with
  | here c p =>
    obtain ⟨q, hq⟩ := hu.exists_here rfl
    have hlen := congrArg List.length hq
    simp only [Cursor.advance, List.length_drop, List.length_append, List.length_cons] at hlen
    have hn : n ≤ p.length := by omega
    simp only [Cursor.advance, List.drop_append_of_le_length hn]
    exact .here { c with col := c.col + n } (p.drop n)
  | below c mid p => exact .below (c.advance n) mid p

theorem take_snd (c : Cursor) (x : Lexeme) : (c.take x).2.here = c.here.drop x.size ∧
    (c.take x).2.below = c.below := by
  simp only [Cursor.take]
  split <;> simp [Cursor.advance]

/-- A token on one line is read in both sources. -/
theorem Agree.take (h : Agree r r' l l' c c') {f : List UInt8 → Lexeme} (hf : Lexeme.Local f)
    (hv : (f c.here).kind ≠ .invalid) (hu : (c.take (f c.here)).2.Until r l)
    (hlast : (c.take (f c.here)).2.here = 0x2E :: r → (c.take (f c.here)).2.below = l →
      (f c.here).kind ≠ .integer ∧ (f c.here).kind ≠ .real) :
    (c'.take (f c'.here)).1 = (c.take (f c.here)).1 ∧
      Agree r r' l l' (c.take (f c.here)).2 (c'.take (f c'.here)).2 := by
  obtain ⟨hhere, hbelow⟩ := c.take_snd (f c.here)
  have hsame : f c'.here = f c.here := by
    cases h with
    | below c mid p => rfl
    | here c p =>
      obtain ⟨q, hq⟩ := hu.exists_here hbelow
      rw [hhere] at hq hlast
      have hlen := congrArg List.length hq
      simp only [List.length_drop, List.length_append, List.length_cons] at hlen
      refine hf p r r' hv (by omega) fun hsize => hlast ?_ hbelow
      rw [hsize, List.drop_left]
  rw [hsame]
  by_cases hcode : (f c.here).kind = .invalid ∨ (f c.here).kind = .comment
  · simp only [Cursor.take, if_pos hcode] at hu ⊢
    exact ⟨by rw [h.place], h.advance hu⟩
  · simp only [Cursor.take, if_neg hcode] at hu ⊢
    exact ⟨by rw [h.count.place], h.count.advance hu⟩

variable {first find : List UInt8 → Option (List UInt8 × List UInt8)}

theorem Agree.stretch (hf : Search find) (c : Cursor) {line : Nat} {mid : List (List UInt8)}
    {p : List UInt8} {s : Stretch}
    (h : stretch find line (mid ++ (p ++ 0x2E :: r) :: l) = some s) (hu : (c.behind s).Until r l) :
    ∃ s', Cursor.stretch find line (mid ++ (p ++ 0x2E :: r') :: l') = some s' ∧
      s'.text = s.text ∧ Agree r r' l l' (c.behind s) (c.behind s') := by
  induction mid generalizing line s with
  | nil =>
    simp only [List.nil_append, Cursor.stretch] at h ⊢
    cases hfind : find (p ++ 0x2E :: r) with
    | some found =>
      obtain ⟨text, rest⟩ := found
      rw [hfind] at h
      obtain rfl := Option.some.inj h
      obtain ⟨q, hq⟩ := hu.exists_here rfl
      obtain rfl : rest = q ++ 0x2E :: r := hq
      rw [hf.local hfind r']
      refine ⟨_, rfl, rfl, ?_⟩
      simp only [behind, List.length_append, List.length_cons, Nat.add_sub_add_right]
      exact .here { c with line := line + 1, col := p.length - q.length } q
    | none =>
      -- Below the line of the full stop it is too late.
      rw [hfind] at h
      obtain ⟨s', hs', rfl⟩ := Option.map_eq_some_iff.mp h
      obtain ⟨mid', q, hbelow, _⟩ := stretch_passes hf hs'
      have hlen := hu.below_length_le
      simp only [behind, hbelow, List.length_append, List.length_cons] at hlen
      omega
  | cons next mid ih =>
    simp only [List.cons_append, Cursor.stretch] at h ⊢
    cases hfind : find next with
    | some found =>
      rw [hfind] at h
      obtain rfl := Option.some.inj h
      exact ⟨_, rfl, rfl, .below { c with line := line + 1, col := next.length - found.2.length,
                                          here := found.2 } mid p⟩
    | none =>
      rw [hfind] at h
      obtain ⟨s₀, hs₀, rfl⟩ := Option.map_eq_some_iff.mp h
      obtain ⟨s', hs', htext, hagree⟩ := ih hs₀ hu
      exact ⟨_, Option.map_eq_some_iff.mpr ⟨s', hs', rfl⟩, by simp [htext], hagree⟩

/-- A token that may run over lines is read in both sources. -/
theorem Agree.stretchHere (h : Agree r r' l l' c c') (hf : Search first) (hg : Search find)
    {skip : Nat} {s : Stretch} (hs : c.stretchHere skip first find = some s)
    (hu : (c.behind s).Until r l) :
    ∃ s', c'.stretchHere skip first find = some s' ∧ s'.text = s.text ∧
      Agree r r' l l' (c.behind s) (c'.behind s') := by
  have hskip : (c.advance skip).Until r l := .of_passes (stretchHere_passes hf hg hs) hu
  cases h with
  | here c p =>
    obtain ⟨q, hq⟩ := hskip.exists_here rfl
    have hlen := congrArg List.length hq
    simp only [Cursor.advance, List.length_drop, List.length_append, List.length_cons] at hlen
    have hle : skip ≤ p.length := by omega
    simp only [Cursor.stretchHere, List.drop_append_of_le_length hle] at hs ⊢
    cases hfind : first (p.drop skip ++ 0x2E :: r) with
    | some found =>
      obtain ⟨text, rest⟩ := found
      rw [hfind] at hs
      obtain rfl := Option.some.inj hs
      obtain ⟨q, hq⟩ := hu.exists_here rfl
      obtain rfl : rest = q ++ 0x2E :: r := hq
      rw [hf.local hfind r']
      refine ⟨_, rfl, rfl, ?_⟩
      simp only [behind, List.length_append, List.length_cons, Nat.add_sub_add_right]
      exact .here { c with col := c.col + (p.length - q.length) } q
    | none =>
      rw [hfind] at hs
      obtain ⟨s', hs', rfl⟩ := Option.map_eq_some_iff.mp hs
      obtain ⟨mid', q, hbelow, _⟩ := stretch_passes hg hs'
      have hlen := hu.below_length_le
      simp only [behind, hbelow, List.length_append, List.length_cons] at hlen
      omega
  | below c mid p =>
    simp only [Cursor.stretchHere] at hs ⊢
    cases hfind : first (c.here.drop skip) with
    | some found =>
      rw [hfind] at hs
      obtain rfl := Option.some.inj hs
      exact ⟨_, rfl, rfl, .below { c with col := c.col + (c.here.length - found.2.length),
                                          here := found.2 } mid p⟩
    | none =>
      rw [hfind] at hs
      obtain ⟨s₀, hs₀, rfl⟩ := Option.map_eq_some_iff.mp hs
      obtain ⟨s', hs', htext, hagree⟩ := Agree.stretch hg c hs₀ hu
      exact ⟨_, Option.map_eq_some_iff.mpr ⟨s', hs', rfl⟩, by simp [htext], hagree⟩

/-- What is read in front of the full stop is read in both sources, unless it is a number directly
in front of it. -/
theorem Agree.read (h : Agree r r' l l' c c') {m : Manner} (hm : m.Sound c.here)
    (hv : (m.read c).1.kind ≠ .invalid) (hu : (m.read c).2.Until r l)
    (hlast : (m.read c).2.here = 0x2E :: r → (m.read c).2.below = l →
      (m.read c).1.kind ≠ .integer ∧ (m.read c).1.kind ≠ .real) :
    (m.read c').1 = (m.read c).1 ∧ Agree r r' l l' (m.read c).2 (m.read c').2 := by
  cases hm with
  | lexeme hf hpos hdot => exact h.take hf hv hu hlast
  | @comment skip close hskip hclose =>
    have hsearch := search_breakOn hclose []
    simp only [Manner.read, Cursor.comment] at hv hu ⊢
    cases hs : c.stretchHere skip (breakOn close.bytes []) (breakOn close.bytes []) with
    | none =>
      rw [hs] at hv
      exact absurd rfl hv
    | some s =>
      rw [hs] at hu
      obtain ⟨s', hs', htext, hagree⟩ := h.stretchHere hsearch hsearch hs hu
      rw [hs']
      exact ⟨by simp only [htext, h.place], hagree⟩
  | assembler =>
    simp only [Manner.read, Cursor.assembler] at hv hu ⊢
    cases hs : c.count.stretchHere 3 (breakOnEnd true []) (breakOnEnd false []) with
    | none =>
      rw [hs] at hv
      exact absurd rfl hv
    | some s =>
      rw [hs] at hu
      obtain ⟨s', hs', htext, hagree⟩ := h.count.stretchHere (search_breakOnEnd true [])
        (search_breakOnEnd false []) hs hu
      rw [hs']
      exact ⟨by simp only [htext, h.count.place], hagree⟩

section Next

/-- The bytes of a token in front of the full stop decide how it is read. -/
theorem mannerOf_stop {p : List UInt8} (hp : p ≠ []) (r r' : List UInt8) :
    mannerOf (p ++ 0x2E :: r') = mannerOf (p ++ 0x2E :: r) := by
  obtain ⟨b, p, rfl⟩ := List.exists_cons_of_ne_nil hp
  have hpeek : (p ++ 0x2E :: r').headD 0 = (p ++ 0x2E :: r).headD 0 := by cases p <;> rfl
  have hword (r : List UInt8) := takeWhile_stop (f := isWordByte) rfl (b :: p) r
  simp only [List.cons_append] at hword ⊢
  simp only [mannerOf, hpeek, hword]

variable {t : Token} {ts : List (Token × Cursor)} {f : Cursor}

/-- A valid token in front of the full stop is the next one in both sources. -/
theorem Agree.next (h : Agree r r' l l' c c') (hn : c.next = (t, d)) (he : t.kind ≠ .eof)
    (hv : t.kind ≠ .invalid) (hu : d.Until r l)
    (hlast : d.here = 0x2E :: r → d.below = l → t.kind ≠ .integer ∧ t.kind ≠ .real) :
    ∃ d', c'.next = (t, d') ∧ Agree r r' l l' d d' := by
  obtain ⟨hne, hpasses, _⟩ := next_passes hn he hv
  have hseek := h.seek
  have hone : (c.seek.advance 1).Until r l := .of_passes hpasses hu
  have hsame : c'.seek.here ≠ [] ∧ mannerOf c'.seek.here = mannerOf c.seek.here := by
    generalize c.seek = s at hne hone hseek
    generalize c'.seek = s' at hseek
    cases hseek with
    | below c mid p => exact ⟨hne, rfl⟩
    | here c p =>
      -- The token takes a byte, so it begins in front of the full stop.
      have hp : p ≠ [] := by
        rintro rfl
        obtain ⟨q, hq⟩ := hone.exists_here rfl
        have hlen := congrArg List.length hq
        simp only [Cursor.advance, List.nil_append, List.drop_succ_cons, List.drop_zero,
          List.length_append, List.length_cons] at hlen
        omega
      exact ⟨by simp, mannerOf_stop hp r r'⟩
  obtain ⟨b, rest, hb⟩ := List.exists_cons_of_ne_nil hne
  have hsound : (mannerOf c.seek.here).Sound c.seek.here := hb ▸ mannerOf_sound b rest
  rw [next_eq hne] at hn
  have hread := hseek.read hsound (by rwa [hn]) (by rwa [hn]) (by rwa [hn])
  rw [hn] at hread
  refine ⟨_, ?_, hread.2⟩
  rw [next_eq hsame.1, hsame.2]
  exact Prod.ext hread.1 rfl

/-- Reading up to the full stop reads the same tokens in both sources. -/
theorem Reads.agree (h : Reads c ts f) (hu : f.Until r l) (ha : Agree r r' l l' c c')
    (hlast : ∀ x ∈ ts.getLast?, x.1.kind ≠ .integer ∧ x.1.kind ≠ .real) :
    ∃ ts' f', Reads c' ts' f' ∧ Agree r r' l l' f f' ∧
      ts'.map (fun x => (x.1, x.2.place)) = ts.map fun x => (x.1, x.2.place) := by
  induction h generalizing c' with
  | nil c => exact ⟨[], c', .nil c', ha, rfl⟩
  | @cons c d f t ts hn he hv hreads ih =>
    have hd : d.Until r l := .of_passes hreads.passes hu
    -- In front of the full stop itself no more tokens are read, so the token is the last.
    have hnumber : d.here = 0x2E :: r → d.below = l → t.kind ≠ .integer ∧ t.kind ≠ .real := by
      intro hhere hbelow
      have hle := hreads.length_add_size_le
      have hsize := hu.size_le
      rw [size_eq d, hhere, hbelow, List.length_cons] at hle
      obtain rfl : ts = [] := List.length_eq_zero_iff.mp (by omega)
      exact hlast (t, d) rfl
    obtain ⟨d', hn', hagree⟩ := ha.next hn he hv hd hnumber
    obtain ⟨ts', f', hreads', hf, hmap⟩ := ih hu hagree fun x hx => by
      cases ts with
      | nil => cases hx
      | cons y ts => exact hlast x (by rwa [List.getLast?_cons_cons])
    refine ⟨(t, d') :: ts', f', .cons hn' he hv hreads', hf, ?_⟩
    rw [List.map_cons, List.map_cons, hmap, hagree.place]

theorem Agree.stop (h : Agree r r' l l' c c') (hhere : c.here = 0x2E :: r) (hbelow : c.below = l) :
    c'.here = 0x2E :: r' := by
  cases h with
  | here c p =>
    obtain rfl : p = [] := by simpa using congrArg List.length hhere
    rfl
  | below c mid p =>
    have hlen := congrArg List.length hbelow
    simp only [List.length_append, List.length_cons] at hlen
    omega

/-- The tokens up to a full stop are the same in both sources, if the last one in front of it is no
number and the full stop does not become part of a longer mark. -/
theorem Agree.tokens {post : List (Token × Cursor)} (ha : Agree d.here r' d.below l' c c')
    (h : c.tokens = ts ++ (t, d) :: post) (hdot : t.kind = .dot)
    (hv : ∀ x ∈ ts, x.1.kind ≠ .eof ∧ x.1.kind ≠ .invalid)
    (hlast : ∀ x ∈ ts.getLast?, x.1.kind ≠ .integer ∧ x.1.kind ≠ .real)
    (hr : ∀ b ∈ r'.head?, b ≠ 0x2E ∧ b ≠ 0x29) :
    ∃ ts' d' post', c'.tokens = ts' ++ (t, d') :: post' ∧ d'.place = d.place ∧
      ts'.map (fun x => (x.1, x.2.place)) = ts.map fun x => (x.1, x.2.place) := by
  obtain ⟨f, hreads, hf⟩ := exists_reads h hv
  obtain ⟨hhere, hbelow, ht, hd⟩ := next_of_dot hf hdot
  have hu : f.Until d.here d.below := ⟨f.seek, f.seek_passes, hhere, hbelow.symm⟩
  obtain ⟨ts', f', hreads', hagree, hmap⟩ := hreads.agree hu ha hlast
  have hf' := next_dot (hagree.seek.stop hhere hbelow.symm) hr
  rw [hagree.seek.place, ← ht] at hf'
  have hle := hreads'.length_add_size_le
  obtain ⟨post', hpost⟩ := hreads'.tokensWithin hf' (show ts'.length < c'.size + 1 by omega)
  refine ⟨ts', _, post', hpost, ?_, hmap⟩
  have hplace := hagree.seek.count.place
  simp only [Cursor.place, Place.mk.injEq] at hplace
  rw [hd]
  simp only [Cursor.place, Cursor.advance, hplace.1, Nat.add_right_cancel hplace.2]

end Next

end ObjectPascal.Cursor
