import ObjectPascal.Proofs.Token.Freestanding

/-!
Layout between tokens. Layout consists of white space, line breaks and complete comments. A source in
which the tokens of another one stand in their order, each two with some layout between them that
begins with a byte of white space, has the same tokens.
-/

namespace ObjectPascal

/-- White space, line breaks and complete comments. A comment goes on up to the first mark that closes
it, or behind two slashes up to the end of the line. -/
inductive Filler : List UInt8 → Prop
  | nil : Filler []
  | layout {b : UInt8} {s : List UInt8} (hb : isLayout b = true) (h : Filler s) : Filler (b :: s)
  | brace {body s : List UInt8} (hbody : 0x7D ∉ body) (h : Filler s) :
      Filler ([0x7B] ++ (body ++ ([0x7D] ++ s)))
  | paren {body s : List UInt8} (hbody : ¬ [0x2A, 0x29] <:+: body) (h : Filler s) :
      Filler ([0x28, 0x2A] ++ (body ++ ([0x2A, 0x29] ++ s)))
  | line {body s : List UInt8} (hbody : 0x0A ∉ body) (h : Filler s) :
      Filler ([0x2F, 0x2F] ++ (body ++ ([0x0A] ++ s)))

/-- What may stand between two tokens. -/
structure Separator (s : List UInt8) : Prop where
  filler : Filler s
  begins : ∃ b t, s = b :: t ∧ isLayout b = true

/-- Behind a token some others follow, each behind a separator. -/
inductive Follows : List (List UInt8) → List UInt8 → Prop
  | nil {trail : List UInt8} (h : trail = [] ∨ Separator trail) : Follows [] trail
  | cons {sep w rest : List UInt8} {ws : List (List UInt8)} (hsep : Separator sep)
      (h : Follows ws rest) : Follows (w :: ws) (sep ++ (w ++ rest))

/-- Some tokens are written one after the other with separators between them. -/
inductive Spaced : List (List UInt8) → List UInt8 → Prop
  | nil {lead : List UInt8} (h : Filler lead) : Spaced [] lead
  | cons {lead w rest : List UInt8} {ws : List (List UInt8)} (hlead : Filler lead)
      (h : Follows ws rest) : Spaced (w :: ws) (lead ++ (w ++ rest))

theorem Separator.layoutAhead {s : List UInt8} (h : Separator s) (r : List UInt8) :
    LayoutAhead (s ++ r) := by
  obtain ⟨b, t, rfl, hb⟩ := h.begins
  intro x hx
  obtain rfl : b = x := Option.some.inj hx
  exact hb

theorem Follows.layoutAhead {ws : List (List UInt8)} {s : List UInt8} (h : Follows ws s) :
    LayoutAhead s := by
  cases h with
  | nil h =>
    rcases h with rfl | h
    · simp [LayoutAhead]
    · simpa using h.layoutAhead []
  | cons hsep => exact hsep.layoutAhead _

namespace Cursor

variable {c : Cursor} {p r w s gap body : List UInt8}

/-- A complete comment is passed. -/
theorem Rests.comment (close : Text) (h : c.Rests p (gap ++ (w ++ (body ++ (close.bytes ++ s)))))
    (hgap : ∀ b ∈ gap, isLayout b = true) {b : UInt8} (hb : w.head? = some b)
    (hlayout : isLayout b = false) (hline : 0x0A ∉ w) (hlast : w.getLast? ≠ some 0x0D)
    (hmanner : ∀ x, mannerOf (w ++ x) = .comment w.length close)
    (hne : close.bytes ≠ []) (hclose : ∀ b ∈ close.bytes, ¬ IsBreak b)
    (hfound : breakOn close.bytes [] (body ++ (close.bytes ++ s)) = some (body, s)) :
    c.next.1.kind = .comment ∧ c.next.2.Rests (p ++ gap ++ (w ++ (body ++ close.bytes))) s := by
  obtain ⟨hfaces, htrim, hnext⟩ := h.faces hgap (by rw [List.head?_append, hb]; rfl) hlayout
  obtain ⟨x, hhere, _⟩ := hfaces.lines.exists_here hline hlast
  have hrests := h.trimmed.next
  have hbounded := bounded_breakOn hne hclose
  have hanswers := hfaces.stretchHere_answers htrim hhere hbounded hbounded
  rw [hhere, hmanner, Manner.read, Cursor.comment] at hnext
  cases hstretch : c.seek.stretchHere w.length (breakOn close.bytes []) (breakOn close.bytes []) with
  | none =>
    rw [hstretch] at hanswers
    cases hanswers with
    | missing hnone => cases hnone.symm.trans hfound
  | some st =>
    rw [hstretch] at hanswers hnext
    obtain ⟨text, extent, q, hsome, hextent, _, hstands⟩ := hanswers.stands c.seek
    obtain ⟨rfl, rfl⟩ := Prod.mk.inj (Option.some.inj (hfound.symm.trans hsome))
    obtain rfl : body ++ close.bytes = extent := by
      apply (List.append_left_inj s).mp
      rw [← hextent, List.append_assoc]
    rw [hnext] at hrests ⊢
    refine ⟨rfl, ?_, hrests⟩
    rwa [List.append_assoc (p ++ gap)] at hstands

/-- A mark is found where it stands if it does not stand earlier. -/
theorem breakOn_first {pat : List UInt8} (hne : pat ≠ [])
    (h : ∀ b t, b :: t <:+ body → ¬ pat <+: b :: t ++ (pat ++ s)) :
    breakOn pat [] (body ++ (pat ++ s)) = some (body, s) := by
  induction body with
  | nil =>
    obtain ⟨b, t, rfl⟩ := List.exists_cons_of_ne_nil hne
    have hpre : (b :: t).isPrefixOf (b :: (t ++ s)) = true :=
      List.isPrefixOf_iff_prefix.mpr (List.prefix_append (b :: t) s)
    simp [breakOn, hpre]
  | cons b body ih =>
    have hnot := h b body List.suffix_rfl
    rw [List.cons_append, breakOn, if_neg (by rwa [List.isPrefixOf_iff_prefix]), breakOn_acc,
      ih fun x t ht => h x t (ht.trans (List.suffix_cons b body))]
    rfl

theorem breakOn_brace (hbody : 0x7D ∉ body) :
    breakOn [0x7D] [] (body ++ ([0x7D] ++ s)) = some (body, s) := by
  refine breakOn_first (List.cons_ne_nil _ _) fun b t ht hpre => ?_
  obtain ⟨rfl, _⟩ := List.cons_prefix_cons.mp hpre
  exact hbody (ht.subset List.mem_cons_self)

theorem breakOn_paren (hbody : ¬ [0x2A, 0x29] <:+: body) :
    breakOn [0x2A, 0x29] [] (body ++ ([0x2A, 0x29] ++ s)) = some (body, s) := by
  refine breakOn_first (List.cons_ne_nil _ _) fun b t ht hpre => ?_
  obtain ⟨rfl, hbehind⟩ := List.cons_prefix_cons.mp hpre
  cases t with
  | nil =>
    -- The star of the mark itself is not followed by a second one.
    obtain ⟨heq, _⟩ := List.cons_prefix_cons.mp hbehind
    exact absurd heq (by decide)
  | cons d t =>
    obtain ⟨rfl, _⟩ := List.cons_prefix_cons.mp hbehind
    have hwithin : [0x2A, 0x29] <:+: 0x2A :: 0x29 :: t := (List.prefix_append [0x2A, 0x29] t).isInfix
    exact hbody (hwithin.trans ht.isInfix)

/-- A comment up to the end of its line is passed, except for the line break. -/
theorem Rests.line (h : c.Rests p (gap ++ ([0x2F, 0x2F] ++ (body ++ ([0x0A] ++ s)))))
    (hgap : ∀ b ∈ gap, isLayout b = true) (hbody : 0x0A ∉ body) :
    ∃ q cut, q ++ (cut ++ [0x0A]) = p ++ gap ++ ([0x2F, 0x2F] ++ (body ++ [0x0A])) ∧
      (∀ b ∈ cut, b = 0x0D) ∧ c.next.1.kind = .comment ∧ c.next.2.Rests q (cut ++ [0x0A] ++ s) := by
  obtain ⟨hfaces, _, hnext⟩ := h.faces hgap rfl rfl
  obtain ⟨x, hhere, _⟩ := hfaces.lines.exists_here (by decide) (by decide)
  have hrests := h.trimmed.next
  -- The line ends with carriage returns in front of the first line feed.
  obtain ⟨cut, hcut, hsplit⟩ : ∃ cut, (∀ b ∈ cut, b = 0x0D) ∧
      [0x2F, 0x2F] ++ body = c.seek.here ++ cut := by
    have hfront : 0x0A ∉ [0x2F, 0x2F] ++ body := by simpa using hbody
    have hlines := hfaces.lines
    generalize c.seek.below = below at hlines
    generalize c.seek.here = here at hlines
    have htake {l r : List UInt8} (hl : 0x0A ∉ l) :
        (l ++ 0x0A :: r).takeWhile (· != 0x0A) = l := by
      refine (takeWhile_of_class (fun b hb => ?_) (by simp)).1
      rw [bne_iff_ne]
      rintro rfl
      exact hl hb
    generalize hr : [0x2F, 0x2F] ++ (body ++ ([0x0A] ++ s)) = r at hlines
    rw [← List.append_assoc] at hr
    cases hlines with
    | @last _ cut hline hcut =>
      have hmem : 0x0A ∈ here ++ cut := by
        rw [← hr]
        simp
      rcases List.mem_append.mp hmem with hmem | hmem
      · exact absurd hmem hline
      · exact absurd (hcut _ hmem) (by decide)
    | @cons _ cut r _ hline hcut _ =>
      refine ⟨cut, hcut, ?_⟩
      have hfeed : 0x0A ∉ here ++ cut := by
        rw [List.mem_append, not_or]
        exact ⟨hline, fun hmem => absurd (hcut _ hmem) (by decide)⟩
      have hsame : [0x2F, 0x2F] ++ body ++ 0x0A :: s = here ++ cut ++ 0x0A :: r := by
        rw [List.append_assoc here]
        exact hr
      rw [← htake hfront, hsame, htake hfeed]
  have hr : [0x2F, 0x2F] ++ (body ++ ([0x0A] ++ s)) = c.seek.here ++ (cut ++ [0x0A] ++ s) := by
    rw [← List.append_assoc, hsplit]
    simp only [List.append_assoc]
  rw [hr] at hfaces
  have hmanner : mannerOf (c.seek.here ++ []) = .lexeme fun s => ⟨.comment, s.length, ⟨s⟩⟩ := by
    rw [hhere]
    rfl
  have htake := hfaces.take hfaces.here (List.append_nil _).symm hmanner (by rw [List.append_nil])
  rw [← hnext] at htake
  refine ⟨p ++ gap ++ c.seek.here, cut, ?_, hcut, by rw [htake.1], htake.2, hrests⟩
  rw [List.append_assoc (p ++ gap), ← List.append_assoc c.seek.here, ← hsplit]
  simp only [List.append_assoc]

/-- All layout in front of a token is passed: the token is read behind some last white space. -/
theorem Rests.passes_filler (h : c.Rests p (gap ++ (s ++ r)))
    (hgap : ∀ b ∈ gap, isLayout b = true) (hs : Filler s) : ∃ (d : Cursor) (q gap' : List UInt8),
      d.Rests q (gap' ++ r) ∧ (∀ b ∈ gap', isLayout b = true) ∧ c.nextCode = d.nextCode ∧
        q ++ gap' = p ++ (gap ++ s) := by
  induction hs generalizing c p gap with
  | nil => exact ⟨c, p, gap, h, hgap, rfl, by rw [List.append_nil]⟩
  | @layout b s hb _ ih =>
    have hgap' : ∀ x ∈ gap ++ [b], isLayout x = true := by
      intro x hx
      rcases List.mem_append.mp hx with hx | hx
      · exact hgap x hx
      · rwa [List.mem_singleton.mp hx]
    obtain ⟨d, q, gap', hd, hgap', hnext, hsplit⟩ := ih (by simpa using h) hgap'
    exact ⟨d, q, gap', hd, hgap', hnext, by rw [hsplit]; simp⟩
  | @brace body s hbody _ ih =>
    have hclose : (Text.ofString "\x7d").bytes = [0x7D] := by decide
    simp only [List.append_assoc] at h
    obtain ⟨hkind, hrests⟩ := h.comment "\x7d" hgap rfl rfl (by decide) (by decide)
      (fun x => rfl) (by decide) (by decide) (breakOn_brace hbody)
    obtain ⟨d, q, gap', hd, hgap', hnext, hsplit⟩ := @ih _ _ [] hrests (by simp)
    exact ⟨d, q, gap', hd, hgap', (nextCode_of_comment hkind).trans hnext,
      by rw [hsplit, hclose]; simp⟩
  | @paren body s hbody _ ih =>
    have hclose : (Text.ofString "*)").bytes = [0x2A, 0x29] := by decide
    simp only [List.append_assoc] at h
    obtain ⟨hkind, hrests⟩ := h.comment "*)" hgap rfl rfl (by decide) (by decide)
      (fun x => rfl) (by decide) (by decide) (breakOn_paren hbody)
    obtain ⟨d, q, gap', hd, hgap', hnext, hsplit⟩ := @ih _ _ [] hrests (by simp)
    exact ⟨d, q, gap', hd, hgap', (nextCode_of_comment hkind).trans hnext,
      by rw [hsplit, hclose]; simp⟩
  | @line body s hbody _ ih =>
    simp only [List.append_assoc] at h
    obtain ⟨q', cut, hsplit', hcut, hkind, hrests⟩ := h.line hgap hbody
    have hcut' : ∀ b ∈ cut ++ [0x0A], isLayout b = true := by
      intro b hb
      rcases List.mem_append.mp hb with hb | hb
      · rw [hcut b hb]
        rfl
      · rw [List.mem_singleton.mp hb]
        rfl
    obtain ⟨d, q, gap', hd, hgap', hnext, hsplit⟩ := ih hrests hcut'
    refine ⟨d, q, gap', hd, hgap', (nextCode_of_comment hkind).trans hnext, ?_⟩
    rw [hsplit, ← List.append_assoc, hsplit']
    simp

/-- Only layout ahead is the end. -/
theorem Rests.next_of_layout (h : c.Rests p gap) (hgap : ∀ b ∈ gap, isLayout b = true) :
    c.next.1.kind = .eof := by
  by_contra hend
  obtain ⟨front, rest, rfl, hfaces, _⟩ := h.next_faces hend
  obtain ⟨b, here, hb⟩ := List.exists_cons_of_ne_nil hfaces.here
  obtain ⟨u, rfl, _⟩ := hfaces.lines.split
  have hnot := seekFrom_head c c.line c.col c.here c.below
  rw [← Cursor.seek, hb] at hnot
  have hmem : b ∈ front ++ (c.seek.here ++ u) := by
    rw [hb]
    simp
  exact absurd ((hgap b hmem).symm.trans (hnot b rfl)) (by decide)

/-- A token that is no comment takes at least one byte. -/
theorem nextCodeWithin_size_lt {n : Nat} (hend : (nextCodeWithin n c).1.kind ≠ .eof)
    (hvalid : (nextCodeWithin n c).1.kind ≠ .invalid) : (nextCodeWithin n c).2.size < c.size := by
  induction n generalizing c with
  | zero => exact absurd rfl hend
  | succ n ih =>
    rw [nextCodeWithin] at hend hvalid ⊢
    by_cases hkind : c.next.1.kind = .comment
    · simp only [hkind, ↓reduceIte] at hend hvalid ⊢
      exact (ih hend hvalid).trans
        (next_size_lt (t := c.next.1) rfl (by simp [hkind]) (by simp [hkind]))
    · simp only [hkind, ↓reduceIte] at hend hvalid ⊢
      exact next_size_lt (t := c.next.1) rfl hend hvalid

end Cursor

/-- A token is the one that its bytes are read as wherever they stand between layout. -/
structure Readable (t : Token) (w : List UInt8) : Prop where
  free : Cursor.Freestands t.kind t.text w
  more : t.kind ≠ .eof
  valid : t.kind ≠ .invalid
  code : t.kind ≠ .comment

theorem Follows.spaced {ws : List (List UInt8)} {s : List UInt8} (h : Follows ws s) :
    Spaced ws s := by
  cases h with
  | nil h => exact .nil (h.elim (fun hs => hs ▸ .nil) Separator.filler)
  | cons hsep h => exact .cons hsep.filler h

namespace Scanner

/-- Whether a token is the last one to be read. -/
def stops (t : Token) : Bool := t.kind == .invalid || t.kind == .eof

/-- What a token is without its place. -/
def valueOf (t : Token) : Kind × Text := (t.kind, t.text)

/-- The bytes that the next tokens cover. -/
def extents (s : Scanner) (source : Text) (n : Nat) : List (List UInt8) :=
  (List.range n).map fun i => source.bytes.extract (s.begins source i) (s.resumes source (i + 1))

variable {s : Scanner} {source : Text} {p r : List UInt8}

theorem after_succ (s : Scanner) (n : Nat) : s.after (n + 1) = s.next.2.after n := by
  induction n with
  | zero => rfl
  | succ n ih =>
    rw [after, ih]
    rfl

theorem extents_succ (s : Scanner) (source : Text) (n : Nat) : s.extents source (n + 1) =
    source.bytes.extract (s.begins source 0) (s.resumes source 1) ::
      s.next.2.extents source n := by
  rw [extents, List.range_succ_eq_map, List.map_cons, List.map_map]
  congr 1
  refine List.map_congr_left fun i _ => ?_
  change source.bytes.extract ((s.after (i + 1)).next.1.place.offset source)
    ((s.after (i + 1 + 1)).cursor.offset source) = _
  rw [after_succ, after_succ]
  rfl

theorem At.next_code (h : s.At source p r) (hkeep : s.keepComments = false) :
    s.next.1 = s.cursor.nextCode.1 ∧ s.next.2.cursor = s.cursor.nextCode.2 := by
  simp only [Scanner.next, h.running, hkeep, Bool.false_eq_true, ↓reduceIte, and_self]

/-- What a scanner hands out can be read wherever it stands between layout. -/
theorem At.readable (h : s.At source p r) (hkeep : s.keepComments = false)
    (hend : s.next.1.kind ≠ .eof) (hvalid : s.next.1.kind ≠ .invalid) :
    Readable s.next.1 (source.bytes.extract (s.begins source 0) (s.resumes source 1)) := by
  obtain ⟨d, q, u, hd, hsplit, _, htoken, hcursor, _, hcode⟩ := h.next_eq
  have hcode := hcode hkeep
  rw [htoken] at hend hvalid hcode
  obtain ⟨gap, w, v, rfl, hplace, hrests, hfree⟩ := hd.freestands hend hvalid hcode
  have hsource : source.bytes.drop source.markLength = q ++ gap ++ (w ++ v) := by
    rw [h.split, hsplit, List.append_assoc]
  have hbegins : s.begins source 0 = source.markLength + (q ++ gap).length := by
    change s.next.1.place.offset source = _
    rw [htoken, hplace, Place.offset_behind hsource]
  have hresumes : s.resumes source 1 = source.markLength + (q ++ gap ++ w).length := by
    change s.next.2.cursor.offset source = _
    rw [hcursor, hrests.stands.offset (by rw [hsource, List.append_assoc (q ++ gap)])]
  have hextent : source.bytes.extract (s.begins source 0) (s.resumes source 1) = w := by
    have hlen : s.resumes source 1 - s.begins source 0 = w.length := by
      rw [hbegins, hresumes, ← Nat.add_sub_add_left source.markLength, List.length_append]
      omega
    rw [List.extract_eq_take_drop, hlen, hbegins, ← List.drop_drop, hsource, List.drop_left,
      List.take_left]
  rw [hextent, htoken]
  exact ⟨hfree, hend, hvalid, hcode⟩

/-- One more token is read if none has stopped. -/
theorem readWithin_succ (s : Scanner) (fuel : Nat) : (readWithin stops (fuel + 1) s).1 =
    s.next.1 :: if stops s.next.1 then [] else (readWithin stops fuel s.next.2).1 := by
  rw [readWithin]
  simp only
  split <;> rfl

/-- A token that does not stop leaves less to read. -/
theorem At.size_lt (h : s.At source p r) (hkeep : s.keepComments = false)
    (hend : s.next.1.kind ≠ .eof) (hvalid : s.next.1.kind ≠ .invalid) :
    s.next.2.cursor.size < s.cursor.size := by
  obtain ⟨htoken, hcursor⟩ := h.next_code hkeep
  rw [htoken] at hend hvalid
  rw [hcursor]
  exact Cursor.nextCodeWithin_size_lt hend hvalid

/-- All the tokens of a source can be read wherever they stand between layout. -/
theorem At.readables {fuel : Nat} (h : s.At source p r) (hkeep : s.keepComments = false)
    (hfuel : s.cursor.size < fuel)
    (hvalid : ∀ t ∈ (readWithin stops fuel s).1, t.kind ≠ .invalid) :
    List.Forall₂ Readable ((readWithin stops fuel s).1.filter (·.kind != .eof))
      (s.extents source ((readWithin stops fuel s).1.filter (·.kind != .eof)).length) := by
  induction fuel generalizing s p r with
  | zero => exact absurd hfuel (Nat.not_lt_zero _)
  | succ fuel ih =>
    rw [readWithin_succ] at hvalid ⊢
    have hfirst := hvalid s.next.1 List.mem_cons_self
    by_cases hend : s.next.1.kind = .eof
    · simp [stops, hend, extents]
    · have hlt := h.size_lt hkeep hend hfirst
      obtain ⟨q, u, hnext⟩ := h.next
      have hstops : stops s.next.1 = false := by simp [stops, hend, hfirst]
      simp only [hstops, Bool.false_eq_true, ↓reduceIte] at hvalid ⊢
      have hrest := ih hnext hkeep (by omega) fun t ht => hvalid t (List.mem_cons_of_mem _ ht)
      rw [List.filter_cons_of_pos (by simpa using hend), List.length_cons, extents_succ]
      exact .cons (h.readable hkeep hend hfirst) hrest

/-- The tokens are read again from wherever they stand between layout. -/
theorem At.tokens_of_spaced {fuel : Nat} {ts : List Token} {ws : List (List UInt8)}
    (hts : List.Forall₂ Readable ts ws) (hws : Spaced ws r) (h : s.At source p r)
    (hkeep : s.keepComments = false) (hfuel : s.cursor.size < fuel) :
    ((readWithin stops fuel s).1.filter (·.kind != .eof)).map valueOf = ts.map valueOf := by
  induction hts generalizing s p r fuel with
  | nil =>
    obtain ⟨fuel, rfl⟩ : ∃ k, fuel = k + 1 := ⟨fuel - 1, by omega⟩
    cases hws with
    | nil hlead =>
      have hrests : s.cursor.Rests p ([] ++ (r ++ [])) := by simpa using h.rests
      obtain ⟨d, q, gap, hd, hgap, hnext, _⟩ := hrests.passes_filler (by simp) hlead
      rw [List.append_nil] at hd
      have hkind := hd.next_of_layout hgap
      have hend : s.next.1.kind = .eof := by
        rw [(h.next_code hkeep).1, hnext, Cursor.nextCode_of_ne (by simp [hkind])]
        exact hkind
      rw [readWithin_succ]
      simp [stops, hend]
  | @cons t w ts ws ht _ ih =>
    cases hws with
    | @cons lead _ rest _ hlead hfollows =>
      obtain ⟨fuel, rfl⟩ : ∃ k, fuel = k + 1 := ⟨fuel - 1, by omega⟩
      have hrests : s.cursor.Rests p ([] ++ (lead ++ (w ++ rest))) := h.rests
      obtain ⟨d, q, gap, hd, hgap, hnext, hsplit⟩ := hrests.passes_filler (by simp) hlead
      obtain ⟨hkind, htext, hrests⟩ := ht.free hd hgap hfollows.layoutAhead
      obtain ⟨htoken, hcursor⟩ := h.next_code hkeep
      rw [hnext, Cursor.nextCode_of_ne (by rw [hkind]; exact ht.code)] at htoken hcursor
      have hnext' : s.next.2.At source (q ++ gap ++ w) rest := by
        refine ⟨h.running, ?_, by rwa [hcursor]⟩
        rw [h.split, hsplit]
        simp
      have hend : s.next.1.kind ≠ .eof := by rw [htoken, hkind]; exact ht.more
      have hvalid : s.next.1.kind ≠ .invalid := by rw [htoken, hkind]; exact ht.valid
      have hlt : s.next.2.cursor.size < fuel := by
        have hless := h.size_lt hkeep hend hvalid
        omega
      have hrest := ih hfollows.spaced hnext' hkeep hlt
      have hstops : stops s.next.1 = false := by simp [stops, hend, hvalid]
      rw [readWithin_succ, List.filter_cons_of_pos (by simpa using hend), List.map_cons,
        List.map_cons]
      simp only [hstops, Bool.false_eq_true, ↓reduceIte]
      rw [hrest, valueOf, htoken, hkind, htext, valueOf]

/-- Layout does not matter. A source without invalid tokens has the same kinds and texts of tokens as any
other one in which the bytes of its tokens stand in the same order, each two with a separator between
them, unless that one begins with the bytes of a byte order mark. -/
theorem tokens_of_other_layout (s : Scanner) (source source' : Text)
    (hkeep : s.keepComments = false) (hvalid : ∀ t ∈ (s.tokens source).1, t.kind ≠ .invalid)
    (hspaced : Spaced ((s.open_ source ∅).extents source (s.tokens source).1.length) source'.bytes)
    (hmark : ¬ [0xEF, 0xBB, 0xBF] <+: source'.bytes) :
    (s.tokens source').1.map valueOf = (s.tokens source).1.map valueOf := by
  have hopen := at_open s source ∅
  have hopen' := at_open s source' ∅
  have hzero : source'.markLength = 0 := by
    rw [Text.markLength, if_neg (by rwa [List.isPrefixOf_iff_prefix])]
  rw [hzero, List.drop_zero] at hopen'
  have hreadables := hopen.readables hkeep (Nat.lt_succ_self _) fun t ht hinvalid => by
    refine hvalid t (List.mem_filter.mpr ⟨ht, ?_⟩) hinvalid
    simp [hinvalid]
  exact hopen'.tokens_of_spaced hreadables hspaced hkeep (Nat.lt_succ_self _)

theorem tokens_of_other_layout_assignment :
    (({} : Scanner).tokens "(*)*)x\r\n:= // b\n\x7b:=\x7d'a'#10 ").1.map valueOf =
      [(.ident, Text.ofString "x"), (.assign, ∅), (.string, Text.ofString "a\n")] := by
  have hextents : (({} : Scanner).open_ "x :=\t'a'#10" ∅).extents "x :=\t'a'#10"
      (({} : Scanner).tokens "x :=\t'a'#10").1.length =
        [[0x78], [0x3A, 0x3D], (Text.ofString "'a'#10").bytes] := by decide
  have hblank : Separator [0x20] := ⟨.layout rfl .nil, _, _, rfl, rfl⟩
  have hbreak : Separator [0x0D, 0x0A] := ⟨.layout rfl (.layout rfl .nil), _, _, rfl, rfl⟩
  have hcomments : Separator (Text.ofString " // b\n\x7b:=\x7d").bytes := by
    refine ⟨.layout rfl (@Filler.line [0x20, 0x62] _ (by decide) ?_), _, _, rfl, rfl⟩
    exact @Filler.brace [0x3A, 0x3D] _ (by decide) .nil
  have hlead : Filler (Text.ofString "(*)*)").bytes := by
    refine @Filler.paren [0x29] _ (fun h => ?_) .nil
    exact absurd h.length_le (by decide)
  have hspaced := Spaced.cons (w := [0x78]) hlead (.cons (w := [0x3A, 0x3D]) hbreak
    (.cons (w := (Text.ofString "'a'#10").bytes) hcomments (.nil (Or.inr hblank))))
  rw [tokens_of_other_layout {} "x :=\t'a'#10" _ rfl (by decide) (hextents ▸ hspaced) (by decide)]
  decide

/-- A mark in front of the source is no token. -/
example : (({} : Scanner).tokens "\uFEFFa").1.length = 1 := by decide +kernel

/-- The bytes of a token may begin with a byte order mark. Written first in a source, such a token
loses them. -/
theorem token_behind_mark :
    (∀ t ∈ (({} : Scanner).tokens " \uFEFFa").1, t.kind ≠ .invalid) ∧
      Spaced ((({} : Scanner).open_ " \uFEFFa" ∅).extents " \uFEFFa"
        (({} : Scanner).tokens " \uFEFFa").1.length) (Text.ofString "\uFEFFa").bytes ∧
      (({} : Scanner).tokens "\uFEFFa").1.map valueOf = [(.ident, Text.ofString "a")] ∧
      (({} : Scanner).tokens "\uFEFFa").1.map valueOf ≠
        (({} : Scanner).tokens " \uFEFFa").1.map valueOf := by
  have htokens : (({} : Scanner).tokens " \uFEFFa").1 =
      [⟨.ident, 4, ⟨1, 2⟩, Text.ofString "\uFEFFa"⟩] := by
    decide +kernel
  have hextents : (({} : Scanner).open_ " \uFEFFa" ∅).extents " \uFEFFa" 1 =
      [(Text.ofString "\uFEFFa").bytes] := by
    decide +kernel
  have halone : (({} : Scanner).tokens "\uFEFFa").1.map valueOf = [(.ident, Text.ofString "a")] := by
    decide +kernel
  rw [htokens, halone]
  refine ⟨by simp, ?_, rfl, by decide +kernel⟩
  rw [List.length_singleton, hextents]
  exact @Spaced.cons [] _ [] [] .nil (.nil (Or.inl rfl))

end Scanner
end ObjectPascal
