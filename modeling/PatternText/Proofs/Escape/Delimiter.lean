import PatternText.Proofs.Escape.Pass

/-!
# One delimiter in one reading

The passes that protect and reveal a delimiter can be started anywhere in a text, with one
bit for whether the first character is escaped.  Protecting follows the search for the
delimiter.

Revealing follows the search for the escape and the delimiter together.  If no beginning
of these is also an end of them, it can forget about the search: an escape is dropped if
it is not escaped and the delimiter comes next, and everything else is copied.  This holds
for every delimiter without an escape character.
-/

namespace PatternText.Escape

open Token (pieces Borderless)

variable {d r s : Text} {armed : Bool}

/-! ## Protecting -/

/-- The text with every live occurrence of a delimiter escaped, `armed` telling whether
its first character is escaped. -/
def protectFrom (d : Text) (armed : Bool) (s : Text) : Text :=
  weave d (protectMark d) armed (pieces d s)

theorem protect_eq_protectFrom (hd : d ≠ []) (s : Text) :
    protect d s = protectFrom d false s :=
  protect_eq_weave hd s

theorem protectFrom_nil (hd : d ≠ []) (armed : Bool) :
    protectFrom d armed [] = [] :=
  weave_pieces_nil hd _ armed

theorem protectFrom_found
    (hd : d ≠ []) (armed : Bool) (r : Text) :
    protectFrom d armed (d ++ r) =
      protectMark d armed ++ protectFrom d (armedOver armed d) r :=
  weave_pieces_found hd _ armed r

theorem protectFrom_step
    {c : Char}
    (hd : d ≠ []) (armed : Bool) (h : ¬d <+: c :: r) :
    protectFrom d armed (c :: r) = c :: protectFrom d (armedBy armed c) r :=
  weave_pieces_step hd _ armed h

theorem protectFrom_ne_nil
    (hd : d ≠ []) (armed : Bool) (hs : s ≠ []) :
    protectFrom d armed s ≠ [] := by
  induction s using Text.search_induction hd with
  | ended => exact absurd rfl hs
  | found r ih =>
    rw [protectFrom_found hd]
    cases armed <;> simp [protectMark, hd]
  | step c r h ih =>
    rw [protectFrom_step hd armed h]
    exact List.cons_ne_nil c _

/-- Where a protected text starts with `x`, the text itself does, unless `x` can reach
over an escape that protecting writes. -/
theorem prefix_of_prefix_protectFrom
    {x u : Text}
    (hd : d ≠ []) (hx : ∀ u y, x <+: u ++ (escapeChar :: d ++ y) → x <+: u)
    (h : x <+: u ++ protectFrom d armed r) :
    x <+: u ++ r := by
  -- What has been read joins `u`.
  induction r using Text.search_induction hd generalizing armed u with
  | ended =>
    rwa [protectFrom_nil hd] at h
  | found r ih =>
    rw [protectFrom_found hd] at h
    cases armed with
    | true =>
      have hread : x <+: u ++ d ++ protectFrom d (armedOver true d) r := by
        rwa [List.append_assoc]
      have hrest := ih hread
      rwa [List.append_assoc] at hrest
    | false => exact (hx u _ h).trans (List.prefix_append u (d ++ r))
  | step c r hstep ih =>
    rw [protectFrom_step hd armed hstep] at h
    have hread : x <+: u ++ [c] ++ protectFrom d (armedBy armed c) r := by
      rwa [List.append_assoc, List.singleton_append]
    have hrest := ih hread
    rwa [List.append_assoc, List.singleton_append] at hrest

/-! ## Borderless delimiters with an escape -/

section Borderless

variable (hb : Borderless (escapeChar :: d))
include hb

/-- Nothing is escaped after such a delimiter, since it does not end in an escape. -/
theorem armedOver_of_borderless (hd : d ≠ []) (armed : Bool) :
    armedOver armed d = false := by
  obtain ⟨rest, last, rfl⟩ := List.eq_nil_or_concat d |>.resolve_left hd
  have hlast : last ≠ escapeChar := by
    rintro rfl
    refine hb [escapeChar] (List.cons_ne_nil _ _) ?_ ⟨_, List.singleton_append⟩ ?_
    · simp
    · exact ⟨escapeChar :: rest, by simp⟩
  rw [List.concat_eq_append, armedOver_append, armedOver_cons, armedOver_nil]
  exact armedBy_of_ne _ hlast

theorem not_prefix_escapeChar_append (hd : d ≠ []) (r : Text) :
    ¬d <+: escapeChar :: (d ++ r) := by
  intro h
  have hbegin : d <+: escapeChar :: d :=
    List.prefix_of_prefix_length_le h ⟨r, rfl⟩ (by simp)
  exact hb d hd (List.cons_ne_self escapeChar d).symm hbegin (List.suffix_cons escapeChar d)

theorem prefix_of_prefix_protectFrom_self
    (hd : d ≠ []) (h : d <+: protectFrom d armed r) :
    d <+: r := by
  refine prefix_of_prefix_protectFrom (u := []) hd ?_ h
  intro u y hover
  have hstarts : escapeChar :: d <+: escapeChar :: u ++ (escapeChar :: d ++ y) :=
    List.cons_prefix_cons.2 ⟨rfl, hover⟩
  have hinto := hb.prefix_of_prefix_append (List.cons_ne_nil escapeChar u) hstarts
  exact (List.cons_prefix_cons.1 hinto).2

/-- A second search meets the same occurrences, all of them escaped by then. -/
theorem protectFrom_protectFrom
    (hd : d ≠ []) (armed : Bool) (s : Text) :
    protectFrom d armed (protectFrom d armed s) = protectFrom d armed s := by
  induction s using Text.search_induction hd generalizing armed with
  | ended => rw [protectFrom_nil hd, protectFrom_nil hd]
  | found r ih =>
    have hescaped := protectFrom_found hd true (protectFrom d false r)
    rw [armedOver_of_borderless hb hd, ih false] at hescaped
    rw [protectFrom_found hd, armedOver_of_borderless hb hd]
    cases armed with
    | true => exact hescaped
    | false =>
      have hstep := not_prefix_escapeChar_append hb hd (protectFrom d false r)
      rw [protectMark, if_neg Bool.false_ne_true, List.cons_append,
        protectFrom_step hd false hstep, armedBy_escapeChar, Bool.not_false]
      exact congrArg (escapeChar :: ·) hescaped
  | step c r h ih =>
    have hstep : ¬d <+: c :: protectFrom d (armedBy armed c) r := by
      rw [← protectFrom_step hd armed h]
      intro hstarts
      exact h (prefix_of_prefix_protectFrom_self hb hd hstarts)
    rw [protectFrom_step hd armed h, protectFrom_step hd armed hstep, ih]

end Borderless

/-! ## Revealing -/

/-- The text with the escape removed from every escaped occurrence of a delimiter, `armed`
telling whether its first character is escaped. -/
def revealFrom (d : Text) (armed : Bool) (s : Text) : Text :=
  weave (escapeChar :: d) (revealMark d) armed (pieces (escapeChar :: d) s)

theorem reveal_eq_revealFrom (hd : d ≠ []) (s : Text) :
    reveal d s = revealFrom d false s :=
  reveal_eq_weave hd s

@[simp] theorem revealFrom_nil (d : Text) (armed : Bool) :
    revealFrom d armed [] = [] :=
  weave_pieces_nil (List.cons_ne_nil escapeChar d) _ armed

theorem revealFrom_found (d : Text) (armed : Bool) (r : Text) :
    revealFrom d armed (escapeChar :: d ++ r) =
      revealMark d armed ++ revealFrom d (armedOver armed (escapeChar :: d)) r :=
  weave_pieces_found (List.cons_ne_nil escapeChar d) _ armed r

theorem revealFrom_step
    {c : Char}
    (armed : Bool) (h : ¬escapeChar :: d <+: c :: r) :
    revealFrom d armed (c :: r) = c :: revealFrom d (armedBy armed c) r :=
  weave_pieces_step (List.cons_ne_nil escapeChar d) _ armed h

theorem length_revealFrom_le
    (d : Text) (armed : Bool) (s : Text) :
    (revealFrom d armed s).length ≤ s.length := by
  induction s using Text.search_induction (List.cons_ne_nil escapeChar d)
    generalizing armed with
  | ended => simp
  | found r ih =>
    have hrest := ih (armedOver armed (escapeChar :: d))
    have hmark : (revealMark d armed).length ≤ (escapeChar :: d).length := by
      cases armed <;> simp [revealMark]
    rw [revealFrom_found, List.length_append, List.length_append]
    omega
  | step c r h ih =>
    have hrest := ih (armedBy armed c)
    rw [revealFrom_step armed h, List.length_cons, List.length_cons]
    omega

theorem revealFrom_plain
    {c : Char}
    (d : Text) (armed : Bool) (hc : c ≠ escapeChar) (r : Text) :
    revealFrom d armed (c :: r) = c :: revealFrom d false r := by
  have hstep : ¬escapeChar :: d <+: c :: r := by
    intro h
    exact hc (List.cons_prefix_cons.1 h).1.symm
  rw [revealFrom_step armed hstep, armedBy_of_ne armed hc]

section Borderless

variable (hb : Borderless (escapeChar :: d))
include hb

/-- An end of the delimiter is copied, as no escaped occurrence starts within it. -/
theorem revealFrom_append_of_suffix
    {w : Text}
    (armed : Bool) (hw : w <:+ d) (r : Text) :
    revealFrom d armed (w ++ r) = w ++ revealFrom d (armedOver armed w) r := by
  induction w generalizing armed with
  | nil => rfl
  | cons c w ih =>
    have hshort : (c :: w).length < (escapeChar :: d).length :=
      Nat.lt_succ_of_le hw.length_le
    have hstep : ¬escapeChar :: d <+: c :: (w ++ r) := by
      intro h
      have hbegin : c :: w <+: escapeChar :: d :=
        List.prefix_of_prefix_length_le (List.prefix_append (c :: w) r) h
          (Nat.le_of_lt hshort)
      refine hb (c :: w) (List.cons_ne_nil c w) ?_ hbegin
        (hw.trans (List.suffix_cons escapeChar d))
      intro heq
      rw [heq] at hshort
      exact Nat.lt_irrefl _ hshort
    rw [List.cons_append, revealFrom_step armed hstep,
      ih _ ((List.suffix_cons c w).trans hw)]
    rfl

theorem revealFrom_delimiter
    (hd : d ≠ []) (armed : Bool) (r : Text) :
    revealFrom d armed (d ++ r) = d ++ revealFrom d false r := by
  rw [revealFrom_append_of_suffix hb armed List.suffix_rfl, armedOver_of_borderless hb hd]

theorem revealFrom_armed (hd : d ≠ []) (c : Char) (r : Text) :
    revealFrom d true (c :: r) = c :: revealFrom d false r := by
  by_cases h : escapeChar :: d <+: c :: r
  · -- The escape is escaped itself and stays, and so does the delimiter after it.
    obtain ⟨rfl, rest, rfl⟩ := List.cons_prefix_cons.1 h
    have hfound := revealFrom_found d true rest
    rw [armedOver_cons, armedOver_of_borderless hb hd] at hfound
    rw [revealFrom_delimiter hb hd]
    exact hfound
  · rw [revealFrom_step true h, armedBy_true]

theorem revealFrom_escape_before (hd : d ≠ []) (h : d <+: r) :
    revealFrom d false (escapeChar :: r) = revealFrom d false r := by
  obtain ⟨rest, rfl⟩ := h
  have hfound := revealFrom_found d false rest
  rw [armedOver_cons, armedOver_of_borderless hb hd] at hfound
  rw [revealFrom_delimiter hb hd]
  exact hfound

omit hb in
theorem revealFrom_escape (h : ¬d <+: r) :
    revealFrom d false (escapeChar :: r) = escapeChar :: revealFrom d true r := by
  have hstep : ¬escapeChar :: d <+: escapeChar :: r := by
    intro hstarts
    exact h (List.cons_prefix_cons.1 hstarts).2
  rw [revealFrom_step false hstep, armedBy_escapeChar, Bool.not_false]

end Borderless

end PatternText.Escape
