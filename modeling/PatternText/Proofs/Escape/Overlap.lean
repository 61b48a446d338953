import Mathlib.Data.List.Infix
import PatternText.Proofs.Escape.RoundTrip
import PatternText.Proofs.Token.Division

/-!
# Several delimiters of any length

Escaping by a list of delimiters takes one pass for each.  The passes do not disturb one
another unless delimiters overlap in a particular way.
-/

namespace PatternText.Escape

open Token (Borderless cut?)

/-!
## Overlapping delimiters

Every delimiter of a list takes a pass of its own, and a later pass sees the escapes that
an earlier one has written.  It can also write an escape into an occurrence that an
earlier pass has protected, if its own delimiter starts there.  Then that occurrence is no
longer found when the delimiters are revealed.

`Disturbs` says between which delimiters this can happen.
-/

/-- Whether `e` can start within an occurrence of `d`, past its first character and with `z`
after `d`.  The other conditions leave out what does no harm: an `e` that also starts where
`d` does is escaped already, and if `d` occurs again in `z`, then `e` would have to reach
over the escape there. -/
def Disturbs (e d : Text) : Prop :=
  ∃ a b z, d = a ++ b ∧ a ≠ [] ∧ b ≠ [] ∧
    e <+: b ++ z ∧ ¬e <+: d ++ z ∧ ¬d <:+: z

theorem prefix_append_drop
    {e b r : Text}
    (h : e <+: b ++ r) :
    e <+: b ++ e.drop b.length ∧ e.drop b.length <+: r := by
  rcases List.prefix_or_prefix_of_prefix h (List.prefix_append b r) with hwithin | hover
  · rw [List.drop_eq_nil_of_le hwithin.length_le]
    exact ⟨hwithin.trans (List.prefix_append b []), List.nil_prefix⟩
  · obtain ⟨z, rfl⟩ := hover
    rw [List.drop_left]
    exact ⟨List.prefix_rfl, (List.prefix_append_right_inj b).1 h⟩

/-- Only the places where `e` can start within `d` have to be looked at. -/
theorem disturbs_iff {e d : Text} :
    Disturbs e d ↔
      ∃ n < d.length, 0 < n ∧
        e <+: d.drop n ++ e.drop (d.length - n) ∧
        ¬e <+: d ++ e.drop (d.length - n) ∧ ¬d <:+: e.drop (d.length - n) := by
  constructor
  · rintro ⟨a, b, z, rfl, ha, hb, hstart, hfront, hagain⟩
    obtain ⟨hstart, hreach⟩ := prefix_append_drop hstart
    have hlength : (a ++ b).length - a.length = b.length := by simp
    have hpos : 0 < b.length := List.length_pos_iff.2 hb
    refine ⟨a.length, by simpa using hpos, List.length_pos_iff.2 ha, ?_, ?_, ?_⟩
    · rwa [hlength, List.drop_left]
    · rw [hlength]
      intro h
      exact hfront (h.trans ((List.prefix_append_right_inj _).2 hreach))
    · rw [hlength]
      intro h
      exact hagain (h.trans hreach.isInfix)
  · rintro ⟨n, hlt, hpos, hstart, hfront, hagain⟩
    refine ⟨d.take n, d.drop n, _, (List.take_append_drop n d).symm, ?_, ?_, hstart, hfront,
      hagain⟩
    · intro hnil
      have hlength := congrArg List.length hnil
      rw [List.length_take, List.length_nil] at hlength
      omega
    · intro hnil
      have hlength := congrArg List.length hnil
      rw [List.length_drop, List.length_nil] at hlength
      omega

instance (e d : Text) : Decidable (Disturbs e d) :=
  decidable_of_iff _ disturbs_iff.symm

/-!
## Texts with doubled escapes and marks

When the escape character is one of the delimiters, a protected text has two kinds of
escapes that are not escaped themselves: those that stand before another escape, for an
escape of the content, and marks before delimiters.  `Marked` relates such a text to its
content, with a condition on what may follow a mark.

A pass that protects a delimiter adds marks, and one that reveals it removes every mark
before the delimiter.  Neither changes the content.
-/

section

/-- The text `t` has the content `s`: every escape of the content is doubled in it, and
apart from that there are marks, each with something after it that is `ok`. -/
inductive Marked (ok : Text → Prop) : (s t : Text) → Prop where
  | nil :
      Marked ok [] []
  | pair (s t : Text) :
      Marked ok s t → Marked ok (escapeChar :: s) (escapeChar :: escapeChar :: t)
  | plain (c : Char) (s t : Text) :
      c ≠ escapeChar → Marked ok s t → Marked ok (c :: s) (c :: t)
  | mark (s t : Text) :
      ok t → Marked ok s t → Marked ok s (escapeChar :: t)

variable {ok : Text → Prop} {d e r s t w : Text} {ds : List Text}

theorem marked_double (ok : Text → Prop) (s : Text) :
    Marked ok s (double s) := by
  induction s with
  | nil =>
    rw [double_nil]
    exact .nil
  | cons c s ih =>
    by_cases hc : c = escapeChar
    · rw [hc, double_escapeChar_cons]
      exact .pair s _ ih
    · rw [double_cons_of_ne hc]
      exact .plain c s _ hc ih

namespace Marked

theorem eq_double (h : Marked (fun _ => False) s t) :
    t = double s := by
  induction h with
  | nil => rw [double_nil]
  | pair s t _ ih => rw [double_escapeChar_cons, ih]
  | plain c s t hc _ ih => rw [double_cons_of_ne hc, ih]
  | mark s t hok _ _ => exact hok.elim

theorem mono
    {ok' : Text → Prop}
    (h : Marked ok s t) (hok : ∀ t, ok t → ok' t) :
    Marked ok' s t := by
  induction h with
  | nil => exact .nil
  | pair s t _ ih => exact .pair s t ih
  | plain c s t hc _ ih => exact .plain c s t hc ih
  | mark s t ht _ ih => exact .mark s t (hok t ht) ih

theorem append (hw : escapeChar ∉ w) (h : Marked ok s t) :
    Marked ok (w ++ s) (w ++ t) := by
  induction w with
  | nil => exact h
  | cons c w ih =>
    rw [List.mem_cons, not_or] at hw
    exact .plain c _ _ (Ne.symm hw.1) (ih hw.2)

theorem exists_of_cons
    {c : Char}
    (hc : c ≠ escapeChar) (h : Marked ok s (c :: t)) :
    ∃ s', s = c :: s' ∧ Marked ok s' t := by
  cases h with
  | pair s t _ => exact absurd rfl hc
  | plain c s t _ h => exact ⟨s, rfl, h⟩
  | mark s t _ _ => exact absurd rfl hc

theorem exists_of_append
    (hw : escapeChar ∉ w) (h : Marked ok s (w ++ t)) :
    ∃ s', s = w ++ s' ∧ Marked ok s' t := by
  induction w generalizing s with
  | nil => exact ⟨s, rfl, h⟩
  | cons c w ih =>
    rw [List.mem_cons, not_or] at hw
    obtain ⟨s', rfl, hrest⟩ := h.exists_of_cons (Ne.symm hw.1)
    obtain ⟨s', rfl, h'⟩ := ih hw.2 hrest
    exact ⟨s', rfl, h'⟩

end Marked

/-! ### Delimiters without escapes -/

theorem exists_cons_of_notMem
    (hne : d ≠ []) (hesc : escapeChar ∉ d) :
    ∃ c x, d = c :: x ∧ c ≠ escapeChar := by
  obtain ⟨c, x, rfl⟩ := List.exists_cons_of_ne_nil hne
  rw [List.mem_cons, not_or] at hesc
  exact ⟨c, x, rfl, Ne.symm hesc.1⟩

theorem not_prefix_escapeChar_cons
    (hne : d ≠ []) (hesc : escapeChar ∉ d) (r : Text) :
    ¬d <+: escapeChar :: r := by
  obtain ⟨c, d, rfl, hc⟩ := exists_cons_of_notMem hne hesc
  intro h
  exact hc (List.cons_prefix_cons.1 h).1

theorem prefix_of_prefix_append_escapeChar
    {x u y : Text}
    (hx : escapeChar ∉ x) (h : x <+: u ++ escapeChar :: y) :
    x <+: u := by
  rcases List.prefix_or_prefix_of_prefix h (List.prefix_append u _) with hwithin | hover
  · exact hwithin
  · obtain ⟨z, rfl⟩ := hover
    rw [List.prefix_append_right_inj] at h
    by_cases hz : z = []
    · simp [hz]
    · have hnot : escapeChar ∉ z := fun hmem => hx (List.mem_append_right u hmem)
      exact absurd h (not_prefix_escapeChar_cons hz hnot y)

/-! ### Marks before delimiters -/

/-- One of the delimiters comes next. -/
def StartsWith (ds : List Text) (t : Text) : Prop :=
  ∃ d ∈ ds, d <+: t

/-- A text does not occur before the next escape. -/
def IsClear (d r : Text) : Prop :=
  ∀ w, w <+: r → escapeChar ∉ w → ¬d <:+: w

/-- One of the delimiters comes next, and it does not occur again before the next
escape. -/
def Guards (ds : List Text) (t : Text) : Prop :=
  ∃ d ∈ ds, ∃ r, t = d ++ r ∧ IsClear d r

theorem Guards.startsWith (h : Guards ds t) :
    StartsWith ds t := by
  obtain ⟨d, hd, r, rfl, -⟩ := h
  exact ⟨d, hd, List.prefix_append d r⟩

theorem Marked.mark_delimiter
    (hd : d ∈ ds) (hesc : escapeChar ∉ d) (hclear : IsClear d r)
    (h : Marked (Guards ds) s r) :
    Marked (Guards ds) (d ++ s) (escapeChar :: (d ++ r)) :=
  .mark _ _ ⟨d, hd, r, rfl, hclear⟩ (h.append hesc)

/-! ### Protecting -/

/-- Protecting writes escapes and changes nothing else, so text without escapes at the
start of what it gives has been there before. -/
theorem prefix_of_prefix_protectFrom_of_notMem
    {armed : Bool}
    (hne : e ≠ []) (hw : escapeChar ∉ w) (h : w <+: protectFrom e armed r) :
    w <+: r :=
  prefix_of_prefix_protectFrom (u := []) hne
    (fun _ _ hover => prefix_of_prefix_append_escapeChar hw hover) h

theorem IsClear.protectFrom
    (h : IsClear d r) (hne : e ≠ []) (armed : Bool) :
    IsClear d (protectFrom e armed r) := by
  intro w hstarts hw
  exact h w (prefix_of_prefix_protectFrom_of_notMem hne hw hstarts) hw

theorem isClear_protectFrom (hne : e ≠ []) (r : Text) :
    IsClear e (protectFrom e false r) := by
  intro w hstarts hw hin
  have hnil : e <:+: [] → False := fun h => hne (List.infix_nil.1 h)
  induction r using Text.search_induction hne generalizing w with
  | ended =>
    rw [protectFrom_nil hne, List.prefix_nil] at hstarts
    exact hnil (hstarts ▸ hin)
  | found r ih =>
    rw [protectFrom_found hne, protectMark, if_neg Bool.false_ne_true] at hstarts
    by_cases hempty : w = []
    · exact hnil (hempty ▸ hin)
    · exact not_prefix_escapeChar_cons hempty hw _ hstarts
  | step c r h ih =>
    rw [protectFrom_step hne false h] at hstarts
    cases w with
    | nil => exact hnil hin
    | cons c' w =>
      obtain ⟨rfl, hrest⟩ := List.cons_prefix_cons.1 hstarts
      rw [List.mem_cons, not_or] at hw
      rw [armedBy_of_ne false (Ne.symm hw.1)] at hrest
      rcases List.infix_cons_iff.1 hin with hfront | hlater
      · have hkept : w <+: r :=
          prefix_of_prefix_protectFrom_of_notMem hne hw.2 hrest
        exact h (hfront.trans (List.cons_prefix_cons.2 ⟨rfl, hkept⟩))
      · exact ih w hrest hw.2 hlater

theorem protectFrom_append
    (hne : e ≠ []) (armed : Bool) (hw : ∀ a b, w = a ++ b → b ≠ [] → ¬e <+: b ++ r) :
    protectFrom e armed (w ++ r) = w ++ protectFrom e (armedOver armed w) r := by
  induction w generalizing armed with
  | nil => rfl
  | cons c w ih =>
    have hlater : ∀ a b, w = a ++ b → b ≠ [] → ¬e <+: b ++ r := by
      rintro a b rfl hb
      exact hw (c :: a) b rfl hb
    have hstep : ¬e <+: c :: (w ++ r) := hw [] (c :: w) rfl (List.cons_ne_nil c w)
    rw [List.cons_append, protectFrom_step hne armed hstep, ih _ hlater]
    rfl

/-- A delimiter that is not disturbed keeps its mark to itself: the other one starts where
it does, or not within it. -/
theorem not_prefix_of_not_disturbs
    {a b : Text}
    (hesc : escapeChar ∉ e) (hd : ¬Disturbs e d) (hclear : IsClear d r)
    (hfront : ¬e <+: d ++ r) (hab : d = a ++ b) (hb : b ≠ []) :
    ¬e <+: b ++ r := by
  intro h
  by_cases ha : a = []
  · rw [ha, List.nil_append] at hab
    exact hfront (hab ▸ h)
  · obtain ⟨hstart, hreach⟩ := prefix_append_drop h
    refine hd ⟨a, b, _, hab, ha, hb, hstart, ?_, ?_⟩
    · intro hstarts
      exact hfront (hstarts.trans ((List.prefix_append_right_inj d).2 hreach))
    · exact hclear _ hreach fun hmem => hesc (List.mem_of_mem_drop hmem)

/-- Protecting a delimiter that disturbs none of those before keeps the marks of these in
order and adds its own. -/
theorem Marked.protectFrom
    (hne : e ≠ []) (hesc : escapeChar ∉ e) (hds : ∀ d ∈ ds, d ≠ [] ∧ escapeChar ∉ d)
    (hall : ∀ d ∈ ds, ¬Disturbs e d) (h : Marked (Guards ds) s t) :
    Marked (Guards (ds ++ [e])) s (protectFrom e false t) := by
  have hstate : ∀ armed, armedOver armed e = false :=
    fun armed => armedOver_of_notMem armed hne hesc
  have hlast : e ∈ ds ++ [e] := List.mem_append_right ds List.mem_cons_self
  -- A marked occurrence is passed as a whole, so the induction is on what is left.
  induction hlength : t.length using Nat.strongRecOn generalizing s t with
  | _ n ih =>
    have hlater : ∀ s' r, Marked (Guards ds) s' r → r.length < t.length →
        Marked (Guards (ds ++ [e])) s' (Escape.protectFrom e false r) := by
      intro s' r h' hlt
      exact ih r.length (hlength ▸ hlt) h' rfl
    cases h with
    | nil =>
      rw [protectFrom_nil hne]
      exact .nil
    | pair s t h =>
      have hstep := not_prefix_escapeChar_cons hne hesc
      rw [protectFrom_step hne false (hstep _), protectFrom_step hne _ (hstep _),
        armedBy_escapeChar, armedBy_escapeChar, Bool.not_not]
      exact .pair s _ (hlater s t h (by simp only [List.length_cons]; omega))
    | plain c s t hc h =>
      by_cases hfront : e <+: c :: t
      · obtain ⟨r, hr⟩ := hfront
        have hwhole : Marked (Guards ds) (c :: s) (e ++ r) := hr ▸ .plain c s t hc h
        obtain ⟨s', hs, h'⟩ := hwhole.exists_of_append hesc
        have hrest := hlater s' r h' (by
          rw [← hr, List.length_append]
          have hpos := List.length_pos_iff.2 hne
          omega)
        rw [← hr, hs, protectFrom_found hne, hstate, protectMark,
          if_neg Bool.false_ne_true]
        exact hrest.mark_delimiter hlast hesc (isClear_protectFrom hne r)
      · rw [protectFrom_step hne false hfront, armedBy_of_ne _ hc]
        exact .plain c s _ hc (hlater s t h (by simp))
    | mark s t hok h =>
      obtain ⟨d, hd, r, rfl, hclear⟩ := hok
      rw [protectFrom_step hne false (not_prefix_escapeChar_cons hne hesc _),
        armedBy_escapeChar, Bool.not_false]
      by_cases hfront : e <+: d ++ r
      · -- The mark before the one is the mark before the other too.
        obtain ⟨r', hr⟩ := hfront
        rw [← hr] at h
        obtain ⟨s', rfl, h'⟩ := h.exists_of_append hesc
        have hrest := hlater s' r' h' (by
          rw [← hr, List.length_cons, List.length_append]
          omega)
        rw [← hr, protectFrom_found hne, hstate, protectMark, if_pos rfl]
        exact hrest.mark_delimiter hlast hesc (isClear_protectFrom hne r')
      · obtain ⟨hdne, hdesc⟩ := hds d hd
        obtain ⟨s', rfl, h'⟩ := h.exists_of_append hdesc
        have hrest := hlater s' r h' (by
          rw [List.length_cons, List.length_append]
          omega)
        rw [protectFrom_append hne true fun a b hab hb =>
            not_prefix_of_not_disturbs hesc (hall d hd) hclear hfront hab hb,
          armedOver_of_notMem true hdne hdesc]
        exact hrest.mark_delimiter (List.mem_append_left [e] hd) hdesc
          (hclear.protectFrom hne false)

/-! ### Revealing -/

theorem revealFrom_append_of_notMem
    (d : Text) (hw : escapeChar ∉ w) (r : Text) :
    revealFrom d false (w ++ r) = w ++ revealFrom d false r := by
  induction w with
  | nil => rfl
  | cons c w ih =>
    rw [List.mem_cons, not_or] at hw
    rw [List.cons_append, revealFrom_plain d false (Ne.symm hw.1), ih hw.2]
    rfl

theorem revealFrom_mark
    (hd : d ≠ [] ∧ escapeChar ∉ d) (he : e ≠ [] ∧ escapeChar ∉ e) (h : ¬d <+: e ++ r) :
    revealFrom d false (escapeChar :: (e ++ r)) =
      escapeChar :: (e ++ revealFrom d false r) := by
  have hb : Borderless (escapeChar :: d) := Token.borderless_escapeChar_cons hd.2
  have hcopied := revealFrom_append_of_notMem d he.2 r
  obtain ⟨c, x, rfl, hc⟩ := exists_cons_of_notMem he.1 he.2
  rw [revealFrom_escape h, List.cons_append, revealFrom_armed hb hd.1,
    ← revealFrom_plain d false hc, ← List.cons_append, hcopied]

theorem Marked.revealFrom
    (hds : ∀ e ∈ d :: ds, e ≠ [] ∧ escapeChar ∉ e)
    (h : Marked (StartsWith (d :: ds)) s t) :
    Marked (StartsWith ds) s (revealFrom d false t) := by
  obtain ⟨hne, hesc⟩ := hds d List.mem_cons_self
  have hb : Borderless (escapeChar :: d) := Token.borderless_escapeChar_cons hesc
  induction h with
  | nil =>
    rw [revealFrom_nil]
    exact .nil
  | pair s t _ ih =>
    rw [revealFrom_escape (not_prefix_escapeChar_cons hne hesc t),
      revealFrom_armed hb hne]
    exact .pair s _ ih
  | plain c s t hc _ ih =>
    rw [revealFrom_plain d false hc]
    exact .plain c s _ hc ih
  | mark s t hok _ ih =>
    by_cases hnext : d <+: t
    · rw [revealFrom_escape_before hb hne hnext]
      exact ih
    · obtain ⟨e, he, r, rfl⟩ := hok
      have hmem : e ∈ ds := by
        rcases List.mem_cons.1 he with rfl | hmem
        · exact absurd (List.prefix_append e r) hnext
        · exact hmem
      rw [revealFrom_append_of_notMem d (hds e he).2] at ih
      rw [revealFrom_mark ⟨hne, hesc⟩ (hds e he) hnext]
      exact .mark _ _ ⟨e, hmem, List.prefix_append e _⟩ ih

end

/-!
## Lists of delimiters

With the escape character among the delimiters, revealing is meant to undo protecting.
It takes the other delimiters in the same order as protecting does.  So it looks for an
earlier delimiter while the escapes of the later ones are still there, and it does not
find one into which a later delimiter has written an escape.

If no delimiter disturbs an earlier one, every mark stays in front of a delimiter until
this is revealed, and every text is recovered.  Of two delimiters, the second must not
disturb the first: otherwise a text is built from the two that is not recovered.
-/

variable {d e r s t x : Text} {ds es : List Text}

/-! ### All passes -/

theorem protectAll_of_mem (hesc : escapeText ∈ ds) (s : Text) :
    protectAll ds s = (ordinary ds).foldl (fun t d => protect d t) (double s) := by
  have hpass : protectPass s escapeText = double s := by simp [protectPass]
  rw [protectAll, escapeFirst, if_pos (List.contains_iff_mem.2 hesc), List.foldl_cons, hpass]
  refine List.foldl_ext _ _ _ fun t d hd => ?_
  have hne : d ≠ escapeText := by simpa [ordinary] using (List.mem_filter.1 hd).2
  simp [protectPass, hne]

theorem revealAll_of_mem (hesc : escapeText ∈ ds) (s : Text) :
    revealAll ds s =
      reveal escapeText ((ordinary ds).foldl (fun t d => reveal d t) s) := by
  rw [revealAll, escapeLast, if_pos (List.contains_iff_mem.2 hesc), List.foldl_append,
    List.foldl_cons, List.foldl_nil]

/-- Delimiters that do not disturb those before them leave every mark in front of one of
them. -/
theorem Marked.foldl_protect
    (hds : ∀ d ∈ ds ++ es, d ≠ [] ∧ escapeChar ∉ d)
    (hall : (ds ++ es).Pairwise fun d e => ¬Disturbs e d)
    (h : Marked (Guards ds) s t) :
    Marked (Guards (ds ++ es)) s (es.foldl (fun t e => protect e t) t) := by
  induction es generalizing ds t with
  | nil =>
    rw [List.append_nil]
    exact h
  | cons e es ih =>
    have hmem : e ∈ ds ++ e :: es := List.mem_append_right ds List.mem_cons_self
    obtain ⟨hne, hesc⟩ := hds e hmem
    have hbefore : ∀ d ∈ ds, ¬Disturbs e d := by
      intro d hd
      exact (List.pairwise_append.1 hall).2.2 d hd e List.mem_cons_self
    have hnext := h.protectFrom hne hesc
      (fun d hd => hds d (List.mem_append_left _ hd)) hbefore
    rw [← protect_eq_protectFrom hne] at hnext
    rw [List.append_cons] at hds hall
    have hrest := ih hds hall hnext
    rw [List.append_assoc, List.singleton_append] at hrest
    exact hrest

theorem Marked.foldl_reveal
    (hds : ∀ d ∈ ds, d ≠ [] ∧ escapeChar ∉ d) (h : Marked (StartsWith ds) s t) :
    ds.foldl (fun t d => reveal d t) t = double s := by
  induction ds generalizing t with
  | nil =>
    refine (h.mono ?_).eq_double
    rintro t ⟨d, hd, -⟩
    exact List.not_mem_nil hd
  | cons d ds ih =>
    have hnext := h.revealFrom hds
    rw [← reveal_eq_revealFrom (hds d List.mem_cons_self).1] at hnext
    exact ih (fun e he => hds e (List.mem_cons_of_mem d he)) hnext

theorem revealAll_protectAll_of_pairwise
    (hesc : escapeText ∈ ds) (hds : ∀ d ∈ ordinary ds, d ≠ [] ∧ escapeChar ∉ d)
    (hall : (ordinary ds).Pairwise fun d e => ¬Disturbs e d) (s : Text) :
    revealAll ds (protectAll ds s) = s := by
  have hprotected : Marked (Guards (ordinary ds)) s (protectAll ds s) := by
    rw [protectAll_of_mem hesc]
    exact (marked_double (Guards []) s).foldl_protect hds hall
  rw [revealAll_of_mem hesc,
    (hprotected.mono fun _ h => h.startsWith).foldl_reveal hds, reveal_double]

/-! ### A mark that stays -/

theorem protectFrom_of_cut?
    {armed : Bool} {y : Text}
    (hne : e ≠ []) (h : cut? e s = some (x, y)) :
    protectFrom e armed s =
      x ++ protectMark e (armedOver armed x) ++
        protectFrom e (armedOver armed (x ++ e)) y := by
  rw [protectFrom, Token.pieces_eq_cons hne h,
    weave_cons _ _ _ _ (Token.pieces_ne_nil e y)]
  rfl

/-- The second delimiter gets a mark within the first one. -/
theorem exists_protect_protect
    {a y z : Text}
    (hd : d ≠ [] ∧ escapeChar ∉ d) (he : e ≠ [] ∧ escapeChar ∉ e)
    (hs : escapeChar ∉ d ++ z) (hstart : d ++ z = a ++ e ++ y) (hlt : a.length < d.length)
    (hfront : ¬e <+: d ++ z) (hagain : ¬d <:+: z) :
    ∃ x r, (x ≠ [] ∧ escapeChar ∉ x) ∧ x.length < d.length ∧ x ++ e <+: d ++ z ∧
      protect e (protect d (d ++ z)) = escapeChar :: (x ++ escapeChar :: (e ++ r)) := by
  obtain ⟨⟨x, y'⟩, hcut⟩ : ∃ parts, cut? e (d ++ z) = some parts := by
    rw [← Option.isSome_iff_exists, Option.isSome_iff_ne_none]
    intro hnone
    exact Token.not_infix_of_cut? he.1 hnone ⟨a, y, hstart.symm⟩
  have hxy : d ++ z = x ++ e ++ y' := Token.eq_append_of_cut? hcut
  have hbegin : x ++ e <+: d ++ z := ⟨y', hxy.symm⟩
  have hshort : x.length < d.length :=
    Nat.lt_of_le_of_lt (Token.length_le_of_cut? he.1 hcut hstart) hlt
  have hx : x ≠ [] ∧ escapeChar ∉ x := by
    refine ⟨?_, fun hmem => hs (hxy ▸ by simp [hmem])⟩
    rintro rfl
    exact hfront hbegin
  have hfirst : protect d (d ++ z) = escapeChar :: (d ++ z) := by
    have hrest : protectFrom d false z = z := by
      rw [← protect_eq_protectFrom hd.1, protect_eq_self hd.1 hagain]
    rw [protect_eq_protectFrom hd.1, protectFrom_found hd.1,
      armedOver_of_notMem false hd.1 hd.2, hrest]
    rfl
  refine ⟨x, protectFrom e (armedOver true (x ++ e)) y', hx, hshort, hbegin, ?_⟩
  rw [hfirst, protect_eq_protectFrom he.1,
    protectFrom_step he.1 false (not_prefix_escapeChar_cons he.1 he.2 _),
    armedBy_escapeChar, Bool.not_false, protectFrom_of_cut? he.1 hcut,
    armedOver_of_notMem true hx.1 hx.2]
  simp [protectMark]

/-- With that mark in it, the first delimiter is not found and keeps its own. -/
theorem exists_reveal_reveal
    (hd : d ≠ [] ∧ escapeChar ∉ d) (he : e ≠ [] ∧ escapeChar ∉ e)
    (hx : x ≠ [] ∧ escapeChar ∉ x) (hshort : x.length < d.length) (hfront : ¬e <+: x ++ e)
    (r : Text) :
    ∃ r', reveal e (reveal d (escapeChar :: (x ++ escapeChar :: (e ++ r)))) =
      escapeChar :: (x ++ r') := by
  have hmissed : ¬d <+: x ++ escapeChar :: (e ++ r) := by
    intro hstarts
    have hle := (prefix_of_prefix_append_escapeChar hd.2 hstarts).length_le
    omega
  have hkept : ¬e <+: x ++ revealFrom d false (escapeChar :: (e ++ r)) := by
    intro hstarts
    apply hfront
    by_cases hnext : d <+: e ++ r
    · have hb := Token.borderless_escapeChar_cons hd.2
      rw [revealFrom_escape_before hb hd.1 hnext, revealFrom_append_of_notMem d he.2,
        ← List.append_assoc] at hstarts
      exact List.prefix_of_prefix_length_le hstarts (List.prefix_append (x ++ e) _) (by simp)
    · rw [revealFrom_escape hnext] at hstarts
      exact (prefix_of_prefix_append_escapeChar he.2 hstarts).trans (List.prefix_append x e)
  rw [reveal_eq_revealFrom hd.1, revealFrom_mark hd hx hmissed, reveal_eq_revealFrom he.1,
    revealFrom_mark he hx hkept]
  exact ⟨_, rfl⟩

theorem escapeChar_mem_reveal_escapeText
    (hx : x ≠ [] ∧ escapeChar ∉ x) (r : Text) :
    escapeChar ∈ reveal escapeText (escapeChar :: (x ++ r)) := by
  obtain ⟨c, x, rfl, hc⟩ := exists_cons_of_notMem hx.1 hx.2
  rw [escapeText, reveal_singleton, List.cons_append,
    revealChars_escape_of_notMem (by simpa using hc)]
  exact List.mem_cons_self

/-- If the second of two delimiters disturbs the first, a text is not recovered: the first
one, continued by what the second reaches over.  It has no escapes, but gets one. -/
theorem exists_revealAll_protectAll_ne
    (hesc : escapeText ∈ ds) (hds : ordinary ds = [d, e]) (hd : d ≠ [] ∧ escapeChar ∉ d)
    (he : e ≠ [] ∧ escapeChar ∉ e) (h : Disturbs e d) :
    ∃ s, revealAll ds (protectAll ds s) ≠ s := by
  obtain ⟨n, hlt, hpos, hstart, hfront, hagain⟩ := disturbs_iff.1 h
  generalize hz : e.drop (d.length - n) = z at hstart hfront hagain
  have hs : escapeChar ∉ d ++ z := by
    rw [List.mem_append, not_or]
    exact ⟨hd.2, fun hmem => he.2 (List.mem_of_mem_drop (hz ▸ hmem))⟩
  obtain ⟨y, hy⟩ := hstart
  have hwithin : d ++ z = d.take n ++ e ++ y := by
    rw [List.append_assoc, hy, ← List.append_assoc, List.take_append_drop]
  have htake : (d.take n).length < d.length := by
    rw [List.length_take]
    omega
  obtain ⟨x, r, hx, hshort, hbegin, hprotected⟩ :=
    exists_protect_protect hd he hs hwithin htake hfront hagain
  obtain ⟨r', hrevealed⟩ := exists_reveal_reveal hd he hx hshort
    (fun hstarts => hfront (hstarts.trans hbegin)) r
  refine ⟨d ++ z, fun heq => hs ?_⟩
  rw [← heq, revealAll_of_mem hesc, protectAll_of_mem hesc, hds, double_of_notMem hs]
  simp only [List.foldl_cons, List.foldl_nil]
  rw [hprotected, hrevealed]
  exact escapeChar_mem_reveal_escapeText hx r'

/-! ### Which lists are recovered -/

/-- If no delimiter disturbs one before it in the list, revealing undoes protecting on
every text.  If there are two delimiters apart from the escape character, it does so only
then. -/
theorem revealAll_protectAll_of_not_disturbs
    (hesc : escapeText ∈ ds) (hds : ∀ d ∈ ordinary ds, d ≠ [] ∧ escapeChar ∉ d) :
    ((ordinary ds).Pairwise (fun d e => ¬Disturbs e d) →
      ∀ s, revealAll ds (protectAll ds s) = s) ∧
    ∀ d e, ordinary ds = [d, e] →
      ((∀ s, revealAll ds (protectAll ds s) = s) ↔ ¬Disturbs e d) := by
  have hrecovers := revealAll_protectAll_of_pairwise hesc hds
  refine ⟨hrecovers, ?_⟩
  intro d e hpair
  have hd : d ≠ [] ∧ escapeChar ∉ d := hds d (by simp [hpair])
  have he : e ≠ [] ∧ escapeChar ∉ e := hds e (by simp [hpair])
  constructor
  · intro hall hdisturbs
    obtain ⟨s, hs⟩ := exists_revealAll_protectAll_ne hesc hpair hd he hdisturbs
    exact hs (hall s)
  · intro hnot
    refine hrecovers ?_
    rw [hpair]
    simpa using hnot

/-- A delimiter does not disturb another one that it starts, itself, or one that it only
reaches into from before. -/
theorem revealAll_protectAll_of_not_disturbs_begin :
    escapeText ∈ ["aba".toList, escapeText, "ab".toList, "aba".toList, "ca".toList] ∧
      (∀ d ∈ ordinary ["aba".toList, escapeText, "ab".toList, "aba".toList, "ca".toList],
        d ≠ [] ∧ escapeChar ∉ d) ∧
      ((ordinary ["aba".toList, escapeText, "ab".toList, "aba".toList,
        "ca".toList]).Pairwise fun d e => ¬Disturbs e d) ∧
      revealAll ["aba".toList, escapeText, "ab".toList, "aba".toList, "ca".toList]
          (protectAll ["aba".toList, escapeText, "ab".toList, "aba".toList, "ca".toList]
            "\\cababa\\".toList) =
        "\\cababa\\".toList := by
  have hesc : escapeText ∈
      ["aba".toList, escapeText, "ab".toList, "aba".toList, "ca".toList] := by decide
  have hds : ∀ d ∈ ordinary
      ["aba".toList, escapeText, "ab".toList, "aba".toList, "ca".toList],
      d ≠ [] ∧ escapeChar ∉ d := by decide
  have hall : (ordinary ["aba".toList, escapeText, "ab".toList, "aba".toList,
      "ca".toList]).Pairwise fun d e => ¬Disturbs e d := by decide
  exact ⟨hesc, hds, hall, (revealAll_protectAll_of_not_disturbs hesc hds).1 hall _⟩

/-- A delimiter that ends another one before it in the list disturbs it. -/
theorem not_revealAll_protectAll_end :
    escapeText ∈ [escapeText, "ab".toList, "b".toList] ∧
      (∀ d ∈ ordinary [escapeText, "ab".toList, "b".toList], d ≠ [] ∧ escapeChar ∉ d) ∧
      revealAll [escapeText, "ab".toList, "b".toList]
          (protectAll [escapeText, "ab".toList, "b".toList] "ab".toList) ≠
        "ab".toList := by
  decide +kernel

end PatternText.Escape
