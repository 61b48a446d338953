import PatternText.Proofs.Escape.Added
import PatternText.Proofs.Escape.Codec

/-!
# Two normal forms of a text

A text can be brought into the form with all escapes of some characters, and into the form
with none.
-/

namespace PatternText.Escape

open Text (occurrences)

/-!
## What is left when escapes are taken away

Taking the escapes of some characters away leaves none of these characters escaped, keeps
every part that has none of them in it, and brings no text about that was not there.
-/

section

variable {ds : List Char} {r s w : Text}

theorem revealChars_revealChars
    (hds : escapeChar ∉ ds) (s : Text) :
    revealChars ds (revealChars ds s) = revealChars ds s := by
  fun_induction revealChars ds s with
  | case1 => rfl
  | case2 x => rfl
  | case3 x s hx ih =>
    have hplain : x ≠ escapeChar := by
      rintro rfl
      exact hds (List.contains_iff_mem.1 hx)
    rw [revealChars_cons_of_ne ds hplain, ih]
  | case4 x s hx ih =>
    rw [revealChars_escape_of_notMem (mt List.contains_iff_mem.2 hx), ih]
  | case5 x y s hx ih => rw [revealChars_cons_of_ne ds hx, ih]

/-- A character whose escape is taken away is not escaped where it still stands. -/
theorem armedOver_of_revealChars_eq
    {a : Text} {c : Char}
    (hds : escapeChar ∉ ds) (hc : c ∈ ds) (h : revealChars ds s = a ++ c :: r) :
    armedOver false a = false := by
  fun_induction revealChars ds s generalizing a with
  | case1 => simp at h
  | case2 x =>
    obtain ⟨rfl, -⟩ | ⟨-, hnil⟩ := List.append_eq_singleton_iff.1 h.symm
    · rfl
    · exact absurd hnil (List.cons_ne_nil c r)
  | case3 x s hx ih =>
    have hplain : x ≠ escapeChar := by
      rintro rfl
      exact hds (List.contains_iff_mem.1 hx)
    cases a with
    | nil => rfl
    | cons y a =>
      obtain ⟨rfl, hrest⟩ := List.cons.inj h
      rw [armedOver_cons, armedBy_of_ne false hplain, ih hrest]
  | case4 x s hx ih =>
    rcases a with _ | ⟨y, _ | ⟨z, a⟩⟩
    · rfl
    · obtain ⟨-, hrest⟩ := List.cons.inj h
      obtain ⟨rfl, -⟩ := List.cons.inj hrest
      exact absurd (List.contains_iff_mem.2 hc) hx
    · obtain ⟨rfl, hrest⟩ := List.cons.inj h
      obtain ⟨rfl, hlater⟩ := List.cons.inj hrest
      simpa using ih hlater
  | case5 x y s hx ih =>
    cases a with
    | nil => rfl
    | cons z a =>
      obtain ⟨rfl, hrest⟩ := List.cons.inj h
      rw [armedOver_cons, armedBy_of_ne false hx, ih hrest]

theorem revealChars_append_of_notMem
    (hw : ∀ c ∈ ds, c ∉ w) (hstate : armedOver false w = false) (r : Text) :
    revealChars ds (w ++ r) = w ++ revealChars ds r := by
  fun_induction revealChars ds w with
  | case1 => rfl
  | case2 x =>
    have hplain : x ≠ escapeChar := by
      rintro rfl
      exact absurd hstate (by decide)
    rw [List.singleton_append, revealChars_cons_of_ne ds hplain, List.singleton_append]
  | case3 x w hx ih =>
    exact absurd (by simp) (hw x (List.contains_iff_mem.1 hx))
  | case4 x w hx ih =>
    have hnot : x ∉ ds := mt List.contains_iff_mem.2 hx
    have hrest : ∀ c ∈ ds, c ∉ w := fun c hc hmem => hw c hc (by simp [hmem])
    rw [armedOver_cons, armedBy_escapeChar, armedOver_cons, Bool.not_false,
      armedBy_true] at hstate
    rw [List.cons_append, List.cons_append, revealChars_escape_of_notMem hnot,
      ih hrest hstate]
    rfl
  | case5 x y w hx ih =>
    have hrest : ∀ c ∈ ds, c ∉ y :: w := fun c hc hmem => hw c hc (by simp [hmem])
    rw [armedOver_cons, armedBy_of_ne false hx] at hstate
    rw [List.cons_append, revealChars_cons_of_ne ds hx, ih hrest hstate]
    rfl

theorem prefix_of_prefix_revealChars
    (hesc : escapeChar ∉ w) (hw : ∀ c ∈ ds, c ∉ w) (h : w <+: revealChars ds s) :
    w <+: s := by
  fun_induction revealChars ds s generalizing w with
  | case1 => exact h
  | case2 x => exact h
  | case3 x s hx ih =>
    cases w with
    | nil => exact List.nil_prefix
    | cons y w =>
      obtain ⟨rfl, -⟩ := List.cons_prefix_cons.1 h
      exact absurd List.mem_cons_self (hw y (List.contains_iff_mem.1 hx))
  | case4 x s hx ih =>
    cases w with
    | nil => exact List.nil_prefix
    | cons y w =>
      obtain ⟨rfl, -⟩ := List.cons_prefix_cons.1 h
      exact absurd List.mem_cons_self hesc
  | case5 x y s hx ih =>
    cases w with
    | nil => exact List.nil_prefix
    | cons z w =>
      rw [List.mem_cons, not_or] at hesc
      have hrest : ∀ c ∈ ds, c ∉ w := fun c hc hmem => hw c hc (by simp [hmem])
      obtain ⟨rfl, hprefix⟩ := List.cons_prefix_cons.1 h
      exact List.cons_prefix_cons.2 ⟨rfl, ih hesc.2 hrest hprefix⟩

end

/-!
## Normal forms

As long as the escape character is not a delimiter itself, an escape before a delimiter is
not content, so a text has two normal forms: one in which every delimiter is escaped, and
one in which none is.  Protecting computes the first and revealing the second, from the text
itself as well as from the other form.
-/

variable {ds : List Char}

/-- Protecting adds an escape before each given character that is live. -/
theorem addsEscapes_protectChars
    (hds : escapeChar ∉ ds) (armed : Bool) (s : Text) :
    AddsEscapes ds armed s (protectChars ds armed s) := by
  induction s generalizing armed with
  | nil => exact .nil armed
  | cons c r ih =>
    have hrest := ih (armedBy armed c)
    by_cases hlive : c ∈ ds ∧ (escapeChar ∈ ds ∨ armed = false)
    · have hne : c ≠ escapeChar := fun heq => hds (heq ▸ hlive.1)
      have hfalse : armed = false := hlive.2.resolve_left hds
      rw [protectChars_cons_of_live hlive]
      rw [armedBy_of_ne armed hne] at hrest ⊢
      subst hfalse
      exact .add hlive.1 hrest
    · rw [protectChars_cons_of_not_live hlive]
      exact .keep armed c hrest

/-- A text is what revealing leaves of it, with the escapes of live characters added. -/
theorem addsEscapes_revealChars (ds : List Char) (s : Text) :
    AddsEscapes ds false (revealChars ds s) s := by
  fun_induction revealChars ds s with
  | case1 => exact .nil false
  | case2 c => exact .keep false c (.nil _)
  | case3 x r hx ih => exact .add (List.contains_iff_mem.1 hx) ih
  | case4 x r hx ih =>
    refine .keep false escapeChar ?_
    rw [armedBy_escapeChar, Bool.not_false]
    refine .keep true x ?_
    rwa [armedBy_true]
  | case5 c x r hc ih =>
    refine .keep false c ?_
    rwa [armedBy_of_ne false hc]

theorem noneLive_protectChars
    (hds : escapeChar ∉ ds) (armed : Bool) (s : Text) :
    NoneLive ds armed (protectChars ds armed s) :=
  protectChars_eq_self_iff.1 ((addsEscapes_protectChars hds armed s).protectChars_eq hds)

/-- Protecting and revealing single characters other than the escape character give two
normal forms of a text.  Each of them is reached from the text and from the other form, and
every given character is escaped in the first and none in the second. -/
theorem protectAll_revealAll_normalForms
    (hds : escapeChar ∉ ds) (s : Text) :
    revealAll (ds.map fun c => [c]) (protectAll (ds.map fun c => [c]) s) =
      revealAll (ds.map fun c => [c]) s ∧
    protectAll (ds.map fun c => [c]) (revealAll (ds.map fun c => [c]) s) =
      protectAll (ds.map fun c => [c]) s ∧
    ∀ c ∈ ds,
      (∀ p ∈ occurrences [c] (protectAll (ds.map fun c => [c]) s),
        isEscapedAt (protectAll (ds.map fun c => [c]) s) p = true) ∧
      (∀ p ∈ occurrences [c] (revealAll (ds.map fun c => [c]) s),
        isEscapedAt (revealAll (ds.map fun c => [c]) s) p = false) := by
  simp only [protectAll_singletons, revealAll_singletons]
  refine ⟨?_, ?_, ?_⟩
  · exact (addsEscapes_protectChars hds false s).revealChars_eq hds
  · exact ((addsEscapes_revealChars ds s).protectChars_eq hds).symm
  · intro c hc
    constructor
    · intro p hp
      obtain ⟨a, r, hs, rfl⟩ := Text.mem_occurrences_singleton_iff.1 hp
      rw [isEscapedAt_of_append hs.symm]
      exact (noneLive_protectChars hds false s a c r hs hc).2
    · intro p hp
      obtain ⟨a, r, hs, rfl⟩ := Text.mem_occurrences_singleton_iff.1 hp
      rw [isEscapedAt_of_append hs.symm]
      exact armedOver_of_revealChars_eq hds hc hs

/-- A delimiter given twice, in a text in which one delimiter is escaped already and one
follows an escape that is escaped itself. -/
theorem protectAll_revealAll_normalForms_repeated :
    escapeChar ∉ [',', ';', ','] ∧ ',' ∈ [',', ';', ','] ∧
      protectAll [[','], [';'], [',']] "\\,,\\\\;".toList = "\\,\\,\\\\\\;".toList ∧
      revealAll [[','], [';'], [',']] "\\,,\\\\;".toList = ",,\\\\;".toList ∧
      revealAll [[','], [';'], [',']] "\\,\\,\\\\\\;".toList = ",,\\\\;".toList ∧
      protectAll [[','], [';'], [',']] ",,\\\\;".toList = "\\,\\,\\\\\\;".toList ∧
      (∀ p ∈ occurrences [','] "\\,\\,\\\\\\;".toList,
        isEscapedAt "\\,\\,\\\\\\;".toList p = true) ∧
      (∀ p ∈ occurrences [','] ",,\\\\;".toList,
        isEscapedAt ",,\\\\;".toList p = false) := by
  have hds : escapeChar ∉ [',', ';', ','] := by decide
  have hc : ',' ∈ [',', ';', ','] := by decide
  have hprotected : protectAll ([',', ';', ','].map fun c => [c]) "\\,,\\\\;".toList =
      "\\,\\,\\\\\\;".toList := by
    decide +kernel
  have hrevealed : revealAll ([',', ';', ','].map fun c => [c]) "\\,,\\\\;".toList =
      ",,\\\\;".toList := by
    decide +kernel
  have hforms := protectAll_revealAll_normalForms hds "\\,,\\\\;".toList
  rw [hprotected, hrevealed] at hforms
  exact ⟨hds, hc, hprotected, hrevealed, hforms.1, hforms.2.1, hforms.2.2 ',' hc⟩

end PatternText.Escape
