import PatternText.Proofs.Pattern.ClassSpelling

/-!
# Patterns in parts

A pattern consists of the live references to classes in it and of the characters around
them.  Given these parts, it is clear what expanding the pattern has to give: a spelling
for every reference, and the other characters as they are.  `Replaces` says this about two
texts by the positions in them.
-/

namespace PatternText.Pattern.PosixClass

open Text (byteSize slice?)
open Escape (isEscapedAt)

/-- Whether the reference to a class stands at a position of a text and is not escaped. -/
def IsLiveAt (k : PosixClass) (s : Text) (pos : Nat) : Prop :=
  slice? s pos (pos + byteSize k.reference) = some k.reference ∧
    isEscapedAt s pos = false

instance (k : PosixClass) (s : Text) (pos : Nat) : Decidable (k.IsLiveAt s pos) :=
  inferInstanceAs (Decidable (_ ∧ _))

inductive Part where
  /-- A character that is kept. -/
  | kept (c : Char)
  /-- The reference to a class. -/
  | reference (k : PosixClass)
  deriving DecidableEq, Repr

def Part.source : Part → Text
  | .kept c => [c]
  | .reference k => k.reference

def Part.expanded (spelling : Spelling) : Part → Text
  | .kept c => [c]
  | .reference k => spelling k

/-- The pattern that consists of some parts. -/
def sourceOf (parts : List Part) : Text :=
  parts.flatMap Part.source

def expansionOf (spelling : Spelling) (parts : List Part) : Text :=
  parts.flatMap (Part.expanded spelling)

theorem sourceOf_cons (p : Part) (parts : List Part) :
    sourceOf (p :: parts) = p.source ++ sourceOf parts :=
  List.flatMap_cons

theorem sourceOf_append (before after : List Part) :
    sourceOf (before ++ after) = sourceOf before ++ sourceOf after :=
  List.flatMap_append

theorem expansionOf_cons
    (spelling : Spelling) (p : Part) (parts : List Part) :
    expansionOf spelling (p :: parts) = p.expanded spelling ++ expansionOf spelling parts :=
  List.flatMap_cons

theorem expansionOf_append
    (spelling : Spelling) (before after : List Part) :
    expansionOf spelling (before ++ after) =
      expansionOf spelling before ++ expansionOf spelling after :=
  List.flatMap_append

/-- One text is another in which exactly the live references have been expanded, the rest
of it being kept in order and in the same escape state. -/
structure Replaces (spelling : Spelling) (s t : Text) (parts : List Part) : Prop where
  source_eq : sourceOf parts = s
  expansion_eq : expansionOf spelling parts = t
  /-- The references among the parts are the live ones of the text. -/
  isLiveAt_iff : ∀ k pos, k.IsLiveAt s pos ↔
    ∃ before after, parts = before ++ .reference k :: after ∧
      byteSize (sourceOf before) = pos
  /-- A character that is kept is escaped afterwards if it was escaped before. -/
  isEscapedAt_eq : ∀ before c after, parts = before ++ .kept c :: after →
    isEscapedAt t (byteSize (expansionOf spelling before)) =
      isEscapedAt s (byteSize (sourceOf before))

end PatternText.Pattern.PosixClass

/-!
## Classes in any order

A pattern is expanded in one reading, whichever of the classes come in it.  The same can
be had by going over it once for each class: what one of them writes neither makes nor
spoils a reference to another, so that they can be taken in any order.
-/

namespace PatternText.Pattern.Dialect

open PosixClass (all expand)

theorem isInert_spelling (dialect : Dialect) :
    dialect.spelling.IsInert := by
  cases dialect with
  | java => exact isInert_javaSpelling
  | dotNet => exact isInert_dotNetSpelling

/-- Expanding all classes of a dialect at once is expanding them one by one, in any
order. -/
theorem expandClasses_eq_foldl
    {order : List PosixClass}
    (horder : order.Perm all) (dialect : Dialect) (s : Text) :
    dialect.expandClasses s =
      order.foldl (fun t k => expand [k] dialect.spelling t) s := by
  have hmem : ∀ k, k ∈ all ↔ k ∈ [] ++ order := by
    intro k
    rw [List.nil_append, horder.mem_iff]
  have hnone : expand [] dialect.spelling s = s := by
    rw [PosixClass.expand_eq_reading, PosixClass.reading_nil_left]
  have hpasses := (isInert_spelling dialect).foldl_expand [] order s
  rw [hnone] at hpasses
  rw [hpasses, expandClasses, PosixClass.expand_eq_reading, PosixClass.expand_eq_reading,
    PosixClass.reading_congr hmem]

/-- Also where references are nested, unknown, unclosed or escaped. -/
theorem expandClasses_eq_foldl_nested :
    all.reverse.Perm all ∧
      expandClasses .dotNet "[:[:digit:][:word:\\[:alpha:]\\\\[:upper:]:][:blank:".toList =
        "[:\\d[:word:\\[:alpha:]\\\\\\p\x7bLu\x7d:][:blank:".toList ∧
      all.reverse.foldl (fun t k => expand [k] dotNetSpelling t)
          "[:[:digit:][:word:\\[:alpha:]\\\\[:upper:]:][:blank:".toList =
        "[:\\d[:word:\\[:alpha:]\\\\\\p\x7bLu\x7d:][:blank:".toList := by
  have hresult : expandClasses .dotNet
      "[:[:digit:][:word:\\[:alpha:]\\\\[:upper:]:][:blank:".toList =
        "[:\\d[:word:\\[:alpha:]\\\\\\p\x7bLu\x7d:][:blank:".toList := by
    decide +kernel
  have horder : all.reverse.Perm all := List.reverse_perm all
  exact ⟨horder, hresult, (expandClasses_eq_foldl horder .dotNet _).symm.trans hresult⟩

end PatternText.Pattern.Dialect

/-!
## Expanding part by part

A reading of a pattern divides it into parts, and its result is what the parts are
expanded to.  The parts tell which references are live in the pattern, and since a spelling
leaves the escape state behind it as a reference does, they tell the escape state of every
other character in both texts.  In the result no reference is live:
`expandClasses_replaces`.
-/

namespace PatternText.Pattern

open Text (byteSize)
open Escape (armedBy armedOver isEscapedAt)

namespace PosixClass

variable {spelling : Spelling} {armed : Bool} {a r s : Text} {parts : List Part}
variable {k : PosixClass}

theorem isLiveAt_iff {pos : Nat} :
    k.IsLiveAt s pos ↔
      ∃ a r, s = a ++ k.reference ++ r ∧ byteSize a = pos ∧ armedOver false a = false := by
  constructor
  · rintro ⟨hslice, hlive⟩
    obtain ⟨a, r, rfl, rfl, -⟩ := Text.slice?_eq_some_iff.1 hslice
    rw [List.append_assoc, Escape.isEscapedAt_byteSize] at hlive
    exact ⟨a, r, rfl, rfl, hlive⟩
  · rintro ⟨a, r, rfl, rfl, hlive⟩
    refine ⟨Text.slice?_eq_some_iff.2 ⟨a, r, rfl, rfl, rfl⟩, ?_⟩
    rw [List.append_assoc, Escape.isEscapedAt_byteSize, hlive]

theorem exists_of_append_eq_append_cons
    {c : Char} {t u w : Text}
    (hc : c ∉ w) (h : w ++ t = a ++ c :: u) :
    ∃ b, a = w ++ b ∧ t = b ++ c :: u := by
  rcases List.append_eq_append_iff.1 h with ⟨b, ha, ht⟩ | ⟨b, hw, hb⟩
  · exact ⟨b, ha, ht⟩
  · cases b with
    | nil => exact ⟨[], by simpa using hw.symm, by simpa using hb.symm⟩
    | cons x b =>
      obtain ⟨rfl, -⟩ := List.cons.inj hb
      rw [hw] at hc
      exact absurd (List.mem_append_right a List.mem_cons_self) hc

/-! ### What is left in an expansion -/

/-- No reference is live in an expansion: it could neither start within a spelling nor
come about where the pattern has none. -/
theorem Spelling.IsInert.armedOver_of_reading_eq
    (hspelling : spelling.IsInert)
    (h : reading all spelling armed s = a ++ k.reference ++ r) :
    armedOver armed a = true := by
  obtain ⟨w, hk, -⟩ := Dialect.exists_reference_eq k
  induction armed, s using reading_induction all generalizing a with
  | ended armed =>
    rw [reading_nil, hk] at h
    exact absurd h.symm (by simp)
  | found j hj s ih =>
    rw [reading_reference_append spelling hj, hk, List.append_assoc, List.cons_append] at h
    obtain ⟨b, rfl, hb⟩ := exists_of_append_eq_append_cons (hspelling.bracket_notMem j) h
    rw [Escape.armedOver_append, hspelling.armedOver_eq]
    apply ih
    rw [hb, hk, List.append_assoc, List.cons_append]
  | step armed c s hstep ih =>
    cases a with
    | nil =>
      rw [List.nil_append] at h
      rcases hstep with harmed | hnone
      · rw [harmed, Escape.armedOver_nil]
      · have hprefix : k.reference <+: reading all spelling armed (c :: s) := ⟨r, h.symm⟩
        have hstart := hspelling.drop_prefix_of_prefix_reading (j := k) (n := 0) hprefix
        exact absurd hstart (hnone k (mem_all k))
    | cons x a =>
      rw [reading_step spelling hstep, List.cons_append, List.cons_append] at h
      obtain ⟨rfl, hrest⟩ := List.cons.inj h
      exact ih hrest

/-! ### The parts of a pattern -/

/-- The parts that a reading meets: references where they are live, and characters that
start none. -/
inductive Meets : (armed : Bool) → Text → List Part → Prop where
  | ended (armed : Bool) : Meets armed [] []
  | reference (k : PosixClass) {r : Text} {parts : List Part} :
      Meets false r parts → Meets false (k.reference ++ r) (.reference k :: parts)
  | kept {armed : Bool} {c : Char} {r : Text} {parts : List Part} :
      (armed = true ∨ ∀ k ∈ all, ¬k.reference <+: c :: r) →
        Meets (armedBy armed c) r parts → Meets armed (c :: r) (.kept c :: parts)

theorem exists_meets (armed : Bool) (s : Text) :
    ∃ parts, Meets armed s parts := by
  induction armed, s using reading_induction all with
  | ended armed => exact ⟨[], .ended armed⟩
  | found k hk r ih =>
    obtain ⟨parts, h⟩ := ih
    exact ⟨.reference k :: parts, .reference k h⟩
  | step armed c r hstep ih =>
    obtain ⟨parts, h⟩ := ih
    exact ⟨.kept c :: parts, .kept hstep h⟩

namespace Meets

theorem source_eq (h : Meets armed s parts) :
    sourceOf parts = s := by
  induction h with
  | ended armed => rfl
  | reference k _ ih => rw [sourceOf_cons, Part.source, ih]
  | kept _ _ ih => rw [sourceOf_cons, Part.source, ih, List.singleton_append]

theorem expansion_eq
    (h : Meets armed s parts) (spelling : Spelling) :
    expansionOf spelling parts = reading all spelling armed s := by
  induction h with
  | ended armed => rw [reading_nil]; rfl
  | reference k _ ih =>
    rw [expansionOf_cons, Part.expanded, ih, reading_reference_append spelling (mem_all k)]
  | kept hstep _ ih =>
    rw [expansionOf_cons, Part.expanded, ih, reading_step spelling hstep,
      List.singleton_append]

/-- Between two parts, a reading is in the escape state of the pattern and of the result. -/
theorem of_append
    {before after : List Part}
    (h : Meets armed s (before ++ after)) (hspelling : spelling.IsInert) :
    ∃ r, Meets (armedOver armed (sourceOf before)) r after ∧
      armedOver armed (expansionOf spelling before) = armedOver armed (sourceOf before) := by
  induction before generalizing armed s with
  | nil => exact ⟨s, h, rfl⟩
  | cons part before ih =>
    cases h with
    | reference k hrest =>
      rw [sourceOf_cons, expansionOf_cons, Part.source, Part.expanded,
        Escape.armedOver_append, Escape.armedOver_append, armedOver_reference,
        hspelling.armedOver_eq]
      exact ih hrest
    | kept _ hrest => exact ih hrest

theorem exists_of_live
    (h : Meets armed s parts) (hs : s = a ++ k.reference ++ r)
    (hlive : armedOver armed a = false) :
    ∃ before after, parts = before ++ .reference k :: after ∧ sourceOf before = a := by
  obtain ⟨w, hk, -⟩ := Dialect.exists_reference_eq k
  induction h generalizing a with
  | ended armed =>
    rw [hk] at hs
    exact absurd hs.symm (by simp)
  | @reference j s parts _ ih =>
    obtain ⟨v, hj, hbracket, -⟩ := Dialect.exists_reference_eq j
    cases a with
    | nil =>
      rw [List.nil_append] at hs
      have hprefix : k.reference <+: j.reference ++ s := ⟨r, hs.symm⟩
      rw [← eq_of_prefix_reference_append hprefix]
      exact ⟨[], parts, rfl, rfl⟩
    | cons x a =>
      -- Another reference cannot start before this one ends.
      rw [hj, hk, List.cons_append, List.append_assoc, List.cons_append,
        List.cons_append] at hs
      obtain ⟨rfl, hrest⟩ := List.cons.inj hs
      obtain ⟨b, rfl, hb⟩ := exists_of_append_eq_append_cons hbracket hrest
      rw [← List.cons_append, ← hj, Escape.armedOver_append, armedOver_reference] at hlive
      have hs' : s = b ++ k.reference ++ r := by
        rw [hb, hk, List.append_assoc, List.cons_append]
      obtain ⟨before, after, rfl, rfl⟩ := ih hs' hlive
      refine ⟨.reference j :: before, after, rfl, ?_⟩
      rw [sourceOf_cons, Part.source, hj, List.cons_append]
  | @kept armed c s parts hstep _ ih =>
    cases a with
    | nil =>
      rw [List.nil_append] at hs
      rcases hstep with rfl | hnone
      · exact absurd hlive.symm Bool.false_ne_true
      · exact absurd ⟨r, hs.symm⟩ (hnone k (mem_all k))
    | cons x a =>
      rw [List.cons_append, List.cons_append] at hs
      obtain ⟨rfl, hs'⟩ := List.cons.inj hs
      obtain ⟨before, after, rfl, rfl⟩ := ih hs' hlive
      exact ⟨.kept c :: before, after, rfl, rfl⟩

/-- What is expanded is exactly what is live, and the rest keeps its escape state. -/
theorem replaces
    (h : Meets false s parts) (hspelling : spelling.IsInert) :
    Replaces spelling s (reading all spelling false s) parts where
  source_eq := h.source_eq
  expansion_eq := h.expansion_eq spelling
  isLiveAt_iff := by
    intro k pos
    rw [PosixClass.isLiveAt_iff]
    constructor
    · rintro ⟨a, r, hs, rfl, hlive⟩
      obtain ⟨before, after, hparts, rfl⟩ := h.exists_of_live hs hlive
      exact ⟨before, after, hparts, rfl⟩
    · rintro ⟨before, after, rfl, rfl⟩
      obtain ⟨r, hafter, -⟩ := h.of_append hspelling
      have hs := h.source_eq
      rw [sourceOf_append, sourceOf_cons, ← List.append_assoc] at hs
      refine ⟨sourceOf before, _, hs.symm, rfl, ?_⟩
      cases hstate : armedOver false (sourceOf before) with
      | false => rfl
      | true =>
        rw [hstate] at hafter
        cases hafter
  isEscapedAt_eq := by
    rintro before c after rfl
    obtain ⟨r, -, hstate⟩ := h.of_append hspelling
    have hs := h.source_eq
    have ht := h.expansion_eq spelling
    rw [sourceOf_append] at hs
    rw [expansionOf_append] at ht
    rw [Escape.isEscapedAt_of_append hs, Escape.isEscapedAt_of_append ht]
    exact hstate

end Meets
end PosixClass

namespace Dialect

open PosixClass (Replaces)

/-- Expanding the classes of a pattern leaves no live reference, so doing it again changes
nothing.  It replaces exactly the live references of the pattern, and keeps all other
characters in order and in their escape state. -/
theorem expandClasses_replaces (dialect : Dialect) (s : Text) :
    (∀ (k : PosixClass) (pos : Nat), ¬k.IsLiveAt (dialect.expandClasses s) pos) ∧
      dialect.expandClasses (dialect.expandClasses s) = dialect.expandClasses s ∧
      ∃ parts, Replaces dialect.spelling s (dialect.expandClasses s) parts := by
  have hspelling := isInert_spelling dialect
  have hread : ∀ t, dialect.expandClasses t =
      PosixClass.reading PosixClass.all dialect.spelling false t :=
    PosixClass.expand_eq_reading PosixClass.all dialect.spelling
  simp only [hread]
  refine ⟨?_, ?_, ?_⟩
  · intro k pos hlive
    obtain ⟨a, r, hs, -, harmed⟩ := PosixClass.isLiveAt_iff.1 hlive
    rw [hspelling.armedOver_of_reading_eq hs] at harmed
    exact Bool.false_ne_true harmed.symm
  · exact hspelling.reading_reading false s
  · obtain ⟨parts, hparts⟩ := PosixClass.exists_meets false s
    exact ⟨parts, hparts.replaces hspelling⟩

/-- Within an unknown reference, one reference is live and another is escaped. -/
example :
    PosixClass.digit.IsLiveAt "[:[:digit:]\\[:digit:]".toList 2 ∧
      ¬PosixClass.digit.IsLiveAt "[:[:digit:]\\[:digit:]".toList 12 := by
  decide

end Dialect

end PatternText.Pattern
