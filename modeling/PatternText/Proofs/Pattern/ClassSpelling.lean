import PatternText.Proofs.Escape.NormalForm
import PatternText.Proofs.Pattern.ClassReading
import PatternText.Proofs.Pattern.Settled

/-!
# Classes spelled out

The classes may be expanded one after the other, as long as no spelling starts a new
reference.
-/

namespace PatternText.Pattern.PosixClass

open Escape (armedBy armedOver escapeChar)

/-!
## One class after the other

A spelling starts no reference to a class, and none comes about where it meets the text
around it.  Expanding some classes and then others is therefore the same as expanding all
of them at once, `reading_append`, and a second expansion finds nothing.
-/

variable {classes : List PosixClass} {spelling : Spelling} {armed : Bool} {r w : Text}

/-! ### Parts without references -/

theorem not_reference_prefix_cons
    {c : Char}
    (hc : c ≠ '[') (k : PosixClass) (r : Text) :
    ¬k.reference <+: c :: r := by
  intro h
  exact hc (List.cons_prefix_cons.1 h).1.symm

theorem reading_cons_of_ne
    {c : Char}
    (spelling : Spelling) (hc : c ≠ '[') (armed : Bool) (r : Text) :
    reading classes spelling armed (c :: r) =
      c :: reading classes spelling (armedBy armed c) r :=
  reading_step spelling (.inr fun k _ => not_reference_prefix_cons hc k r)

theorem reading_append_of_notMem
    (hw : '[' ∉ w) (armed : Bool) (r : Text) :
    reading classes spelling armed (w ++ r) =
      w ++ reading classes spelling (armedOver armed w) r := by
  induction w generalizing armed with
  | nil => rfl
  | cons c w ih =>
    rw [List.mem_cons, not_or] at hw
    rw [List.cons_append, reading_cons_of_ne spelling (Ne.symm hw.1), ih hw.2,
      Escape.armedOver_cons, List.cons_append]

theorem reading_of_notMem (hw : '[' ∉ w) (armed : Bool) :
    reading classes spelling armed w = w := by
  rw [← List.append_nil w, reading_append_of_notMem hw, reading_nil]

theorem prefix_of_prefix_append_cons
    {a : Text} {c : Char}
    (h : w <+: a ++ c :: r) (hc : c ∉ w) :
    w <+: a := by
  induction a generalizing w with
  | nil =>
    cases w with
    | nil => exact List.prefix_rfl
    | cons x w =>
      have hx := (List.cons_prefix_cons.1 h).1
      exact absurd (hx ▸ List.mem_cons_self) hc
  | cons y a ih =>
    cases w with
    | nil => exact List.nil_prefix
    | cons x w =>
      obtain ⟨rfl, hw⟩ := List.cons_prefix_cons.1 h
      rw [List.mem_cons, not_or] at hc
      exact List.cons_prefix_cons.2 ⟨rfl, ih hw hc.2⟩

/-- What stands before a character that occurs in no reference is expanded on its own. -/
theorem reading_append_cons
    {c : Char}
    (spelling : Spelling) (hc : ∀ k ∈ classes, c ∉ k.reference)
    (armed : Bool) (x r : Text) :
    reading classes spelling armed (x ++ c :: r) =
      reading classes spelling armed x ++
        c :: reading classes spelling (armedBy (armedOver armed x) c) r := by
  have hstart : ∀ k ∈ classes, ¬k.reference <+: c :: r := by
    intro k hk h
    have hnil : k.reference <+: [] := prefix_of_prefix_append_cons (a := []) h (hc k hk)
    have hpos := k.length_reference_pos
    rw [List.prefix_nil.1 hnil] at hpos
    exact Nat.lt_irrefl 0 hpos
  induction armed, x using reading_induction classes with
  | ended armed =>
    rw [List.nil_append, reading_step spelling (.inr hstart), reading_nil]
    rfl
  | found k hk x ih =>
    rw [List.append_assoc, reading_reference_append spelling hk, ih,
      reading_reference_append spelling hk, Escape.armedOver_append, armedOver_reference,
      List.append_assoc]
  | step armed d x h ih =>
    have hlater : armed = true ∨ ∀ k ∈ classes, ¬k.reference <+: d :: (x ++ c :: r) := by
      rcases h with harmed | hnone
      · exact .inl harmed
      · refine .inr fun k hk hprefix => hnone k hk ?_
        exact prefix_of_prefix_append_cons (a := d :: x) hprefix (hc k hk)
    rw [List.cons_append, reading_step spelling hlater, ih, reading_step spelling h]
    rfl

/-! ### The classes that are given -/

theorem reading_congr
    {ds es : List PosixClass}
    (h : ∀ k, k ∈ ds ↔ k ∈ es) (armed : Bool) (s : Text) :
    reading ds spelling armed s = reading es spelling armed s := by
  induction armed, s using reading_induction ds with
  | ended armed => rw [reading_nil, reading_nil]
  | found k hk r ih =>
    rw [reading_reference_append spelling hk, reading_reference_append spelling ((h k).1 hk),
      ih]
  | step armed c r hstep ih =>
    have hstep' : armed = true ∨ ∀ k ∈ es, ¬k.reference <+: c :: r :=
      hstep.imp_right fun hnone k hk => hnone k ((h k).2 hk)
    rw [reading_step spelling hstep, reading_step spelling hstep', ih]

theorem reading_nil_left
    (spelling : Spelling) (armed : Bool) (s : Text) :
    reading [] spelling armed s = s := by
  induction s generalizing armed with
  | nil => rw [reading_nil]
  | cons c r ih => rw [reading_step spelling (.inr (by simp)), ih]

theorem reading_reference_of_notMem
    {k : PosixClass}
    (hk : k ∉ classes) (r : Text) :
    reading classes spelling false (k.reference ++ r) =
      k.reference ++ reading classes spelling false r := by
  have hreference : k.reference = '[' :: ':' :: (k.name ++ closing) := by
    simp [reference, opening]
  have hrest : '[' ∉ ':' :: (k.name ++ closing) := by
    rw [List.mem_cons, not_or]
    exact ⟨by decide, bracket_notMem_name_append k⟩
  have hstart : ∀ j ∈ classes, ¬j.reference <+: k.reference ++ r := by
    rintro j hj hprefix
    exact hk (eq_of_prefix_reference_append hprefix ▸ hj)
  have hstate : armedOver (armedBy false '[') (':' :: (k.name ++ closing)) = false := by
    rw [← Escape.armedOver_cons, ← hreference, armedOver_reference]
  rw [hreference, List.cons_append] at hstart ⊢
  rw [reading_step spelling (.inr hstart), reading_append_of_notMem hrest, hstate]
  rfl

/-! ### Spellings that start no reference -/

/-- A spelling with which no reference comes about: there is no bracket in it, it leaves
the next character as it is, and no later part of a reference goes on into it. -/
structure Spelling.IsInert (spelling : Spelling) : Prop where
  bracket_notMem : ∀ k, '[' ∉ spelling k
  armedOver_eq : ∀ k, armedOver false (spelling k) = false
  apart : ∀ (j k : PosixClass) (n : Nat), n < j.reference.length →
    ¬j.reference.drop n <+: spelling k ∧ ¬spelling k <+: j.reference.drop n

/-- The finitely many classes and parts of references decide it. -/
theorem Spelling.isInert_iff :
    spelling.IsInert ↔
      (∀ k ∈ all, '[' ∉ spelling k) ∧
      (∀ k ∈ all, armedOver false (spelling k) = false) ∧
      ∀ j ∈ all, ∀ k ∈ all, ∀ n < j.reference.length,
        ¬j.reference.drop n <+: spelling k ∧ ¬spelling k <+: j.reference.drop n := by
  constructor
  · rintro ⟨hbracket, harmed, hapart⟩
    exact ⟨fun k _ => hbracket k, fun k _ => harmed k, fun j _ k _ => hapart j k⟩
  · rintro ⟨hbracket, harmed, hapart⟩
    exact ⟨fun k => hbracket k (mem_all k), fun k => harmed k (mem_all k),
      fun j k => hapart j (mem_all j) k (mem_all k)⟩

instance (spelling : Spelling) : Decidable spelling.IsInert :=
  decidable_of_iff _ Spelling.isInert_iff.symm

/-- A later part of a reference that stands in an expansion stands in the text. -/
theorem Spelling.IsInert.drop_prefix_of_prefix_reading
    {j : PosixClass} {n : Nat}
    (hspelling : spelling.IsInert)
    (h : j.reference.drop n <+: reading classes spelling armed r) :
    j.reference.drop n <+: r := by
  induction armed, r using reading_induction classes generalizing n with
  | ended armed => rwa [reading_nil] at h
  | found k hk r ih =>
    rw [reading_reference_append spelling hk] at h
    rcases Nat.lt_or_ge n j.reference.length with hn | hn
    · have hapart := hspelling.apart j k n hn
      rcases Nat.le_total (j.reference.drop n).length (spelling k).length with hle | hle
      · exact absurd
          (List.prefix_of_prefix_length_le h (List.prefix_append _ _) hle) hapart.1
      · exact absurd
          (List.prefix_of_prefix_length_le (List.prefix_append _ _) h hle) hapart.2
    · rw [List.drop_eq_nil_of_le hn]
      exact List.nil_prefix
  | step armed c r hstep ih =>
    rw [reading_step spelling hstep] at h
    cases hdrop : j.reference.drop n with
    | nil => exact List.nil_prefix
    | cons x w =>
      have hw : w = j.reference.drop (n + 1) := by
        rw [← List.drop_drop, hdrop, List.drop_one, List.tail_cons]
      rw [hdrop] at h
      obtain ⟨rfl, h⟩ := List.cons_prefix_cons.1 h
      exact List.cons_prefix_cons.2 ⟨rfl, hw ▸ ih (hw ▸ h)⟩

/-- Expanding some classes and then others is expanding all of them. -/
theorem Spelling.IsInert.reading_append
    (hspelling : spelling.IsInert) (ds es : List PosixClass) (armed : Bool) (s : Text) :
    reading (ds ++ es) spelling armed s =
      reading es spelling armed (reading ds spelling armed s) := by
  induction armed, s using reading_induction (ds ++ es) with
  | ended armed => simp only [reading_nil]
  | found k hk r ih =>
    rw [reading_reference_append spelling hk, ih]
    by_cases hd : k ∈ ds
    · rw [reading_reference_append spelling hd,
        reading_append_of_notMem (hspelling.bracket_notMem k), hspelling.armedOver_eq]
    · have he : k ∈ es := (List.mem_append.1 hk).resolve_left hd
      rw [reading_reference_of_notMem hd, reading_reference_append spelling he]
  | step armed c r h ih =>
    have hds : armed = true ∨ ∀ k ∈ ds, ¬k.reference <+: c :: r :=
      h.imp_right fun hnone k hk => hnone k (List.mem_append_left es hk)
    have hes : armed = true ∨
        ∀ k ∈ es, ¬k.reference <+: c :: reading ds spelling (armedBy armed c) r := by
      refine h.imp_right fun hnone k hk hprefix => ?_
      rw [← reading_step spelling hds] at hprefix
      exact hnone k (List.mem_append_right ds hk)
        (hspelling.drop_prefix_of_prefix_reading (j := k) (n := 0) hprefix)
    rw [reading_step spelling h, ih, reading_step spelling hds, reading_step spelling hes]

theorem Spelling.IsInert.reading_reading
    (hspelling : spelling.IsInert) (armed : Bool) (s : Text) :
    reading classes spelling armed (reading classes spelling armed s) =
      reading classes spelling armed s := by
  have hmem : ∀ k, k ∈ classes ++ classes ↔ k ∈ classes := by simp
  rw [← hspelling.reading_append, reading_congr hmem]

/-- Expanding the classes of a list one by one, after some others, is expanding all of
them. -/
theorem Spelling.IsInert.foldl_expand
    (hspelling : spelling.IsInert) (ds order : List PosixClass) (s : Text) :
    order.foldl (fun t k => expand [k] spelling t) (expand ds spelling s) =
      expand (ds ++ order) spelling s := by
  induction order generalizing ds with
  | nil => rw [List.foldl_nil, List.append_nil]
  | cons k order ih =>
    have hnext : expand [k] spelling (expand ds spelling s) =
        expand (ds ++ [k]) spelling s := by
      simp only [expand_eq_reading]
      rw [hspelling.reading_append]
    rw [List.foldl_cons, hnext, ih, List.append_assoc, List.singleton_append]

end PatternText.Pattern.PosixClass

/-!
## Java

Java knows every class by a name of its own, which is as long as the reference to it
once the escape and the braces are counted.  Expanding the references keeps the length
of a pattern, and expanding them again changes nothing.
-/

namespace PatternText.Pattern.Dialect

open PosixClass (all mem_all)
open Escape (armedBy armedOver escapeChar)

/-- The expansion for Java of a text whose first character may be escaped. -/
def javaReading (armed : Bool) (s : Text) : Text :=
  PosixClass.reading all javaSpelling armed s

theorem expandClasses_java (s : Text) :
    expandClasses .java s = javaReading false s :=
  PosixClass.expand_eq_reading all javaSpelling s

def javaName (k : PosixClass) : Text :=
  ((javaSpelling k).drop 3).dropLast

theorem javaSpelling_eq (k : PosixClass) :
    javaSpelling k = Brace.classText (javaName k) := by
  have hall : ∀ k ∈ all, javaSpelling k = Brace.classText (javaName k) := by decide
  exact hall k (mem_all k)

theorem brace_notMem_javaName (k : PosixClass) :
    '{' ∉ javaName k ∧ '}' ∉ javaName k := by
  have hall : ∀ k ∈ all, '{' ∉ javaName k ∧ '}' ∉ javaName k := by decide
  exact hall k (mem_all k)

/-- A bracket opens a reference.  Neither another one nor an escape nor a brace is in
it. -/
theorem exists_reference_eq (k : PosixClass) :
    ∃ w, k.reference = '[' :: w ∧ '[' ∉ w ∧ escapeChar ∉ w ∧ '{' ∉ w ∧ '}' ∉ w := by
  have hall : ∀ k ∈ all, k.reference = '[' :: k.reference.tail ∧
      '[' ∉ k.reference.tail ∧ escapeChar ∉ k.reference.tail ∧
      '{' ∉ k.reference.tail ∧ '}' ∉ k.reference.tail := by
    decide
  exact ⟨_, hall k (mem_all k)⟩

theorem javaReading_nil (armed : Bool) :
    javaReading armed [] = [] :=
  PosixClass.reading_nil all javaSpelling armed

theorem javaReading_reference_append
    (k : PosixClass) (r : Text) :
    javaReading false (k.reference ++ r) = javaSpelling k ++ javaReading false r :=
  PosixClass.reading_reference_append javaSpelling (mem_all k) r

theorem javaReading_step
    {armed : Bool} {c : Char} {r : Text}
    (h : armed = true ∨ ∀ k ∈ all, ¬k.reference <+: c :: r) :
    javaReading armed (c :: r) = c :: javaReading (armedBy armed c) r :=
  PosixClass.reading_step javaSpelling h

theorem javaReading_armed (c : Char) (r : Text) :
    javaReading true (c :: r) = c :: javaReading false r := by
  rw [javaReading_step (.inl rfl), Escape.armedBy_true]

theorem javaReading_cons
    {c : Char}
    (hc : c ≠ '[') (r : Text) :
    javaReading false (c :: r) = c :: javaReading (armedBy false c) r :=
  PosixClass.reading_cons_of_ne javaSpelling hc false r

theorem javaReading_append_close (armed : Bool) (x r : Text) :
    javaReading armed (x ++ '}' :: r) = javaReading armed x ++ '}' :: javaReading false r := by
  have hclose : ∀ k ∈ all, '}' ∉ k.reference := by decide
  rw [javaReading, PosixClass.reading_append_cons javaSpelling hclose,
    Escape.armedBy_of_ne _ (by decide), javaReading, javaReading]

theorem javaReading_of_notMem
    {w : Text}
    (hw : '[' ∉ w) (armed : Bool) :
    javaReading armed w = w :=
  PosixClass.reading_of_notMem hw armed

theorem isInert_javaSpelling :
    PosixClass.Spelling.IsInert javaSpelling := by
  decide +kernel

theorem javaReading_javaReading (armed : Bool) (s : Text) :
    javaReading armed (javaReading armed s) = javaReading armed s :=
  isInert_javaSpelling.reading_reading armed s

theorem length_javaReading (armed : Bool) (s : Text) :
    (javaReading armed s).length = s.length := by
  have hall : ∀ k ∈ all, (javaSpelling k).length = k.reference.length := by decide
  induction armed, s using PosixClass.reading_induction all with
  | ended armed => rw [javaReading_nil]
  | found k hk r ih =>
    rw [javaReading_reference_append, List.length_append, List.length_append, ih,
      hall k hk]
  | step armed c r h ih =>
    rw [javaReading_step h, List.length_cons, List.length_cons, ih]

/-- A text without live references is kept; otherwise the first one is expanded, and the
text goes on after it. -/
theorem javaReading_eq_or_exists (armed : Bool) (s : Text) :
    javaReading armed s = s ∨
      ∃ x k r, s = x ++ PosixClass.reference k ++ r ∧ armedOver armed x = false ∧
        javaReading armed s = x ++ javaSpelling k ++ javaReading false r := by
  induction armed, s using PosixClass.reading_induction all with
  | ended armed => exact .inl (javaReading_nil armed)
  | found k hk r ih =>
    exact .inr ⟨[], k, r, rfl, rfl, javaReading_reference_append k r⟩
  | step armed c r h ih =>
    rw [javaReading_step h]
    rcases ih with hkept | ⟨x, k, rest, hr, hx, hread'⟩
    · exact .inl (by rw [hkept])
    · exact .inr ⟨c :: x, k, rest, by rw [hr]; rfl, hx, by rw [hread']; rfl⟩

end PatternText.Pattern.Dialect

/-!
## .NET

A pattern for .NET is expanded and then rid of the escapes before underscores.  The two
steps do not meet: no reference and no spelling has an underscore in it, and an escape
that is taken away together with what it escapes leaves everything after it as it was.  So
they can be done in either order, and doing them again changes nothing,
`translate_dotNet_settles`.
-/

namespace PatternText.Pattern

open Text (occurrences)
open Escape (armedBy armedOver escapeChar isEscapedAt revealAll revealChars)

namespace PosixClass

variable {classes : List PosixClass} {spelling : Spelling}

/-- Induction along a pattern in which an escape is passed together with the character
after it. -/
@[elab_as_elim]
theorem pair_induction
    (classes : List PosixClass) {motive : Text → Prop}
    (ended : motive [])
    (lone : motive [escapeChar])
    (found : ∀ k ∈ classes, ∀ r, motive r → motive (k.reference ++ r))
    (escaped : ∀ c r, motive r → motive (escapeChar :: c :: r))
    (plain : ∀ c r, c ≠ escapeChar → (∀ k ∈ classes, ¬k.reference <+: c :: r) →
      motive r → motive (c :: r))
    (s : Text) :
    motive s := by
  -- Just after an escape, the statement is about the escape and what follows it.
  suffices h : ∀ armed : Bool, motive (if armed then escapeChar :: s else s) from h false
  intro armed
  induction armed, s using reading_induction classes with
  | ended armed =>
    cases armed with
    | false => exact ended
    | true => exact lone
  | found k hk r ih => exact found k hk r ih
  | step armed c r h ih =>
    cases armed with
    | true => exact escaped c r (by simpa using ih)
    | false =>
      by_cases hc : c = escapeChar
      · subst hc
        simpa using ih
      · rw [Escape.armedBy_of_ne false hc] at ih
        exact plain c r hc (h.resolve_left Bool.false_ne_true) ih

/-- Escapes before characters that occur in no reference and in no spelling can be taken
away before or after the references are expanded. -/
theorem Spelling.IsInert.revealChars_reading
    {ds : List Char}
    (hspelling : spelling.IsInert) (hesc : escapeChar ∉ ds) (hbracket : '[' ∉ ds)
    (hreference : ∀ k ∈ classes, ∀ c ∈ ds, c ∉ k.reference)
    (hspelled : ∀ k ∈ classes, ∀ c ∈ ds, c ∉ spelling k) (s : Text) :
    revealChars ds (reading classes spelling false s) =
      reading classes spelling false (revealChars ds s) := by
  induction s using pair_induction classes with
  | ended =>
    have hnil : revealChars ds [] = [] := rfl
    rw [reading_nil, hnil, reading_nil]
  | lone =>
    have hlone : revealChars ds [escapeChar] = [escapeChar] := rfl
    rw [reading_of_notMem (by decide), hlone, reading_of_notMem (by decide)]
  | found k hk r ih =>
    rw [reading_reference_append spelling hk,
      Escape.revealChars_append_of_notMem (hspelled k hk) (hspelling.armedOver_eq k), ih,
      Escape.revealChars_append_of_notMem (hreference k hk) (armedOver_reference false k),
      reading_reference_append spelling hk]
  | escaped c r ih =>
    have hpair : ∀ t, reading classes spelling false (escapeChar :: c :: t) =
        escapeChar :: c :: reading classes spelling false t := by
      intro t
      rw [reading_cons_of_ne spelling (by decide), Escape.armedBy_escapeChar,
        Bool.not_false, reading_step spelling (.inl rfl), Escape.armedBy_true]
    rw [hpair]
    by_cases hc : c ∈ ds
    · have hplain : c ≠ escapeChar := fun heq => hesc (heq ▸ hc)
      have hstart : c ≠ '[' := fun heq => hbracket (heq ▸ hc)
      rw [Escape.revealChars_escape_of_mem hc, Escape.revealChars_escape_of_mem hc, ih,
        reading_cons_of_ne spelling hstart, Escape.armedBy_of_ne false hplain]
    · rw [Escape.revealChars_escape_of_notMem hc, Escape.revealChars_escape_of_notMem hc, ih,
        hpair]
  | plain c r hc hstart ih =>
    have hstart' : ∀ k ∈ classes, ¬k.reference <+: c :: revealChars ds r := by
      intro k hk hprefix
      rw [← Escape.revealChars_cons_of_ne ds hc] at hprefix
      exact hstart k hk (Escape.prefix_of_prefix_revealChars (escapeChar_notMem_reference k)
        (hreference k hk) hprefix)
    rw [reading_step spelling (.inr hstart), Escape.armedBy_of_ne false hc,
      Escape.revealChars_cons_of_ne ds hc, ih, Escape.revealChars_cons_of_ne ds hc,
      reading_step spelling (.inr hstart'), Escape.armedBy_of_ne false hc]

end PosixClass

namespace Dialect

open PosixClass (all)

theorem isInert_dotNetSpelling :
    PosixClass.Spelling.IsInert dotNetSpelling := by
  decide +kernel

theorem expandClasses_dotNet (s : Text) :
    expandClasses .dotNet s = PosixClass.reading all dotNetSpelling false s :=
  PosixClass.expand_eq_reading all dotNetSpelling s

theorem revealAll_underscore (s : Text) :
    revealAll [['_']] s = revealChars ['_'] s :=
  Escape.revealAll_singletons ['_'] s

theorem translate_dotNet (s : Text) :
    translate .dotNet s =
      revealChars ['_'] (PosixClass.reading all dotNetSpelling false s) := by
  rw [translate, revealAll_underscore, expandClasses_dotNet]

theorem underscore_notMem (k : PosixClass) :
    '_' ∉ k.reference ∧ '_' ∉ dotNetSpelling k := by
  cases k <;> decide

theorem revealChars_dotNetReading (s : Text) :
    revealChars ['_'] (PosixClass.reading all dotNetSpelling false s) =
      PosixClass.reading all dotNetSpelling false (revealChars ['_'] s) := by
  apply isInert_dotNetSpelling.revealChars_reading (by decide) (by decide)
  · intro k _ c hc
    rw [List.mem_singleton.1 hc]
    exact (underscore_notMem k).1
  · intro k _ c hc
    rw [List.mem_singleton.1 hc]
    exact (underscore_notMem k).2

/-- Expanding the classes for .NET and taking the escapes of underscores away can be done
in either order.  A translation is its own translation, and no underscore in it is
escaped. -/
theorem translate_dotNet_settles (s : Text) :
    revealAll [['_']] (expandClasses .dotNet s) =
        expandClasses .dotNet (revealAll [['_']] s) ∧
      SettlesAtOnce .dotNet s ∧
      ∀ pos ∈ occurrences ['_'] (translate .dotNet s),
        isEscapedAt (translate .dotNet s) pos = false := by
  refine ⟨?_, ?_, ?_⟩
  · rw [revealAll_underscore, revealAll_underscore, expandClasses_dotNet,
      expandClasses_dotNet, revealChars_dotNetReading]
  · rw [SettlesAtOnce, translate_dotNet, translate_dotNet, ← revealChars_dotNetReading,
      isInert_dotNetSpelling.reading_reading, Escape.revealChars_revealChars (by decide)]
  · intro pos hpos
    obtain ⟨a, r, hs, rfl⟩ := Text.mem_occurrences_singleton_iff.1 hpos
    rw [translate_dotNet] at hs
    rw [translate_dotNet, hs, Escape.isEscapedAt_byteSize]
    exact Escape.armedOver_of_revealChars_eq (by decide) (by decide) hs

end Dialect

end PatternText.Pattern
