import PatternText.Proofs.Pattern.ClassSpelling

/-!
# Properties that hold piece by piece

A property of texts is piecewise if it says of a text what it says of its parts, up to
each closing brace, and holds of every repetition and of every plain name of a class.
Such a property holds of a translation for Java exactly if it holds of every class that
the pattern names, `IsPiecewise.translate_iff`: everywhere else, a class that is expanded
brings braces which belong to a plain name.  In a name, the first class that is expanded
takes the closing brace away from it, `IsPiecewise.translate_classText_iff_of_notMem`.
-/

namespace PatternText.Pattern.Brace

open Dialect (javaReading javaSpelling)
open Escape (armedBy armedOver escapeChar)

/-- Every live opening brace in a name starts a repetition or a class, if a closing brace
follows the name. -/
def OpensSpans (body : Text) : Prop :=
  ∀ a r, body = a ++ '{' :: r → armedOver false a = false →
    isBounds r = true ∨ namedOver false false a = true

theorem opensSpans_of_notMem
    {body : Text}
    (hbody : '{' ∉ body) :
    OpensSpans body := by
  rintro a r rfl -
  exact absurd (List.mem_append_right a List.mem_cons_self) hbody

theorem opensSpans_append
    {x name : Text}
    (hx : '{' ∉ x) (harmed : armedOver false x = false) (hname : '{' ∉ name) :
    OpensSpans (x ++ escapeChar :: 'p' :: '{' :: name) := by
  intro a r hbody _
  have hparts : x ++ [escapeChar, 'p'] ++ '{' :: name = a ++ '{' :: r := by
    rw [← hbody]
    simp
  have hfront : '{' ∉ x ++ [escapeChar, 'p'] := by
    simp [hx, escapeChar]
  -- There is one brace only, so it is the one after the escape.
  have ha : a = x ++ [escapeChar, 'p'] := by
    rcases List.append_eq_append_iff.1 hparts with ⟨c, hc, hrest⟩ | ⟨c, hc, hrest⟩
    · cases c with
      | nil => rw [hc, List.append_nil]
      | cons d c =>
        rw [List.cons_append, List.cons.injEq] at hrest
        exact absurd (hrest.2 ▸ List.mem_append_right c List.mem_cons_self) hname
    · cases c with
      | nil => rw [hc, List.append_nil]
      | cons d c =>
        rw [List.cons_append, List.cons.injEq] at hrest
        rw [hc, ← hrest.1] at hfront
        exact absurd (List.mem_append_right a List.mem_cons_self) hfront
  right
  rw [ha, namedOver_append, harmed]
  rfl

/-- A property of texts that goes along with a reader of braces, from one closing brace
to the next.  It holds of every repetition, and of the name of a class if all the braces
in the name open spans; a closing brace that nothing has opened goes against it. -/
structure IsPiecewise (P : (armed named : Bool) → Text → Prop) : Prop where
  nil : ∀ armed named, P armed named []
  armed : ∀ named c r, P true named (c :: r) ↔ P false (namedBy true c) r
  escape : ∀ named r, P false named (escapeChar :: r) ↔ P true false r
  plain : ∀ named c r, c ≠ escapeChar → c ≠ '{' → c ≠ '}' →
    (P false named (c :: r) ↔ P false false r)
  close : ∀ named, ¬P false named ['}']
  span : ∀ named x r, P false named ('{' :: (x ++ '}' :: r)) ↔
    P false named ('{' :: (x ++ ['}'])) ∧ P false false r
  repetition : ∀ named body, isBounds body = true →
    P false named ('{' :: (body ++ ['}']))
  name : ∀ body, '}' ∉ body → OpensSpans body → P false true ('{' :: (body ++ ['}']))

namespace IsPiecewise

variable {P : (armed named : Bool) → Text → Prop}
variable {armed named : Bool} {name r t w : Text} {names : List Text}

theorem plain_append
    (hP : IsPiecewise P) (hesc : escapeChar ∉ w) (hopen : '{' ∉ w) (hclose : '}' ∉ w) :
    P false false (w ++ r) ↔ P false false r := by
  induction w with
  | nil => exact Iff.rfl
  | cons c w ih =>
    rw [List.mem_cons, not_or] at hesc hopen hclose
    rw [List.cons_append, hP.plain false c (w ++ r) (Ne.symm hesc.1) (Ne.symm hopen.1)
      (Ne.symm hclose.1), ih hesc.2 hopen.2 hclose.2]

theorem classText_append_iff
    (hP : IsPiecewise P) (name r : Text) :
    P false named (classText name ++ r) ↔ P false true ('{' :: (name ++ '}' :: r)) := by
  have hnamed : namedBy true 'p' = true := by decide
  rw [classText, List.cons_append, List.cons_append, hP.escape, hP.armed, hnamed,
    List.cons_append, List.append_assoc, List.singleton_append]

theorem javaSpelling_append_iff
    (hP : IsPiecewise P) (k : PosixClass) (r : Text) :
    P false named (javaSpelling k ++ r) ↔ P false false r := by
  have hname := Dialect.brace_notMem_javaName k
  rw [Dialect.javaSpelling_eq, hP.classText_append_iff, hP.span]
  exact and_iff_right (hP.name _ hname.2 (opensSpans_of_notMem hname.1))

/-- A property of the expansion of a settled text is one of the names in the text. -/
theorem javaReading_iff
    (hP : IsPiecewise P) (h : Settled armed named t names) :
    P armed named (javaReading armed t) ↔
      ∀ name ∈ names, P false true ('{' :: (javaReading false name ++ ['}'])) := by
  induction h with
  | nil armed named =>
    rw [Dialect.javaReading_nil]
    simp [hP.nil armed named]
  | armed named _ ih => rw [Dialect.javaReading_armed, hP.armed, ih]
  | escape named _ ih =>
    rw [Dialect.javaReading_cons (by decide), Escape.armedBy_escapeChar, hP.escape]
    exact ih
  | @plain named c r names hesc hopen hclose _ ih =>
    by_cases hfound : ∃ k : PosixClass, k.reference <+: c :: r
    · obtain ⟨k, rest, hrest⟩ := hfound
      obtain ⟨w, hk, hbracket, hesc', hopen', hclose'⟩ := Dialect.exists_reference_eq k
      have hexpanded : javaReading false (c :: r) =
          javaSpelling k ++ javaReading false rest := by
        rw [← hrest, Dialect.javaReading_reference_append]
      -- Read from its second character on, the reference is kept.
      have hkept : javaReading false r = w ++ javaReading false rest := by
        rw [hk, List.cons_append] at hrest
        rw [← (List.cons.inj hrest).2, javaReading,
          PosixClass.reading_append_of_notMem hbracket,
          Escape.armedOver_false_of_notMem hesc', javaReading]
      rw [hexpanded, hP.javaSpelling_append_iff, ← ih, hkept,
        hP.plain_append hesc' hopen' hclose']
    · have hstep : ∀ k ∈ PosixClass.all, ¬k.reference <+: c :: r := by
        intro k _ hk
        exact hfound ⟨k, hk⟩
      rw [Dialect.javaReading_step (.inr hstep), hP.plain named c _ hesc hopen hclose,
        Escape.armedBy_of_ne _ hesc, ih]
  | @repetition named body r names hbounds _ ih =>
    have hbody := notMem_of_isBounds (c := '[') hbounds (by decide) (by decide)
    rw [Dialect.javaReading_cons (by decide), Dialect.javaReading_append_close,
      Dialect.javaReading_of_notMem hbody, hP.span, ih]
    exact and_iff_right (hP.repetition named body hbounds)
  | name hbounds hbody _ ih =>
    rw [Dialect.javaReading_cons (by decide), Dialect.javaReading_append_close, hP.span,
      ih, List.forall_mem_cons]
    rfl

theorem translate_classText_iff
    (hP : IsPiecewise P) (hbounds : isBounds name = false) (hclose : '}' ∉ name) :
    P false false (Dialect.translate .java (classText name)) ↔
      P false true ('{' :: (javaReading false name ++ ['}'])) := by
  have hsettled := Settled.classText hbounds hclose
  have hkept := hsettled.readingFrom_eq
  rw [readingFrom_false] at hkept
  rw [Dialect.translate, escapeLiteralBraces_eq_reading, hkept, Dialect.expandClasses_java,
    hP.javaReading_iff hsettled, List.forall_mem_singleton]

/-- A property of a translation is one of the translations of the classes that the
pattern names. -/
theorem translate_iff (hP : IsPiecewise P) (s : Text) :
    P false false (Dialect.translate .java s) ↔
      ∀ name ∈ classNames s, P false false (Dialect.translate .java (classText name)) := by
  have hsettled := settled_escapeLiteralBraces s
  rw [Dialect.translate, Dialect.expandClasses_java, hP.javaReading_iff hsettled]
  refine forall₂_congr fun name hname => ?_
  obtain ⟨hbounds, hclose⟩ := hsettled.of_mem_names hname
  exact (hP.translate_classText_iff hbounds hclose).symm

theorem javaReading_append_close_iff
    (hP : IsPiecewise P) (hopen : '{' ∉ t) (hclose : '}' ∉ t) :
    P armed named (javaReading armed t ++ ['}']) ↔ armedOver armed t = true := by
  induction armed, t using PosixClass.reading_induction PosixClass.all
    generalizing named with
  | ended armed =>
    rw [Dialect.javaReading_nil, List.nil_append]
    cases armed with
    | true => simp [hP.armed, hP.nil]
    | false => simp [hP.close]
  | found k hk r ih =>
    rw [List.mem_append, not_or] at hopen hclose
    rw [Dialect.javaReading_reference_append, List.append_assoc,
      hP.javaSpelling_append_iff, ih hopen.2 hclose.2, Escape.armedOver_append,
      PosixClass.armedOver_reference]
  | step armed c r h ih =>
    rw [List.mem_cons, not_or] at hopen hclose
    have hrest : ∀ named, P (armedBy armed c) named
        (javaReading (armedBy armed c) r ++ ['}']) ↔
          armedOver (armedBy armed c) r = true :=
      fun _ => ih hopen.2 hclose.2
    rw [Dialect.javaReading_step h, List.cons_append, Escape.armedOver_cons]
    cases armed with
    | true =>
      rw [Escape.armedBy_true] at hrest ⊢
      rw [hP.armed, hrest]
    | false =>
      by_cases hesc : c = escapeChar
      · subst hesc
        rw [hP.escape]
        exact hrest false
      · rw [Escape.armedBy_of_ne _ hesc] at hrest ⊢
        rw [hP.plain named c _ hesc (Ne.symm hopen.1) (Ne.symm hclose.1), hrest]

/-- A class whose name holds no opening brace: as soon as a class is expanded in it, its
last brace closes nothing, which does no harm only if that brace is escaped. -/
theorem translate_classText_iff_of_notMem
    (hP : IsPiecewise P) (hbounds : isBounds name = false) (hclose : '}' ∉ name)
    (hopen : '{' ∉ name) :
    P false false (Dialect.translate .java (classText name)) ↔
      Dialect.expandClasses .java name = name ∨ armedOver false name = true := by
  rw [hP.translate_classText_iff hbounds hclose, Dialect.expandClasses_java]
  rcases Dialect.javaReading_eq_or_exists false name with hkept | ⟨x, k, r, hname, hx, hread⟩
  · rw [hkept]
    have hnone := hP.name name hclose (opensSpans_of_notMem hopen)
    exact iff_of_true hnone (.inl rfl)
  · subst hname
    have hne : javaReading false (x ++ k.reference ++ r) ≠ x ++ k.reference ++ r := by
      obtain ⟨w, hk, -⟩ := Dialect.exists_reference_eq k
      rw [hread, List.append_assoc, List.append_assoc, Dialect.javaSpelling_eq, hk]
      intro hkept
      have hhead := (List.cons.inj (List.append_cancel_left hkept)).1
      exact absurd hhead (by decide)
    have hparts : javaReading false (x ++ k.reference ++ r) ++ ['}'] =
        (x ++ escapeChar :: 'p' :: '{' :: Dialect.javaName k) ++
          '}' :: (javaReading false r ++ ['}']) := by
      rw [hread, Dialect.javaSpelling_eq, classText]
      simp
    simp only [List.mem_append, not_or] at hopen hclose
    have hjava := Dialect.brace_notMem_javaName k
    have hbody : '}' ∉ x ++ escapeChar :: 'p' :: '{' :: Dialect.javaName k := by
      simp [hclose.1.1, hjava.2, escapeChar]
    have hspan := hP.name _ hbody (opensSpans_append hopen.1.1 hx hjava.1)
    have hstate : armedOver false (x ++ k.reference ++ r) = armedOver false r := by
      rw [Escape.armedOver_append, Escape.armedOver_append, PosixClass.armedOver_reference]
    rw [hparts, hP.span, and_iff_right hspan,
      hP.javaReading_append_close_iff hopen.2 hclose.2, hstate, or_iff_right hne]

end IsPiecewise

end PatternText.Pattern.Brace

/-!
## Translating twice

A second translation for Java changes nothing if no class is expanded within the name of
another: `settlesAtOnce_java`.  It reads the braces of the first one again.  A class that
has been expanded within a name ends the name at its own closing brace, and the brace
that was the last of the name then closes nothing, unless it is escaped or something
later in the name opens it.
-/

namespace PatternText.Pattern

open Escape (armedOver)

namespace Brace

theorem append_eq_append_iff_of_length_le
    {a a' b b' : Text}
    (ha : a.length ≤ a'.length) (hb : b.length ≤ b'.length) :
    a' ++ b' = a ++ b ↔ a' = a ∧ b' = b := by
  constructor
  · intro h
    have hlength := congrArg List.length h
    simp only [List.length_append] at hlength
    exact List.append_inj h (by omega)
  · rintro ⟨rfl, rfl⟩
    rfl

theorem isPiecewise_readingFrom_eq :
    IsPiecewise fun armed named s => readingFrom armed named s = s where
  nil := readingFrom_nil
  armed := by
    intro named c r
    rw [readingFrom_armed, List.cons.injEq, and_iff_right rfl]
  escape := by
    intro named r
    rw [readingFrom_escape, List.cons.injEq, and_iff_right rfl]
  plain := by
    intro named c r hesc hopen hclose
    rw [readingFrom_plain named hesc hopen hclose, List.cons.injEq, and_iff_right rfl]
  close := by
    intro named h
    rw [readingFrom_close] at h
    exact absurd (List.cons.inj h).1 (by decide)
  span := by
    intro named x r
    have hread := readingFrom_append_close false named ('{' :: x) r
    have hsplit : '{' :: (x ++ '}' :: r) = '{' :: (x ++ ['}']) ++ r := by simp
    rw [List.cons_append, List.cons_append] at hread
    rw [hread, hsplit]
    -- A reader makes no part shorter, so the whole is kept only if both parts are.
    exact append_eq_append_iff_of_length_le (sublist_readingFrom _ _ _).length_le
      (sublist_readingFrom _ _ _).length_le
  repetition := by
    intro named body hbounds
    have hbody := notMem_of_isBounds (c := '}') hbounds (by decide) (by decide)
    rw [readingFrom_closed named hbody, hbounds, Bool.true_or, if_pos rfl,
      readingFrom_nil]
  name := by
    intro body hbody _
    rw [readingFrom_closed true hbody, Bool.or_true, if_pos rfl, readingFrom_nil]

end Brace

namespace Dialect

open Brace (classNames classText readingFrom isPiecewise_readingFrom_eq)

/-- A second translation changes nothing exactly if a reader of braces leaves the first
one as it is.  Expanding classes can undo nothing that the reader does, since the reader
makes a text longer and an expansion does not change its length. -/
theorem settlesAtOnce_java_iff (s : Text) :
    SettlesAtOnce .java s ↔
      readingFrom false false (translate .java s) = translate .java s := by
  have hout : translate .java s = javaReading false (escapeLiteralBraces s) := by
    rw [translate, expandClasses_java]
  have htwice : translate .java (translate .java s) =
      javaReading false (readingFrom false false (translate .java s)) := by
    rw [translate, expandClasses_java, Brace.escapeLiteralBraces_eq_reading,
      Brace.readingFrom_false]
  rw [SettlesAtOnce, htwice]
  constructor
  · intro h
    have hlength := congrArg List.length h
    rw [length_javaReading] at hlength
    have hsub := Brace.sublist_readingFrom false false (translate .java s)
    exact (hsub.eq_of_length hlength.symm).symm
  · intro h
    rw [h, hout, javaReading_javaReading]

/-- Translating for Java settles a pattern at once exactly if it settles every class that
the pattern names.  It settles a class in whose name nothing is expanded.  If the name
holds no opening brace, it settles no other class, except one whose closing brace is
escaped. -/
theorem settlesAtOnce_java (s : Text) :
    (SettlesAtOnce .java s ↔
      ∀ name ∈ classNames s, SettlesAtOnce .java (classText name)) ∧
    ∀ name ∈ classNames s,
      (expandClasses .java name = name → SettlesAtOnce .java (classText name)) ∧
      ('{' ∉ name →
        (SettlesAtOnce .java (classText name) ↔
          expandClasses .java name = name ∨ armedOver false name = true)) := by
  have hP := isPiecewise_readingFrom_eq
  have hsettled := Brace.settled_escapeLiteralBraces s
  refine ⟨?_, ?_⟩
  · simp only [settlesAtOnce_java_iff]
    exact hP.translate_iff s
  · intro name hname
    obtain ⟨hbounds, hclose⟩ := hsettled.of_mem_names hname
    refine ⟨?_, ?_⟩
    · intro hkept
      rw [expandClasses_java] at hkept
      rw [settlesAtOnce_java_iff, hP.translate_classText_iff hbounds hclose, hkept,
        Brace.readingFrom_closed true hclose, Bool.or_true, if_pos rfl,
        Brace.readingFrom_nil]
    · intro hopen
      rw [settlesAtOnce_java_iff]
      exact hP.translate_classText_iff_of_notMem hbounds hclose hopen

/-- A class in brackets is expanded outside every name. -/
theorem settlesAtOnce_java_brackets :
    SettlesAtOnce .java "\\p\x7bAlpha\x7d\x7b2,3\x7d[[:digit:]]".toList := by
  have hnames : classNames "\\p\x7bAlpha\x7d\x7b2,3\x7d[[:digit:]]".toList =
      ["Alpha".toList] := by
    decide +kernel
  have hkept : expandClasses .java "Alpha".toList = "Alpha".toList := by
    decide +kernel
  have h := settlesAtOnce_java "\\p\x7bAlpha\x7d\x7b2,3\x7d[[:digit:]]".toList
  rw [hnames, List.forall_mem_singleton, List.forall_mem_singleton] at h
  exact h.1.2 (h.2.1 hkept)

/-- Expanded within a name, a class changes what a second translation reads. -/
theorem not_settlesAtOnce_java_digit :
    ¬SettlesAtOnce .java "\\p\x7b[:digit:]\x7d".toList := by
  decide +kernel

end Dialect

end PatternText.Pattern
