import PatternText.Proofs.Escape.Added
import PatternText.Proofs.Pattern.BraceReading

/-!
# Settled braces

What escaping the braces of a pattern leaves behind, and that escaping them again changes
nothing.
-/

namespace PatternText.Pattern.Brace

open Text (occurrences find? slice byteSize)
open Escape (isEscapedAt escapeChar armedBy armedOver protectChars AddsEscapes protectAll
  revealAll)

/-!
## Accounting for braces

In a pattern whose braces have been escaped, every brace that is left should belong to
a repetition or to the name of a class.  `IsAccounted` says so about the braces of any
text, by the positions at which they are.

A name is whatever stands between the braces after `\p` or `\P`; `classNames` collects
the names in a pattern.
-/

/-- The text that refers to a class by its name. -/
def classText (name : Text) : Text :=
  escapeChar :: 'p' :: '{' :: (name ++ ['}'])

/-- The name of a class that a finding is about.  What a span encloses is a name unless
it gives the bounds of a repetition. -/
def className? (s : Text) : Finding → Option Text
  | .span pos stop =>
    let body := slice s (pos + 1) (stop - 1)
    if isBounds body then none else some body
  | _ => none

/-- The names of classes in a pattern, from left to right. -/
def classNames (s : Text) : List Text :=
  (findings s).filterMap (className? s)

/-- Every brace that is not escaped belongs to a repetition or to the name of a class:
an opening one starts one of them, and a closing one is the first after such an opening
one. -/
structure IsAccounted (s : Text) : Prop where
  /-- The first closing brace after an opening one makes it a repetition or a class. -/
  opened : ∀ pos ∈ occurrences openBrace s, isEscapedAt s pos = false →
    ∃ close, find? closeBrace s pos = some close ∧
      (kindAt? s pos close = some .repetition ∨
        kindAt? s pos close = some .classEscape)
  /-- A closing brace is the first after an opening one. -/
  closed : ∀ close ∈ occurrences closeBrace s, isEscapedAt s close = false →
    ∃ pos ∈ occurrences openBrace s, isEscapedAt s pos = false ∧
      find? closeBrace s pos = some close

/-!
## Patterns that stay as they are

A text is settled if a reader that escapes braces leaves it as it is.  Escaping the
braces of any pattern gives a settled text, `settled_escapeLiteralBraces`: every brace
in it is escaped, or belongs to a repetition or to a class that the pattern named
before.  The names are kept with the text, since what else happens to a settled text
depends on them.
-/

/-! ### Along a reading -/

/-- Induction along a reading. -/
@[elab_as_elim]
theorem reading_induction
    {motive : Bool → Bool → Text → Prop}
    (ended : ∀ armed named, motive armed named [])
    (armed : ∀ named c r, motive false (namedBy true c) r →
      motive true named (c :: r))
    (escape : ∀ named r, motive true false r → motive false named (escapeChar :: r))
    (close : ∀ named r, motive false false r → motive false named ('}' :: r))
    (plain : ∀ named c r, c ≠ escapeChar → c ≠ '{' → c ≠ '}' →
      motive false false r → motive false named (c :: r))
    (unclosed : ∀ named r, '}' ∉ r → motive false false r →
      motive false named ('{' :: r))
    (closed : ∀ named body r, '}' ∉ body → motive false false r →
      motive false false (body ++ '}' :: r) →
        motive false named ('{' :: (body ++ '}' :: r))) :
    ∀ isArmed named s, motive isArmed named s := by
  intro isArmed named s
  induction hlength : s.length using Nat.strongRecOn generalizing isArmed named s with
  | _ n ih =>
    cases s with
    | nil => exact ended isArmed named
    | cons c r =>
      have hlater : ∀ isArmed named, motive isArmed named r := by
        intro isArmed named
        exact ih r.length (by rw [← hlength, List.length_cons]; omega) _ _ r rfl
      cases isArmed with
      | true => exact armed named c r (hlater _ _)
      | false =>
        by_cases hesc : c = escapeChar
        · exact hesc ▸ escape named r (hlater _ _)
        · by_cases hclose : c = '}'
          · exact hclose ▸ close named r (hlater _ _)
          · by_cases hopen : c = '{'
            · subst hopen
              by_cases hr : '}' ∈ r
              · obtain ⟨body, rest, rfl, hbody⟩ := List.eq_append_cons_of_mem hr
                refine closed named body rest hbody ?_ (hlater _ _)
                refine ih rest.length ?_ _ _ rest rfl
                rw [← hlength]
                simp only [List.length_cons, List.length_append]
                omega
              · exact unclosed named r hr (hlater _ _)
            · exact plain named c r hesc hopen hclose (hlater _ _)

theorem sublist_readingFrom (armed named : Bool) (s : Text) :
    s.Sublist (readingFrom armed named s) := by
  induction armed, named, s using reading_induction with
  | ended armed named => exact List.nil_sublist _
  | armed named c r ih =>
    rw [readingFrom_armed]
    exact ih.cons_cons c
  | escape named r ih =>
    rw [readingFrom_escape]
    exact ih.cons_cons escapeChar
  | close named r ih =>
    rw [readingFrom_close]
    exact (ih.cons_cons '}').cons escapeChar
  | plain named c r hesc hopen hclose ih =>
    rw [readingFrom_plain named hesc hopen hclose]
    exact ih.cons_cons c
  | unclosed named r hr ih =>
    rw [readingFrom_unclosed named hr]
    exact (ih.cons_cons '{').cons escapeChar
  | closed named body r hbody ih ihBody =>
    rw [readingFrom_closed named hbody]
    split
    · exact ((ih.cons_cons '}').append_left body).cons_cons '{'
    · exact (ihBody.cons_cons '{').cons escapeChar

/-- A closing brace ends whatever has been opened, so reading goes on anew after it. -/
theorem readingFrom_append_close
    (armed named : Bool) (x r : Text) :
    readingFrom armed named (x ++ '}' :: r) =
      readingFrom armed named (x ++ ['}']) ++ readingFrom false false r := by
  have hname : namedBy true '}' = false := by decide
  induction armed, named, x using reading_induction with
  | ended armed named =>
    rw [List.nil_append, List.nil_append]
    cases armed with
    | true => rw [readingFrom_armed, readingFrom_armed, hname, readingFrom_nil]; rfl
    | false => rw [readingFrom_close, readingFrom_close, readingFrom_nil]; rfl
  | armed named c x ih =>
    rw [List.cons_append, List.cons_append, readingFrom_armed, readingFrom_armed, ih]
    rfl
  | escape named x ih =>
    rw [List.cons_append, List.cons_append, readingFrom_escape, readingFrom_escape, ih]
    rfl
  | close named x ih =>
    rw [List.cons_append, List.cons_append, readingFrom_close, readingFrom_close, ih]
    rfl
  | plain named c x hesc hopen hclose ih =>
    rw [List.cons_append, List.cons_append, readingFrom_plain named hesc hopen hclose,
      readingFrom_plain named hesc hopen hclose, ih]
    rfl
  | unclosed named x hx ih =>
    rw [List.cons_append, List.cons_append, readingFrom_closed named hx,
      readingFrom_closed named hx, readingFrom_nil, ih]
    split <;> simp
  | closed named body x hbody ih ihBody =>
    simp only [List.cons_append, List.append_assoc] at ihBody ⊢
    rw [readingFrom_closed named hbody, readingFrom_closed named hbody, ih, ihBody]
    split <;> simp

/-! ### Settled texts -/

/-- A text that a reader of braces leaves as it is, and the names of classes in it. -/
inductive Settled : (armed named : Bool) → Text → List Text → Prop where
  | nil (armed named : Bool) :
      Settled armed named [] []
  | armed (named : Bool) {c : Char} {r : Text} {names : List Text} :
      Settled false (namedBy true c) r names →
        Settled true named (c :: r) names
  | escape (named : Bool) {r : Text} {names : List Text} :
      Settled true false r names →
        Settled false named (escapeChar :: r) names
  | plain (named : Bool) {c : Char} {r : Text} {names : List Text} :
      c ≠ escapeChar → c ≠ '{' → c ≠ '}' → Settled false false r names →
        Settled false named (c :: r) names
  | repetition (named : Bool) {body r : Text} {names : List Text} :
      isBounds body = true → Settled false false r names →
        Settled false named ('{' :: (body ++ '}' :: r)) names
  | name {body r : Text} {names : List Text} :
      isBounds body = false → '}' ∉ body → Settled false false r names →
        Settled false true ('{' :: (body ++ '}' :: r)) (body :: names)

theorem isDigit_or_eq_of_isBounds
    {body : Text} {c : Char}
    (h : isBounds body = true) (hc : c ∈ body) :
    c.isDigit = true ∨ c = ',' := by
  have hparts : body.takeWhile Char.isDigit ++ body.dropWhile Char.isDigit = body :=
    List.takeWhile_append_dropWhile
  have hfront : ∀ x ∈ body.takeWhile Char.isDigit, x.isDigit = true :=
    List.all_eq_true.1 List.all_takeWhile
  rw [← hparts, List.mem_append] at hc
  rcases hc with hc | hc
  · exact .inl (hfront c hc)
  · rw [isBounds] at h
    split at h
    · rename_i hnone
      rw [hnone] at hc
      exact absurd hc List.not_mem_nil
    · rename_i x maximum hsome
      simp only [Bool.and_eq_true, beq_iff_eq] at h
      rw [hsome, List.mem_cons] at hc
      rcases hc with rfl | hc
      · exact .inr h.1.2
      · exact .inl (List.all_eq_true.1 h.2 c hc)

theorem notMem_of_isBounds
    {body : Text} {c : Char}
    (h : isBounds body = true) (hdigit : c.isDigit = false) (hcomma : c ≠ ',') :
    c ∉ body := by
  intro hc
  rcases isDigit_or_eq_of_isBounds h hc with hc | hc
  · rw [hdigit] at hc
    exact Bool.false_ne_true hc
  · exact hcomma hc

namespace Settled

variable {armed named : Bool} {k r s t : Text} {names : List Text}

theorem readingFrom_eq (h : Settled armed named t names) :
    readingFrom armed named t = t := by
  induction h with
  | nil armed named => exact readingFrom_nil armed named
  | armed named _ ih => rw [readingFrom_armed, ih]
  | escape named _ ih => rw [readingFrom_escape, ih]
  | plain named hesc hopen hclose _ ih =>
    rw [readingFrom_plain named hesc hopen hclose, ih]
  | repetition named hbounds _ ih =>
    have hbody := notMem_of_isBounds (c := '}') hbounds (by decide) (by decide)
    rw [readingFrom_closed named hbody, hbounds, Bool.true_or, if_pos rfl, ih]
  | name hbounds hbody _ ih =>
    rw [readingFrom_closed true hbody, Bool.or_true, if_pos rfl, ih]

/-- The names in a settled text are no bounds, and each of them ends where the class
ends. -/
theorem of_mem_names
    {name : Text}
    (h : Settled armed named t names) (hname : name ∈ names) :
    isBounds name = false ∧ '}' ∉ name := by
  induction h with
  | nil armed named => exact absurd hname List.not_mem_nil
  | armed named _ ih => exact ih hname
  | escape named _ ih => exact ih hname
  | plain named _ _ _ _ ih => exact ih hname
  | repetition named _ _ ih => exact ih hname
  | name hbounds hbody _ ih =>
    rcases List.mem_cons.1 hname with rfl | hname
    · exact ⟨hbounds, hbody⟩
    · exact ih hname

theorem classText
    {name : Text}
    (hbounds : isBounds name = false) (hname : '}' ∉ name) :
    Settled false false (Brace.classText name) [name] := by
  have hend : Settled false true ('{' :: (name ++ ['}'])) [name] :=
    .name hbounds hname (.nil false false)
  exact .escape false (.armed false hend)

/-- A part in which every live brace is escaped, in front of a settled text. -/
theorem protectChars_append
    {b : Char}
    (hb : b = '{' ∨ b = '}') (hk : ∀ c ∈ k, c = b ∨ (c ≠ '{' ∧ c ≠ '}'))
    (h : Settled (armedOver armed k) (namedOver armed named k) t names) :
    Settled armed named (protectChars [b] armed k ++ t) names := by
  have hbrace : b ≠ escapeChar := by
    rcases hb with rfl | rfl
    all_goals decide
  induction k generalizing armed named with
  | nil => exact h
  | cons c k ih =>
    rw [List.forall_mem_cons] at hk
    rw [Escape.armedOver_cons, namedOver_cons] at h
    cases armed with
    | true =>
      rw [Escape.armedBy_true] at h
      rw [Escape.protectChars_singleton_armed hbrace]
      exact .armed named (ih hk.2 h)
    | false =>
      by_cases hc : c = b
      · subst hc
        rw [Escape.protectChars_singleton_self hbrace]
        refine .escape named (.armed false (ih hk.2 ?_))
        have hnamed : namedBy true c = false := by
          rcases hb with rfl | rfl
          all_goals decide
        rw [namedBy_false, Escape.armedBy_of_ne _ hbrace] at h
        rwa [hnamed]
      · rw [Escape.protectChars_singleton_of_ne hc, List.cons_append]
        rw [namedBy_false] at h
        have hplain := hk.1.resolve_left hc
        by_cases hesc : c = escapeChar
        · subst hesc
          rw [Escape.armedBy_escapeChar] at h
          exact .escape named (ih hk.2 h)
        · rw [Escape.armedBy_of_ne _ hesc] at h
          rw [Escape.armedBy_of_ne _ hesc]
          exact .plain named hesc hplain.1 hplain.2 (ih hk.2 h)

theorem protectClose_append
    (hk : '{' ∉ k)
    (h : Settled (armedOver armed k) (namedOver armed named k) t names) :
    Settled armed named (protectChars ['}'] armed k ++ t) names := by
  refine protectChars_append (.inr rfl) ?_ h
  intro c hc
  by_cases hclose : c = '}'
  · exact .inl hclose
  · exact .inr ⟨fun hopen => hk (hopen ▸ hc), hclose⟩

/-- Reading what is left of a pattern gives a settled text, whose names are those of
the findings. -/
theorem of_reads
    {a : Text} {found : List Finding}
    (h : Reads a r found) (hs : a ++ r = s) :
    Settled false false (readingFrom false false r) (found.filterMap (className? s)) := by
  induction h with
  | none a r hr =>
    have hread := readingFrom_append false false hr []
    rw [List.append_nil, readingFrom_nil] at hread
    rw [hread]
    exact protectClose_append hr (.nil _ _)
  | escaped a k r later hk harmed _ ih =>
    have hread := readingFrom_append false false hk ('{' :: r)
    rw [harmed, readingFrom_armed, namedBy_of_ne true (by decide) (by decide)] at hread
    rw [hread, List.filterMap_cons_none rfl]
    refine protectClose_append hk ?_
    rw [harmed]
    exact .armed _ (ih (by rw [← hs]; simp))
  | span a k body r later hk harmed hbody hspan _ ih =>
    have hread := readingFrom_append false false hk ('{' :: (body ++ '}' :: r))
    rw [harmed, readingFrom_closed _ hbody, hspan, if_pos rfl] at hread
    have hrest := ih (by rw [← hs]; simp)
    have hslice : Text.slice s (byteSize (a ++ k) + 1)
        (byteSize (a ++ k ++ '{' :: body ++ ['}']) - 1) = body := by
      have hstop : byteSize (a ++ k ++ '{' :: body ++ ['}']) - 1 =
          byteSize (a ++ k ++ ['{'] ++ body) := by
        rw [← byteSize_append_brace _ (.inr rfl)]
        simp
      have hs' : a ++ k ++ ['{'] ++ body ++ '}' :: r = s := by rw [← hs]; simp
      rw [byteSize_append_brace _ (.inl rfl), hstop, ← hs',
        Text.byteSize_append (a ++ k ++ ['{']), Text.slice_append]
    rw [hread]
    refine protectClose_append hk ?_
    rw [harmed]
    -- Bounds are kept after any text, anything else only as the name of a class.
    cases hbounds : isBounds body with
    | true =>
      rw [List.filterMap_cons_none (by rw [className?, hslice]; simp [hbounds])]
      exact .repetition _ hbounds hrest
    | false =>
      rw [hbounds, Bool.false_or] at hspan
      have hname : className? s (.span (byteSize (a ++ k))
          (byteSize (a ++ k ++ '{' :: body ++ ['}']))) = some body := by
        rw [className?, hslice]
        simp [hbounds]
      rw [hspan, List.filterMap_cons_some hname]
      exact .name hbounds hbody hrest
  | literal a k body r later hk harmed hbody hspan _ ih =>
    have hread := readingFrom_append false false hk ('{' :: (body ++ '}' :: r))
    rw [harmed, readingFrom_closed _ hbody, hspan, if_neg Bool.false_ne_true] at hread
    rw [hread, List.filterMap_cons_none rfl]
    refine protectClose_append hk ?_
    rw [harmed]
    exact .escape _ (.armed _ (ih (by rw [← hs]; simp)))
  | unclosed a k r hk harmed hr =>
    have hread := readingFrom_append false false hk ('{' :: r)
    have hnot : '}' ∉ '{' :: r := by simp [hr]
    rw [harmed, readingFrom_of_notMem _ _ hnot] at hread
    have hopen : ∀ c ∈ '{' :: r, c = '{' ∨ (c ≠ '{' ∧ c ≠ '}') := by
      intro c hc
      by_cases hc' : c = '{'
      · exact .inl hc'
      · exact .inr ⟨hc', fun hclose => hnot (hclose ▸ hc)⟩
    have hend := protectChars_append (.inl rfl) hopen
      (Settled.nil _ (namedOver false (namedOver false false k) ('{' :: r)))
    rw [List.append_nil] at hend
    rw [hread, List.filterMap_cons_none rfl]
    refine protectClose_append hk ?_
    rw [harmed]
    exact hend

end Settled

/-- Escaping the braces of a pattern gives a settled text with the names of the
pattern. -/
theorem settled_escapeLiteralBraces (s : Text) :
    Settled false false (escapeLiteralBraces s) (classNames s) := by
  rw [escapeLiteralBraces_eq_reading]
  exact Settled.of_reads (reads_findings s) rfl

/-!
## Added escapes

All that escaping the braces of a pattern does is to write an escape before some of those
that are live, `addsEscapes_readingFrom`.  What it leaves it would leave again, and a pass
that treats all braces alike gives the same before and after it:
`escapeLiteralBraces_adds_escapes`.
-/

theorem addsEscapes_readingFrom
    (armed named : Bool) (s : Text) :
    AddsEscapes ['{', '}'] armed s (readingFrom armed named s) := by
  have hopen : armedBy false '{' = false := by decide
  have hclose : ∀ armed, armedBy armed '}' = false := by decide
  induction armed, named, s using reading_induction with
  | ended armed named =>
    rw [readingFrom_nil]
    exact .nil armed
  | armed named c r ih =>
    rw [readingFrom_armed]
    apply AddsEscapes.keep
    rwa [Escape.armedBy_true]
  | escape named r ih =>
    rw [readingFrom_escape]
    apply AddsEscapes.keep
    rwa [Escape.armedBy_escapeChar, Bool.not_false]
  | close named r ih =>
    rw [readingFrom_close]
    exact .add (by decide) ih
  | plain named c r hesc hnotOpen hnotClose ih =>
    rw [readingFrom_plain named hesc hnotOpen hnotClose]
    apply AddsEscapes.keep
    rwa [Escape.armedBy_of_ne false hesc]
  | unclosed named r hr ih =>
    rw [readingFrom_unclosed named hr]
    exact .add (by decide) ih
  | closed named body r hbody ih ihBody =>
    rw [readingFrom_closed named hbody]
    split
    · -- A span is kept as it is, whatever is escaped in it.
      apply AddsEscapes.keep
      apply AddsEscapes.keep_append
      apply AddsEscapes.keep
      rwa [hclose]
    · exact .add (by decide) ihBody

/-- Escaping the literal braces of a pattern does no more than to add escapes before live
braces.  Doing it again changes nothing, and taking the escapes of all braces away, or
escaping all live ones, gives the same as for the pattern itself. -/
theorem escapeLiteralBraces_adds_escapes (s : Text) :
    AddsEscapes ['{', '}'] false s (escapeLiteralBraces s) ∧
      escapeLiteralBraces (escapeLiteralBraces s) = escapeLiteralBraces s ∧
      revealAll [openBrace, closeBrace] (escapeLiteralBraces s) =
        revealAll [openBrace, closeBrace] s ∧
      protectAll [openBrace, closeBrace] (escapeLiteralBraces s) =
        protectAll [openBrace, closeBrace] s := by
  have hesc : escapeChar ∉ ['{', '}'] := by decide
  have hadds : AddsEscapes ['{', '}'] false s (escapeLiteralBraces s) := by
    rw [escapeLiteralBraces_eq_reading, ← readingFrom_false]
    exact addsEscapes_readingFrom false false s
  have hreveal : ∀ t, revealAll [openBrace, closeBrace] t =
      Escape.revealChars ['{', '}'] t :=
    Escape.revealAll_singletons ['{', '}']
  have hprotect : ∀ t, protectAll [openBrace, closeBrace] t =
      Escape.protectChars ['{', '}'] false t :=
    Escape.protectAll_singletons ['{', '}']
  refine ⟨hadds, ?_, ?_, ?_⟩
  · have hsettled := (settled_escapeLiteralBraces s).readingFrom_eq
    rwa [readingFrom_false, ← escapeLiteralBraces_eq_reading] at hsettled
  · rw [hreveal, hreveal, hadds.revealChars_eq hesc]
  · rw [hprotect, hprotect, hadds.protectChars_eq hesc]

end PatternText.Pattern.Brace
