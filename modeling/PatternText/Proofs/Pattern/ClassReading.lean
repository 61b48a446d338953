import PatternText.Pattern.Dialect
import PatternText.Proofs.Escape.State
import PatternText.Proofs.Text.Parts

/-!
# Classes in one reading

References to classes can be expanded while a pattern is read once from left to right.
The name of a class has no colon, so a reference is a fixed text for each class, and
the reader only has to know whether the next character is escaped.
-/

namespace PatternText.Pattern.PosixClass

open Escape (armedBy armedOver)
open Text (Edit byteSize find? occurrencesFrom)

def reference (c : PosixClass) : Text :=
  opening ++ c.name ++ closing

/-- The class among the given ones that the start of a text refers to. -/
def referenceAt? (classes : List PosixClass) (s : Text) : Option PosixClass :=
  classes.find? fun c => c.reference.isPrefixOf s

theorem length_reference_pos (c : PosixClass) :
    0 < c.reference.length := by
  simp only [reference, opening, List.length_append, List.length_cons]
  omega

/-- The pattern with every reference to one of the given classes expanded, `armed`
telling whether its first character is escaped. -/
def reading
    (classes : List PosixClass) (spelling : Spelling) (armed : Bool) (s : Text) :
    Text :=
  match s with
  | [] => []
  | c :: r =>
    match if armed then none else referenceAt? classes (c :: r) with
    | some k =>
      spelling k ++
        reading classes spelling false ((c :: r).drop k.reference.length)
    | none => c :: reading classes spelling (armedBy armed c) r
termination_by s.length
decreasing_by
  · have hpos := k.length_reference_pos
    simp only [List.length_drop, List.length_cons]
    omega
  · simp

/-!
## Expanding and the reading

The edits that expand the references of a pattern come to one reading of it,
`expand_eq_reading`.  `reading_induction` follows a reading: it meets a reference that
is live, or a character that starts none.
-/

variable {classes : List PosixClass} {spelling : Spelling}

/-! ### References -/

theorem reference_prefix_inj
    {j k : PosixClass}
    (h : j.reference <+: k.reference) :
    j = k := by
  have hall : ∀ j ∈ all, ∀ k ∈ all, j.reference <+: k.reference → j = k := by
    decide
  exact hall j (mem_all j) k (mem_all k) h

theorem eq_of_prefix_reference_append
    {j k : PosixClass} {r : Text}
    (h : j.reference <+: k.reference ++ r) :
    j = k := by
  have hk : k.reference <+: k.reference ++ r := List.prefix_append k.reference r
  rcases Nat.le_total j.reference.length k.reference.length with hle | hle
  · exact reference_prefix_inj (List.prefix_of_prefix_length_le h hk hle)
  · exact (reference_prefix_inj (List.prefix_of_prefix_length_le hk h hle)).symm

theorem referenceAt?_reference_append
    {k : PosixClass}
    (hk : k ∈ classes) (r : Text) :
    referenceAt? classes (k.reference ++ r) = some k := by
  cases h : referenceAt? classes (k.reference ++ r) with
  | none =>
    have hnone := List.find?_eq_none.1 h k hk
    rw [List.isPrefixOf_iff_prefix] at hnone
    exact absurd (List.prefix_append k.reference r) hnone
  | some j =>
    have hprefix := List.find?_some h
    rw [List.isPrefixOf_iff_prefix] at hprefix
    rw [eq_of_prefix_reference_append hprefix]

theorem referenceAt?_eq_none_iff {s : Text} :
    referenceAt? classes s = none ↔ ∀ k ∈ classes, ¬k.reference <+: s := by
  simp [referenceAt?]

theorem exists_of_referenceAt?
    {s : Text} {k : PosixClass}
    (h : referenceAt? classes s = some k) :
    k ∈ classes ∧ ∃ r, s = k.reference ++ r := by
  have hprefix := List.find?_some h
  rw [List.isPrefixOf_iff_prefix] at hprefix
  obtain ⟨r, hr⟩ := hprefix
  exact ⟨List.mem_of_find?_eq_some h, r, hr.symm⟩

/-! ### Along a reading -/

theorem reading_nil
    (classes : List PosixClass) (spelling : Spelling) (armed : Bool) :
    reading classes spelling armed [] = [] := by
  rw [reading]

theorem reading_reference_append
    {k : PosixClass}
    (spelling : Spelling) (hk : k ∈ classes) (r : Text) :
    reading classes spelling false (k.reference ++ r) =
      spelling k ++ reading classes spelling false r := by
  have hat := referenceAt?_reference_append hk r
  cases hs : k.reference ++ r with
  | nil =>
    have hlength := congrArg List.length hs
    have hpos := k.length_reference_pos
    simp only [List.length_append, List.length_nil] at hlength
    omega
  | cons c s =>
    rw [hs] at hat
    rw [reading]
    simp only [Bool.false_eq_true, if_false, hat]
    rw [← hs, List.drop_left]

theorem reading_step
    {armed : Bool} {c : Char} {r : Text}
    (spelling : Spelling)
    (h : armed = true ∨ ∀ k ∈ classes, ¬k.reference <+: c :: r) :
    reading classes spelling armed (c :: r) =
      c :: reading classes spelling (armedBy armed c) r := by
  rw [reading]
  cases armed with
  | true => simp
  | false =>
    have hnone : referenceAt? classes (c :: r) = none :=
      referenceAt?_eq_none_iff.2 (h.resolve_left Bool.false_ne_true)
    simp [hnone]

/-- Induction along a reading. -/
@[elab_as_elim]
theorem reading_induction
    (classes : List PosixClass) {motive : Bool → Text → Prop}
    (ended : ∀ armed, motive armed [])
    (found : ∀ k ∈ classes, ∀ r, motive false r → motive false (k.reference ++ r))
    (step : ∀ armed c r,
      (armed = true ∨ ∀ k ∈ classes, ¬k.reference <+: c :: r) →
        motive (armedBy armed c) r → motive armed (c :: r)) :
    ∀ armed s, motive armed s
  | armed, [] => ended armed
  | true, c :: r =>
    step true c r (.inl rfl) (reading_induction classes ended found step _ r)
  | false, c :: r => by
    cases h : referenceAt? classes (c :: r) with
    | none =>
      exact step false c r (.inr (referenceAt?_eq_none_iff.1 h))
        (reading_induction classes ended found step _ r)
    | some k =>
      obtain ⟨hk, rest, hrest⟩ := exists_of_referenceAt? h
      have hlength := congrArg List.length hrest
      have hpos := k.length_reference_pos
      have hlt : rest.length < r.length + 1 := by
        simp only [List.length_append, List.length_cons] at hlength
        omega
      exact hrest ▸ found k hk rest (reading_induction classes ended found step false rest)
termination_by _ s => s.length

/-! ### Expansions -/

theorem opening_ne_nil :
    opening ≠ [] :=
  List.cons_ne_nil '[' [':']

theorem bracket_notMem_name_append (k : PosixClass) :
    '[' ∉ k.name ++ closing := by
  have hall : ∀ k ∈ all, '[' ∉ k.name ++ closing := by decide
  exact hall k (mem_all k)

theorem colon_notMem_name (k : PosixClass) :
    ':' ∉ k.name := by
  have hall : ∀ k ∈ all, ':' ∉ k.name := by decide
  exact hall k (mem_all k)

theorem name_inj
    {j k : PosixClass}
    (h : j.name = k.name) :
    j = k := by
  have hreference : j.reference = k.reference := by rw [reference, reference, h]
  exact reference_prefix_inj (hreference ▸ List.prefix_rfl)

theorem named?_name
    {k : PosixClass}
    (hk : k ∈ classes) :
    named? classes k.name = some k := by
  cases h : named? classes k.name with
  | none =>
    have hnone := List.find?_eq_none.1 h k hk
    simp at hnone
  | some j =>
    have hname : j.name = k.name := by simpa using List.find?_some h
    rw [name_inj hname]

variable {s a k r : Text}

theorem expansionAt?_of_armed
    (harmed : armedOver false a = true) (hs : a ++ r = s) :
    expansionAt? classes spelling s (byteSize a) = none := by
  rw [expansionAt?, ← hs, Escape.isEscapedAt_byteSize, if_pos harmed]

theorem expansionAt?_reference
    {c : PosixClass}
    (hc : c ∈ classes) (harmed : armedOver false a = false)
    (hs : a ++ c.reference ++ r = s) :
    expansionAt? classes spelling s (byteSize a) =
      some ⟨byteSize a, byteSize (a ++ c.reference), spelling c⟩ := by
  have hlive : ¬Escape.isEscapedAt s (byteSize a) = true := by
    rw [← hs, List.append_assoc, Escape.isEscapedAt_byteSize, harmed]
    exact Bool.false_ne_true
  have hstart : byteSize a + byteSize opening = byteSize (a ++ opening) :=
    (Text.byteSize_append a opening).symm
  have hs' : a ++ opening ++ (c.name ++ (closing ++ r)) = s := by
    rw [← hs, reference]
    simp
  have hfind : find? closing s (byteSize (a ++ opening)) =
      some (byteSize (a ++ opening ++ c.name)) := by
    rw [← hs']
    exact Text.find?_append_of_notMem (colon_notMem_name c) (a ++ opening) r
  have hslice : Text.slice s (byteSize (a ++ opening))
      (byteSize (a ++ opening ++ c.name)) = c.name := by
    rw [← hs', ← List.append_assoc (a ++ opening), Text.byteSize_append (a ++ opening),
      Text.slice_append]
  have hstop : byteSize (a ++ opening ++ c.name) + byteSize closing =
      byteSize (a ++ c.reference) := by
    rw [reference]
    simp [Nat.add_assoc]
  rw [expansionAt?, if_neg hlive]
  simp only [hstart, hfind, Option.bind_some, hslice, named?_name hc, Option.map_some,
    hstop]

theorem expansionAt?_of_not_prefix
    (h : ∀ c ∈ classes, ¬c.reference <+: opening ++ r) (hs : a ++ (opening ++ r) = s) :
    expansionAt? classes spelling s (byteSize a) = none := by
  have hs' : a ++ opening ++ r = s := by rw [← hs, List.append_assoc]
  have hstart : byteSize a + byteSize opening = byteSize (a ++ opening) :=
    (Text.byteSize_append a opening).symm
  rw [expansionAt?]
  split
  · rfl
  · rw [hstart, Option.bind_eq_none_iff]
    intro nameStop hfind
    rw [Option.map_eq_none_iff]
    rw [← hs'] at hfind
    obtain ⟨n, r', hr, rfl⟩ := Text.exists_of_find? hfind
    have hslice : Text.slice s (byteSize (a ++ opening))
        (byteSize (a ++ opening ++ n)) = n := by
      rw [← hs', hr, List.append_assoc n, ← List.append_assoc (a ++ opening),
        Text.byteSize_append (a ++ opening), Text.slice_append]
    rw [hslice, named?, List.find?_eq_none]
    intro c hc hname
    have hname' : c.name = n := by simpa using hname
    refine h c hc ⟨r', ?_⟩
    rw [reference, hr, hname']
    simp

/-- Reading may go on later without passing over a position. -/
theorem expansionsFrom_of_le
    {start start' : Nat} {positions : List Nat}
    (hle : start ≤ start') (hall : ∀ p ∈ positions, start' ≤ p) :
    expansionsFrom classes spelling s start positions =
      expansionsFrom classes spelling s start' positions := by
  cases positions with
  | nil => rfl
  | cons p later =>
    have hp : start' ≤ p := hall p List.mem_cons_self
    have hstart : ¬p < start := by omega
    have hstart' : ¬p < start' := by omega
    simp only [expansionsFrom, hstart, hstart', if_false]

theorem le_of_mem_occurrencesFrom
    {d : Text} {skip pos p : Nat}
    (h : p ∈ occurrencesFrom d skip pos r) :
    pos ≤ p := by
  obtain ⟨x, y, -, rfl⟩ := Text.mem_occurrencesFrom h
  omega

theorem occurrencesFrom_reference
    (c : PosixClass) (pos : Nat) (r : Text) :
    occurrencesFrom opening 0 pos (c.reference ++ r) =
      pos :: occurrencesFrom opening 0 (pos + byteSize c.reference) r := by
  have hparts : c.reference ++ r = opening ++ (c.name ++ closing ++ r) := by
    simp [reference]
  have hfound := Text.occurrencesFrom_found (List.cons_ne_nil '[' [':']) pos
    (c.name ++ closing ++ r)
  rw [Text.occurrencesFrom_append_of_notMem (bracket_notMem_name_append c)] at hfound
  rw [hparts, opening, hfound, reference, opening]
  simp [Nat.add_assoc]

theorem escapeChar_notMem_reference (k : PosixClass) :
    Escape.escapeChar ∉ k.reference := by
  have hall : ∀ k ∈ all, Escape.escapeChar ∉ k.reference := by decide
  exact hall k (mem_all k)

theorem armedOver_reference (armed : Bool) (c : PosixClass) :
    armedOver armed c.reference = false := by
  have hne : c.reference ≠ [] := List.length_pos_iff.1 c.length_reference_pos
  exact Escape.armedOver_of_notMem armed hne (escapeChar_notMem_reference c)

theorem expansionsFrom_step
    {c : Char}
    (h : armedOver false a = true ∨ ∀ k ∈ classes, ¬k.reference <+: c :: r)
    (hs : a ++ c :: r = s) :
    expansionsFrom classes spelling s (byteSize a)
        (occurrencesFrom opening 0 (byteSize a) (c :: r)) =
      expansionsFrom classes spelling s (byteSize (a ++ [c]))
        (occurrencesFrom opening 0 (byteSize (a ++ [c])) r) := by
  have hsize : byteSize (a ++ [c]) = byteSize a + c.utf8Size := by simp
  by_cases hopen : opening <+: c :: r
  · obtain ⟨r', hr⟩ := hopen
    obtain ⟨rfl, rfl⟩ : c = '[' ∧ r = ':' :: r' := by
      obtain ⟨hc, hr'⟩ := List.cons.inj hr
      exact ⟨hc.symm, hr'.symm⟩
    have hat : expansionAt? classes spelling s (byteSize a) = none := by
      rcases h with harmed | hnone
      · exact expansionAt?_of_armed harmed hs
      · exact expansionAt?_of_not_prefix hnone hs
    have hcolon : ¬opening <+: ':' :: r' := by
      intro hprefix
      exact absurd (List.cons_prefix_cons.1 hprefix).1 (by decide)
    have hfound : occurrencesFrom opening 0 (byteSize a) ('[' :: ':' :: r') =
        byteSize a :: occurrencesFrom opening 0 (byteSize a + byteSize opening) r' :=
      Text.occurrencesFrom_found opening_ne_nil (byteSize a) r'
    have hone : '['.utf8Size = 1 := by decide
    have htwo : byteSize a + 1 + ':'.utf8Size = byteSize a + byteSize opening := by
      simp [opening, Char.utf8Size]
    have hstep : occurrencesFrom opening 0 (byteSize a + 1) ([':'] ++ r') =
        occurrencesFrom opening 0 (byteSize a + byteSize opening) r' := by
      rw [List.singleton_append, Text.occurrencesFrom_step hcolon, htwo]
    rw [hfound, expansionsFrom, if_neg (Nat.lt_irrefl _), hsize, hone]
    simp only [hat]
    rw [← hstep]
    rfl
  · rw [Text.occurrencesFrom_step hopen, hsize]
    refine expansionsFrom_of_le (Nat.le_add_right _ _) ?_
    intro p hp
    exact le_of_mem_occurrencesFrom hp

/-- The edits for the references in what is left of a pattern cut at boundaries only,
and come to reading it.  What has been passed since the last edit is `k`. -/
theorem applyFrom?_expansionsFrom
    {armed : Bool}
    (hs : a ++ k ++ r = s) (harmed : armedOver false (a ++ k) = armed) :
    Edit.applyFrom? s (byteSize a)
        (expansionsFrom classes spelling s (byteSize (a ++ k))
          (occurrencesFrom opening 0 (byteSize (a ++ k)) r)) =
      some (k ++ reading classes spelling armed r) := by
  induction armed, r using reading_induction classes generalizing a k with
  | ended armed =>
    rw [reading_nil, List.append_nil, ← hs, List.append_nil]
    exact Edit.applyFrom?_nil a k
  | found c hc r ih =>
    have hs' : a ++ k ++ c.reference ++ r = s := by rw [← hs, List.append_assoc]
    have hnext := ih (a := a ++ k ++ c.reference) (k := []) (by rw [List.append_nil, hs'])
      (by rw [List.append_nil, Escape.armedOver_append, armedOver_reference])
    rw [List.append_nil, List.nil_append] at hnext
    have hedit := Edit.applyFrom?_cons a k c.reference r (spelling c)
      (expansionsFrom classes spelling s (byteSize (a ++ k ++ c.reference))
        (occurrencesFrom opening 0 (byteSize (a ++ k ++ c.reference)) r))
    rw [hs', hnext, Option.map_some] at hedit
    rw [occurrencesFrom_reference, expansionsFrom, if_neg (Nat.lt_irrefl _),
      ← Text.byteSize_append]
    simp only [expansionAt?_reference hc harmed hs']
    rw [hedit, reading_reference_append spelling hc, List.append_assoc]
  | step armed c r h ih =>
    have hs' : a ++ k ++ c :: r = s := hs
    have hnext := ih (a := a) (k := k ++ [c]) (by rw [← hs']; simp)
      (by rw [← List.append_assoc, Escape.armedOver_append, harmed]; rfl)
    rw [← List.append_assoc] at hnext
    rw [expansionsFrom_step (harmed ▸ h) hs', hnext, reading_step spelling h,
      List.append_assoc, List.singleton_append]

/-- Expanding the references of a pattern is one reading of it. -/
theorem expand_eq_reading
    (classes : List PosixClass) (spelling : Spelling) (s : Text) :
    expand classes spelling s = reading classes spelling false s := by
  have hnil : armedOver false ([] ++ []) = false := rfl
  have hedits : Edit.applyFrom? s 0
      (expansionsFrom classes spelling s 0 (occurrencesFrom opening 0 0 s)) =
        some (reading classes spelling false s) :=
    applyFrom?_expansionsFrom (a := []) (k := []) rfl hnil
  rw [expand, Edit.applyAll, Edit.applyAll?, expansions, Text.occurrences, hedits,
    Option.getD_some]

end PatternText.Pattern.PosixClass
