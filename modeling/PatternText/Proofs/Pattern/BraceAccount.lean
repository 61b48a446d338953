import PatternText.Proofs.Pattern.Piecewise

/-!
# Accounting for braces in one reading

Whether the braces of a text are accounted for is a matter of positions.  A reader can
tell it as well, if it remembers whether an opening brace has been live since the last
closing one: `isAccounted_iff`.  Read so, the account is a piecewise property, which
settles the question for translations into Java: `isAccounted_translate_java`.
-/

namespace PatternText.Pattern.Brace

open Text (byteSize find? occurrences)
open Escape (armedBy armedOver escapeChar isEscapedAt)

/-! ## The account of a reader -/

/-- Whether an opening brace starts a span, given what follows it. -/
def startsSpan (named : Bool) (r : Text) : Bool :=
  match cutAtClose? r with
  | none => false
  | some (body, _) => isBounds body || named

/-- Whether an opening brace has been live since the last closing one. -/
def openedBy (opened armed : Bool) (c : Char) : Bool :=
  c != '}' && (opened || (c == '{' && !armed))

/-- Whether an opening brace has been live since the last closing one, after a text. -/
def openedOver : (opened armed : Bool) → Text → Bool
  | opened, _, [] => opened
  | opened, armed, c :: r => openedOver (openedBy opened armed c) (armedBy armed c) r

/-- Every live opening brace starts a span, and every live closing one ends one. -/
def AccountedFrom : (opened armed named : Bool) → Text → Prop
  | _, _, _, [] => True
  | opened, armed, named, c :: r =>
    (armed = false → (c = '{' → startsSpan named r = true) ∧ (c = '}' → opened = true)) ∧
      AccountedFrom (openedBy opened armed c) (armedBy armed c) (namedBy armed c) r

instance decidableAccountedFrom :
    ∀ opened armed named s, Decidable (AccountedFrom opened armed named s)
  | _, _, _, [] => isTrue trivial
  | opened, armed, _, c :: r =>
    have := decidableAccountedFrom (openedBy opened armed c) (armedBy armed c)
      (namedBy armed c) r
    inferInstanceAs (Decidable (_ ∧ _))

variable {opened armed named : Bool} {body r s : Text}

theorem startsSpan_append
    (hbody : '}' ∉ body) (named : Bool) (r : Text) :
    startsSpan named (body ++ '}' :: r) = (isBounds body || named) := by
  rw [startsSpan, cutAtClose?_append hbody]

theorem startsSpan_of_notMem (hr : '}' ∉ r) (named : Bool) :
    startsSpan named r = false := by
  rw [startsSpan, cutAtClose?_of_notMem hr]

theorem startsSpan_append_close (named : Bool) (x r : Text) :
    startsSpan named (x ++ '}' :: r) = startsSpan named (x ++ ['}']) := by
  by_cases hx : '}' ∈ x
  · obtain ⟨body, rest, rfl, hbody⟩ := List.eq_append_cons_of_mem hx
    rw [List.append_assoc, List.append_assoc, List.cons_append, List.cons_append,
      startsSpan_append hbody, startsSpan_append hbody]
  · rw [startsSpan_append hx, startsSpan_append hx]

theorem accountedFrom_cons
    (opened armed named : Bool) (c : Char) (r : Text) :
    AccountedFrom opened armed named (c :: r) ↔
      (armed = false →
        (c = '{' → startsSpan named r = true) ∧ (c = '}' → opened = true)) ∧
      AccountedFrom (openedBy opened armed c) (armedBy armed c) (namedBy armed c) r :=
  Iff.rfl

theorem accountedFrom_append_close
    (opened armed named : Bool) (x r : Text) :
    AccountedFrom opened armed named (x ++ '}' :: r) ↔
      AccountedFrom opened armed named (x ++ ['}']) ∧ AccountedFrom false false false r := by
  induction x generalizing opened armed named with
  | nil =>
    have hopened : openedBy opened armed '}' = false := rfl
    have harmed : armedBy armed '}' = false := Escape.armedBy_of_ne _ (by decide)
    have hnamed : namedBy armed '}' = false := namedBy_of_ne _ (by decide) (by decide)
    rw [List.nil_append, List.nil_append, accountedFrom_cons, accountedFrom_cons, hopened,
      harmed, hnamed]
    simp [AccountedFrom]
  | cons c x ih =>
    rw [List.cons_append, List.cons_append, accountedFrom_cons, accountedFrom_cons, ih,
      startsSpan_append_close, and_assoc]

theorem accountedFrom_name_iff (hbody : '}' ∉ body) :
    AccountedFrom true armed named (body ++ ['}']) ↔
      ∀ a r, body = a ++ '{' :: r → armedOver armed a = false →
        isBounds r = true ∨ namedOver armed named a = true := by
  induction body generalizing armed named with
  | nil => simp [AccountedFrom]
  | cons c body ih =>
    rw [List.mem_cons, not_or] at hbody
    have hopened : openedBy true armed c = true := by
      simp [openedBy, Ne.symm hbody.1]
    rw [List.cons_append, accountedFrom_cons, hopened, ih hbody.2,
      startsSpan_append hbody.2, Bool.or_eq_true]
    constructor
    · rintro ⟨hhere, hlater⟩ a r hsplit harmed
      cases a with
      | nil =>
        obtain ⟨rfl, rfl⟩ := List.cons.inj hsplit
        exact (hhere harmed).1 rfl
      | cons d a =>
        obtain ⟨rfl, rfl⟩ := List.cons.inj hsplit
        exact hlater a r rfl harmed
    · intro hall
      refine ⟨?_, ?_⟩
      · intro harmed
        refine ⟨?_, fun _ => rfl⟩
        rintro rfl
        exact hall [] body rfl harmed
      · rintro a r rfl harmed
        exact hall (c :: a) r rfl harmed

theorem accountedFrom_span_iff (hbody : '}' ∉ body) :
    AccountedFrom false false named ('{' :: (body ++ ['}'])) ↔
      (isBounds body || named) = true ∧ OpensSpans body := by
  rw [accountedFrom_cons, startsSpan_append hbody]
  refine and_congr ?_ (accountedFrom_name_iff hbody)
  simp

/-! ## The account by positions -/

/-- The account of a reader is one of every place in the text. -/
theorem accountedFrom_iff :
    AccountedFrom opened armed named s ↔
      (∀ a r, s = a ++ '{' :: r → armedOver armed a = false →
        startsSpan (namedOver armed named a) r = true) ∧
      (∀ b r, s = b ++ '}' :: r → armedOver armed b = false →
        openedOver opened armed b = true) := by
  induction s generalizing opened armed named with
  | nil => simp [AccountedFrom]
  | cons c s ih =>
    rw [accountedFrom_cons, ih]
    constructor
    · rintro ⟨hhere, hopen, hclose⟩
      refine ⟨?_, ?_⟩
      · intro a r hsplit harmed
        cases a with
        | nil =>
          obtain ⟨rfl, rfl⟩ := List.cons.inj hsplit
          exact (hhere harmed).1 rfl
        | cons d a =>
          obtain ⟨rfl, rfl⟩ := List.cons.inj hsplit
          exact hopen a r rfl harmed
      · intro b r hsplit harmed
        cases b with
        | nil =>
          obtain ⟨rfl, rfl⟩ := List.cons.inj hsplit
          exact (hhere harmed).2 rfl
        | cons d b =>
          obtain ⟨rfl, rfl⟩ := List.cons.inj hsplit
          exact hclose b r rfl harmed
    · rintro ⟨hopen, hclose⟩
      refine ⟨?_, ?_, ?_⟩
      · intro harmed
        refine ⟨?_, ?_⟩
        · rintro rfl
          exact hopen [] s rfl harmed
        · rintro rfl
          exact hclose [] s rfl harmed
      · rintro a r rfl harmed
        exact hopen (c :: a) r rfl harmed
      · rintro b r rfl harmed
        exact hclose (c :: b) r rfl harmed

/-- An opening brace has been live since the last closing one if it has been at the start
and none has closed it, or if it stands in the text. -/
theorem openedOver_eq_true_iff {b : Text} :
    openedOver opened armed b = true ↔
      (opened = true ∧ '}' ∉ b) ∨
        ∃ a body, b = a ++ '{' :: body ∧ '}' ∉ body ∧ armedOver armed a = false := by
  -- The text is read from the left, so what has been open before it counts too.
  induction b generalizing opened armed with
  | nil => simp [openedOver]
  | cons c b ih =>
    rw [openedOver, ih, openedBy, List.mem_cons, not_or]
    simp only [Bool.and_eq_true, Bool.or_eq_true, bne_iff_ne, beq_iff_eq,
      Bool.not_eq_true']
    constructor
    · rintro (⟨⟨hc, hopened | ⟨rfl, harmed⟩⟩, hb⟩ | ⟨a, body, rfl, hbody, ha⟩)
      · exact .inl ⟨hopened, Ne.symm hc, hb⟩
      · exact .inr ⟨[], b, rfl, hb, harmed⟩
      · exact .inr ⟨c :: a, body, rfl, hbody, ha⟩
    · rintro (⟨hopened, hc, hb⟩ | ⟨a, body, hsplit, hbody, ha⟩)
      · exact .inl ⟨⟨Ne.symm hc, .inl hopened⟩, hb⟩
      · cases a with
        | nil =>
          obtain ⟨rfl, rfl⟩ := List.cons.inj hsplit
          exact .inl ⟨⟨by decide, .inr ⟨rfl, ha⟩⟩, hbody⟩
        | cons d a =>
          obtain ⟨rfl, rfl⟩ := List.cons.inj hsplit
          exact .inr ⟨a, body, rfl, hbody, ha⟩

theorem exists_kindAt?_iff (a r : Text) :
    (∃ close, find? closeBrace (a ++ '{' :: r) (byteSize a) = some close ∧
      (kindAt? (a ++ '{' :: r) (byteSize a) close = some .repetition ∨
        kindAt? (a ++ '{' :: r) (byteSize a) close = some .classEscape)) ↔
      startsSpan (namedOver false false a) r = true := by
  by_cases hr : '}' ∈ r
  · obtain ⟨body, rest, rfl, hbody⟩ := List.eq_append_cons_of_mem hr
    have hnot : '}' ∉ '{' :: body := by simp [hbody]
    have hfind : find? closeBrace (a ++ '{' :: (body ++ '}' :: rest)) (byteSize a) =
        some (byteSize (a ++ '{' :: body)) :=
      Text.find?_append_of_notMem (d := []) hnot a rest
    rw [startsSpan_append hbody, hfind]
    simp only [Option.some.injEq, exists_eq_left', kindAt?_byteSize]
    cases isBounds body <;> cases namedOver false false a <;> simp
  · have hnot : '}' ∉ '{' :: r := by simp [hr]
    rw [startsSpan_of_notMem hr, closeBrace, Text.find?_of_notMem hnot]
    simp

/-- A closing brace is the first after a live opening one exactly if one has been live
since the last closing one. -/
theorem exists_opening_iff (b r : Text) :
    (∃ pos ∈ occurrences openBrace (b ++ '}' :: r),
      isEscapedAt (b ++ '}' :: r) pos = false ∧
        find? closeBrace (b ++ '}' :: r) pos = some (byteSize b)) ↔
      openedOver false false b = true := by
  rw [openedOver_eq_true_iff]
  simp only [Bool.false_eq_true, false_and, false_or]
  constructor
  · rintro ⟨pos, hpos, hlive, hfind⟩
    obtain ⟨a, t, hs, rfl⟩ := Text.mem_occurrences_singleton_iff.1 hpos
    rw [hs] at hlive hfind
    rw [Escape.isEscapedAt_byteSize] at hlive
    by_cases ht : '}' ∈ t
    · obtain ⟨body, rest, rfl, hbody⟩ := List.eq_append_cons_of_mem ht
      have hnot : '}' ∉ '{' :: body := by simp [hbody]
      have hfirst : find? closeBrace (a ++ '{' :: (body ++ '}' :: rest)) (byteSize a) =
          some (byteSize (a ++ '{' :: body)) :=
        Text.find?_append_of_notMem (d := []) hnot a rest
      -- Two boundaries at one position divide the text in the same way.
      have hsize : byteSize b = byteSize (a ++ '{' :: body) :=
        (Option.some.inj (hfirst.symm.trans hfind)).symm
      have hparts : b ++ '}' :: r = a ++ '{' :: body ++ '}' :: rest := by
        rw [hs]
        simp
      exact ⟨a, body, (Text.Edit.append_inj_of_byteSize hparts hsize).1, hbody, hlive⟩
    · have hnot : '}' ∉ '{' :: t := by simp [ht]
      rw [closeBrace, Text.find?_of_notMem hnot] at hfind
      exact absurd hfind (by simp)
  · rintro ⟨a, body, rfl, hbody, hlive⟩
    have hparts : a ++ '{' :: body ++ '}' :: r = a ++ '{' :: (body ++ '}' :: r) := by simp
    have hnot : '}' ∉ '{' :: body := by simp [hbody]
    refine ⟨byteSize a, ?_, ?_, ?_⟩
    · exact Text.mem_occurrences_singleton_iff.2 ⟨a, _, hparts, rfl⟩
    · rw [hparts, Escape.isEscapedAt_byteSize, hlive]
    · rw [hparts]
      exact Text.find?_append_of_notMem (d := []) hnot a r

/-- The positions of a text tell what a reader of it does. -/
theorem isAccounted_iff {s : Text} :
    IsAccounted s ↔ AccountedFrom false false false s := by
  rw [accountedFrom_iff]
  constructor
  · intro h
    refine ⟨?_, ?_⟩
    · rintro a r rfl harmed
      have hpos : byteSize a ∈ occurrences openBrace (a ++ '{' :: r) :=
        Text.mem_occurrences_singleton_iff.2 ⟨a, r, rfl, rfl⟩
      rw [← Escape.isEscapedAt_byteSize a ('{' :: r)] at harmed
      exact (exists_kindAt?_iff a r).1 (h.opened _ hpos harmed)
    · rintro b r rfl harmed
      have hpos : byteSize b ∈ occurrences closeBrace (b ++ '}' :: r) :=
        Text.mem_occurrences_singleton_iff.2 ⟨b, r, rfl, rfl⟩
      rw [← Escape.isEscapedAt_byteSize b ('}' :: r)] at harmed
      exact (exists_opening_iff b r).1 (h.closed _ hpos harmed)
  · rintro ⟨hopen, hclose⟩
    constructor
    · intro pos hpos hlive
      obtain ⟨a, r, rfl, rfl⟩ := Text.mem_occurrences_singleton_iff.1 hpos
      rw [Escape.isEscapedAt_byteSize] at hlive
      exact (exists_kindAt?_iff a r).2 (hopen a r rfl hlive)
    · intro close hpos hlive
      obtain ⟨b, r, rfl, rfl⟩ := Text.mem_occurrences_singleton_iff.1 hpos
      rw [Escape.isEscapedAt_byteSize] at hlive
      exact (exists_opening_iff b r).2 (hclose b r rfl hlive)

instance (s : Text) : Decidable (IsAccounted s) :=
  decidable_of_iff _ isAccounted_iff.symm

/-! ## Translations -/

theorem isPiecewise_accountedFrom :
    IsPiecewise (AccountedFrom false) where
  nil := fun _ _ => trivial
  armed := by
    intro named c r
    rw [accountedFrom_cons]
    simp [openedBy]
  escape := by
    intro named r
    have hopened : openedBy false false escapeChar = false := by decide
    rw [accountedFrom_cons, hopened, Escape.armedBy_escapeChar]
    simp [escapeChar]
  plain := by
    intro named c r hesc hopen hclose
    have hopened : openedBy false false c = false := by simp [openedBy, hopen]
    rw [accountedFrom_cons, hopened, Escape.armedBy_of_ne _ hesc]
    simp [hopen, hclose]
  close := by
    intro named h
    exact Bool.false_ne_true ((h.1 rfl).2 rfl)
  span := by
    intro named x r
    exact accountedFrom_append_close false false named ('{' :: x) r
  repetition := by
    intro named body hbounds
    have hopen := notMem_of_isBounds (c := '{') hbounds (by decide) (by decide)
    have hclose := notMem_of_isBounds (c := '}') hbounds (by decide) (by decide)
    refine (accountedFrom_span_iff hclose).2 ⟨?_, opensSpans_of_notMem hopen⟩
    rw [hbounds, Bool.true_or]
  name := by
    intro body hbody hspans
    exact (accountedFrom_span_iff hbody).2 ⟨Bool.or_true _, hspans⟩

/-- The braces of a translation for Java are accounted for exactly if those of every
class are that the pattern names.  If nothing is expanded in a name, they are exactly if
every live opening brace in the name opens a span.  If the name holds no opening brace,
they are exactly if nothing is expanded in it or its closing brace is escaped. -/
theorem isAccounted_translate_java (s : Text) :
    (IsAccounted (Dialect.translate .java s) ↔
      ∀ name ∈ classNames s, IsAccounted (Dialect.translate .java (classText name))) ∧
    ∀ name ∈ classNames s,
      (Dialect.expandClasses .java name = name →
        (IsAccounted (Dialect.translate .java (classText name)) ↔ OpensSpans name)) ∧
      ('{' ∉ name →
        (IsAccounted (Dialect.translate .java (classText name)) ↔
          Dialect.expandClasses .java name = name ∨ armedOver false name = true)) := by
  have hP := isPiecewise_accountedFrom
  have hsettled := settled_escapeLiteralBraces s
  refine ⟨?_, ?_⟩
  · simp only [isAccounted_iff]
    exact hP.translate_iff s
  · intro name hname
    obtain ⟨hbounds, hclose⟩ := hsettled.of_mem_names hname
    refine ⟨?_, ?_⟩
    · intro hkept
      rw [Dialect.expandClasses_java] at hkept
      rw [isAccounted_iff, hP.translate_classText_iff hbounds hclose, hkept,
        accountedFrom_span_iff hclose, Bool.or_true, and_iff_right rfl]
    · intro hopen
      rw [isAccounted_iff]
      exact hP.translate_classText_iff_of_notMem hbounds hclose hopen

/-- Neither a repetition nor a class in brackets is in the way. -/
theorem isAccounted_translate_java_brackets :
    IsAccounted
      (Dialect.translate .java "\\P\x7bAlpha\x7d\x7b2,3\x7d[[:digit:]]\x7d".toList) := by
  have hnames : classNames "\\P\x7bAlpha\x7d\x7b2,3\x7d[[:digit:]]\x7d".toList =
      ["Alpha".toList] := by
    decide +kernel
  have hkept : Dialect.expandClasses .java "Alpha".toList = "Alpha".toList := by
    decide +kernel
  have hopen : '{' ∉ "Alpha".toList := by decide
  have h := isAccounted_translate_java
    "\\P\x7bAlpha\x7d\x7b2,3\x7d[[:digit:]]\x7d".toList
  rw [hnames, List.forall_mem_singleton, List.forall_mem_singleton] at h
  exact h.1.2 ((h.2.2 hopen).2 (.inl hkept))

/-- Within a name, neither an opening brace nor a class that is expanded is accounted
for. -/
theorem not_isAccounted_translate_java :
    ¬IsAccounted (Dialect.translate .java "\\p\x7ba\x7bb\x7d".toList) ∧
      ¬IsAccounted (Dialect.translate .java "\\p\x7b[:digit:]\x7d".toList) := by
  decide +kernel

end PatternText.Pattern.Brace
