import PatternText.Journal
import PatternText.Proofs.Escape.Added
import PatternText.Proofs.Pattern.BraceReading

/-!
# The records account for the escapes

What the journal says about the braces of a pattern, compared with what becomes of them.
-/

namespace PatternText.Journal

open Escape (AddsEscapesAt liveOccurrences armedOver livePlaces protectChars escapeChar)
open Pattern (openBrace closeBrace)
open Text (byteSize quoted)
open Pattern.Brace (Reads IsFresh isFresh_append_brace namedBy_of_ne readingFrom readingFrom_nil
  readingFrom_false readingFrom_armed readingFrom_closed readingFrom_append
  readingFrom_of_notMem)

/-!
## Records about braces

The entries about the braces of a pattern name positions: one for each opening brace that
stands for itself although it is closed, and one from which on nothing is closed.  A reader
of the journal knows no more about the braces than these positions.  `EscapesBracesAt`
says what they are compared with, the places at which a result has escapes that the
pattern does not have.
-/

structure BraceRecords where
  /-- The braces that stand for themselves, each with the closing one after it. -/
  literals : List (Nat × Nat)
  /-- The first brace that no closing one follows. -/
  unclosed : Option Nat
  deriving DecidableEq, Repr

namespace BraceRecords

/-- The entries for some records, the one about the unclosed brace last. -/
def entries (s : Text) (records : BraceRecords) : List Entry :=
  records.literals.map (fun places => literalEntry s places.1 places.2) ++
    records.unclosed.toList.map unclosedEntry

def literalPositions (records : BraceRecords) : List Nat :=
  records.literals.map Prod.fst

/-- The recorded positions of opening braces, in the order of the entries. -/
def positions (records : BraceRecords) : List Nat :=
  records.literalPositions ++ records.unclosed.toList

end BraceRecords

/-- A text, the same text with escapes added before some of its live braces, and the
positions of these. -/
structure EscapesBracesAt (s t : Text) (places : List Nat) : Prop where
  added : AddsEscapesAt 0 s t places
  live : ∀ pos ∈ places,
    pos ∈ liveOccurrences openBrace s ∨ pos ∈ liveOccurrences closeBrace s

/-!
## Accounts

The entries about the braces of a pattern and the escapes added to it are computed apart
from each other, the entries from the findings alone.  Still the entries name the opening
braces that get an escape, `ofBraces_accounts`: each of them up to the first brace that is
not closed, and from there on all of them.

`Account` says so about what is left of a pattern, where every position is at or after the
one where reading goes on.  What has been read before therefore has no part in it, and one
finding at a time can be put in front.
-/

/-! ### Reading entries -/

theorem takeWhile_decimal (n : Nat) (r : Text) :
    (decimal n ++ ' ' :: r).takeWhile Char.isDigit = decimal n := by
  have hdigits : ∀ c ∈ decimal n, c.isDigit = true := fun c hc =>
    Nat.isDigit_of_mem_toDigits (by decide) (by decide) hc
  rw [List.takeWhile_append_of_pos hdigits, List.takeWhile_cons_of_neg (by decide),
    List.append_nil]

theorem decimal_injective :
    Function.Injective decimal := by
  intro m n h
  rw [← Nat.ofDigitChars_toDigits (b := 10) (n := m) (by decide) (by decide), ← decimal, h,
    decimal, Nat.ofDigitChars_toDigits (by decide) (by decide)]

theorem literalEntry_position_inj
    {s : Text} {pos close pos' close' : Nat}
    (h : literalEntry s pos close = literalEntry s pos' close') :
    pos = pos' := by
  have hmessage := congrArg Entry.message h
  simp only [literalEntry, List.append_assoc] at hmessage
  have hrest := List.append_cancel_left hmessage
  have hspace : " in ".toList = ' ' :: "in ".toList := by decide
  rw [hspace] at hrest
  have hdigits := congrArg (List.takeWhile Char.isDigit) hrest
  simp only [List.cons_append, takeWhile_decimal] at hdigits
  exact decimal_injective hdigits

theorem unclosedEntry_injective :
    Function.Injective unclosedEntry := by
  intro pos pos' h
  have hmessage := congrArg Entry.message h
  exact decimal_injective (List.append_cancel_left hmessage)

theorem literalEntry_ne_unclosedEntry
    (s : Text) (pos close first : Nat) :
    literalEntry s pos close ≠ unclosedEntry first := by
  intro h
  exact Level.noConfusion (congrArg Entry.level h)

/-- The positions can be read off the entries. -/
theorem BraceRecords.eq_of_entries_eq
    {s : Text} {records records' : BraceRecords}
    (h : records.entries s = records'.entries s) :
    records.literalPositions = records'.literalPositions ∧
      records.unclosed = records'.unclosed := by
  obtain ⟨literals, unclosed⟩ := records
  obtain ⟨literals', unclosed'⟩ := records'
  simp only [BraceRecords.entries, BraceRecords.literalPositions] at h ⊢
  induction literals generalizing literals' with
  | nil =>
    cases literals' with
    | nil =>
      have hfirst := (List.map_inj_right fun _ _ hentry => unclosedEntry_injective hentry).1 h
      have hunclosed : unclosed = unclosed' := by
        cases unclosed <;> cases unclosed' <;> simp_all
      exact ⟨rfl, hunclosed⟩
    | cons places literals' =>
      cases unclosed with
      | none => simp at h
      | some first =>
        have hhead := (List.cons.inj h).1
        exact absurd hhead.symm (literalEntry_ne_unclosedEntry s _ _ first)
  | cons places literals ih =>
    cases literals' with
    | nil =>
      cases unclosed' with
      | none => simp at h
      | some first =>
        have hhead := (List.cons.inj h).1
        exact absurd hhead (literalEntry_ne_unclosedEntry s _ _ first)
    | cons places' literals' =>
      simp only [List.map_cons, List.cons_append, List.cons.injEq] at h ⊢
      obtain ⟨hrest, hunclosed⟩ := ih literals' h.2
      exact ⟨⟨literalEntry_position_inj h.1, hrest⟩, hunclosed⟩

/-! ### Reading places -/

theorem EscapesBracesAt.escapeChar_notMem
    {s t : Text} {places : List Nat} {pos : Nat}
    (h : EscapesBracesAt s t places) (hpos : pos ∈ places) :
    (pos, escapeChar) ∉ Text.located 0 s := by
  intro hmem
  rcases h.live pos hpos with hbrace | hbrace
  all_goals
    have hplace := Escape.mem_located_of_mem_liveOccurrences hbrace
    exact absurd (Escape.eq_of_mem_located hplace hmem) (by decide)

/-- A brace is no escape character, so the places can be read off the result. -/
theorem EscapesBracesAt.eq
    {s t : Text} {places places' : List Nat}
    (h : EscapesBracesAt s t places) (h' : EscapesBracesAt s t places') :
    places = places' := by
  refine h.added.eq_of_forall_notMem h'.added ?_ ?_
  · exact fun place hplace => h.escapeChar_notMem hplace
  · exact fun place hplace => h'.escapeChar_notMem hplace

/-! ### One finding at a time -/

/-- What is left of a pattern `s` after `a`, and what it becomes: the records name the live
opening braces in it that get an escape, in order, and nothing that has been read. -/
structure Account
    (s a r t : Text) (records : BraceRecords) (places : List Nat) : Prop where
  added : AddsEscapesAt (byteSize a) r t places
  live : ∀ pos ∈ places, byteSize a ≤ pos ∧
    (pos ∈ liveOccurrences openBrace s ∨ pos ∈ liveOccurrences closeBrace s)
  increasing : records.positions.Pairwise (· < ·)
  recorded : ∀ pos ∈ records.positions,
    byteSize a ≤ pos ∧ pos ∈ liveOccurrences openBrace s
  accounted : ∀ pos ∈ liveOccurrences openBrace s, byteSize a ≤ pos →
    (pos ∈ places ↔
      pos ∈ records.literalPositions ∨ ∃ first ∈ records.unclosed, first ≤ pos)

namespace Account

variable {s a k r t : Text} {records : BraceRecords} {places : List Nat}

theorem byteSize_le
    {pos : Nat}
    (h : Account s a r t records places)
    (hpos : pos ∈ records.literalPositions ∨ ∃ first ∈ records.unclosed, first ≤ pos) :
    byteSize a ≤ pos := by
  rcases hpos with hpos | ⟨first, hfirst, hle⟩
  · exact (h.recorded pos (List.mem_append_left _ hpos)).1
  · have hmem : first ∈ records.positions :=
      List.mem_append_right _ (Option.mem_toList.2 hfirst)
    exact Nat.le_trans (h.recorded first hmem).1 hle

theorem nil (s a : Text) :
    Account s a [] [] ⟨[], none⟩ [] where
  added := .nil _
  live := by simp
  increasing := .nil
  recorded := by simp [BraceRecords.positions, BraceRecords.literalPositions]
  accounted := by simp [BraceRecords.literalPositions]

/-- A part in front in which only closing braces get escapes. -/
theorem prepend
    {k' : Text} {closes : List Nat}
    (hadded : AddsEscapesAt (byteSize a) k k' closes)
    (hcloses : ∀ pos ∈ closes, byteSize a ≤ pos ∧ pos ∈ liveOccurrences closeBrace s)
    (h : Account s (a ++ k) r t records places) :
    Account s a (k ++ r) (k' ++ t) records (closes ++ places) := by
  have hle : byteSize a ≤ byteSize (a ++ k) := Text.byteSize_le_append a k
  constructor
  case added =>
    have hrest := h.added
    rw [Text.byteSize_append] at hrest
    exact hadded.append hrest
  case live =>
    intro pos hpos
    rcases List.mem_append.1 hpos with hpos | hpos
    · exact ⟨(hcloses pos hpos).1, .inr (hcloses pos hpos).2⟩
    · exact ⟨Nat.le_trans hle (h.live pos hpos).1, (h.live pos hpos).2⟩
  case increasing => exact h.increasing
  case recorded =>
    intro pos hpos
    exact ⟨Nat.le_trans hle (h.recorded pos hpos).1, (h.recorded pos hpos).2⟩
  case accounted =>
    intro pos hopen _
    have hnot : pos ∉ closes := by
      intro hpos
      have hplace := Escape.mem_located_of_mem_liveOccurrences hopen
      have hplace' := Escape.mem_located_of_mem_liveOccurrences (hcloses pos hpos).2
      exact absurd (Escape.eq_of_mem_located hplace hplace') (by decide)
    rw [List.mem_append, or_iff_right hnot]
    by_cases hfront : byteSize (a ++ k) ≤ pos
    · exact h.accounted pos hopen hfront
    · exact iff_of_false (fun hpos => hfront (h.live pos hpos).1)
        (fun hpos => hfront (h.byteSize_le hpos))

theorem literal
    (hlive : byteSize a ∈ liveOccurrences openBrace s) (close : Nat)
    (h : Account s (a ++ ['{']) r t records places) :
    Account s a ('{' :: r) (escapeChar :: '{' :: t)
      { records with literals := (byteSize a, close) :: records.literals }
      (byteSize a :: places) := by
  have hnext : byteSize (a ++ ['{']) = byteSize a + 1 :=
    (Pattern.Brace.byteSize_append_brace a (.inl rfl)).symm
  constructor
  case added =>
    have hrest := h.added
    rw [hnext] at hrest
    exact .add _ '{' hrest
  case live =>
    intro pos hpos
    rcases List.mem_cons.1 hpos with rfl | hpos
    · exact ⟨Nat.le_refl _, .inl hlive⟩
    · obtain ⟨hle, hbrace⟩ := h.live pos hpos
      exact ⟨by omega, hbrace⟩
  case increasing =>
    refine List.pairwise_cons.2 ⟨?_, h.increasing⟩
    intro pos hpos
    have hle := (h.recorded pos hpos).1
    omega
  case recorded =>
    intro pos hpos
    rcases List.mem_cons.1 hpos with rfl | hpos
    · exact ⟨Nat.le_refl _, hlive⟩
    · obtain ⟨hle, hopen⟩ := h.recorded pos hpos
      exact ⟨by omega, hopen⟩
  case accounted =>
    intro pos hopen hle
    simp only [BraceRecords.literalPositions, List.map_cons, List.mem_cons]
    by_cases hpos : pos = byteSize a
    · simp [hpos]
    · rw [or_iff_right hpos, or_iff_right hpos]
      exact h.accounted pos hopen (by omega)

theorem unclosed
    (hs : a ++ '{' :: r = s) (harmed : armedOver false a = false) :
    Account s a ('{' :: r) (protectChars ['{'] false ('{' :: r))
      ⟨[], some (byteSize a)⟩ (livePlaces '{' s (byteSize a) ('{' :: r)) := by
  have hs' : a ++ '{' :: r ++ [] = s := by rw [List.append_nil, hs]
  have hlive : byteSize a ∈ liveOccurrences openBrace s :=
    Escape.mem_liveOccurrences_singleton_iff.2 ⟨a, r, hs.symm, rfl, harmed⟩
  constructor
  case added =>
    have hadded := Escape.addsEscapesAt_protectChars (c := '{') (by decide) hs'
    rwa [harmed] at hadded
  case live =>
    intro pos hpos
    obtain ⟨hle, hopen⟩ := Escape.mem_livePlaces hs' hpos
    exact ⟨hle, .inl hopen⟩
  case increasing => exact List.pairwise_singleton _ _
  case recorded =>
    intro pos hpos
    obtain rfl := List.mem_singleton.1 hpos
    exact ⟨Nat.le_refl _, hlive⟩
  case accounted =>
    intro pos hopen hle
    refine iff_of_true (Escape.mem_livePlaces_of_le hs hopen hle) (.inr ?_)
    exact ⟨byteSize a, rfl, hle⟩

/-- Up to the next opening brace, a reader escapes the closing braces that are live. -/
theorem gap
    (hs : a ++ k ++ r = s) (harmed : armedOver false a = false)
    (h : Account s (a ++ k) r t records places) :
    Account s a (k ++ r) (protectChars ['}'] false k ++ t) records
      (livePlaces '}' s (byteSize a) k ++ places) := by
  have hadded := Escape.addsEscapesAt_protectChars (c := '}') (by decide) hs
  rw [harmed] at hadded
  exact prepend hadded (fun _ hpos => Escape.mem_livePlaces hs hpos) h

theorem keep
    (w : Text)
    (h : Account s (a ++ w) r t records places) :
    Account s a (w ++ r) (w ++ t) records places :=
  prepend (Escape.addsEscapesAt_refl (byteSize a) w) (by simp) h

end Account

/-! ### All findings -/

/-- The entries for what is left of a pattern account for what it becomes. -/
theorem exists_account
    {s a r : Text} {found : List Pattern.Brace.Finding}
    (h : Reads a r found) (ha : IsFresh a) (hs : a ++ r = s) :
    ∃ records places, found.filterMap (ofFinding s) = BraceRecords.entries s records ∧
      Account s a r (readingFrom false false r) records places := by
  -- After every finding the reader goes on anew.  So the account of the rest stands, and what
  -- lies before the finding, and then the finding itself, are put in front of it.
  induction h with
  | none a r hr =>
    have hread := readingFrom_append false false hr []
    rw [List.append_nil, readingFrom_nil] at hread
    have hs' : a ++ r ++ [] = s := by rw [List.append_nil, hs]
    have hgap := (Account.nil s (a ++ r)).gap hs' ha.armed_eq
    rw [List.append_nil] at hgap
    rw [hread]
    exact ⟨⟨[], none⟩, _, rfl, hgap⟩
  | escaped a k r later hk harmed _ ih =>
    have hs' : a ++ k ++ '{' :: r = s := (List.append_assoc _ _ _).trans hs
    have hread := readingFrom_append false false hk ('{' :: r)
    rw [harmed, readingFrom_armed, namedBy_of_ne true (by decide) (by decide)] at hread
    obtain ⟨records, places, hentries, hrest⟩ :=
      ih (isFresh_append_brace (a ++ k) (.inl rfl)) (by rw [← hs']; simp)
    rw [hread]
    exact ⟨records, _, hentries, (hrest.keep ['{']).gap hs' ha.armed_eq⟩
  | span a k body r later hk harmed hbody hspan _ ih =>
    have hs' : a ++ k ++ '{' :: (body ++ '}' :: r) = s :=
      (List.append_assoc _ _ _).trans hs
    have hread := readingFrom_append false false hk ('{' :: (body ++ '}' :: r))
    rw [harmed, readingFrom_closed _ hbody, hspan, if_pos rfl] at hread
    obtain ⟨records, places, hentries, hrest⟩ :=
      ih (isFresh_append_brace (a ++ k ++ '{' :: body) (.inr rfl)) (by rw [← hs']; simp)
    rw [List.append_assoc (a ++ k)] at hrest
    have hkeep := hrest.keep ('{' :: body ++ ['}'])
    simp only [List.append_assoc, List.cons_append, List.nil_append] at hkeep
    rw [hread]
    exact ⟨records, _, hentries, hkeep.gap hs' ha.armed_eq⟩
  | literal a k body r later hk harmed hbody hspan _ ih =>
    have hs' : a ++ k ++ '{' :: (body ++ '}' :: r) = s :=
      (List.append_assoc _ _ _).trans hs
    have hread := readingFrom_append false false hk ('{' :: (body ++ '}' :: r))
    rw [harmed, readingFrom_closed _ hbody, hspan, if_neg Bool.false_ne_true] at hread
    have hlive : byteSize (a ++ k) ∈ liveOccurrences openBrace s := by
      refine Escape.mem_liveOccurrences_singleton_iff.2 ⟨a ++ k, _, hs'.symm, rfl, ?_⟩
      rw [Escape.armedOver_append, ha.armed_eq, harmed]
    obtain ⟨records, places, hentries, hrest⟩ :=
      ih (isFresh_append_brace (a ++ k) (.inl rfl)) (by rw [← hs']; simp)
    have hliteral := hrest.literal hlive (byteSize (a ++ k ++ '{' :: body))
    rw [hread]
    refine ⟨_, _, ?_, hliteral.gap hs' ha.armed_eq⟩
    rw [List.filterMap_cons, ofFinding, hentries]
    rfl
  | unclosed a k r hk harmed hr =>
    have hs' : a ++ k ++ '{' :: r = s := (List.append_assoc _ _ _).trans hs
    have hread := readingFrom_append false false hk ('{' :: r)
    have hnot : '}' ∉ '{' :: r := by simp [hr]
    rw [harmed, readingFrom_of_notMem _ _ hnot] at hread
    have hlive : armedOver false (a ++ k) = false := by
      rw [Escape.armedOver_append, ha.armed_eq, harmed]
    rw [hread]
    exact ⟨⟨[], some (byteSize (a ++ k))⟩, _, rfl,
      (Account.unclosed hs' hlive).gap hs' ha.armed_eq⟩

/-- The entries about the braces of a pattern name positions in increasing order, all of
them of live opening braces; and the opening braces that get an escape are those that are
said to be literal and, from the one that is said not to be closed on, all that are live. -/
theorem ofBraces_accounts (s : Text) :
    (∃ records, ofBraces s = BraceRecords.entries s records) ∧
      (∃ places, EscapesBracesAt s (Pattern.escapeLiteralBraces s) places) ∧
        ∀ (records : BraceRecords) (places : List Nat),
          ofBraces s = records.entries s →
            EscapesBracesAt s (Pattern.escapeLiteralBraces s) places →
              records.positions.Pairwise (· < ·) ∧
                (∀ pos ∈ records.positions, pos ∈ liveOccurrences openBrace s) ∧
                  ∀ pos ∈ liveOccurrences openBrace s,
                    (pos ∈ places ↔ pos ∈ records.literalPositions ∨
                      ∃ first ∈ records.unclosed, first ≤ pos) := by
  obtain ⟨records, places, hentries, haccount⟩ :=
    exists_account (Pattern.Brace.reads_findings s) Pattern.Brace.isFresh_nil rfl
  have hadded := haccount.added
  rw [readingFrom_false, ← Pattern.Brace.escapeLiteralBraces_eq_reading] at hadded
  have hplaces : EscapesBracesAt s (Pattern.escapeLiteralBraces s) places :=
    ⟨hadded, fun pos hpos => (haccount.live pos hpos).2⟩
  refine ⟨⟨records, hentries⟩, ⟨places, hplaces⟩, ?_⟩
  intro records' places' hentries' hplaces'
  obtain ⟨hliterals, hunclosed⟩ :=
    BraceRecords.eq_of_entries_eq (hentries'.symm.trans hentries)
  have hpositions : records'.positions = records.positions := by
    rw [BraceRecords.positions, BraceRecords.positions, hliterals, hunclosed]
  rw [hpositions, hliterals, hunclosed, hplaces'.eq hplaces]
  refine ⟨haccount.increasing, ?_, ?_⟩
  · intro pos hpos
    exact (haccount.recorded pos hpos).2
  · intro pos hopen
    exact haccount.accounted pos hopen (Nat.zero_le pos)

/-- One brace is literal, one opens a repetition and one is not closed. -/
theorem ofBraces_accounts_mixed :
    let s : Text := ['{', 'a', '}', '{', '2', '}', '{']
    let records : BraceRecords := ⟨[(0, 2)], some 6⟩
    (ofBraces s = records.entries s ∧
      EscapesBracesAt s (Pattern.escapeLiteralBraces s) [0, 2, 6]) ∧
        records.positions.Pairwise (· < ·) ∧
          (∀ pos ∈ records.positions, pos ∈ liveOccurrences openBrace s) ∧
            ∀ pos ∈ liveOccurrences openBrace s,
              (pos ∈ [0, 2, 6] ↔ pos ∈ records.literalPositions ∨
                ∃ first ∈ records.unclosed, first ≤ pos) := by
  intro s records
  have hentries : ofBraces s = records.entries s := by decide +kernel
  have hresult : Pattern.escapeLiteralBraces s =
      ['\\', '{', 'a', '\\', '}', '{', '2', '}', '\\', '{'] := by decide +kernel
  have hplaces : EscapesBracesAt s (Pattern.escapeLiteralBraces s) [0, 2, 6] := by
    rw [hresult]
    refine ⟨.add 0 '{' (.keep 1 'a' (.add 2 '}' ?_)), by decide +kernel⟩
    exact .keep 3 '{' (.keep 4 '2' (.keep 5 '}' (.add 6 '{' (.nil 7))))
  exact ⟨⟨hentries, hplaces⟩, (ofBraces_accounts s).2.2 records [0, 2, 6] hentries hplaces⟩

end PatternText.Journal
