import Mathlib.Data.List.TakeWhile
import PatternText.Proofs.Pattern.BraceReading

/-!
# Rules for braces

The rules below say what a reader writes that goes through a pattern once from left to
right and escapes the braces that stand for themselves.  They do not say how to look for
braces, and they mention no position.

`Bounds` is the grammar of a repetition.  `Writes` has one rule for each thing that a
reader can have in front of it.
-/

namespace PatternText.Pattern.Brace

open Escape (escapeChar)

/-- A number is written in decimal digits, of which it has at least one. -/
def IsNumber (m : Text) : Prop :=
  m ≠ [] ∧ ∀ c ∈ m, c.isDigit = true

/-- The bounds of a repetition: how often exactly, how often at least, or how often at
least and at most. -/
inductive Bounds : Text → Prop where
  | exactly (m : Text) :
      IsNumber m → Bounds m
  | atLeast (m : Text) :
      IsNumber m → Bounds (m ++ [','])
  | between (m n : Text) :
      IsNumber m → IsNumber n → Bounds (m ++ ',' :: n)

/-- Whether a text goes on, after an opening brace, with what the brace may enclose up to
the first closing one: bounds, or anything at all if a class is `named` before it. -/
inductive Encloses : (named : Bool) → (r body rest : Text) → Prop where
  | bounds (named : Bool) (body rest : Text) :
      '}' ∉ body → Bounds body → Encloses named (body ++ '}' :: rest) body rest
  | name (body rest : Text) :
      '}' ∉ body → Encloses true (body ++ '}' :: rest) body rest

/-- What a reader writes for a pattern, `named` telling whether it has just copied `\p` or
`\P`. -/
inductive Writes : (named : Bool) → (s t : Text) → Prop where
  /-- Nothing is left. -/
  | ended (named : Bool) :
      Writes named [] []
  /-- An escape with nothing after it is copied. -/
  | lone (named : Bool) :
      Writes named [escapeChar] [escapeChar]
  /-- An escape is copied together with the character after it. -/
  | pair (named : Bool) (c : Char) (r t : Text) :
      Writes (c == 'p' || c == 'P') r t →
        Writes named (escapeChar :: c :: r) (escapeChar :: c :: t)
  /-- What a brace encloses is copied with both braces, and reading starts anew. -/
  | span (named : Bool) (r body rest t : Text) :
      Encloses named r body rest → Writes false rest t →
        Writes named ('{' :: r) ('{' :: (body ++ '}' :: t))
  /-- An opening brace that encloses nothing is escaped. -/
  | opening (named : Bool) (r t : Text) :
      (∀ body rest, ¬Encloses named r body rest) → Writes false r t →
        Writes named ('{' :: r) (escapeChar :: '{' :: t)
  /-- A closing brace that has not been copied with an opening one is escaped. -/
  | closing (named : Bool) (r t : Text) :
      Writes false r t → Writes named ('}' :: r) (escapeChar :: '}' :: t)
  /-- Anything else is copied. -/
  | other (named : Bool) (c : Char) (r t : Text) :
      c ≠ escapeChar → c ≠ '{' → c ≠ '}' → Writes false r t →
        Writes named (c :: r) (c :: t)

/-!
## Escaping braces follows the rules

For every pattern, the rules for braces allow exactly one result, and this is the pattern
with its literal braces escaped: `escapeLiteralBraces_eq_iff_writes`.  Both halves go
through the reading of the pattern, which the edits come to.  That the result is allowed
follows the reading, and that no other is follows the rules.
-/

variable {named : Bool} {body m r rest s t : Text}

/-! ### Bounds -/

theorem IsNumber.takeWhile_append (hm : IsNumber m) (r : Text) :
    (m ++ ',' :: r).takeWhile Char.isDigit = m := by
  rw [List.takeWhile_append_of_pos hm.2, List.takeWhile_cons_of_neg (by decide),
    List.append_nil]

theorem IsNumber.dropWhile_append (hm : IsNumber m) (r : Text) :
    (m ++ ',' :: r).dropWhile Char.isDigit = ',' :: r := by
  rw [List.dropWhile_append_of_pos hm.2, List.dropWhile_cons_of_neg (by decide)]

theorem isNumber_takeWhile
    (hne : s.takeWhile Char.isDigit ≠ []) :
    IsNumber (s.takeWhile Char.isDigit) :=
  ⟨hne, fun _ hc => List.mem_takeWhile_imp hc⟩

theorem bounds_of_isBounds (h : isBounds body = true) :
    Bounds body := by
  have hsplit := List.takeWhile_append_dropWhile (p := Char.isDigit) (l := body)
  rw [isBounds] at h
  split at h
  · rename_i hdrop
    rw [hdrop, List.append_nil] at hsplit
    have hne : body.takeWhile Char.isDigit ≠ [] := by simpa using h
    exact .exactly body (hsplit ▸ isNumber_takeWhile hne)
  · rename_i c n hdrop
    simp only [Bool.and_eq_true, Bool.not_eq_true', List.isEmpty_eq_false_iff, beq_iff_eq,
      List.all_eq_true] at h
    obtain ⟨⟨hne, rfl⟩, hn⟩ := h
    have hm := isNumber_takeWhile hne
    rw [← hsplit, hdrop]
    by_cases hempty : n = []
    · rw [hempty]
      exact .atLeast _ hm
    · exact .between _ n hm ⟨hempty, hn⟩

theorem isBounds_iff :
    isBounds body = true ↔ Bounds body := by
  refine ⟨bounds_of_isBounds, ?_⟩
  rintro (⟨m, hm⟩ | ⟨m, hm⟩ | ⟨m, n, hm, hn⟩)
  · have htake : body.takeWhile Char.isDigit = body := List.takeWhile_eq_self_iff.2 hm.2
    have hdrop : body.dropWhile Char.isDigit = [] := List.dropWhile_eq_nil_iff.2 hm.2
    simp [isBounds, htake, hdrop, hm.1]
  · simp [isBounds, hm.takeWhile_append, hm.dropWhile_append, hm.1]
  · have hdigits : n.all Char.isDigit = true := List.all_eq_true.2 hn.2
    simp [isBounds, hm.takeWhile_append, hm.dropWhile_append, hm.1, hdigits]

/-! ### Spans -/

theorem encloses_iff :
    Encloses named r body rest ↔
      r = body ++ '}' :: rest ∧ '}' ∉ body ∧ (isBounds body || named) = true := by
  rw [Bool.or_eq_true, isBounds_iff]
  constructor
  · rintro (⟨_, _, _, hclose, hbounds⟩ | ⟨_, _, hclose⟩)
    · exact ⟨rfl, hclose, .inl hbounds⟩
    · exact ⟨rfl, hclose, .inr rfl⟩
  · rintro ⟨rfl, hclose, hbounds | rfl⟩
    · exact .bounds named body rest hclose hbounds
    · exact .name body rest hclose

theorem readingFrom_of_encloses
    (h : Encloses named r body rest) :
    readingFrom false named ('{' :: r) =
      '{' :: (body ++ '}' :: readingFrom false false rest) := by
  obtain ⟨rfl, hclose, hspan⟩ := encloses_iff.1 h
  rw [readingFrom_closed named hclose, if_pos hspan]

/-- A brace that encloses nothing is escaped, whether or not a closing one follows. -/
theorem readingFrom_of_not_encloses
    (h : ∀ body rest, ¬Encloses named r body rest) :
    readingFrom false named ('{' :: r) =
      escapeChar :: '{' :: readingFrom false false r := by
  by_cases hclose : '}' ∈ r
  · obtain ⟨body, rest, rfl, hbody⟩ := List.eq_append_cons_of_mem hclose
    have hspan : ¬(isBounds body || named) = true := by
      intro hspan
      exact h body rest (encloses_iff.2 ⟨rfl, hbody, hspan⟩)
    rw [readingFrom_closed named hbody, if_neg hspan]
  · exact readingFrom_unclosed named hclose

/-! ### The rules and the reading -/

/-- The rules leave no choice. -/
theorem Writes.eq_readingFrom (h : Writes named s t) :
    t = readingFrom false named s := by
  induction h with
  | ended named => rw [readingFrom_nil]
  | lone named => rw [readingFrom_escape, readingFrom_nil]
  | pair named c r t _ ih => rw [readingFrom_escape, readingFrom_armed, ih]; rfl
  | span named r body rest t hspan _ ih => rw [readingFrom_of_encloses hspan, ih]
  | opening named r t hnone _ ih => rw [readingFrom_of_not_encloses hnone, ih]
  | closing named r t _ ih => rw [readingFrom_close, ih]
  | other named c r t hesc hopen hclose _ ih =>
    rw [readingFrom_plain named hesc hopen hclose, ih]

/-- Some rule applies to whatever a reader has in front of it. -/
theorem writes_readingFrom (named : Bool) (s : Text) :
    Writes named s (readingFrom false named s) := by
  induction hlength : s.length using Nat.strongRecOn generalizing named s with
  | _ n ih =>
    have hlater : ∀ named r, r.length < s.length →
        Writes named r (readingFrom false named r) := by
      intro named r hr
      exact ih r.length (hlength ▸ hr) named r rfl
    cases s with
    | nil =>
      rw [readingFrom_nil]
      exact .ended named
    | cons c r =>
      by_cases hesc : c = escapeChar
      · subst hesc
        cases r with
        | nil =>
          rw [readingFrom_escape, readingFrom_nil]
          exact .lone named
        | cons c r =>
          rw [readingFrom_escape, readingFrom_armed]
          exact .pair named c r _ (hlater _ r (by simp only [List.length_cons]; omega))
      by_cases hopen : c = '{'
      · subst hopen
        by_cases hspan : ∃ body rest, Encloses named r body rest
        · obtain ⟨body, rest, hspan⟩ := hspan
          obtain ⟨rfl, -, -⟩ := encloses_iff.1 hspan
          rw [readingFrom_of_encloses hspan]
          have hrest := hlater false rest (by
            simp only [List.length_append, List.length_cons]
            omega)
          exact .span named _ body rest _ hspan hrest
        · simp only [not_exists] at hspan
          rw [readingFrom_of_not_encloses hspan]
          exact .opening named r _ hspan (hlater false r (by simp))
      by_cases hclose : c = '}'
      · subst hclose
        rw [readingFrom_close]
        exact .closing named r _ (hlater false r (by simp))
      · rw [readingFrom_plain named hesc hopen hclose]
        exact .other named c r _ hesc hopen hclose (hlater false r (by simp))

/-- Escaping the literal braces of a pattern gives what the rules for braces allow a
reader to write, and they allow nothing else. -/
theorem escapeLiteralBraces_eq_iff_writes (s t : Text) :
    escapeLiteralBraces s = t ↔ Writes false s t := by
  rw [escapeLiteralBraces_eq_reading, ← readingFrom_false]
  constructor
  · rintro rfl
    exact writes_readingFrom false s
  · intro h
    exact h.eq_readingFrom.symm

end PatternText.Pattern.Brace
