import PatternText.Token.Session

/-!
# Cuts that are checked

Programs cut texts at positions and give up if one of them is not a boundary.  The
functions here do the same as those without a question mark, but every cut is checked and
there is no result if one fails.
-/

namespace PatternText.Text

/-!
## Cuts of a text

The passes of this library look for places in a text, compute with their positions and cut
the text there.  The operations below do this without taking anything for granted: a part
that is not in range, in order and between boundaries cannot be cut, and a position cannot
lie before the start.  A computation that is written with them has a result only if all
its positions are right.
-/

/-- The position `back` bytes before another one, unless it would lie before the start. -/
def before? (pos back : Nat) : Option Nat :=
  if back ≤ pos then some (pos - back) else none

def sliceFrom? (s : Text) (start : Nat) : Option Text :=
  slice? s start (byteSize s)

theorem add_byteSize_of_sliceFrom?
    {s t : Text} {start : Nat}
    (h : sliceFrom? s start = some t) :
    start + byteSize t = byteSize s := by
  obtain ⟨a, b, -, ha, hsize⟩ := slice?_eq_some_iff.1 h
  rw [← ha, hsize]

/-- The part of a byte sequence between two positions, if they are in range and in
order. -/
def sliceBytes? (bs : List UInt8) (start stop : Nat) : Option (List UInt8) :=
  if start ≤ stop ∧ stop ≤ bs.length then some ((bs.take stop).drop start) else none

/-- Cuts a text at a boundary and looks for the first occurrence of `d` from there on. -/
def seek? (d s : Text) (start : Nat) : Option (Option Nat) := do
  let rest ← sliceFrom? s start
  return (find? d rest 0).map (start + ·)

theorem le_of_seek?
    {d s : Text} {start pos : Nat}
    (h : seek? d s start = some (some pos)) :
    start ≤ pos ∧ pos + byteSize d ≤ byteSize s := by
  obtain ⟨rest, hrest, hfind⟩ := Option.bind_eq_some_iff.1 h
  obtain ⟨p, hp, rfl⟩ := Option.map_eq_some_iff.1 (Option.some.inj hfind)
  have hsize := add_byteSize_of_sliceFrom? hrest
  obtain ⟨a, b, ha, rfl⟩ := mem_occurrencesFrom (List.mem_of_head? hp)
  have hwhole : sliceFrom rest 0 = rest := by
    have hslice := slice_append [] rest []
    rwa [List.append_nil, List.nil_append, byteSize_nil, Nat.zero_add] at hslice
  rw [← hwhole, ha] at hsize
  simp only [byteSize_append] at hsize
  omega

end PatternText.Text

/-!
## Passes

The passes that protect and reveal delimiters, as loops that keep the position up to which
the text has been written and cut it at every occurrence.  A loop that cuts the text
elsewhere than at boundaries has no result.
-/

namespace PatternText.Escape

open Text (byteSize seek? slice? sliceBytes? sliceFrom?)

/-- Whether an odd run of escape characters ends just before a position, which is taken for
the end if it lies past it. -/
def isEscapedAt? (s : Text) (pos : Nat) : Option Bool := do
  let passed ← sliceBytes? (Text.bytes s) 0 (min pos (byteSize s))
  return trailingEscapes passed % 2 == 1

/-- The text from a position on, with every occurrence of `d` replaced by its mark, which
depends on whether the occurrence is escaped. -/
def markFrom?
    (d : Text) (hd : d ≠ []) (mark : Bool → Text) (s : Text) (start : Nat) :
    Option Text :=
  match _h : seek? d s start with
  | none => none
  | some none => sliceFrom? s start
  | some (some pos) => do
    let kept ← slice? s start pos
    let armed ← isEscapedAt? s pos
    let rest ← markFrom? d hd mark s (pos + byteSize d)
    return kept ++ mark armed ++ rest
termination_by byteSize s - start
decreasing_by
  have hfound := Text.le_of_seek? _h
  have hpos := Text.byteSize_pos hd
  omega

theorem markFrom?_round
    {d : Text}
    (hd : d ≠ []) (mark : Bool → Text) (s : Text) (start : Nat) :
    markFrom? d hd mark s start =
      (seek? d s start).bind fun
        | none => sliceFrom? s start
        | some pos =>
          (slice? s start pos).bind fun kept =>
            (isEscapedAt? s pos).bind fun armed =>
              (markFrom? d hd mark s (pos + byteSize d)).bind fun rest =>
                some (kept ++ mark armed ++ rest) := by
  rw [markFrom?]
  split
  all_goals
    rename_i h
    rw [h]
    rfl

def protect? (d s : Text) : Option Text :=
  if hd : d = [] then
    some s
  else
    markFrom? d hd (fun armed => if armed then d else escapeText ++ d) s 0

def reveal? (d s : Text) : Option Text :=
  if d = [] then
    some s
  else
    markFrom? (escapeChar :: d) (List.cons_ne_nil escapeChar d)
      (fun armed => if armed then escapeChar :: d else d) s 0

def protectAll? (ds : List Text) (s : Text) : Option Text :=
  (escapeFirst ds).foldlM
    (fun t d => if d == escapeText then some (double t) else protect? d t) s

def revealAll? (ds : List Text) (s : Text) : Option Text :=
  (escapeLast ds).foldlM (fun t d => reveal? d t) s

end PatternText.Escape

/-!
## Tokens

Trimming a target and reading tokens from it, every position being checked.  A cursor
touches its target only when it reads a token, in `Cursor.scan?`.
-/

namespace PatternText.Token

open Text (before? byteSize seek? slice? sliceFrom?)
open Escape (isEscapedAt?)

/-- A text without the delimiter it ends with, if it ends with one that may be trimmed. -/
def dropTrailing?
    (d : Text) (skipEscaped : Bool) (s : Text) : Option (Option Text) := do
  if d.isSuffixOf s then
    let stop ← before? (byteSize s) (byteSize d)
    if skipEscaped && (← isEscapedAt? s stop) then
      return none
    else
      return some (← slice? s 0 stop)
  else
    return none

theorem byteSize_lt_of_dropTrailing?
    {d s t : Text} {skipEscaped : Bool}
    (hd : d ≠ []) (h : dropTrailing? d skipEscaped s = some (some t)) :
    byteSize t < byteSize s := by
  have hpos := Text.byteSize_pos hd
  unfold dropTrailing? at h
  split at h
  · obtain ⟨stop, hstop, h⟩ := Option.bind_eq_some_iff.1 h
    obtain ⟨armed, -, h⟩ := Option.bind_eq_some_iff.1 h
    split at h
    · simp at h
    · obtain ⟨t', ht, heq⟩ := Option.bind_eq_some_iff.1 h
      obtain rfl : t' = t := by simpa using heq
      obtain ⟨a, b, -, ha, hsize⟩ := Text.slice?_eq_some_iff.1 ht
      unfold before? at hstop
      split at hstop
      · rw [Option.some.injEq] at hstop
        omega
      · simp at hstop
  · simp at h

def stripTrailing?
    (d : Text) (hd : d ≠ []) (skipEscaped : Bool) (s : Text) : Option Text :=
  match _h : dropTrailing? d skipEscaped s with
  | none => none
  | some none => some s
  | some (some t) => stripTrailing? d hd skipEscaped t
termination_by byteSize s
decreasing_by exact byteSize_lt_of_dropTrailing? hd _h

theorem stripTrailing?_round
    {d : Text}
    (hd : d ≠ []) (skipEscaped : Bool) (s : Text) :
    stripTrailing? d hd skipEscaped s =
      (dropTrailing? d skipEscaped s).bind fun
        | none => some s
        | some t => stripTrailing? d hd skipEscaped t := by
  rw [stripTrailing?]
  split
  all_goals
    rename_i h
    rw [h]
    rfl

def trimmed? (d : Text) (skipEscaped : Bool) (s : Text) : Option Text :=
  if hd : d = [] then some s else stripTrailing? d hd skipEscaped (stripLeading d s)

namespace Cursor

def start? (rule : SplitRule) (target : Text) : Option Cursor := do
  let rest ←
    if rule.trim then trimmed? rule.delimiter rule.skipEscaped target else some target
  return { start rule target with target := rest }

/-- The position of the first delimiter from a position on that ends a token. -/
def nextCutFrom?
    (c : Cursor) (hd : c.delimiter ≠ []) (pos : Nat) : Option (Option Nat) :=
  match _h : seek? c.delimiter c.target pos with
  | none => none
  | some none => some none
  | some (some found) => do
    if c.skipEscaped && (← isEscapedAt? c.target found) then
      nextCutFrom? c hd (found + byteSize c.delimiter)
    else
      return some found
termination_by byteSize c.target - pos
decreasing_by
  have hfound := Text.le_of_seek? _h
  have hpos := Text.byteSize_pos hd
  omega

theorem nextCutFrom?_round
    {c : Cursor}
    (hd : c.delimiter ≠ []) (pos : Nat) :
    c.nextCutFrom? hd pos =
      (seek? c.delimiter c.target pos).bind fun
        | none => some none
        | some found =>
          (isEscapedAt? c.target found).bind fun armed =>
            if c.skipEscaped && armed then
              c.nextCutFrom? hd (found + byteSize c.delimiter)
            else
              some (some found) := by
  rw [nextCutFrom?]
  split
  all_goals
    rename_i h
    rw [h]
    rfl

theorem le_of_nextCutFrom?
    {c : Cursor} {hd : c.delimiter ≠ []} {pos cut : Nat}
    (h : c.nextCutFrom? hd pos = some (some cut)) :
    pos ≤ cut := by
  fun_induction nextCutFrom? c hd pos with
  | case1 pos hseek => simp at h
  | case2 pos hseek => simp at h
  | case3 pos found hseek ih =>
    have hfound := Text.le_of_seek? hseek
    obtain ⟨armed, -, h⟩ := Option.bind_eq_some_iff.1 h
    split at h
    · have hle := ih h
      omega
    · rw [Option.pure_def, Option.some.injEq, Option.some.injEq] at h
      omega

/-- The position of the next delimiter that ends a token.  The empty delimiter never
does. -/
def findCut? (c : Cursor) : Option (Option Nat) :=
  if hd : c.delimiter = [] then some none else c.nextCutFrom? hd c.pointer

theorem pointer_le_of_findCut?
    {c : Cursor} {cut : Nat}
    (h : c.findCut? = some (some cut)) :
    c.pointer ≤ cut ∧ 0 < byteSize c.delimiter := by
  unfold findCut? at h
  split at h
  · simp at h
  · rename_i hd
    exact ⟨le_of_nextCutFrom? h, Text.byteSize_pos hd⟩

/-- Reads one token from the target, whatever has been read ahead. -/
def scan? (c : Cursor) : Option (Option Text × Cursor) := do
  if c.emptyDue then
    return (some [], { c with emptyDue := false })
  else if byteSize c.target ≤ c.pointer then
    return (none, c)
  else
    match ← c.findCut? with
    | none =>
      let token ← sliceFrom? c.target c.pointer
      return (some token, { c with pointer := byteSize c.target })
    | some cut =>
      let token ← slice? c.target c.pointer cut
      let resume := cut + byteSize c.delimiter
      return (some token,
        { c with pointer := resume, emptyDue := resume == byteSize c.target })

theorem remaining_lt_of_scan?
    {c d : Cursor} {token : Text}
    (h : c.scan? = some (some token, d)) :
    d.remaining < c.remaining := by
  unfold scan? at h
  split at h
  · rename_i hdue
    obtain ⟨-, rfl⟩ := Prod.mk.inj (Option.some.inj h)
    simp [remaining, hdue]
  · rename_i hdue
    split at h
    · simp at h
    · rename_i hpointer
      obtain ⟨found, hfound, h⟩ := Option.bind_eq_some_iff.1 h
      cases found with
      | none =>
        obtain ⟨t, -, h⟩ := Option.bind_eq_some_iff.1 h
        obtain ⟨-, rfl⟩ := Prod.mk.inj (Option.some.inj h)
        simp only [remaining]
        omega
      | some cut =>
        obtain ⟨t, -, h⟩ := Option.bind_eq_some_iff.1 h
        obtain ⟨-, rfl⟩ := Prod.mk.inj (Option.some.inj h)
        exact remaining_lt_of_cut hdue hpointer (pointer_le_of_findCut? hfound)

/-- The tokens that a cursor reads which has not looked ahead. -/
def drain? (c : Cursor) : Option (List Text) :=
  match _h : c.scan? with
  | none => none
  | some (none, _) => some []
  | some (some token, d) => (drain? d).map (token :: ·)
termination_by c.remaining
decreasing_by exact remaining_lt_of_scan? _h

theorem drain?_round (c : Cursor) :
    c.drain? =
      c.scan?.bind fun
        | (none, _) => some []
        | (some token, d) => d.drain?.map (token :: ·) := by
  rw [drain?]
  split
  all_goals
    rename_i h
    rw [h]
    rfl

end Cursor

def split? (rule : SplitRule) (target : Text) : Option (List Text) := do
  let c ← Cursor.start? rule target
  c.drain?

end PatternText.Token
