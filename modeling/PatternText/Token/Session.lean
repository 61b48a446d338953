import PatternText.Escape.Basic

/-!
# Tokens

A cursor goes through a text and hands out the tokens between delimiters; a session is a
sequence of requests to one.
-/

namespace PatternText.Token

open Text (byteSize slice occurrencesAfter)

/-!
## Trimming

Trimming removes whole delimiters from the ends of a target.  Leading ones are
removed whether or not anything precedes them; removal from the end stops at an
escaped delimiter if escapes count.
-/

def stripLeading (d s : Text) : Text :=
  if _ : d ≠ [] ∧ d.isPrefixOf s then
    stripLeading d (s.drop d.length)
  else
    s
termination_by s.length
decreasing_by
  rename_i h
  have hd : 0 < d.length := List.length_pos_iff.2 h.1
  have hle : d.length ≤ s.length := (List.isPrefixOf_iff_prefix.1 h.2).length_le
  rw [List.length_drop]
  omega

/-- Whether a text ends in a delimiter that may be trimmed. -/
def endsLoose (d : Text) (skipEscaped : Bool) (s : Text) : Bool :=
  d.isSuffixOf s &&
    !(skipEscaped && Escape.isEscapedAt s (Text.byteSize s - Text.byteSize d))

/-- A text without the delimiters it ends with, down to the last escaped one if
escapes count. -/
def stripTrailing (d : Text) (skipEscaped : Bool) (s : Text) : Text :=
  if _ : d ≠ [] ∧ endsLoose d skipEscaped s then
    stripTrailing d skipEscaped (s.take (s.length - d.length))
  else
    s
termination_by s.length
decreasing_by
  rename_i h
  have hd : 0 < d.length := List.length_pos_iff.2 h.1
  have hsuffix : d.isSuffixOf s = true := by
    have hloose := h.2
    rw [endsLoose, Bool.and_eq_true] at hloose
    exact hloose.1
  have hle : d.length ≤ s.length := (List.isSuffixOf_iff_suffix.1 hsuffix).length_le
  rw [List.length_take]
  omega

def trimmed (d : Text) (skipEscaped : Bool) (s : Text) : Text :=
  stripTrailing d skipEscaped (stripLeading d s)

/-!
## Cursors

A cursor hands out the tokens between the delimiters of a target, from left to
right.  It holds the position up to which the target has been read, whether a
delimiter ended exactly at the end of the target, so that one empty token is
still due, and at most one token that has been read ahead.

Reading a token strictly decreases `remaining`, which bounds the number of
tokens a cursor can still give.
-/

/-- How a target is divided into tokens. -/
structure SplitRule where
  delimiter : Text
  /-- Whether delimiters are removed from the ends of the target first. -/
  trim : Bool := true
  /-- Whether an escaped delimiter is content. -/
  skipEscaped : Bool := false
  deriving DecidableEq, Repr

/-- Why a cursor cannot do what was asked. -/
inductive TokenError where
  | exhausted (pointer : Nat)
  | removeUnsupported
  deriving DecidableEq, Repr

def TokenError.message : TokenError → Text
  | .exhausted pointer => "No tokens after ".toList ++ Nat.toDigits 10 pointer
  | .removeUnsupported => "Remove not supported".toList

/-- What a cursor has read ahead. -/
inductive Lookahead where
  | unread
  | ready (token : Text)
  | ended
  deriving DecidableEq, Repr

/-- A position in the sequence of tokens of a target. -/
structure Cursor where
  target : Text
  delimiter : Text
  skipEscaped : Bool
  /-- The position up to which the target has been read. -/
  pointer : Nat
  /-- Whether the last delimiter ended the target and its empty token is due. -/
  emptyDue : Bool
  lookahead : Lookahead
  deriving DecidableEq, Repr

namespace Cursor

/-- The cursor before the first token of a target. -/
def start (rule : SplitRule) (target : Text) : Cursor where
  target :=
    if rule.trim then trimmed rule.delimiter rule.skipEscaped target else target
  delimiter := rule.delimiter
  skipEscaped := rule.skipEscaped
  pointer := 0
  emptyDue := false
  lookahead := .unread

/-- Whether the delimiter at a position ends a token. -/
def cutsAt (c : Cursor) (pos : Nat) : Bool :=
  !(c.skipEscaped && Escape.isEscapedAt c.target pos)

/-- The position of the next delimiter that ends a token.  The empty delimiter
never does. -/
def nextCut? (c : Cursor) : Option Nat :=
  if c.delimiter.isEmpty then
    none
  else
    (occurrencesAfter c.delimiter c.target c.pointer).find? c.cutsAt

/-- Reads one token from the target, whatever has been read ahead. -/
def scan (c : Cursor) : Option Text × Cursor :=
  if c.emptyDue then
    (some [], { c with emptyDue := false })
  else if byteSize c.target ≤ c.pointer then
    (none, c)
  else
    match c.nextCut? with
    | none =>
      let stop := byteSize c.target
      (some (slice c.target c.pointer stop), { c with pointer := stop })
    | some cut =>
      let resume := cut + byteSize c.delimiter
      (some (slice c.target c.pointer cut),
        { c with pointer := resume, emptyDue := resume == byteSize c.target })

/-- Whether a token is left, reading it ahead if need be. -/
def hasMore (c : Cursor) : Bool × Cursor :=
  match c.lookahead with
  | .ready _ => (true, c)
  | .ended => (false, c)
  | .unread =>
    match c.scan with
    | (some token, d) => (true, { d with lookahead := .ready token })
    | (none, d) => (false, { d with lookahead := .ended })

/-- Hands out the next token, or says where the tokens ended. -/
def take (c : Cursor) : Except TokenError Text × Cursor :=
  match c.lookahead with
  | .ready token => (.ok token, { c with lookahead := .unread })
  | .ended => (.error (.exhausted c.pointer), c)
  | .unread =>
    match c.scan with
    | (some token, d) => (.ok token, d)
    | (none, d) => (.error (.exhausted d.pointer), { d with lookahead := .ended })

def next? (c : Cursor) : Option Text × Cursor :=
  match c.take with
  | (.ok token, d) => (some token, d)
  | (.error _, d) => (none, d)

/-- Tokens cannot be taken out of the target. -/
def remove (_ : Cursor) : Except TokenError Unit :=
  .error .removeUnsupported

/-- A bound on the number of tokens that a cursor can still give. -/
def remaining (c : Cursor) : Nat :=
  2 * (byteSize c.target - c.pointer) +
    (if c.emptyDue then 1 else 0) +
    (match c.lookahead with | .ready _ => 1 | _ => 0)

theorem pointer_le_of_nextCut?
    {c : Cursor} {cut : Nat}
    (h : c.nextCut? = some cut) :
    c.pointer ≤ cut ∧ 0 < byteSize c.delimiter := by
  unfold nextCut? at h
  split at h
  · simp at h
  · rename_i hd
    have hne : c.delimiter ≠ [] := by simpa using hd
    exact ⟨Text.le_of_mem_occurrencesAfter (List.mem_of_find?_eq_some h),
      Text.byteSize_pos hne⟩

/-- Moving past a delimiter leaves strictly less, also if an empty token is due then. -/
theorem remaining_lt_of_cut
    {c : Cursor} {cut : Nat}
    (hdue : ¬c.emptyDue = true) (hpointer : ¬byteSize c.target ≤ c.pointer)
    (hcut : c.pointer ≤ cut ∧ 0 < byteSize c.delimiter) :
    { c with
      pointer := cut + byteSize c.delimiter
      emptyDue := cut + byteSize c.delimiter == byteSize c.target }.remaining <
      c.remaining := by
  obtain ⟨hle, hpos⟩ := hcut
  simp only [remaining, beq_iff_eq, hdue]
  split <;> simp <;> omega

theorem remaining_lt_of_scan
    {c d : Cursor} {token : Text}
    (h : c.scan = (some token, d)) :
    d.remaining < c.remaining := by
  unfold scan at h
  split at h
  · rename_i hdue
    obtain ⟨-, rfl⟩ := Prod.mk.inj h
    simp [remaining, hdue]
  · rename_i hdue
    split at h
    · simp at h
    · rename_i hpointer
      split at h
      · obtain ⟨-, rfl⟩ := Prod.mk.inj h
        simp only [remaining]
        omega
      · rename_i cut hcut
        obtain ⟨-, rfl⟩ := Prod.mk.inj h
        exact remaining_lt_of_cut hdue hpointer (pointer_le_of_nextCut? hcut)

theorem remaining_lt_of_next?
    {c d : Cursor} {token : Text}
    (h : c.next? = (some token, d)) :
    d.remaining < c.remaining := by
  unfold next? take at h
  cases hl : c.lookahead with
  | ready ahead =>
    simp only [hl] at h
    obtain ⟨-, rfl⟩ := Prod.mk.inj h
    simp [remaining, hl]
  | ended => simp [hl] at h
  | unread =>
    simp only [hl] at h
    cases hs : c.scan with
    | mk result e =>
      cases result with
      | none => simp [hs] at h
      | some ahead =>
        simp only [hs] at h
        obtain ⟨-, rfl⟩ := Prod.mk.inj h
        exact remaining_lt_of_scan hs

/-- The tokens that are left, and the cursor after the last of them. -/
def drain (c : Cursor) : List Text × Cursor :=
  match _h : c.next? with
  | (none, d) => ([], d)
  | (some token, d) =>
    let rest := drain d
    (token :: rest.1, rest.2)
termination_by c.remaining
decreasing_by exact remaining_lt_of_next? _h

def toList (c : Cursor) : List Text :=
  c.drain.1

end Cursor

def split (rule : SplitRule) (target : Text) : List Text :=
  (Cursor.start rule target).toList

/-!
## Sessions

A session is a sequence of requests to one cursor, each answered in the state
that the ones before it left.
-/

inductive Request where
  /-- Whether a token is left. -/
  | hasMore
  /-- The next token, or the error that there is none. -/
  | take
  /-- The next token, if there is one. -/
  | next
  /-- The removal of a token. -/
  | remove
  /-- The tokens that are left, without moving. -/
  | preview
  /-- The tokens that are left, handing them all out. -/
  | drain
  deriving DecidableEq, Repr

inductive Answer where
  | more (available : Bool)
  | taken (result : Except TokenError Text)
  | next (token : Option Text)
  | removed (result : Except TokenError Unit)
  | tokens (rest : List Text)

namespace Cursor

def answer (c : Cursor) (request : Request) : Answer × Cursor :=
  match request with
  | .hasMore => (.more c.hasMore.1, c.hasMore.2)
  | .take => (.taken c.take.1, c.take.2)
  | .next => (.next c.next?.1, c.next?.2)
  | .remove => (.removed c.remove, c)
  | .preview => (.tokens c.toList, c)
  | .drain => (.tokens c.drain.1, c.drain.2)

def run (c : Cursor) : List Request → List Answer × Cursor
  | [] => ([], c)
  | request :: requests =>
    let first := c.answer request
    let rest := run first.2 requests
    (first.1 :: rest.1, rest.2)

end Cursor

end PatternText.Token
