import PatternText.Proofs.Token.Remaining

/-!
# Sessions

All that a session shows of a cursor can be told from a plain list, the tokens that
are left.  A request looks at the list or takes tokens from its front.  The one
thing that it does not tell is the position at which the tokens end, which the
error of an empty supply names.

`handedOut` collects the tokens that a session has taken from the front.
-/

namespace PatternText.Token

open Text (byteSize)

/-- Whether a request only looks at the tokens that are left. -/
def Request.isLook : Request → Bool
  | .hasMore | .remove | .preview => true
  | .take | .next | .drain => false

/-- The tokens that a request hands out with an answer. -/
def Request.handsOut : Request → Answer → List Text
  | .take, .taken (.ok token) => [token]
  | .next, .next (some token) => [token]
  | .drain, .tokens rest => rest
  | _, _ => []

def handedOut (requests : List Request) (answers : List Answer) : List Text :=
  (List.zipWith Request.handsOut requests answers).flatten

/-- The answer to a request once there is no token left, the tokens having ended at
a position. -/
def Request.endAnswer (size : Nat) : Request → Answer
  | .hasMore => .more false
  | .take => .taken (.error (.exhausted size))
  | .next => .next none
  | .remove => .removed (.error .removeUnsupported)
  | .preview => .tokens []
  | .drain => .tokens []

/-- The tokens that are left of a target, and the size of the target. -/
structure Supply where
  tokens : List Text
  size : Nat
  deriving DecidableEq, Repr

namespace Supply

def answer (s : Supply) : Request → Answer × Supply
  | .hasMore => (.more (!s.tokens.isEmpty), s)
  | .take =>
    match s.tokens with
    | [] => (.taken (.error (.exhausted s.size)), s)
    | token :: later => (.taken (.ok token), { s with tokens := later })
  | .next => (.next s.tokens.head?, { s with tokens := s.tokens.tail })
  | .remove => (.removed (.error .removeUnsupported), s)
  | .preview => (.tokens s.tokens, s)
  | .drain => (.tokens s.tokens, { s with tokens := [] })

def run (s : Supply) : List Request → List Answer × Supply
  | [] => ([], s)
  | request :: requests =>
    let first := s.answer request
    let rest := run first.2 requests
    (first.1 :: rest.1, rest.2)

theorem answer_of_isLook
    {request : Request}
    (h : request.isLook = true) (s : Supply) :
    (s.answer request).2 = s := by
  cases request with
  | hasMore => rfl
  | remove => rfl
  | preview => rfl
  | take => exact absurd h Bool.false_ne_true
  | next => exact absurd h Bool.false_ne_true
  | drain => exact absurd h Bool.false_ne_true

end Supply

/-!
## Cursors as supplies

A cursor that looks ahead has read more of its target than it has handed out, and
it remembers the end of the tokens only once it has met it.  None of this shows: a
session with a cursor is answered as the supply of the tokens that are left answers
it.  `Cursor.Shows` is the relation between the two that every request keeps, and
`Cursor.run_start` collects what follows from it for a whole session.
-/

namespace Supply

theorem handsOut_append_tokens
    (s : Supply) (request : Request) :
    request.handsOut (s.answer request).1 ++ (s.answer request).2.tokens =
      s.tokens := by
  obtain ⟨tokens, size⟩ := s
  cases tokens with
  | nil => cases request <;> rfl
  | cons token later => cases request <;> simp [answer, Request.handsOut]

theorem handedOut_append_tokens
    (s : Supply) (requests : List Request) :
    handedOut requests (s.run requests).1 ++ (s.run requests).2.tokens =
      s.tokens := by
  induction requests generalizing s with
  | nil => rfl
  | cons request requests ih =>
    have hrest := ih (s.answer request).2
    have hfirst := s.handsOut_append_tokens request
    simp only [handedOut, run, List.zipWith_cons_cons, List.flatten_cons,
      List.append_assoc] at hrest ⊢
    rw [hrest, hfirst]

@[simp] theorem size_run
    (s : Supply) (requests : List Request) :
    (s.run requests).2.size = s.size := by
  induction requests generalizing s with
  | nil => rfl
  | cons request requests ih =>
    have hanswer : (s.answer request).2.size = s.size := by
      obtain ⟨tokens, size⟩ := s
      cases tokens <;> cases request <;> rfl
    rw [run, ih, hanswer]

theorem run_of_tokens_eq_nil
    {s : Supply}
    (h : s.tokens = []) (requests : List Request) :
    (s.run requests).1 = requests.map (Request.endAnswer s.size) := by
  obtain ⟨tokens, size⟩ := s
  subst h
  induction requests with
  | nil => rfl
  | cons request requests ih =>
    have hanswer : answer ⟨[], size⟩ request =
        (request.endAnswer size, ⟨[], size⟩) := by
      cases request <;> rfl
    rw [run, hanswer, ih, List.map_cons]

end Supply

namespace Cursor

variable {c : Cursor} {s : Supply} {ts : List Text}

/-! ### Looking ahead and draining -/

theorem Yields.hasMore (h : c.Yields ts) :
    c.hasMore.1 = (!ts.isEmpty) ∧ c.hasMore.2.Yields ts ∧
      c.hasMore.2.target = c.target := by
  have hyields := h
  unfold Yields at h
  unfold Cursor.hasMore
  cases hl : c.lookahead with
  | unread =>
    rw [hl] at h
    have hleaves : c.Leaves ts := h
    cases ts with
    | nil =>
      simp only [hleaves.scan_nil]
      exact ⟨rfl, ⟨rfl, hleaves.withLookahead .ended⟩, trivial⟩
    | cons t ts =>
      obtain ⟨d, hscan, hrest, -, htarget⟩ := hleaves.scan_cons
      simp only [hscan]
      exact ⟨rfl, ⟨ts, rfl, hrest.withLookahead (.ready t)⟩, htarget⟩
  | ready ahead =>
    rw [hl] at h
    obtain ⟨later, rfl, -⟩ := h
    exact ⟨rfl, hyields, rfl⟩
  | ended =>
    rw [hl] at h
    obtain ⟨rfl, -⟩ := h
    exact ⟨rfl, hyields, rfl⟩

theorem Yields.next?_cons
    {t : Text}
    (h : c.Yields (t :: ts)) :
    ∃ d, c.next? = (some t, d) ∧ d.Yields ts ∧ d.target = c.target := by
  obtain ⟨d, htake, hyields, htarget⟩ := h.take_cons
  exact ⟨d, by simp [next?, htake], hyields, htarget⟩

theorem Yields.next?_nil (h : c.Yields []) :
    ∃ d, c.next? = (none, d) ∧ d.Yields [] ∧ d.target = c.target := by
  obtain ⟨d, htake, hyields, htarget⟩ := h.take_nil
  exact ⟨d, by simp [next?, htake], hyields, htarget⟩

theorem Yields.drain (h : c.Yields ts) :
    c.drain.2.Yields [] ∧ c.drain.2.target = c.target := by
  induction ts generalizing c with
  | nil =>
    obtain ⟨d, hnext, hyields, htarget⟩ := h.next?_nil
    rw [Cursor.drain]
    split
    · rename_i e hnone
      rw [hnext] at hnone
      obtain ⟨-, rfl⟩ := Prod.mk.inj hnone
      exact ⟨hyields, htarget⟩
    · rename_i hsome
      simp [hnext] at hsome
  | cons t ts ih =>
    obtain ⟨d, hnext, hyields, htarget⟩ := h.next?_cons
    rw [Cursor.drain]
    split
    · rename_i hnone
      simp [hnext] at hnone
    · rename_i token e hsome
      rw [hnext] at hsome
      obtain ⟨-, rfl⟩ := Prod.mk.inj hsome
      exact ⟨(ih hyields).1, (ih hyields).2.trans htarget⟩

/-! ### One request -/

/-- A cursor looks from outside like a supply. -/
structure Shows (c : Cursor) (s : Supply) : Prop where
  yields : c.Yields s.tokens
  size_eq : byteSize c.target = s.size

/-- A request is answered from the supply, and leaves the cursor looking like what
is left of it. -/
theorem Shows.answer (h : c.Shows s) (request : Request) :
    (c.answer request).1 = (s.answer request).1 ∧
      (c.answer request).2.Shows (s.answer request).2 := by
  obtain ⟨hyields, hsize⟩ := h
  cases request with
  | hasMore =>
    obtain ⟨hmore, hlater, htarget⟩ := hyields.hasMore
    exact ⟨congrArg Answer.more hmore, hlater, htarget ▸ hsize⟩
  | take =>
    obtain ⟨tokens, size⟩ := s
    cases tokens with
    | nil =>
      obtain ⟨d, htake, hlater, htarget⟩ := hyields.take_nil
      simp only [Cursor.answer, Supply.answer, htake, hsize]
      exact ⟨trivial, hlater, htarget ▸ hsize⟩
    | cons token later =>
      obtain ⟨d, htake, hlater, htarget⟩ := hyields.take_cons
      simp only [Cursor.answer, Supply.answer, htake]
      exact ⟨trivial, hlater, htarget ▸ hsize⟩
  | next =>
    obtain ⟨tokens, size⟩ := s
    cases tokens with
    | nil =>
      obtain ⟨d, hnext, hlater, htarget⟩ := hyields.next?_nil
      simp only [Cursor.answer, Supply.answer, hnext]
      exact ⟨rfl, hlater, htarget ▸ hsize⟩
    | cons token later =>
      obtain ⟨d, hnext, hlater, htarget⟩ := hyields.next?_cons
      simp only [Cursor.answer, Supply.answer, hnext]
      exact ⟨rfl, hlater, htarget ▸ hsize⟩
  | remove => exact ⟨rfl, hyields, hsize⟩
  | preview => exact ⟨congrArg Answer.tokens hyields.toList_eq, hyields, hsize⟩
  | drain =>
    obtain ⟨hlater, htarget⟩ := hyields.drain
    exact ⟨congrArg Answer.tokens hyields.toList_eq, hlater, htarget ▸ hsize⟩

/-! ### A whole session -/

theorem Shows.run (h : c.Shows s) (requests : List Request) :
    (c.run requests).1 = (s.run requests).1 ∧
      (c.run requests).2.Shows (s.run requests).2 := by
  induction requests generalizing c s with
  | nil => exact ⟨rfl, h⟩
  | cons request requests ih =>
    obtain ⟨hanswer, hlater⟩ := h.answer request
    obtain ⟨hanswers, hend⟩ := ih hlater
    refine ⟨?_, hend⟩
    rw [Cursor.run, Supply.run, hanswer, hanswers]

theorem shows_start (rule : SplitRule) (target : Text) :
    (start rule target).Shows
      ⟨split rule target, byteSize (start rule target).target⟩ := by
  have hyields := yields_start rule target
  refine ⟨?_, rfl⟩
  rwa [split, hyields.toList_eq]

theorem Shows.run_of_isLook
    (h : c.Shows s) {look : Request} (hlook : look.isLook = true)
    (more : List Request) :
    ((c.answer look).2.run more).1 = (c.run more).1 := by
  have hlater := (h.answer look).2
  rw [Supply.answer_of_isLook hlook] at hlater
  rw [(hlater.run more).1, (h.run more).1]

/-- A session with a new cursor is answered from the list of all tokens.  What it has
handed out at any time and what the cursor then still gives make up this list;
looking says whether the second part is empty and changes nothing; and once it is
empty, every request is answered accordingly forever, the tokens having ended at the
end of the target. -/
theorem run_start
    (rule : SplitRule) (target : Text) (requests : List Request) :
    let c := start rule target
    let size := byteSize c.target
    let tokens := split rule target
    let answers := (c.run requests).1
    let later := (c.run requests).2
    answers = (Supply.run ⟨tokens, size⟩ requests).1 ∧
      handedOut requests answers ++ later.toList = tokens ∧
      (later.hasMore.1 = true ↔ handedOut requests answers ≠ tokens) ∧
      (∀ look more, look.isLook = true →
        ((later.answer look).2.run more).1 = (later.run more).1) ∧
      (handedOut requests answers = tokens →
        ∀ more, (later.run more).1 = more.map (Request.endAnswer size)) := by
  intro c size tokens answers later
  have hstart : c.Shows ⟨tokens, size⟩ := shows_start rule target
  obtain ⟨hanswers, hlater⟩ := hstart.run requests
  have hlist : later.toList = (Supply.run ⟨tokens, size⟩ requests).2.tokens :=
    hlater.yields.toList_eq
  have hjoin : handedOut requests answers ++ later.toList = tokens := by
    have hsupply := Supply.handedOut_append_tokens ⟨tokens, size⟩ requests
    rwa [← hanswers, ← hlist] at hsupply
  have hrest : handedOut requests answers = tokens ↔ later.toList = [] := by
    rw [← hjoin, List.self_eq_append_right]
  refine ⟨hanswers, hjoin, ?_, ?_, ?_⟩
  · have hmore := hlater.yields.hasMore.1
    rw [← hlist] at hmore
    rw [ne_eq, hrest, hmore]
    simp
  · intro look more hlook
    exact hlater.run_of_isLook hlook more
  · intro hall more
    have hempty := Supply.run_of_tokens_eq_nil (hlist.symm.trans (hrest.1 hall)) more
    rw [(hlater.run more).1, hempty, Supply.size_run]

end Cursor

end PatternText.Token
