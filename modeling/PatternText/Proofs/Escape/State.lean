import PatternText.Escape.Basic

/-!
# The escape state

The escape state of a position is found by looking back.  A reader that goes from left to
right has the same state, and does not need positions.
-/

namespace PatternText.Escape

open Text (bytes byteSize)

/-!
## Reading escapes forwards

Instead of counting the escapes before a position, a reader can keep one bit
while it goes through a text from left to right: whether the next character is
escaped.  An escape character flips the bit, since an escaped escape is content,
and anything else clears it.
-/

/-- Whether the next byte is escaped, after a byte that was or was not. -/
def armedStep (armed : Bool) (b : UInt8) : Bool :=
  b == escapeByte && !armed

/-- Whether a byte after the given ones is escaped. -/
def armedAfter (bs : List UInt8) : Bool :=
  bs.foldl armedStep false

/-- Whether the next character is escaped, after a character that was or was
not. -/
def armedBy (armed : Bool) (c : Char) : Bool :=
  c == escapeChar && !armed

/-!
## The state in one reading

Counting the escapes just before a position and reading the text up to there
from left to right tell the same about the position.  Bytes are read first; a
character other than the escape character has no escape byte in its encoding, so
reading characters gives the same state at every boundary.

`isEscapedAt_byteSize` is the form in which the state is used elsewhere: no
position remains in it.
-/

/-! ### Bytes -/

theorem trailingEscapes_concat (bs : List UInt8) (b : UInt8) :
    trailingEscapes (bs ++ [b]) =
      if b == escapeByte then trailingEscapes bs + 1 else 0 := by
  unfold trailingEscapes
  rw [List.reverse_append, List.reverse_singleton, List.singleton_append,
    List.takeWhile_cons]
  split
  · rw [List.length_cons]
  · rfl

theorem odd_succ (n : Nat) :
    ((n + 1) % 2 == 1) = !(n % 2 == 1) := by
  rcases Nat.mod_two_eq_zero_or_one n with hzero | hone
  · have hnext : (n + 1) % 2 = 1 := by omega
    simp [hzero, hnext]
  · have hnext : (n + 1) % 2 = 0 := by omega
    simp [hone, hnext]

/-- A byte is escaped exactly if the run of escapes before it is odd. -/
theorem armedAfter_eq_trailingEscapes (bs : List UInt8) :
    armedAfter bs = (trailingEscapes bs % 2 == 1) := by
  -- The run is counted from the end of the bytes, so they are taken from there.
  suffices h : ∀ cs : List UInt8,
      armedAfter cs.reverse = (trailingEscapes cs.reverse % 2 == 1) by
    simpa using h bs.reverse
  intro cs
  induction cs with
  | nil => rfl
  | cons b cs ih =>
    have hstep : armedAfter (cs.reverse ++ [b]) =
        armedStep (armedAfter cs.reverse) b := by
      simp [armedAfter]
    rw [List.reverse_cons, hstep, ih, trailingEscapes_concat, armedStep]
    by_cases hb : b == escapeByte
    · rw [if_pos hb, odd_succ, hb, Bool.true_and]
    · simp [hb]

theorem foldl_armedStep_eq_false
    {bs : List UInt8} {armed : Bool}
    (hne : bs ≠ []) (hbs : ∀ b ∈ bs, b ≠ escapeByte) :
    bs.foldl armedStep armed = false := by
  obtain ⟨rest, last, rfl⟩ := List.eq_nil_or_concat bs |>.resolve_left hne
  have hlast : last ≠ escapeByte := hbs last (by simp)
  simp [armedStep, hlast]

/-! ### Characters -/

/-- A byte below 128 is the encoding of the character with its number, and occurs in
no other encoding. -/
theorem toNat_eq_of_mem_utf8EncodeChar
    {c : Char} {b : UInt8}
    (hb : b ∈ String.utf8EncodeChar c) (hlt : b.toNat < 128) :
    c.val.toNat = b.toNat := by
  have hvalue : ∀ n < 256, b = UInt8.ofNat n → b.toNat = n := by
    rintro n hn rfl
    exact UInt8.toNat_ofNat_of_lt' hn
  simp only [String.utf8EncodeChar] at hb
  -- Past one byte, every byte has its highest bit set.
  split at hb
  · rw [List.mem_singleton] at hb
    exact (hvalue _ (by omega) hb).symm
  · split at hb
    · simp only [List.mem_cons, List.not_mem_nil, or_false] at hb
      rcases hb with hb | hb
      all_goals
        have hn := hvalue _ (by omega) hb
        omega
    · split at hb
      · simp only [List.mem_cons, List.not_mem_nil, or_false] at hb
        rcases hb with hb | hb | hb
        all_goals
          have hn := hvalue _ (by omega) hb
          omega
      · simp only [List.mem_cons, List.not_mem_nil, or_false] at hb
        rcases hb with hb | hb | hb | hb
        all_goals
          have hn := hvalue _ (by omega) hb
          omega

theorem ne_of_mem_utf8EncodeChar
    {c d : Char} {b : UInt8}
    (hd : d.val.toNat = b.toNat) (hlt : b.toNat < 128) (hc : c ≠ d) :
    b ∉ String.utf8EncodeChar c := by
  intro hb
  have hcode := toNat_eq_of_mem_utf8EncodeChar hb hlt
  exact hc (Char.ext (UInt32.toNat_inj.1 (hcode.trans hd.symm)))

theorem ne_escapeByte_of_mem_utf8EncodeChar
    {c : Char} {b : UInt8}
    (hc : c ≠ escapeChar) (hb : b ∈ String.utf8EncodeChar c) :
    b ≠ escapeByte := by
  rintro rfl
  exact ne_of_mem_utf8EncodeChar (by decide) (by decide) hc hb

theorem foldl_armedStep_utf8EncodeChar
    (armed : Bool) (c : Char) :
    (String.utf8EncodeChar c).foldl armedStep armed = armedBy armed c := by
  by_cases hc : c = escapeChar
  · rw [hc, utf8EncodeChar_escapeChar]
    simp [armedStep, armedBy]
  · have hbytes : (String.utf8EncodeChar c).foldl armedStep armed = false :=
      foldl_armedStep_eq_false String.utf8EncodeChar_ne_nil
        fun b hb => ne_escapeByte_of_mem_utf8EncodeChar hc hb
    rw [hbytes]
    simp [armedBy, hc]

/-- Whether the character after a text is escaped, `armed` telling whether the
first one is. -/
def armedOver (armed : Bool) (s : Text) : Bool :=
  s.foldl armedBy armed

@[simp] theorem armedOver_nil (armed : Bool) :
    armedOver armed [] = armed := rfl

@[simp] theorem armedOver_cons
    (armed : Bool) (c : Char) (r : Text) :
    armedOver armed (c :: r) = armedOver (armedBy armed c) r := rfl

@[simp] theorem armedOver_append (armed : Bool) (a b : Text) :
    armedOver armed (a ++ b) = armedOver (armedOver armed a) b :=
  List.foldl_append

@[simp] theorem armedBy_escapeChar (armed : Bool) :
    armedBy armed escapeChar = !armed := by
  simp [armedBy]

@[simp] theorem armedBy_true (c : Char) :
    armedBy true c = false := by
  simp [armedBy]

theorem armedBy_of_ne
    {c : Char}
    (armed : Bool) (hc : c ≠ escapeChar) :
    armedBy armed c = false := by
  simp [armedBy, hc]

theorem armedOver_of_notMem
    {s : Text}
    (armed : Bool) (hne : s ≠ []) (hs : escapeChar ∉ s) :
    armedOver armed s = false := by
  obtain ⟨rest, last, rfl⟩ := List.eq_nil_or_concat s |>.resolve_left hne
  have hlast : last ≠ escapeChar := by
    rintro rfl
    exact hs (by simp)
  rw [List.concat_eq_append, armedOver_append, armedOver_cons, armedOver_nil]
  exact armedBy_of_ne _ hlast

theorem armedOver_false_of_notMem
    {s : Text}
    (hs : escapeChar ∉ s) :
    armedOver false s = false := by
  cases s with
  | nil => rfl
  | cons c r => exact armedOver_of_notMem false (List.cons_ne_nil c r) hs

/-- After a text, the next character is escaped exactly if the text ends in an escape
that is not escaped itself. -/
theorem armedOver_eq_true_iff {a : Text} :
    armedOver false a = true ↔
      ∃ y, a = y ++ [escapeChar] ∧ armedOver false y = false := by
  constructor
  · intro h
    rcases List.eq_nil_or_concat a with rfl | ⟨y, c, rfl⟩
    · exact absurd h Bool.false_ne_true
    · rw [List.concat_eq_append, armedOver_append] at h
      simp only [armedOver_cons, armedOver_nil, armedBy, Bool.and_eq_true,
        beq_iff_eq, Bool.not_eq_true'] at h
      exact ⟨y, by rw [h.1, List.concat_eq_append], h.2⟩
  · rintro ⟨y, rfl, hy⟩
    simp [hy]

theorem foldl_armedStep_bytes (armed : Bool) (s : Text) :
    (Text.bytes s).foldl armedStep armed = armedOver armed s := by
  induction s generalizing armed with
  | nil => rfl
  | cons c r ih =>
    rw [Text.bytes_cons, List.foldl_append, foldl_armedStep_utf8EncodeChar, ih,
      armedOver_cons]

/-- The state at a boundary is the state after the text before it. -/
theorem isEscapedAt_byteSize (a b : Text) :
    isEscapedAt (a ++ b) (Text.byteSize a) = armedOver false a := by
  have htake : (Text.bytes (a ++ b)).take (Text.byteSize a) = Text.bytes a := by
    rw [Text.bytes_append, ← Text.length_bytes a, List.take_left]
  rw [isEscapedAt, htake, ← armedAfter_eq_trailingEscapes, armedAfter,
    foldl_armedStep_bytes]

theorem isEscapedAt_of_append
    {a r s : Text}
    (hs : a ++ r = s) :
    isEscapedAt s (Text.byteSize a) = armedOver false a := by
  rw [← hs, isEscapedAt_byteSize]

/-!
## The state at any number

The escape state is found by looking back from a position, and may be asked at any number.
The answer is always the state of a reader that has gone through the bytes before it from
left to right.  So it is false inside a character, and a text may be asked about in parts,
as long as no part is cut off just after an escape.
-/

theorem isEscapedAt_eq_armedAfter (s : Text) (pos : Nat) :
    isEscapedAt s pos = armedAfter ((bytes s).take pos) := by
  rw [isEscapedAt, armedAfter_eq_trailingEscapes]

/-- A reader comes to a position in the second of two texts with the state in which the
first one has left it. -/
theorem isEscapedAt_append_add (a b : Text) (p : Nat) :
    isEscapedAt (a ++ b) (byteSize a + p) =
      ((bytes b).take p).foldl armedStep (armedOver false a) := by
  have htake : (bytes (a ++ b)).take (byteSize a + p) = bytes a ++ (bytes b).take p := by
    rw [Text.bytes_append, ← Text.length_bytes, List.take_length_add_append]
  rw [isEscapedAt_eq_armedAfter, htake, armedAfter, List.foldl_append,
    foldl_armedStep_bytes]

theorem isEscapedAt_inside
    (a : Text) (c : Char) (r : Text) {k : Nat}
    (hpos : 0 < k) (hlt : k < c.utf8Size) :
    isEscapedAt (a ++ c :: r) (byteSize a + k) = false := by
  have hc : c ≠ escapeChar := by
    rintro rfl
    have hsize : escapeChar.utf8Size = 1 := by decide
    omega
  have hshort : k ≤ (String.utf8EncodeChar c).length := by
    rw [String.length_utf8EncodeChar]
    exact Nat.le_of_lt hlt
  rw [isEscapedAt_append_add, Text.bytes_cons, List.take_append_of_le_length hshort]
  apply foldl_armedStep_eq_false
  · intro hnil
    rcases List.take_eq_nil_iff.1 hnil with hzero | hempty
    · omega
    · exact String.utf8EncodeChar_ne_nil hempty
  · intro b hb
    exact ne_escapeByte_of_mem_utf8EncodeChar hc (List.mem_of_mem_take hb)

theorem armedOver_false_of_getLast?_ne
    {a : Text}
    (ha : a.getLast? ≠ some escapeChar) :
    armedOver false a = false := by
  cases hstate : armedOver false a with
  | false => rfl
  | true =>
    obtain ⟨y, rfl, -⟩ := armedOver_eq_true_iff.1 hstate
    exact absurd List.getLast?_concat ha

/-- The escape state at any number, past the end of a text and inside a character too, is the
last state of a reader that goes through the bytes before it, one bit being flipped by an
escape and cleared by anything else.  Hence nothing inside a character is escaped, and after
a text that does not end in an escape, what follows may be asked about on its own. -/
theorem isEscapedAt_forward :
    (∀ s pos, isEscapedAt s pos =
      armedAfter ((bytes s).take (min pos (byteSize s)))) ∧
    (∀ a c r k, 0 < k → k < c.utf8Size →
      isEscapedAt (a ++ c :: r) (byteSize a + k) = false) ∧
    (∀ a b p, a.getLast? ≠ some escapeChar →
      isEscapedAt (a ++ b) (byteSize a + p) = isEscapedAt b p) := by
  refine ⟨?_, ?_, ?_⟩
  · intro s pos
    rw [isEscapedAt_eq_armedAfter, ← Text.length_bytes, ← List.take_eq_take_min]
  · intro a c r k hpos hlt
    exact isEscapedAt_inside a c r hpos hlt
  · intro a b p ha
    rw [isEscapedAt_append_add, armedOver_false_of_getLast?_ne ha,
      isEscapedAt_eq_armedAfter, armedAfter]

/-- An escape before a character of two bytes escapes its start and not its inside, and the
text after that character may be asked about on its own. -/
theorem isEscapedAt_forward_accented :
    (0 < 1 ∧ 1 < 'é'.utf8Size ∧ isEscapedAt "\\é".toList 1 = true ∧
      isEscapedAt "\\é".toList 2 = false) ∧
    ("\\é".toList.getLast? ≠ some escapeChar ∧
      isEscapedAt "\\é\\,".toList 4 = isEscapedAt "\\,".toList 1 ∧
      isEscapedAt "\\,".toList 1 = true) := by
  have hsize : 1 < 'é'.utf8Size := by decide
  have hlast : "\\é".toList.getLast? ≠ some escapeChar := by decide
  refine ⟨⟨by decide, hsize, by decide, ?_⟩, hlast, ?_, by decide⟩
  · exact isEscapedAt_forward.2.1 ['\\'] 'é' [] 1 (by decide) hsize
  · exact isEscapedAt_forward.2.2 "\\é".toList "\\,".toList 1 hlast

end PatternText.Escape
