import PatternText.Proofs.Text.Parts
import PatternText.Token.Session

/-!
# Pieces of a text

The pieces of a text lie between the leftmost non-overlapping occurrences of a
delimiter, with nothing left out.  They can be taken without a cursor, by cutting
at the first occurrence and going on with what follows it.  Pieces that an
escaped delimiter has set apart can be joined again.
-/

namespace PatternText.Token

open Escape (escapeChar)
open Text (byteSize occurrencesFrom)

/-- The parts of a text before and after the first occurrence of a delimiter. -/
def cut? (d : Text) : Text → Option (Text × Text)
  | [] => if d.isEmpty then some ([], []) else none
  | c :: r =>
    if d.isPrefixOf (c :: r) then
      some ([], (c :: r).drop d.length)
    else
      (cut? d r).map fun parts => (c :: parts.1, parts.2)

theorem eq_append_of_cut?
    {d s a b : Text}
    (h : cut? d s = some (a, b)) :
    s = a ++ d ++ b := by
  induction s generalizing a with
  | nil =>
    simp only [cut?] at h
    split at h
    · rename_i hd
      obtain ⟨rfl, rfl⟩ := Prod.mk.inj (Option.some.inj h)
      simpa using hd
    · simp at h
  | cons c r ih =>
    simp only [cut?] at h
    split at h
    · rename_i hfront
      obtain ⟨rest, hrest⟩ := List.isPrefixOf_iff_prefix.1 hfront
      obtain ⟨rfl, rfl⟩ := Prod.mk.inj (Option.some.inj h)
      rw [← hrest, List.drop_left, List.nil_append]
    · obtain ⟨⟨x, y⟩, hxy, heq⟩ := Option.map_eq_some_iff.1 h
      obtain ⟨rfl, rfl⟩ := Prod.mk.inj heq
      rw [ih hxy]
      rfl

/-- The pieces between the leftmost non-overlapping occurrences of a delimiter.
The empty delimiter leaves the text in one piece. -/
def pieces (d s : Text) : List Text :=
  if _ : d = [] then
    [s]
  else
    match _h : cut? d s with
    | none => [s]
    | some (a, b) => a :: pieces d b
termination_by s.length
decreasing_by
  rename_i hd
  have hlength := congrArg List.length (eq_append_of_cut? _h)
  have hpos : 0 < d.length := List.length_pos_iff.2 hd
  simp only [List.length_append] at hlength
  omega

/-- Whether a text ends in an odd run of escape characters. -/
def endsArmed (s : Text) : Bool :=
  Escape.isEscapedAt s (Text.byteSize s)

/-- Joins each piece that ends in an odd run of escape characters to the one
after it, putting the delimiter back. -/
def regroup (d : Text) : List Text → List Text
  | [] => []
  | piece :: later =>
    match endsArmed piece, regroup d later with
    | true, next :: rest => (piece ++ d ++ next) :: rest
    | _, rest => piece :: rest

/-- The pieces without the empty ones at both ends. -/
def dropEmptyEnds (parts : List Text) : List Text :=
  ((parts.dropWhile List.isEmpty).reverse.dropWhile List.isEmpty).reverse

/-!
## Records

A record is a list of fields written as one text, with a delimiter between them.
The delimiter and the escape character are protected within the fields, so that
reading the record can tell the delimiters between fields from those inside.
-/

/-- The delimiters that are protected within a field. -/
def fieldDelimiters (d : Text) : List Text :=
  [Escape.escapeText, d]

def encodeRecord (d : Text) (fields : List Text) : Text :=
  d.intercalate (fields.map (Escape.protectAll (fieldDelimiters d)))

def decodeRecord (d s : Text) : List Text :=
  (split ⟨d, false, true⟩ s).map (Escape.revealAll (fieldDelimiters d))

/-- A text none of whose beginnings is also an end, the empty one and the whole
apart.  Two occurrences of such a text never overlap. -/
def Borderless (d : Text) : Prop :=
  ∀ b, b ≠ [] → b ≠ d → b <+: d → ¬b <:+ d

/-!
## Searching and joining

The pieces of a text follow the search for the delimiter: an occurrence at the
start opens a new piece, and a character that starts none goes to the front of
the first.  Joining the pieces gives the text back.  Conversely, texts without
the delimiter are the pieces of what they are joined to, provided that no
occurrence can reach from one of them into the delimiter after it, which a
borderless delimiter rules out.
-/

/-! ### The pieces along a search -/

theorem cut?_found
    {d : Text}
    (hd : d ≠ []) (r : Text) :
    cut? d (d ++ r) = some ([], r) := by
  obtain ⟨c, d', rfl⟩ := List.exists_cons_of_ne_nil hd
  have hfront : (c :: d').isPrefixOf (c :: (d' ++ r)) = true :=
    List.isPrefixOf_iff_prefix.2 ⟨r, rfl⟩
  rw [List.cons_append, cut?, if_pos hfront, ← List.cons_append, List.drop_left]

theorem cut?_step
    {d r : Text} {c : Char}
    (h : ¬d <+: c :: r) :
    cut? d (c :: r) = (cut? d r).map fun parts => (c :: parts.1, parts.2) := by
  have hfront : ¬d.isPrefixOf (c :: r) = true := by
    rwa [List.isPrefixOf_iff_prefix]
  rw [cut?, if_neg hfront]

theorem cut?_append_of_notMem
    {c : Char} {d w : Text}
    (h : c ∉ w) (r : Text) :
    cut? (c :: d) (w ++ (c :: d ++ r)) = some (w, r) := by
  induction w with
  | nil => exact cut?_found (List.cons_ne_nil c d) r
  | cons x w ih =>
    rw [List.mem_cons, not_or] at h
    have hfront : ¬(c :: d) <+: x :: (w ++ (c :: d ++ r)) := by
      intro hprefix
      exact h.1 (List.cons_prefix_cons.1 hprefix).1
    rw [List.cons_append, cut?_step hfront, ih h.2, Option.map_some]

theorem pieces_eq_singleton
    {d s : Text}
    (h : cut? d s = none) :
    pieces d s = [s] := by
  rw [pieces]
  split
  · rfl
  · split
    · rfl
    · simp_all

theorem pieces_eq_cons
    {d s a b : Text}
    (hd : d ≠ []) (h : cut? d s = some (a, b)) :
    pieces d s = a :: pieces d b := by
  rw [pieces, dif_neg hd]
  split
  · simp_all
  · rename_i x y hxy
    obtain ⟨rfl, rfl⟩ := Prod.mk.inj (Option.some.inj (hxy.symm.trans h))
    rfl

theorem occurrencesFrom_eq_nil
    {d s : Text}
    (hd : d ≠ []) (h : cut? d s = none) (pos : Nat) :
    occurrencesFrom d 0 pos s = [] := by
  induction s generalizing pos with
  | nil => rfl
  | cons c r ih =>
    by_cases hfront : d <+: c :: r
    · obtain ⟨b, hb⟩ := hfront
      rw [← hb, cut?_found hd] at h
      exact absurd h (Option.some_ne_none _)
    · rw [cut?_step hfront, Option.map_eq_none_iff] at h
      rw [Text.occurrencesFrom_step hfront, ih h]

theorem occurrencesFrom_eq_cons
    {d s a b : Text}
    (hd : d ≠ []) (h : cut? d s = some (a, b)) (pos : Nat) :
    occurrencesFrom d 0 pos s =
      (pos + byteSize a) :: occurrencesFrom d 0 (pos + byteSize (a ++ d)) b := by
  induction s generalizing a pos with
  | nil => simp [cut?, hd] at h
  | cons c r ih =>
    by_cases hfront : d <+: c :: r
    · obtain ⟨b', hb⟩ := hfront
      rw [← hb, cut?_found hd] at h
      obtain ⟨rfl, rfl⟩ := Prod.mk.inj (Option.some.inj h)
      rw [← hb, Text.occurrencesFrom_found hd]
      rfl
    · rw [cut?_step hfront] at h
      obtain ⟨⟨x, y⟩, hxy, heq⟩ := Option.map_eq_some_iff.1 h
      obtain ⟨rfl, rfl⟩ := Prod.mk.inj heq
      rw [Text.occurrencesFrom_step hfront, ih hxy]
      simp [Nat.add_assoc]

theorem find?_byteSize
    {d s a r : Text}
    (hd : d ≠ []) (hs : a ++ r = s) :
    Text.find? d s (byteSize a) =
      (cut? d r).map fun parts => byteSize (a ++ parts.1) := by
  rw [← hs, Text.find?, Text.occurrencesAfter_byteSize]
  cases h : cut? d r with
  | none => rw [occurrencesFrom_eq_nil hd h, List.head?_nil, Option.map_none]
  | some parts =>
    rw [occurrencesFrom_eq_cons hd h, List.head?_cons, Option.map_some,
      Text.byteSize_append]

theorem find?_zero
    {d : Text}
    (hd : d ≠ []) (r : Text) :
    Text.find? d r 0 = (cut? d r).map fun parts => byteSize parts.1 :=
  find?_byteSize hd (List.nil_append r)

theorem pieces_nil
    {d : Text}
    (hd : d ≠ []) :
    pieces d [] = [[]] :=
  pieces_eq_singleton (by simp [cut?, hd])

theorem pieces_found
    {d : Text}
    (hd : d ≠ []) (r : Text) :
    pieces d (d ++ r) = [] :: pieces d r :=
  pieces_eq_cons hd (cut?_found hd r)

theorem pieces_step
    {d r : Text} {c : Char}
    (hd : d ≠ []) (h : ¬d <+: c :: r) :
    pieces d (c :: r) = (pieces d r).modifyHead (c :: ·) := by
  have hstep := cut?_step h
  cases hr : cut? d r with
  | none =>
    rw [hr, Option.map_none] at hstep
    rw [pieces_eq_singleton hstep, pieces_eq_singleton hr, List.modifyHead_cons]
  | some parts =>
    rw [hr, Option.map_some] at hstep
    rw [pieces_eq_cons hd hstep, pieces_eq_cons hd hr, List.modifyHead_cons]

theorem pieces_ne_nil (d s : Text) :
    pieces d s ≠ [] := by
  rw [pieces]
  split
  · simp
  · split <;> simp

theorem intercalate_modifyHead
    (d t : Text) {parts : List Text}
    (hparts : parts ≠ []) :
    d.intercalate (parts.modifyHead (t ++ ·)) = t ++ d.intercalate parts := by
  obtain ⟨p, rest, rfl⟩ := List.exists_cons_of_ne_nil hparts
  cases rest with
  | nil => simp
  | cons q rest => simp [List.intercalate_cons_cons]

theorem intercalate_pieces
    {d : Text}
    (hd : d ≠ []) (s : Text) :
    d.intercalate (pieces d s) = s := by
  induction s using Text.search_induction hd with
  | ended => rw [pieces_nil hd, List.intercalate_singleton]
  | found r ih =>
    rw [pieces_found hd, List.intercalate_cons_of_ne_nil (pieces_ne_nil d r), ih,
      List.nil_append]
  | step c r h ih =>
    have hfront := intercalate_modifyHead d [c] (pieces_ne_nil d r)
    simp only [List.singleton_append] at hfront
    rw [pieces_step hd h, hfront, ih]

theorem prefix_of_pieces_eq_cons
    {d s p : Text} {rest : List Text}
    (hd : d ≠ []) (h : pieces d s = p :: rest) :
    p <+: s := by
  have hjoin := intercalate_pieces hd s
  rw [h] at hjoin
  cases rest with
  | nil => exact ⟨[], by simpa using hjoin⟩
  | cons q rest =>
    rw [List.intercalate_cons_cons, List.append_assoc] at hjoin
    exact ⟨_, hjoin⟩

theorem not_infix_of_mem_pieces
    {d s p : Text}
    (hd : d ≠ []) (hp : p ∈ pieces d s) :
    ¬d <:+: p := by
  induction s using Text.search_induction hd generalizing p with
  | ended =>
    rw [pieces_nil hd, List.mem_singleton] at hp
    rw [hp, List.infix_nil]
    exact hd
  | found r ih =>
    rw [pieces_found hd, List.mem_cons] at hp
    rcases hp with rfl | hp
    · rw [List.infix_nil]
      exact hd
    · exact ih hp
  | step c r h ih =>
    obtain ⟨first, rest, hr⟩ := List.exists_cons_of_ne_nil (pieces_ne_nil d r)
    rw [pieces_step hd h, hr, List.modifyHead_cons, List.mem_cons] at hp
    rcases hp with rfl | hp
    · rw [List.infix_cons_iff, not_or]
      refine ⟨fun hfront => h ?_, ih (hr ▸ List.mem_cons_self)⟩
      exact hfront.trans
        (List.cons_prefix_cons.2 ⟨rfl, prefix_of_pieces_eq_cons hd hr⟩)
    · exact ih (hr ▸ List.mem_cons_of_mem first hp)

/-! ### Borderless delimiters -/

theorem borderless_iff {d : Text} :
    Borderless d ↔ ∀ n < d.length, 0 < n → ¬d.take n <:+ d := by
  constructor
  · intro hb n hlt hpos
    have hlength : (d.take n).length = n := by
      rw [List.length_take]
      omega
    refine hb (d.take n) ?_ ?_ (List.take_prefix n d)
    · intro h
      rw [h, List.length_nil] at hlength
      omega
    · intro h
      rw [h] at hlength
      omega
  · intro h b hne hproper hbegin
    have hlt : b.length < d.length :=
      Nat.lt_of_le_of_ne hbegin.length_le fun heq =>
        hproper (hbegin.eq_of_length heq)
    have htake := h b.length hlt (List.length_pos_iff.2 hne)
    rwa [← List.prefix_iff_eq_take.1 hbegin] at htake

instance (d : Text) : Decidable (Borderless d) :=
  decidable_of_iff _ borderless_iff.symm

/-- An escape before a delimiter without escapes makes it borderless, since none
of its ends but the whole starts with the escape. -/
theorem borderless_escapeChar_cons
    {d : Text}
    (hd : escapeChar ∉ d) :
    Borderless (escapeChar :: d) := by
  intro b hne hproper hbegin hend
  obtain ⟨x, b, rfl⟩ := List.exists_cons_of_ne_nil hne
  have hx : x = escapeChar := (List.cons_prefix_cons.1 hbegin).1
  rcases List.suffix_cons_iff.1 hend with heq | hsuffix
  · exact hproper heq
  · exact hd (hx ▸ hsuffix.subset List.mem_cons_self)

/-! ### The pieces of joined texts -/

theorem intercalate_append
    (d : Text) {parts rest : List Text}
    (hparts : parts ≠ []) (hrest : rest ≠ []) :
    d.intercalate (parts ++ rest) =
      d.intercalate parts ++ d ++ d.intercalate rest := by
  induction parts with
  | nil => exact absurd rfl hparts
  | cons p parts ih =>
    by_cases hlast : parts = []
    · simp [hlast, List.intercalate_cons_of_ne_nil hrest]
    · have hne : parts ++ rest ≠ [] := by simp [hlast]
      rw [List.cons_append, List.intercalate_cons_of_ne_nil hne, ih hlast,
        List.intercalate_cons_of_ne_nil hlast]
      simp

theorem intercalate_flatten
    (d : Text) {groups : List (List Text)}
    (hgroups : ∀ parts ∈ groups, parts ≠ []) :
    d.intercalate groups.flatten = d.intercalate (groups.map d.intercalate) := by
  induction groups with
  | nil => rfl
  | cons parts groups ih =>
    have hparts : parts ≠ [] := hgroups parts List.mem_cons_self
    have hlater : ∀ p ∈ groups, p ≠ [] := by
      intro p hp
      exact hgroups p (List.mem_cons_of_mem parts hp)
    cases groups with
    | nil => simp
    | cons next groups =>
      have hrest : (next :: groups).flatten ≠ [] := by
        simp [hlater next List.mem_cons_self]
      rw [List.flatten_cons, intercalate_append d hparts hrest, ih hlater]
      exact List.intercalate_cons_cons.symm

theorem pieces_of_not_infix
    {d p : Text}
    (hd : d ≠ []) (hp : ¬d <:+: p) :
    pieces d p = [p] := by
  induction p with
  | nil => exact pieces_nil hd
  | cons c r ih =>
    have hfront : ¬d <+: c :: r := by
      intro h
      exact hp h.isInfix
    have hr : ¬d <:+: r := by
      intro h
      exact hp (h.trans (List.suffix_cons c r).isInfix)
    rw [pieces_step hd hfront, ih hr, List.modifyHead_cons]

/-- If an occurrence of a borderless delimiter starts within a text before
another occurrence, it does not reach beyond that text. -/
theorem Borderless.prefix_of_prefix_append
    {d p r : Text}
    (hb : Borderless d) (hp : p ≠ []) (h : d <+: p ++ (d ++ r)) :
    d <+: p := by
  have hfirst : p <+: p ++ (d ++ r) := List.prefix_append p (d ++ r)
  rcases Nat.le_total d.length p.length with hle | hle
  · exact List.prefix_of_prefix_length_le h hfirst hle
  · obtain ⟨u, rfl⟩ := List.prefix_of_prefix_length_le hfirst h hle
    -- What reaches into the other occurrence is a beginning and an end of it.
    by_cases hu : u = []
    · exact ⟨[], by simp [hu]⟩
    · have hpos : 0 < p.length := List.length_pos_iff.2 hp
      have hinto : u <+: (p ++ u) ++ r := (List.prefix_append_right_inj p).1 h
      have hbegin : u <+: p ++ u :=
        List.prefix_of_prefix_length_le hinto (List.prefix_append (p ++ u) r)
          (by rw [List.length_append]; omega)
      have hproper : u ≠ p ++ u := by
        intro heq
        have hlength := congrArg List.length heq
        rw [List.length_append] at hlength
        omega
      exact absurd (List.suffix_append p u) (hb u hu hproper hbegin)

/-- A text without the delimiter is the first piece of what it starts, if a
borderless delimiter follows it. -/
theorem pieces_append_delimiter
    {d p : Text}
    (hd : d ≠ []) (hb : Borderless d) (hp : ¬d <:+: p) (r : Text) :
    pieces d (p ++ (d ++ r)) = p :: pieces d r := by
  induction p with
  | nil => exact pieces_found hd r
  | cons c p ih =>
    have hfront : ¬d <+: c :: (p ++ (d ++ r)) := by
      intro h
      rw [← List.cons_append] at h
      exact hp (hb.prefix_of_prefix_append (List.cons_ne_nil c p) h).isInfix
    have hrest : ¬d <:+: p := by
      intro h
      exact hp (h.trans (List.suffix_cons c p).isInfix)
    rw [List.cons_append, pieces_step hd hfront, ih hrest, List.modifyHead_cons]

/-- Texts without the delimiter are the pieces of what they are joined to by a
borderless delimiter. -/
theorem pieces_intercalate
    {d : Text} {parts : List Text}
    (hd : d ≠ []) (hb : Borderless d) (hne : parts ≠ [])
    (hparts : ∀ p ∈ parts, ¬d <:+: p) :
    pieces d (d.intercalate parts) = parts := by
  induction parts with
  | nil => exact absurd rfl hne
  | cons p rest ih =>
    have hp : ¬d <:+: p := hparts p List.mem_cons_self
    cases rest with
    | nil => rw [List.intercalate_singleton, pieces_of_not_infix hd hp]
    | cons q rest =>
      have hrest : ∀ t ∈ q :: rest, ¬d <:+: t := by
        intro t ht
        exact hparts t (List.mem_cons_of_mem p ht)
      rw [List.intercalate_cons_cons, List.append_assoc,
        pieces_append_delimiter hd hb hp, ih (List.cons_ne_nil q rest) hrest]

end PatternText.Token
