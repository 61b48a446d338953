import PatternText.Proofs.Escape.Codec
import PatternText.Proofs.Escape.Delimiter
import PatternText.Proofs.Token.Division

/-!
# Protecting and splitting

A delimiter that has been protected does not divide a text.
-/

namespace PatternText.Token

open Escape (armedOver escapeChar protect protectFrom protectMark weave double escapeText
  protectAll revealAll)

/-!
## Cuts of escaper and cursor

The pass that protects a delimiter and a cursor that skips escaped delimiters stop at the
same places.  Between two of them the pass copies a token, so a protected text is the
tokens of the text, joined by the delimiter with an escape before it.

This holds for every delimiter: it may overlap itself, contain the escape character, or be
empty.

If the delimiter has no escape in it, a second pass meets the same occurrences and finds each
of them escaped.  It changes nothing then, and for the cursor the text is a single token.
-/

section

variable {d s : Text}

/-- Weaving pieces together with their live delimiters protected is joining the tokens
that the pieces form. -/
theorem weave_protectMark_eq_intercalate
    (d : Text) (armed : Bool) (parts : List Text) :
    weave d (protectMark d) armed parts =
      (escapeChar :: d).intercalate (group d true armed parts) := by
  induction parts generalizing armed with
  | nil => rfl
  | cons p rest ih =>
    by_cases hrest : rest = []
    · simp [hrest]
    · have hne := group_ne_nil d true (armedOver armed (p ++ d)) hrest
      rw [Escape.weave_cons d _ armed p hrest, ih]
      cases h : armedOver armed p with
      | false =>
        have hcut : (true && armedOver armed p) = false := by rw [h, Bool.true_and]
        rw [group_cons_of_cut hrest hcut, List.intercalate_cons_of_ne_nil hne]
        rfl
      | true =>
        have hcontent : (true && armedOver armed p) = true := by rw [h, Bool.true_and]
        rw [group_cons_of_content hrest hcontent, intercalate_modifyHead _ _ hne]
        rfl

/-- Protecting a delimiter joins the tokens between its live occurrences by an escape and
the delimiter. -/
theorem protect_eq_intercalate_split (d s : Text) :
    protect d s = (escapeChar :: d).intercalate (split ⟨d, false, true⟩ s) := by
  rw [split_eq_group]
  by_cases hd : d = []
  · -- Without a delimiter, a text that is not empty is one token.
    have hpieces : pieces d s = [s] := by rw [pieces, dif_pos hd]
    rw [hpieces, group_singleton, hd, Escape.protect_nil]
    split
    · rename_i hs
      exact hs
    · exact List.intercalate_singleton.symm
  · rw [Escape.protect_eq_weave hd, weave_protectMark_eq_intercalate]
    split
    · rename_i hs
      rw [hs, pieces_nil hd, group_singleton, List.intercalate_singleton]
      rfl
    · rfl

/-! ### Protected texts -/

/-- A text that the pass leaves as it is has no delimiter that ends a token. -/
theorem group_pieces_of_protectFrom_eq_self
    {armed : Bool}
    (hb : Borderless (escapeChar :: d)) (hd : d ≠ []) (h : protectFrom d armed s = s) :
    group d true armed (pieces d s) = [s] := by
  have hmarked : (escapeChar :: d).intercalate (group d true armed (pieces d s)) = s := by
    rw [← weave_protectMark_eq_intercalate]
    exact h
  have hplain : d.intercalate (group d true armed (pieces d s)) = s := by
    rw [intercalate_group, intercalate_pieces hd]
  obtain ⟨t, rest, ht⟩ :=
    List.exists_cons_of_ne_nil (group_ne_nil d true armed (pieces_ne_nil d s))
  rw [ht] at hmarked hplain ⊢
  by_cases hrest : rest = []
  · rw [hrest, List.intercalate_singleton] at hplain
    rw [hrest, hplain]
  · -- The delimiter after the first token would start where the escape before it does.
    rw [List.intercalate_cons_of_ne_nil hrest] at hmarked hplain
    have hjoin : d ++ d.intercalate rest =
        escapeChar :: (d ++ (escapeChar :: d).intercalate rest) := by
      simpa using hplain.trans hmarked.symm
    exact absurd ⟨_, hjoin⟩ (Escape.not_prefix_escapeChar_append hb hd _)

/-- Protecting a delimiter without escapes leaves nothing to protect, and nothing where a
cursor would divide the text. -/
theorem protect_settles
    (hd : d ≠ []) (hesc : escapeChar ∉ d) (s : Text) :
    protect d (protect d s) = protect d s ∧
      (s ≠ [] → split ⟨d, false, true⟩ (protect d s) = [protect d s]) := by
  have hb := borderless_escapeChar_cons hesc
  have hsettled := Escape.protectFrom_protectFrom hb hd false s
  rw [Escape.protect_eq_protectFrom hd, Escape.protect_eq_protectFrom hd]
  refine ⟨hsettled, ?_⟩
  intro hs
  rw [split_eq_group, if_neg (Escape.protectFrom_ne_nil hd false hs)]
  exact group_pieces_of_protectFrom_eq_self hb hd hsettled

/-- A delimiter that overlaps itself, with more of it after an occurrence than another one
needs, and with an occurrence that is escaped from the start. -/
theorem protect_settles_overlapping :
    "aa".toList ≠ [] ∧ escapeChar ∉ "aa".toList ∧ "aaaaa\\aaa".toList ≠ [] ∧
      protect "aa".toList "aaaaa\\aaa".toList = "\\aa\\aaa\\aaa".toList ∧
      protect "aa".toList "\\aa\\aaa\\aaa".toList = "\\aa\\aaa\\aaa".toList ∧
      split ⟨"aa".toList, false, true⟩ "\\aa\\aaa\\aaa".toList =
        ["\\aa\\aaa\\aaa".toList] := by
  have hd : "aa".toList ≠ [] := by decide
  have hesc : escapeChar ∉ "aa".toList := by decide
  have hs : "aaaaa\\aaa".toList ≠ [] := by decide
  have hwritten : protect "aa".toList "aaaaa\\aaa".toList = "\\aa\\aaa\\aaa".toList := by
    decide +kernel
  have hsettles := protect_settles hd hesc "aaaaa\\aaa".toList
  rw [hwritten] at hsettles
  exact ⟨hd, hesc, hs, hwritten, hsettles.1, hsettles.2 hs⟩

end

/-!
## Records

A delimiter within a field is protected after the escapes of the field have been
doubled.  In the text of a record, an escape that escapes anything therefore
stands before a delimiter within a field and nowhere else.

The pieces of a record are found first, with no regard to escapes: they are the
pieces of the fields, and those that are not the last of their field end in such
an escape.  Tokens put them together again by fields (`group_recordPieces`), and
each token is a protected field, from which revealing recovers the field.
-/

variable {d : Text}

/-! ### Protected fields -/

theorem not_infix_concat_escapeChar
    {p : Text}
    (hne : d ≠ []) (hd : escapeChar ∉ d) (hp : ¬d <:+: p) :
    ¬d <:+: p ++ [escapeChar] := by
  rw [List.infix_concat_iff, not_or]
  refine ⟨?_, hp⟩
  intro hsuffix
  rcases List.suffix_concat_iff.1 hsuffix with hnil | ⟨t, heq, -⟩
  · exact hne hnil
  · exact hd (heq ▸ List.mem_append_right t List.mem_cons_self)

theorem weave_of_unarmed
    {mark : Bool → Text} {parts : List Text}
    (hd : armedOver false d = false) (hparts : ∀ p ∈ parts, armedOver false p = false) :
    Escape.weave d mark false parts = (mark false).intercalate parts := by
  induction parts with
  | nil => rfl
  | cons p rest ih =>
    have hp : armedOver false p = false := hparts p List.mem_cons_self
    have hlater : ∀ q ∈ rest, armedOver false q = false := by
      intro q hq
      exact hparts q (List.mem_cons_of_mem p hq)
    by_cases hrest : rest = []
    · simp [hrest]
    · rw [Escape.weave_cons _ _ _ _ hrest, Escape.armedOver_append, hp, hd, ih hlater,
        List.intercalate_cons_of_ne_nil hrest]

theorem armedOver_of_mem_pieces_double
    {f p : Text}
    (hne : d ≠ []) (hd : escapeChar ∉ d) (hp : p ∈ pieces d (double f)) :
    armedOver false p = false := by
  rw [Escape.pieces_double hne hd] at hp
  obtain ⟨q, -, rfl⟩ := List.mem_map.1 hp
  exact Escape.armedOver_double q

theorem ne_escapeText (hd : escapeChar ∉ d) :
    d ≠ escapeText := by
  rintro rfl
  exact hd List.mem_cons_self

theorem protectAll_fieldDelimiters
    (hd : escapeChar ∉ d) (f : Text) :
    protectAll (fieldDelimiters d) f = Escape.protect d (double f) := by
  have hne := ne_escapeText hd
  simp [protectAll, Escape.escapeFirst, Escape.ordinary, fieldDelimiters,
    Escape.protectPass, hne]

theorem revealAll_fieldDelimiters
    (hd : escapeChar ∉ d) (s : Text) :
    revealAll (fieldDelimiters d) s =
      Escape.reveal escapeText (Escape.reveal d s) := by
  have hne := ne_escapeText hd
  simp [revealAll, Escape.escapeLast, Escape.ordinary, fieldDelimiters, hne]

theorem protectAll_eq_intercalate
    (hne : d ≠ []) (hd : escapeChar ∉ d) (f : Text) :
    protectAll (fieldDelimiters d) f =
      (escapeChar :: d).intercalate (pieces d (double f)) := by
  have hstate : armedOver false d = false := Escape.armedOver_of_notMem false hne hd
  rw [protectAll_fieldDelimiters hd, Escape.protect_eq_weave hne,
    weave_of_unarmed hstate fun p hp => armedOver_of_mem_pieces_double hne hd hp]
  rfl

theorem revealAll_protectAll
    (hne : d ≠ []) (hd : escapeChar ∉ d) (f : Text) :
    revealAll (fieldDelimiters d) (protectAll (fieldDelimiters d) f) = f := by
  have hescaped : escapeChar :: d ≠ [] := List.cons_ne_nil escapeChar d
  have hstate : armedOver false (escapeChar :: d) = false := by
    rw [Escape.armedOver_cons]
    exact Escape.armedOver_of_notMem _ hne hd
  have hpieces : pieces (escapeChar :: d)
      ((escapeChar :: d).intercalate (pieces d (double f))) = pieces d (double f) := by
    apply pieces_intercalate hescaped (borderless_escapeChar_cons hd)
      (pieces_ne_nil d _)
    intro p hp hin
    exact not_infix_of_mem_pieces hne hp
      ((List.suffix_cons escapeChar d).isInfix.trans hin)
  rw [protectAll_eq_intercalate hne hd, revealAll_fieldDelimiters hd,
    Escape.reveal_eq_weave hne, hpieces,
    weave_of_unarmed hstate fun p hp => armedOver_of_mem_pieces_double hne hd hp]
  have hjoin := intercalate_pieces hne (double f)
  simp only [Escape.revealMark, Bool.false_eq_true, if_false]
  rw [hjoin, Escape.reveal_double]

/-! ### The pieces of a record -/

/-- Parts with an escape after each but the last. -/
def armAllButLast : List Text → List Text
  | [] => []
  | [p] => [p]
  | p :: q :: rest => (p ++ [escapeChar]) :: armAllButLast (q :: rest)

theorem armAllButLast_ne_nil
    {parts : List Text}
    (hparts : parts ≠ []) :
    armAllButLast parts ≠ [] := by
  obtain ⟨p, rest, rfl⟩ := List.exists_cons_of_ne_nil hparts
  cases rest <;> simp [armAllButLast]

theorem intercalate_armAllButLast
    (d : Text) (parts : List Text) :
    d.intercalate (armAllButLast parts) = (escapeChar :: d).intercalate parts := by
  induction parts with
  | nil => rfl
  | cons p rest ih =>
    cases rest with
    | nil => simp [armAllButLast]
    | cons q rest =>
      have hne := armAllButLast_ne_nil (List.cons_ne_nil q rest)
      rw [armAllButLast, List.intercalate_cons_of_ne_nil hne, ih,
        List.intercalate_cons_cons]
      simp

theorem not_infix_of_mem_armAllButLast
    {parts : List Text}
    (hne : d ≠ []) (hd : escapeChar ∉ d) (hparts : ∀ p ∈ parts, ¬d <:+: p) :
    ∀ p ∈ armAllButLast parts, ¬d <:+: p := by
  induction parts with
  | nil => simp [armAllButLast]
  | cons p rest ih =>
    have hlater := ih fun q hq => hparts q (List.mem_cons_of_mem p hq)
    have hp : ¬d <:+: p := hparts p List.mem_cons_self
    cases rest with
    | nil => simpa [armAllButLast] using hp
    | cons q rest =>
      intro t ht
      rw [armAllButLast, List.mem_cons] at ht
      rcases ht with rfl | ht
      · exact not_infix_concat_escapeChar hne hd hp
      · exact hlater t ht

/-- The pieces that a field contributes to a record. -/
def recordPieces (d f : Text) : List Text :=
  armAllButLast (pieces d (double f))

theorem recordPieces_ne_nil (d f : Text) :
    recordPieces d f ≠ [] :=
  armAllButLast_ne_nil (pieces_ne_nil d (double f))

theorem intercalate_recordPieces
    (hne : d ≠ []) (hd : escapeChar ∉ d) (f : Text) :
    d.intercalate (recordPieces d f) = protectAll (fieldDelimiters d) f := by
  rw [recordPieces, intercalate_armAllButLast, protectAll_eq_intercalate hne hd]

theorem pieces_encodeRecord
    (hne : d ≠ []) (hd : escapeChar ∉ d) (hb : Borderless d) {fields : List Text}
    (hfields : fields ≠ []) :
    pieces d (encodeRecord d fields) = (fields.map (recordPieces d)).flatten := by
  have hgroups : ∀ parts ∈ fields.map (recordPieces d), parts ≠ [] := by
    intro parts hparts
    obtain ⟨f, -, rfl⟩ := List.mem_map.1 hparts
    exact recordPieces_ne_nil d f
  have hencode : encodeRecord d fields =
      d.intercalate (fields.map (recordPieces d)).flatten := by
    rw [intercalate_flatten d hgroups, List.map_map, encodeRecord]
    congr 1
    exact List.map_congr_left fun f _ => (intercalate_recordPieces hne hd f).symm
  rw [hencode]
  refine pieces_intercalate hne hb ?_ ?_
  · obtain ⟨f, rest, rfl⟩ := List.exists_cons_of_ne_nil hfields
    simp [recordPieces_ne_nil]
  · intro p hp
    obtain ⟨parts, hparts, hmem⟩ := List.mem_flatten.1 hp
    obtain ⟨f, -, rfl⟩ := List.mem_map.1 hparts
    exact not_infix_of_mem_armAllButLast hne hd
      (fun q hq => not_infix_of_mem_pieces hne hq) p hmem

/-! ### The tokens of a record -/

/-- Parts with an escape after each but the last form one token, and the delimiter
after the last ends it. -/
theorem group_armAllButLast
    (hd : armedOver true d = false ∧ armedOver false d = false) {parts : List Text}
    (hne : parts ≠ []) (hparts : ∀ p ∈ parts, armedOver false p = false)
    (rest : List Text) :
    group d true false (armAllButLast parts ++ rest) =
      d.intercalate (armAllButLast parts) :: group d true false rest := by
  induction parts with
  | nil => exact absurd rfl hne
  | cons p parts ih =>
    have hp : armedOver false p = false := hparts p List.mem_cons_self
    cases parts with
    | nil =>
      by_cases hrest : rest = []
      · simp [armAllButLast, hrest, group]
      · have hcut : (true && armedOver false p) = false := hp
        rw [armAllButLast, List.singleton_append, group_cons_of_cut hrest hcut,
          Escape.armedOver_append, hp, hd.2, List.intercalate_singleton]
    | cons q parts =>
      have hlater := ih (List.cons_ne_nil q parts) fun t ht =>
        hparts t (List.mem_cons_of_mem p ht)
      have harmed : (true && armedOver false (p ++ [escapeChar])) = true := by
        simp [hp]
      have hnext : armedOver false (p ++ [escapeChar] ++ d) = false := by
        rw [Escape.armedOver_append, Escape.armedOver_append, hp]
        simpa using hd.1
      have hparts' := armAllButLast_ne_nil (List.cons_ne_nil q parts)
      have hall : armAllButLast (q :: parts) ++ rest ≠ [] := by simp [hparts']
      rw [armAllButLast, List.cons_append, group_cons_of_content hall harmed, hnext,
        hlater, List.modifyHead_cons, List.intercalate_cons_of_ne_nil hparts']

/-- The pieces of fields form the protected fields. -/
theorem group_recordPieces
    (hne : d ≠ []) (hd : escapeChar ∉ d) (fields : List Text) :
    group d true false (fields.map (recordPieces d)).flatten =
      fields.map (protectAll (fieldDelimiters d)) := by
  have hstate : armedOver true d = false ∧ armedOver false d = false :=
    ⟨Escape.armedOver_of_notMem true hne hd, Escape.armedOver_of_notMem false hne hd⟩
  induction fields with
  | nil => rfl
  | cons f fields ih =>
    rw [List.map_cons, List.flatten_cons, recordPieces,
      group_armAllButLast hstate (pieces_ne_nil d (double f))
        (fun p hp => armedOver_of_mem_pieces_double hne hd hp), ih, List.map_cons]
    congr 1
    exact intercalate_recordPieces hne hd f

theorem group_pieces_encodeRecord
    (hne : d ≠ []) (hd : escapeChar ∉ d) (hb : Borderless d) {fields : List Text}
    (hfields : fields ≠ []) :
    group d true false (pieces d (encodeRecord d fields)) =
      fields.map (protectAll (fieldDelimiters d)) := by
  rw [pieces_encodeRecord hne hd hb hfields, group_recordPieces hne hd]

theorem map_revealAll_protectAll
    (hne : d ≠ []) (hd : escapeChar ∉ d) (fields : List Text) :
    (fields.map (protectAll (fieldDelimiters d))).map
      (revealAll (fieldDelimiters d)) = fields := by
  rw [List.map_map]
  exact List.map_id'' (fun f => revealAll_protectAll hne hd f) fields

theorem encodeRecord_ne_nil
    (hne : d ≠ []) (hd : escapeChar ∉ d) (hb : Borderless d) {fields : List Text}
    (hnil : fields ≠ []) (hfields : fields ≠ [[]]) :
    encodeRecord d fields ≠ [] := by
  intro hempty
  have htokens := group_pieces_encodeRecord hne hd hb hnil
  rw [hempty, pieces_nil hne, group_singleton] at htokens
  have hprotect : protectAll (fieldDelimiters d) [] = [] := by
    rw [protectAll_fieldDelimiters hd, Escape.double_nil, Escape.protect_eq_weave hne,
      Escape.weave_pieces_nil hne]
  have hreveal := revealAll_protectAll hne hd []
  rw [hprotect] at hreveal
  have hback := map_revealAll_protectAll hne hd fields
  rw [← htokens, List.map_singleton, hreveal] at hback
  exact hfields hback.symm

/-- Protecting, joining, splitting and revealing lose nothing: the fields of a
record are read back from its text, whatever they contain.  A single empty field
cannot be told from no field at all. -/
theorem decodeRecord_encodeRecord
    (hne : d ≠ []) (hesc : escapeChar ∉ d) (hb : Borderless d) {fields : List Text}
    (hfields : fields ≠ [[]]) :
    decodeRecord d (encodeRecord d fields) = fields := by
  by_cases hnil : fields = []
  · rw [hnil, encodeRecord, decodeRecord, split_eq_group]
    simp
  · have hrecord := encodeRecord_ne_nil hne hesc hb hnil hfields
    rw [decodeRecord, split_eq_group, if_neg hrecord,
      group_pieces_encodeRecord hne hesc hb hnil]
    exact map_revealAll_protectAll hne hesc fields

/-- Fields that are empty, that end in escapes and that contain the delimiter or a
part of it are read back. -/
theorem decodeRecord_encodeRecord_colons :
    "::x".toList ≠ [] ∧ escapeChar ∉ "::x".toList ∧ Borderless "::x".toList ∧
      ["".toList, "a\\".toList, "\\::x\\\\".toList, "b:".toList] ≠ [[]] ∧
      decodeRecord "::x".toList
          (encodeRecord "::x".toList
            ["".toList, "a\\".toList, "\\::x\\\\".toList, "b:".toList]) =
        ["".toList, "a\\".toList, "\\::x\\\\".toList, "b:".toList] :=
  ⟨by decide, by decide, by decide, by decide,
    decodeRecord_encodeRecord (by decide) (by decide) (by decide) (by decide)⟩

end PatternText.Token
