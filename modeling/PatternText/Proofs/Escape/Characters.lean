import PatternText.Proofs.Escape.Pass

/-!
# Single characters as delimiters

When every delimiter is a single character, all of them can be protected or revealed
together while the text is read once.
-/

namespace PatternText.Escape

open Token (pieces)
open Text (byteSize located)

/-!
## Readings

Only the set of the characters matters to a reader, not their order or their repetition.
`IsProtected` describes the texts that protecting gives when the escape character is one
of the delimiters.
-/

/-- Writes an escape before every given character that is live, `armed` telling
whether the first one is escaped.  If the escape character is given too, what it
escapes counts as content and every given character is live. -/
def protectChars (delimiters : List Char) : (armed : Bool) → Text → Text
  | _, [] => []
  | armed, c :: r =>
    let rest := protectChars delimiters (armedBy armed c) r
    if delimiters.contains c && (delimiters.contains escapeChar || !armed) then
      escapeChar :: c :: rest
    else
      c :: rest

/-- Takes the escape away from every given character that has one.  An escape
and the character after it are read together, so an escaped escape does not
escape anything. -/
def revealChars (delimiters : List Char) : Text → Text
  | [] => []
  | [c] => [c]
  | c :: x :: r =>
    if c = escapeChar then
      if delimiters.contains x then
        x :: revealChars delimiters r
      else
        c :: x :: revealChars delimiters r
    else
      c :: revealChars delimiters (x :: r)

/-- A text in which every given character is escaped, and nothing else. -/
inductive IsProtected (delimiters : List Char) : Text → Prop where
  | nil : IsProtected delimiters []
  | plain (c : Char) (r : Text) :
      c ∉ delimiters → IsProtected delimiters r → IsProtected delimiters (c :: r)
  | escaped (c : Char) (r : Text) :
      c ∈ delimiters → IsProtected delimiters r →
        IsProtected delimiters (escapeChar :: c :: r)

/-!
## All passes in one reading

A list of single characters takes one pass for each, and every pass reads the
escapes that the ones before it have left.  Still, all passes together come to
one reading of the text: `protectAll_singletons` and `revealAll_singletons`.

The proof goes pass by pass.  A pass for one more character, after a reading for
some, is a reading for all of them.  The escapes written by a reading make the
characters they stand before look escaped to the next pass, and removing an
escape leaves no character that could escape what follows.
-/

/-! ### One pass for one character -/

/-- A pass that writes an escape before a character, or skips the escaped ones, is
a reading for that character. -/
theorem weave_singleton_eq_protectChars
    {c : Char} {mark : Bool → Text}
    (hmark : ∀ armed, mark armed =
      if c == escapeChar || !armed then [escapeChar, c] else [c])
    (armed : Bool) (s : Text) :
    weave [c] mark armed (pieces [c] s) = protectChars [c] armed s := by
  have hd : [c] ≠ [] := List.cons_ne_nil c []
  induction s using Text.search_induction hd generalizing armed with
  | ended => rw [weave_pieces_nil hd, protectChars]
  | found r ih =>
    have hswap : (escapeChar == c) = (c == escapeChar) := Bool.beq_comm
    rw [weave_pieces_found hd, ih, hmark, List.singleton_append, protectChars,
      armedOver_cons, armedOver_nil]
    simp only [List.contains_cons, List.contains_nil, Bool.or_false, beq_self_eq_true,
      Bool.true_and, hswap]
    split <;> rfl
  | step x r h ih =>
    have hx : x ≠ c := by
      rintro rfl
      exact h ⟨r, rfl⟩
    rw [weave_pieces_step hd _ _ h, ih, protectChars]
    simp [hx]

theorem protectPass_singleton (s : Text) (c : Char) :
    protectPass s [c] = protectChars [c] false s := by
  by_cases hc : c = escapeChar
  · subst hc
    have hpass : protectPass s [escapeChar] = double s := by
      simp [protectPass, escapeText]
    rw [hpass, double_eq_weave]
    exact weave_singleton_eq_protectChars (fun _ => rfl) false s
  · have hpass : protectPass s [c] = protect [c] s := by
      simp [protectPass, escapeText, hc]
    rw [hpass, protect_eq_weave (List.cons_ne_nil c [])]
    apply weave_singleton_eq_protectChars
    intro armed
    cases armed <;> simp [protectMark, hc]

theorem protect_singleton
    {c : Char}
    (hc : c ≠ escapeChar) (s : Text) :
    protect [c] s = protectChars [c] false s := by
  have hpass : protectPass s [c] = protect [c] s := by
    simp [protectPass, escapeText, hc]
  rw [← hpass, protectPass_singleton]

theorem applyAll?_protectEdits_singleton
    {c : Char}
    (hc : c ≠ escapeChar) (s : Text) :
    Text.Edit.applyAll? s (protectEdits [c] s) =
      some (protectChars [c] false s) := by
  have hd : [c] ≠ [] := List.cons_ne_nil c []
  rw [applyAll?_protectEdits hd, ← protect_eq_weave hd, protect_singleton hc]

theorem weave_reveal_armed
    {c x : Char}
    (hx : x ≠ c) (r : Text) :
    weave [escapeChar, c] (revealMark [c]) true (pieces [escapeChar, c] (x :: r)) =
      x :: weave [escapeChar, c] (revealMark [c]) false
        (pieces [escapeChar, c] r) := by
  have hd : [escapeChar, c] ≠ [] := List.cons_ne_nil escapeChar [c]
  have hnext : armedBy true x = false := by simp [armedBy]
  by_cases h : [escapeChar, c] <+: x :: r
  · -- The occurrence is escaped; its second character starts none itself.
    obtain ⟨rest, hrest⟩ := h
    simp only [List.cons_append, List.nil_append, List.cons.injEq] at hrest
    obtain ⟨rfl, rfl⟩ := hrest
    have hstep : ¬[escapeChar, c] <+: c :: rest := by
      rintro ⟨t, ht⟩
      exact hx (List.cons.inj ht).1
    have hfound := weave_pieces_found hd (revealMark [c]) true rest
    simp only [List.cons_append, List.nil_append] at hfound
    rw [hfound, weave_pieces_step hd _ _ hstep]
    simp [revealMark]
  · rw [weave_pieces_step hd _ _ h, hnext]

theorem reveal_singleton (c : Char) (s : Text) :
    reveal [c] s = revealChars [c] s := by
  have hd : [escapeChar, c] ≠ [] := List.cons_ne_nil escapeChar [c]
  rw [reveal_eq_weave (List.cons_ne_nil c [])]
  fun_induction revealChars [c] s with
  | case1 => exact weave_pieces_nil hd _ _
  | case2 x =>
    have hstep : ¬[escapeChar, c] <+: [x] := by
      rintro ⟨t, ht⟩
      simp at ht
    rw [weave_pieces_step hd _ _ hstep, weave_pieces_nil hd]
  | case3 x r hx ih =>
    have hxc : x = c := by simpa using hx
    have hnext : armedOver false [escapeChar, c] = false := by simp [armedBy]
    have hfound := weave_pieces_found hd (revealMark [c]) false r
    simp only [List.cons_append, List.nil_append] at hfound
    rw [hxc, hfound, hnext, ih]
    rfl
  | case4 x r hx ih =>
    have hxc : x ≠ c := by simpa using hx
    have hstep : ¬[escapeChar, c] <+: escapeChar :: x :: r := by
      rintro ⟨t, ht⟩
      simp only [List.cons_append, List.cons.injEq, true_and] at ht
      exact hxc ht.1.symm
    rw [weave_pieces_step hd _ _ hstep, armedBy_escapeChar, Bool.not_false,
      weave_reveal_armed hxc, ih]
  | case5 y x r hy ih =>
    have hstep : ¬[escapeChar, c] <+: y :: x :: r := by
      rintro ⟨t, ht⟩
      exact hy (List.cons.inj ht).1.symm
    rw [weave_pieces_step hd _ _ hstep, armedBy_of_ne _ hy, ih]

/-! ### One character of a reading -/

theorem protectChars_cons_of_live
    {c : Char} {ds : List Char} {armed : Bool}
    (h : c ∈ ds ∧ (escapeChar ∈ ds ∨ armed = false)) (r : Text) :
    protectChars ds armed (c :: r) =
      escapeChar :: c :: protectChars ds (armedBy armed c) r := by
  simp [protectChars, h]

theorem protectChars_cons_of_not_live
    {c : Char} {ds : List Char} {armed : Bool}
    (h : ¬(c ∈ ds ∧ (escapeChar ∈ ds ∨ armed = false))) (r : Text) :
    protectChars ds armed (c :: r) = c :: protectChars ds (armedBy armed c) r := by
  have hcontains : ¬(ds.contains c && (ds.contains escapeChar || !armed)) = true := by
    simpa using h
  rw [protectChars]
  exact if_neg hcontains

theorem protectChars_singleton_armed
    {d : Char}
    (hd : d ≠ escapeChar) (c : Char) (r : Text) :
    protectChars [d] true (c :: r) = c :: protectChars [d] false r := by
  simp [protectChars, armedBy, Ne.symm hd]

theorem protectChars_singleton_self
    {d : Char}
    (hd : d ≠ escapeChar) (r : Text) :
    protectChars [d] false (d :: r) = escapeChar :: d :: protectChars [d] false r := by
  simp [protectChars, armedBy_of_ne, hd]

theorem protectChars_singleton_of_ne
    {c d : Char}
    (hc : c ≠ d) (armed : Bool) (r : Text) :
    protectChars [d] armed (c :: r) = c :: protectChars [d] (armedBy armed c) r := by
  simp [protectChars, hc]

/-! ### Protecting one more character -/

theorem contains_congr
    {ds es : List Char}
    (h : ∀ c, c ∈ ds ↔ c ∈ es) (c : Char) :
    ds.contains c = es.contains c := by
  rw [Bool.eq_iff_iff, List.contains_iff_mem, List.contains_iff_mem]
  exact h c

theorem protectChars_congr
    {ds es : List Char}
    (h : ∀ c, c ∈ ds ↔ c ∈ es) (armed : Bool) (s : Text) :
    protectChars ds armed s = protectChars es armed s := by
  have hcontains := contains_congr h
  induction s generalizing armed with
  | nil => rfl
  | cons c r ih => simp only [protectChars, hcontains, ih]

@[simp] theorem protectChars_nil_left
    (armed : Bool) (s : Text) :
    protectChars [] armed s = s := by
  induction s generalizing armed with
  | nil => rfl
  | cons c r ih => simp [protectChars, ih]

/-- Protecting one more character after some comes to protecting all of them in
one reading. -/
theorem protectChars_append_of_notMem
    {c : Char} {ds : List Char}
    (hc : c ≠ escapeChar) (hds : escapeChar ∉ ds) (armed : Bool) (s : Text) :
    protectChars [c] armed (protectChars ds armed s) =
      protectChars (ds ++ [c]) armed s := by
  have hc' : escapeChar ≠ c := Ne.symm hc
  induction s generalizing armed with
  | nil => simp [protectChars]
  | cons x r ih =>
    have hrest := ih (armedBy armed x)
    by_cases hx : x ∈ ds
    · have hxe : x ≠ escapeChar := by
        rintro rfl
        exact hds hx
      rw [armedBy_of_ne _ hxe] at hrest
      cases armed <;> simp [protectChars, hds, hx, hc', hxe, armedBy_of_ne, hrest]
    · cases armed <;> by_cases hxc : x = c
      all_goals simp_all [protectChars]

/-- If the escape character is protected first, everything is content, so nothing
at the start is escaped for the second reading. -/
theorem protectChars_append_of_mem
    {c : Char} {ds : List Char}
    (hc : c ≠ escapeChar) (hds : escapeChar ∈ ds) (armed : Bool) (s : Text) :
    protectChars [c] false (protectChars ds armed s) =
      protectChars (ds ++ [c]) armed s := by
  have hc' : escapeChar ≠ c := Ne.symm hc
  induction s generalizing armed with
  | nil => simp [protectChars]
  | cons x r ih =>
    have hrest := ih (armedBy armed x)
    by_cases hx : x ∈ ds
    · have hnext : armedBy true x = false := by simp [armedBy]
      simp [protectChars, hds, hx, hc', hnext, hrest]
    · have hxe : x ≠ escapeChar := by
        rintro rfl
        exact hx hds
      rw [armedBy_of_ne _ hxe] at hrest
      by_cases hxc : x = c
      all_goals simp_all [protectChars, armedBy_of_ne]

/-- Passes for further characters, none of them the escape character, extend a
reading that starts unescaped. -/
theorem foldl_protectPass
    (ds : List Char) {cs : List Char}
    (hcs : escapeChar ∉ cs) (s : Text) :
    (cs.map fun c => [c]).foldl protectPass (protectChars ds false s) =
      protectChars (ds ++ cs) false s := by
  induction cs generalizing ds with
  | nil => simp
  | cons c cs ih =>
    rw [List.mem_cons, not_or] at hcs
    obtain ⟨hc, hrest⟩ := hcs
    have hpass : protectChars [c] false (protectChars ds false s) =
        protectChars (ds ++ [c]) false s := by
      by_cases hds : escapeChar ∈ ds
      · exact protectChars_append_of_mem (Ne.symm hc) hds false s
      · exact protectChars_append_of_notMem (Ne.symm hc) hds false s
    rw [List.map_cons, List.foldl_cons, protectPass_singleton, hpass, ih _ hrest,
      List.append_assoc, List.singleton_append]

/-! ### Revealing one more character -/

theorem revealChars_congr
    {ds es : List Char}
    (h : ∀ c, c ∈ ds ↔ c ∈ es) (s : Text) :
    revealChars ds s = revealChars es s := by
  have hcontains := contains_congr h
  fun_induction revealChars ds s with
  | case1 => rfl
  | case2 c => rfl
  | case3 x r hx ih =>
    rw [hcontains] at hx
    rw [revealChars, if_pos rfl, if_pos hx, ih]
  | case4 x r hx ih =>
    rw [hcontains] at hx
    rw [revealChars, if_pos rfl, if_neg hx, ih]
  | case5 c x r hc ih => rw [revealChars, if_neg hc, ih]

theorem revealChars_cons_of_ne
    {c : Char}
    (ds : List Char) (hc : c ≠ escapeChar) (r : Text) :
    revealChars ds (c :: r) = c :: revealChars ds r := by
  cases r with
  | nil => rfl
  | cons x r => rw [revealChars, if_neg hc]

theorem revealChars_escape_of_mem
    {c : Char} {ds : List Char}
    (hc : c ∈ ds) (r : Text) :
    revealChars ds (escapeChar :: c :: r) = c :: revealChars ds r := by
  rw [revealChars, if_pos rfl, if_pos (List.contains_iff_mem.2 hc)]

theorem revealChars_escape_of_notMem
    {c : Char} {ds : List Char}
    (hc : c ∉ ds) (r : Text) :
    revealChars ds (escapeChar :: c :: r) =
      escapeChar :: c :: revealChars ds r := by
  rw [revealChars, if_pos rfl, if_neg (mt List.contains_iff_mem.1 hc)]

@[simp] theorem revealChars_nil_left (s : Text) :
    revealChars [] s = s := by
  fun_induction revealChars [] s with
  | case1 => rfl
  | case2 c => rfl
  | case3 x r hx ih => simp at hx
  | case4 x r hx ih => rw [ih]
  | case5 c x r hc ih => rw [ih]

/-- Revealing one more character after some comes to revealing all of them in one
reading, as long as no escape character has been revealed. -/
theorem revealChars_append
    {ds : List Char}
    (hds : escapeChar ∉ ds) (c : Char) (s : Text) :
    revealChars [c] (revealChars ds s) = revealChars (ds ++ [c]) s := by
  fun_induction revealChars ds s with
  | case1 => rfl
  | case2 x => rfl
  | case3 x r hx ih =>
    have hmem : x ∈ ds := List.contains_iff_mem.1 hx
    have hxe : x ≠ escapeChar := by
      rintro rfl
      exact hds hmem
    rw [revealChars_cons_of_ne _ hxe, ih,
      revealChars_escape_of_mem (List.mem_append_left [c] hmem)]
  | case4 x r hx ih =>
    have hnot : x ∉ ds := mt List.contains_iff_mem.2 hx
    by_cases hxc : x = c
    · have hlast : x ∈ [c] := List.mem_singleton.2 hxc
      rw [revealChars_escape_of_mem hlast, ih,
        revealChars_escape_of_mem (List.mem_append_right ds hlast)]
    · have hlast : x ∉ [c] := mt List.mem_singleton.1 hxc
      have hboth : x ∉ ds ++ [c] := by
        rw [List.mem_append, not_or]
        exact ⟨hnot, hlast⟩
      rw [revealChars_escape_of_notMem hlast, ih, revealChars_escape_of_notMem hboth]
  | case5 y x r hy ih =>
    rw [revealChars_cons_of_ne _ hy, ih, revealChars_cons_of_ne _ hy]

theorem foldl_reveal
    {ds cs : List Char}
    (hds : escapeChar ∉ ds) (hcs : escapeChar ∉ cs) (s : Text) :
    (cs.map fun c => [c]).foldl (fun t d => reveal d t) (revealChars ds s) =
      revealChars (ds ++ cs) s := by
  induction cs generalizing ds with
  | nil => simp
  | cons c cs ih =>
    rw [List.mem_cons, not_or] at hcs
    obtain ⟨hc, hrest⟩ := hcs
    have hnext : escapeChar ∉ ds ++ [c] := by
      rw [List.mem_append, List.mem_singleton, not_or]
      exact ⟨hds, hc⟩
    rw [List.map_cons, List.foldl_cons, reveal_singleton, revealChars_append hds,
      ih hnext hrest, List.append_assoc, List.singleton_append]

/-! ### All passes -/

theorem ordinary_singletons (ds : List Char) :
    ordinary (ds.map fun c => [c]) =
      (ds.filter (· != escapeChar)).map fun c => [c] := by
  rw [ordinary, List.filter_map]
  congr 1
  apply List.filter_congr
  intro c _
  simp [escapeText, bne]

theorem contains_escapeText_singletons (ds : List Char) :
    (ds.map fun c => [c]).contains escapeText = ds.contains escapeChar := by
  rw [Bool.eq_iff_iff, List.contains_iff_mem, List.contains_iff_mem]
  simp [escapeText]

theorem escapeChar_notMem_filter (ds : List Char) :
    escapeChar ∉ ds.filter (· != escapeChar) := by
  simp

theorem protectAll_singletons (ds : List Char) (s : Text) :
    protectAll (ds.map fun c => [c]) s = protectChars ds false s := by
  have hrest := escapeChar_notMem_filter ds
  rw [protectAll, escapeFirst, contains_escapeText_singletons, ordinary_singletons]
  by_cases h : escapeChar ∈ ds
  · have hpasses := foldl_protectPass [escapeChar] hrest s
    rw [if_pos (List.contains_iff_mem.2 h), List.foldl_cons, escapeText,
      protectPass_singleton, hpasses]
    apply protectChars_congr
    intro c
    by_cases hc : c = escapeChar <;> simp [hc, h]
  · have hpasses := foldl_protectPass [] hrest s
    rw [protectChars_nil_left, List.nil_append] at hpasses
    rw [if_neg (mt List.contains_iff_mem.1 h), hpasses]
    apply protectChars_congr
    intro c
    by_cases hc : c = escapeChar <;> simp [hc, h]

theorem revealAll_singletons (ds : List Char) (s : Text) :
    revealAll (ds.map fun c => [c]) s = revealChars ds s := by
  have hrest := escapeChar_notMem_filter ds
  have hpasses := foldl_reveal (List.not_mem_nil) hrest s
  rw [revealChars_nil_left, List.nil_append] at hpasses
  rw [revealAll, escapeLast, contains_escapeText_singletons, ordinary_singletons]
  by_cases h : escapeChar ∈ ds
  · rw [if_pos (List.contains_iff_mem.2 h), List.foldl_append, hpasses,
      List.foldl_cons, List.foldl_nil, escapeText, reveal_singleton,
      revealChars_append hrest]
    apply revealChars_congr
    intro c
    by_cases hc : c = escapeChar <;> simp [hc, h]
  · rw [if_neg (mt List.contains_iff_mem.1 h), hpasses]
    apply revealChars_congr
    intro c
    by_cases hc : c = escapeChar <;> simp [hc, h]

/-!
## The text by its positions

All passes for single characters together can also be described without passes and
without a reader: every character stands for itself or for its escaped form, which its
position in the text alone decides.  Neither this nor the reading that reveals characters
asks in which order the characters are given, or how often.
-/

/-- What stands in a protected text for the character at a position: its escaped form if
it is given and live.  If the escape character is given too, every given character is
live. -/
def protectedAt (ds : List Char) (s : Text) (place : Nat × Char) : Text :=
  if place.2 ∈ ds ∧ (escapeChar ∈ ds ∨ isEscapedAt s place.1 = false) then
    [escapeChar, place.2]
  else
    [place.2]

theorem protectedAt_byteSize
    {s : Text}
    (ds : List Char) (a : Text) (c : Char) (r : Text) (hs : a ++ c :: r = s) :
    protectedAt ds s (byteSize a, c) =
      if ds.contains c && (ds.contains escapeChar || !armedOver false a) then
        [escapeChar, c]
      else
        [c] := by
  subst hs
  simp [protectedAt, isEscapedAt_byteSize]

theorem protectChars_eq_flatMap
    {a r s : Text}
    (ds : List Char) (hs : a ++ r = s) :
    protectChars ds (armedOver false a) r =
      (located (byteSize a) r).flatMap (protectedAt ds s) := by
  induction r generalizing a with
  | nil => rfl
  | cons c r ih =>
    have hrest := ih (a := a ++ [c]) (by rw [← hs]; simp)
    rw [armedOver_append, armedOver_cons, armedOver_nil, Text.byteSize_append,
      Text.byteSize_cons, Text.byteSize_nil, Nat.add_zero] at hrest
    rw [protectChars, hrest, located, List.flatMap_cons, protectedAt_byteSize ds a c r hs]
    split <;> rfl

/-- The passes for single characters come to one reading.  Protecting writes an escape
before every given character that is live in the text itself, and revealing reads each
escape together with the next character.  Both depend on nothing but which characters are
given. -/
theorem passes_singletons (ds : List Char) (s : Text) :
    protectAll (ds.map fun c => [c]) s = (located 0 s).flatMap (protectedAt ds s) ∧
    revealAll (ds.map fun c => [c]) s = revealChars ds s ∧
    ∀ es : List Char, (∀ c, c ∈ es ↔ c ∈ ds) →
      protectAll (es.map fun c => [c]) s = protectAll (ds.map fun c => [c]) s ∧
      revealAll (es.map fun c => [c]) s = revealAll (ds.map fun c => [c]) s := by
  refine ⟨?_, revealAll_singletons ds s, ?_⟩
  · rw [protectAll_singletons]
    exact protectChars_eq_flatMap ds (List.nil_append s)
  · intro es hes
    rw [protectAll_singletons, protectAll_singletons, revealAll_singletons,
      revealAll_singletons]
    exact ⟨protectChars_congr hes false s, revealChars_congr hes s⟩

/-- Neither the order of the characters matters nor a repetition, also with the escape
character among them. -/
theorem passes_singletons_repeated :
    (∀ c, c ∈ ['\\', ',', ',', '.'] ↔ c ∈ ['.', ',', '\\']) ∧
      protectAll [['\\'], [','], [','], ['.']] "a\\,.\\\\,".toList =
        protectAll [['.'], [','], ['\\']] "a\\,.\\\\,".toList ∧
      revealAll [['\\'], [','], [','], ['.']] "a\\,.\\\\,".toList =
        revealAll [['.'], [','], ['\\']] "a\\,.\\\\,".toList := by
  have hmem : ∀ c, c ∈ ['\\', ',', ',', '.'] ↔ c ∈ ['.', ',', '\\'] := by
    intro c
    simp only [List.mem_cons, List.not_mem_nil, or_false]
    grind
  have h := (passes_singletons ['.', ',', '\\'] "a\\,.\\\\,".toList).2.2
    ['\\', ',', ',', '.'] hmem
  exact ⟨hmem, h.1, h.2⟩

end PatternText.Escape
