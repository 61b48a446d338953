import PatternText.Proofs.Pattern.GlobItems

/-!
# The patterns that have a glob

Anchors are stripped from a pattern and a wildcard is appended to it by looking at
its text alone.  What is left is the text of the items that match a whole text:
`Form.beforeEnd_body`.  A pattern thus has a glob exactly if it is the text of a
complete form, and any other pattern is refused for one of two reasons.
-/

namespace PatternText.Pattern.Glob

open Escape (escapeChar isMeta metachars protectChars protectMeta)

/-! ## The start of a pattern -/

theorem afterStart?_eq_none_iff {p : Text} :
    afterStart? p = none ↔ ¬['^'] <+: p ∧ ¬anything <+: p := by
  unfold afterStart?
  split
  · simp
  · rename_i hstart
    have hcaret : ¬['^'] <+: p := by
      rintro ⟨body, rfl⟩
      exact hstart body rfl
    by_cases hfront : anything <+: p
    · simp [hfront]
    · simp [hcaret, hfront]

theorem eq_of_afterStart?
    {p body : Text}
    (h : afterStart? p = some body) :
    p = '^' :: body ∨ p = body ∧ anything <+: body := by
  unfold afterStart? at h
  split at h
  · obtain rfl := Option.some.inj h
    exact .inl rfl
  · split at h
    · rename_i hfront
      obtain rfl := Option.some.inj h
      exact .inr ⟨rfl, List.isPrefixOf_iff_prefix.1 hfront⟩
    · exact absurd h (by simp)

theorem Form.head?_of_anything_prefix
    {f : Form}
    (hf : ∀ i ∈ f.items, i.IsPlain) (h : anything <+: f.body) :
    f.items.head? = some .anything := by
  obtain ⟨rest, hrest⟩ := h
  rw [body] at hrest
  -- A wildcard cannot come from the end anchor, so there is a first item.
  cases hitems : f.items with
  | nil =>
    rw [hitems, List.flatMap_nil, List.nil_append] at hrest
    exact absurd hrest.symm (endAnchor_ne_toPattern_append (i := .anything) trivial _ _)
  | cons i items =>
    rw [hitems, List.flatMap_cons, List.append_assoc] at hrest
    obtain ⟨rfl, -⟩ := Item.toPattern_append_inj (i := .anything) trivial
      (hf i (hitems ▸ List.mem_cons_self)) hrest
    rfl

theorem Form.IsComplete.afterStart?_toPattern
    {f : Form}
    (h : f.IsComplete) :
    afterStart? f.toPattern = some f.body := by
  rw [toPattern_eq_append_body]
  cases hstart : f.anchoredStart with
  | true => rfl
  | false =>
    have hhead : f.items.head? = some .anything := h.2.resolve_left (by simp [hstart])
    obtain ⟨rest, hrest⟩ := List.head?_eq_some_iff.1 hhead
    have hbody : f.body = anything ++
        (rest.flatMap Item.toPattern ++ (if f.anchoredEnd then ['$'] else [])) := by
      rw [body, hrest, List.flatMap_cons, List.append_assoc]
      rfl
    rw [hbody]
    simp [anything, afterStart?]

/-! ## The end of a pattern -/

theorem anything_suffix_flatMap_iff
    {items : List Item}
    (h : ∀ i ∈ items, i.IsPlain) :
    anything <:+ items.flatMap Item.toPattern ↔ items.getLast? = some .anything := by
  rcases List.eq_nil_or_concat items with rfl | ⟨init, i, rfl⟩
  · simp [anything]
  rw [List.concat_eq_append, List.flatMap_append, List.flatMap_singleton,
    List.getLast?_concat, Option.some_inj]
  constructor
  · rintro ⟨front, hfront⟩
    have hstar : (front ++ ['.']) ++ ['*'] =
        init.flatMap Item.toPattern ++ i.toPattern := by
      rw [← hfront, List.append_assoc]
      rfl
    cases i with
    | plain c =>
      obtain ⟨-, hc⟩ := List.append_inj' hstar rfl
      obtain rfl : '*' = c := List.singleton_inj.1 hc
      exact absurd (h (.plain '*') (by simp)) (by decide)
    | dot =>
      rw [Item.toPattern, List.append_cons _ '\\'] at hstar
      obtain ⟨-, hc⟩ := List.append_inj' hstar rfl
      exact absurd hc (by decide)
    | anything => rfl
  · rintro rfl
    exact List.suffix_append _ _

theorem anchor_ne_getLast?_flatMap
    {items : List Item}
    (h : ∀ i ∈ items, i.IsPlain) :
    (items.flatMap Item.toPattern).getLast? ≠ some '$' := by
  intro hlast
  exact anchor_notMem_flatMap h (.inr rfl) (List.mem_of_getLast? hlast)

/-- Without its anchors, and with a wildcard if it may go on, a form is the text of
the items for a whole text. -/
theorem Form.beforeEnd_body
    {f : Form}
    (h : ∀ i ∈ f.items, i.IsPlain) :
    beforeEnd f.body = f.wholeItems.flatMap Item.toPattern := by
  rw [body, wholeItems]
  cases f.anchoredEnd with
  | true => simp [beforeEnd]
  | false =>
    simp only [Bool.false_eq_true, if_false, List.append_nil, Bool.false_or, beq_iff_eq]
    simp only [beforeEnd, if_neg (anchor_ne_getLast?_flatMap h),
      List.isSuffixOf_iff_suffix, anything_suffix_flatMap_iff h]
    split
    · rfl
    · rw [List.flatMap_append]
      rfl

/-- If items are left of a text without its end, the text is that of a form which
consists of these items. -/
theorem Form.exists_body_eq
    {items : List Item} {s : Text}
    (h : ∀ i ∈ items, i.IsPlain) (hs : items.flatMap Item.toPattern = beforeEnd s)
    (anchoredStart : Bool) :
    ∃ f : Form, f.anchoredStart = anchoredStart ∧ (∀ i ∈ f.items, i.IsPlain) ∧
      f.body = s ∧ f.wholeItems = items := by
  rw [beforeEnd] at hs
  split at hs
  · rename_i hlast
    obtain ⟨init, rfl⟩ := List.getLast?_eq_some_iff.1 hlast
    refine ⟨⟨anchoredStart, items, true⟩, rfl, h, ?_, rfl⟩
    rw [body, hs, List.dropLast_concat]
    rfl
  · split at hs
    · rename_i hsuffix
      rw [← hs, List.isSuffixOf_iff_suffix, anything_suffix_flatMap_iff h] at hsuffix
      refine ⟨⟨anchoredStart, items, false⟩, rfl, h, ?_, ?_⟩
      · rw [body, hs]
        exact List.append_nil s
      · rw [wholeItems, if_pos]
        simp [hsuffix]
    · -- The appended wildcard is the last item, and no other one stands before it.
      rename_i hsuffix
      have hlast : items.getLast? = some .anything := by
        rw [← anything_suffix_flatMap_iff h, hs]
        exact List.suffix_append _ _
      obtain ⟨init, rfl⟩ := List.getLast?_eq_some_iff.1 hlast
      have hinit : ∀ i ∈ init, i.IsPlain := by
        intro i hi
        exact h i (List.mem_append_left _ hi)
      have htext : init.flatMap Item.toPattern = s := by
        rw [List.flatMap_append] at hs
        exact List.append_cancel_right hs
      rw [← htext, List.isSuffixOf_iff_suffix, anything_suffix_flatMap_iff hinit]
        at hsuffix
      refine ⟨⟨anchoredStart, init, false⟩, rfl, hinit, ?_, ?_⟩
      · rw [body, htext]
        exact List.append_nil s
      · rw [wholeItems, if_neg]
        simp [hsuffix]

/-! ## Whole patterns -/

theorem ofBody_beforeEnd_eq_ok_iff
    {s g : Text} (anchoredStart : Bool) :
    ofBody (beforeEnd s) = .ok g ↔
      ∃ f : Form, f.anchoredStart = anchoredStart ∧ (∀ i ∈ f.items, i.IsPlain) ∧
        f.body = s ∧ f.toGlob = g := by
  rw [reads_ofBody]
  constructor
  · rintro ⟨items, hitems, hs, rfl⟩
    obtain ⟨f, hstart, hf, hbody, rfl⟩ := Form.exists_body_eq hitems hs anchoredStart
    exact ⟨f, hstart, hf, hbody, f.toGlob_eq_flatMap⟩
  · rintro ⟨f, -, hf, rfl, rfl⟩
    exact ⟨f.wholeItems, Form.isPlain_of_mem_wholeItems hf,
      (Form.beforeEnd_body hf).symm, f.toGlob_eq_flatMap.symm⟩

/-- A pattern has a glob exactly if it is the text of a complete form, and then the
glob of that form. -/
theorem ofPattern_eq_ok_iff {p g : Text} :
    ofPattern p = .ok g ↔
      ∃ f : Form, f.IsComplete ∧ f.toPattern = p ∧ f.toGlob = g := by
  constructor
  · intro h
    rw [ofPattern] at h
    split at h
    · simp at h
    · rename_i body hstart
      rcases eq_of_afterStart? hstart with rfl | ⟨rfl, hfront⟩
      · obtain ⟨f, hanchored, hf, rfl, rfl⟩ := (ofBody_beforeEnd_eq_ok_iff true).1 h
        refine ⟨f, ⟨hf, .inl hanchored⟩, ?_, rfl⟩
        rw [Form.toPattern_eq_append_body, hanchored]
        rfl
      · obtain ⟨f, hanchored, hf, rfl, rfl⟩ := (ofBody_beforeEnd_eq_ok_iff false).1 h
        refine ⟨f, ⟨hf, .inr (Form.head?_of_anything_prefix hf hfront)⟩, ?_, rfl⟩
        rw [Form.toPattern_eq_append_body, hanchored]
        rfl
  · rintro ⟨f, hf, rfl, rfl⟩
    rw [ofPattern, hf.afterStart?_toPattern]
    exact (ofBody_beforeEnd_eq_ok_iff f.anchoredStart).2 ⟨f, rfl, hf.1, rfl, rfl⟩

theorem ofPattern_eq_unanchored_iff {p : Text} :
    ofPattern p = .error .unanchored ↔ ¬['^'] <+: p ∧ ¬anything <+: p := by
  rw [← afterStart?_eq_none_iff, ofPattern]
  cases afterStart? p with
  | none => simp
  | some body =>
    have hother : ofBody (beforeEnd body) ≠ .error .unanchored := by
      intro h
      obtain ⟨fragment, -, hfragment⟩ := eq_notLiteral_of_ofBody h
      exact Error.noConfusion hfragment
    exact iff_of_false hother (by simp)

theorem hasMeta_of_ofPattern
    {p fragment : Text}
    (h : ofPattern p = .error (.notLiteral fragment)) :
    Escape.hasMeta fragment = true := by
  rw [ofPattern] at h
  split at h
  · exact absurd h (by simp)
  · obtain ⟨part, hmeta, hpart⟩ := eq_notLiteral_of_ofBody h
    obtain rfl := Error.notLiteral.inj hpart
    exact hmeta

/-- The outcome of deriving a glob.  A pattern that has none is refused since it
does not begin with an anchor or a wildcard, or else since a part of it that has to
be literal holds a metacharacter. -/
theorem ofPattern_outcome (p : Text) :
    (∀ g, ofPattern p = .ok g ↔
        ∃ f : Form, f.IsComplete ∧ f.toPattern = p ∧ f.toGlob = g) ∧
      (ofPattern p = .error .unanchored ↔ ¬['^'] <+: p ∧ ¬anything <+: p) ∧
      ((∃ fragment, Escape.hasMeta fragment = true ∧
          ofPattern p = .error (.notLiteral fragment)) ↔
        (['^'] <+: p ∨ anything <+: p) ∧
          ¬∃ f : Form, f.IsComplete ∧ f.toPattern = p) := by
  have hok : (∃ g, ofPattern p = .ok g) ↔
      ∃ f : Form, f.IsComplete ∧ f.toPattern = p := by
    constructor
    · rintro ⟨g, hg⟩
      obtain ⟨f, hf, hp, -⟩ := ofPattern_eq_ok_iff.1 hg
      exact ⟨f, hf, hp⟩
    · rintro ⟨f, hf, hp⟩
      exact ⟨f.toGlob, ofPattern_eq_ok_iff.2 ⟨f, hf, hp, rfl⟩⟩
  have hstart : ['^'] <+: p ∨ anything <+: p ↔ ofPattern p ≠ .error .unanchored := by
    rw [ne_eq, ofPattern_eq_unanchored_iff]
    exact Decidable.or_iff_not_not_and_not
  refine ⟨fun g => ofPattern_eq_ok_iff, ofPattern_eq_unanchored_iff, ?_⟩
  rw [hstart, ← hok]
  cases h : ofPattern p with
  | ok g => simp
  | error e =>
    cases e with
    | unanchored => simp
    | notLiteral fragment => simp [hasMeta_of_ofPattern h]

/-!
## Protected texts

Protecting the metacharacters of a text gives a pattern that matches the text literally.  A
glob can say the same only if the text has no metacharacter but dots, and then the glob is
the text itself, `ofPattern_protectMeta`.

A protected text is read item by item.  An escape starts no item but an escaped dot, so every
character of the text has to be an item of its own.
-/

/-! ### One character -/

def protectedChar (c : Char) : Text :=
  if isMeta c then [escapeChar, c] else [c]

theorem protectChars_metachars_cons
    (armed : Bool) (c : Char) (r : Text) :
    protectChars metachars armed (c :: r) =
      protectedChar c ++ protectChars metachars (Escape.armedBy armed c) r := by
  have hiff : isMeta c = true ↔ c ∈ metachars := List.contains_iff_mem
  rw [protectedChar]
  by_cases hc : c ∈ metachars
  · rw [Escape.protectChars_cons_of_live ⟨hc, .inl Escape.escapeChar_mem_metachars⟩,
      if_pos (hiff.2 hc)]
    rfl
  · rw [Escape.protectChars_cons_of_not_live fun hlive => hc hlive.1,
      if_neg fun h => hc (hiff.1 h)]
    rfl

namespace Item

def ofChar (c : Char) : Item :=
  if c = '.' then .dot else .plain c

theorem toGlob_ofChar (c : Char) :
    (ofChar c).toGlob = [c] := by
  rw [ofChar]
  split
  · rename_i hc
    rw [hc, toGlob]
  · rfl

theorem toPattern_ofChar
    {c : Char}
    (hc : isMeta c = true → c = '.') :
    (ofChar c).IsPlain ∧ (ofChar c).toPattern = protectedChar c := by
  by_cases hdot : c = '.'
  · subst hdot
    exact ⟨trivial, rfl⟩
  · have hchar : ofChar c = .plain c := if_neg hdot
    have hmeta : ¬isMeta c = true := fun h => hdot (hc h)
    rw [hchar, protectedChar, if_neg hmeta]
    exact ⟨by simpa [IsPlain] using hmeta, rfl⟩

/-- An item that a protected character starts with is the item for that character, which is
no metacharacter other than a dot. -/
theorem eq_ofChar_of_append
    {i : Item} {c : Char} {t u : Text}
    (hi : i.IsPlain) (h : i.toPattern ++ t = protectedChar c ++ u) :
    (isMeta c = true → c = '.') ∧ i = ofChar c ∧ t = u := by
  by_cases hc : isMeta c = true → c = '.'
  · obtain ⟨hplain, hpattern⟩ := toPattern_ofChar hc
    rw [← hpattern] at h
    exact ⟨hc, toPattern_append_inj hi hplain h⟩
  · -- No item begins with an escape and then anything but a dot.
    rw [Classical.not_imp] at hc
    obtain ⟨hmeta, hdot⟩ := hc
    rw [protectedChar, if_pos hmeta] at h
    cases i with
    | plain d =>
      obtain ⟨rfl, -⟩ := List.cons.inj h
      exact absurd hi (by decide)
    | dot =>
      obtain ⟨-, hrest⟩ := List.cons.inj h
      exact absurd (List.cons.inj hrest).1.symm hdot
    | anything => exact absurd (List.cons.inj h).1 (by decide)

end Item

/-! ### Whole texts -/

/-- The only items that are written as a protected text are those for its characters, and
they are so only if the text has no metacharacter other than dots. -/
theorem flatMap_toPattern_eq_protectChars_iff
    {items : List Item} {s : Text}
    (armed : Bool) :
    (∀ i ∈ items, i.IsPlain) ∧
        items.flatMap Item.toPattern = protectChars metachars armed s ↔
      (∀ c ∈ s, isMeta c = true → c = '.') ∧ items = s.map Item.ofChar := by
  induction s generalizing items armed with
  | nil =>
    cases items with
    | nil => simp [protectChars]
    | cons i items => cases i <;> simp [Item.toPattern, protectChars]
  | cons c r ih =>
    rw [protectChars_metachars_cons, List.forall_mem_cons, List.map_cons]
    constructor
    · rintro ⟨hitems, h⟩
      cases items with
      | nil =>
        rw [List.flatMap_nil, protectedChar] at h
        split at h <;> simp at h
      | cons i items =>
        rw [List.forall_mem_cons] at hitems
        rw [List.flatMap_cons] at h
        obtain ⟨hc, rfl, hrest⟩ := Item.eq_ofChar_of_append hitems.1 h
        obtain ⟨hr, rfl⟩ := (ih _).1 ⟨hitems.2, hrest⟩
        exact ⟨⟨hc, hr⟩, rfl⟩
    · rintro ⟨⟨hc, hr⟩, rfl⟩
      obtain ⟨hplain, hpattern⟩ := Item.toPattern_ofChar hc
      obtain ⟨hitems, hrest⟩ := (ih (Escape.armedBy armed c)).2 ⟨hr, rfl⟩
      rw [List.forall_mem_cons, List.flatMap_cons, hpattern, hrest]
      exact ⟨⟨hplain, hitems⟩, rfl⟩

theorem flatMap_toGlob_ofChar (s : Text) :
    (s.map Item.ofChar).flatMap Item.toGlob = s := by
  rw [List.flatMap_map]
  simp only [Item.toGlob_ofChar, List.flatMap_singleton']

theorem ofPattern_anchored (t : Text) :
    ofPattern ('^' :: t ++ ['$']) = ofBody t := by
  have hstart : afterStart? ('^' :: t ++ ['$']) = some (t ++ ['$']) := rfl
  have hend : beforeEnd (t ++ ['$']) = t := by simp [beforeEnd]
  simp only [ofPattern, hstart, hend]

theorem ofBody_protectMeta_eq_ok_iff {s g : Text} :
    ofBody (protectMeta s) = .ok g ↔ (∀ c ∈ s, isMeta c = true → c = '.') ∧ s = g := by
  rw [reads_ofBody, Escape.protectMeta_eq_protectChars]
  constructor
  · rintro ⟨items, hitems, hpattern, rfl⟩
    obtain ⟨hs, rfl⟩ := (flatMap_toPattern_eq_protectChars_iff false).1 ⟨hitems, hpattern⟩
    exact ⟨hs, (flatMap_toGlob_ofChar s).symm⟩
  · rintro ⟨hs, rfl⟩
    obtain ⟨hitems, hpattern⟩ := (flatMap_toPattern_eq_protectChars_iff false).2 ⟨hs, rfl⟩
    exact ⟨s.map Item.ofChar, hitems, hpattern, flatMap_toGlob_ofChar s⟩

/-- A text with all its metacharacters protected, between anchors, has a glob exactly if no
metacharacter other than a dot occurs in the text, and the glob is the text itself.  Any
other text is refused because a part of it that has to be literal is not. -/
theorem ofPattern_protectMeta (s : Text) :
    (ofPattern ('^' :: protectMeta s ++ ['$']) = .ok s ↔
        ∀ c ∈ s, isMeta c = true → c = '.') ∧
      ((∃ fragment,
          ofPattern ('^' :: protectMeta s ++ ['$']) = .error (.notLiteral fragment)) ↔
        ∃ c ∈ s, isMeta c = true ∧ c ≠ '.') := by
  rw [ofPattern_anchored]
  constructor
  · rw [ofBody_protectMeta_eq_ok_iff, eq_self, and_true]
  · have hother : (∃ c ∈ s, isMeta c = true ∧ c ≠ '.') ↔
        ¬∀ c ∈ s, isMeta c = true → c = '.' := by
      simp
    rw [hother]
    cases h : ofBody (protectMeta s) with
    | ok g =>
      have hs := (ofBody_protectMeta_eq_ok_iff.1 h).1
      exact iff_of_false (by simp) (not_not_intro hs)
    | error e =>
      obtain ⟨fragment, -, rfl⟩ := eq_notLiteral_of_ofBody h
      refine iff_of_true ⟨fragment, rfl⟩ fun hs => ?_
      rw [ofBody_protectMeta_eq_ok_iff.2 ⟨hs, rfl⟩] at h
      exact absurd h (by simp)

end PatternText.Pattern.Glob
