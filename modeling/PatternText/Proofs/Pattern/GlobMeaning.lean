import PatternText.Proofs.Pattern.GlobGrammar

/-!
# What a derived glob matches

A pattern is searched for, whereas a glob matches a text as a whole.  The
difference is made up by wildcards: one at the start of a form that is not anchored
there takes in what precedes a match, and the last of the items for a whole text
takes in what follows it.  Within a line, the glob therefore matches exactly the
texts in which the pattern finds a match.
-/

namespace PatternText.Pattern.Glob

/-! ## Matching items -/

theorem itemsMatch_plain_cons_iff
    {c : Char} {is : List Item} {t : Text} :
    ItemsMatch (.plain c :: is) t ↔ ∃ v, t = c :: v ∧ ItemsMatch is v := by
  constructor
  · intro h
    cases h with
    | plain _ h => exact ⟨_, rfl, h⟩
  · rintro ⟨v, rfl, h⟩
    exact .plain c h

theorem itemsMatch_dot_cons_iff {is : List Item} {t : Text} :
    ItemsMatch (.dot :: is) t ↔ ∃ v, t = '.' :: v ∧ ItemsMatch is v := by
  constructor
  · intro h
    cases h with
    | dot h => exact ⟨_, rfl, h⟩
  · rintro ⟨v, rfl, h⟩
    exact .dot h

theorem itemsMatch_anything_cons_iff
    {is : List Item} {t : Text} :
    ItemsMatch (.anything :: is) t ↔
      ∃ u v, t = u ++ v ∧ '\n' ∉ u ∧ ItemsMatch is v := by
  constructor
  · intro h
    cases h with
    | anything u hu h => exact ⟨u, _, rfl, hu, h⟩
  · rintro ⟨u, v, rfl, hu, h⟩
    exact .anything u hu h

theorem itemsMatch_nil_iff {t : Text} :
    ItemsMatch [] t ↔ t = [] := by
  constructor
  · intro h
    cases h
    rfl
  · rintro rfl
    exact .nil

theorem itemsMatch_anything_iff {t : Text} :
    ItemsMatch [.anything] t ↔ '\n' ∉ t := by
  simp [itemsMatch_anything_cons_iff, itemsMatch_nil_iff]

theorem ItemsMatch.append
    {is js : List Item} {u v : Text}
    (hu : ItemsMatch is u) (hv : ItemsMatch js v) :
    ItemsMatch (is ++ js) (u ++ v) := by
  induction hu with
  | nil => exact hv
  | plain c _ ih => exact .plain c ih
  | dot _ ih => exact .dot ih
  | anything w hw _ ih =>
    rw [List.append_assoc]
    exact .anything w hw ih

theorem itemsMatch_append_iff {is js : List Item} {t : Text} :
    ItemsMatch (is ++ js) t ↔
      ∃ u v, t = u ++ v ∧ ItemsMatch is u ∧ ItemsMatch js v := by
  constructor
  · intro h
    induction is generalizing t with
    | nil => exact ⟨[], t, rfl, .nil, h⟩
    | cons i is ih =>
      cases h with
      | plain c h =>
        obtain ⟨u, v, rfl, hu, hv⟩ := ih h
        exact ⟨c :: u, v, rfl, .plain c hu, hv⟩
      | dot h =>
        obtain ⟨u, v, rfl, hu, hv⟩ := ih h
        exact ⟨'.' :: u, v, rfl, .dot hu, hv⟩
      | anything w hw h =>
        obtain ⟨u, v, rfl, hu, hv⟩ := ih h
        exact ⟨w ++ u, v, (List.append_assoc w u v).symm, .anything w hw hu, hv⟩
  · rintro ⟨u, v, rfl, hu, hv⟩
    exact hu.append hv

/-! ## Wildcards at the ends -/

theorem ItemsMatch.prepend
    {is : List Item} {a t : Text}
    (h : ItemsMatch is t) (hhead : is.head? = some .anything) (ha : '\n' ∉ a) :
    ItemsMatch is (a ++ t) := by
  obtain ⟨rest, rfl⟩ := List.head?_eq_some_iff.1 hhead
  obtain ⟨u, v, rfl, hu, hv⟩ := itemsMatch_anything_cons_iff.1 h
  rw [← List.append_assoc]
  refine .anything (a ++ u) ?_ hv
  exact List.not_mem_append ha hu

theorem ItemsMatch.extend
    {is : List Item} {t b : Text}
    (h : ItemsMatch is t) (hlast : is.getLast? = some .anything) (hb : '\n' ∉ b) :
    ItemsMatch is (t ++ b) := by
  obtain ⟨init, rfl⟩ := List.getLast?_eq_some_iff.1 hlast
  obtain ⟨u, v, rfl, hu, hv⟩ := itemsMatch_append_iff.1 h
  rw [itemsMatch_anything_iff] at hv
  rw [List.append_assoc]
  refine hu.append (itemsMatch_anything_iff.2 ?_)
  exact List.not_mem_append hv hb

/-- Searching for a complete form within a line is matching its items for a whole
text against it. -/
theorem Form.IsComplete.finds_iff
    {f : Form} {t : Text}
    (hf : f.IsComplete) (ht : '\n' ∉ t) :
    f.Finds t ↔ ItemsMatch f.wholeItems t := by
  rw [wholeItems]
  constructor
  · rintro ⟨a, m, b, rfl, hm, hstart, hend⟩
    obtain ⟨⟨ha, -⟩, hb⟩ : ('\n' ∉ a ∧ '\n' ∉ m) ∧ '\n' ∉ b := by
      simpa only [List.mem_append, not_or] using ht
    -- A match that begins later is one that begins at once.
    have hfront : ItemsMatch f.items (a ++ m) := by
      rcases hf.2 with hanchored | hhead
      · rw [hstart hanchored]
        exact hm
      · exact hm.prepend hhead ha
    split
    · rename_i hwhole
      rw [Bool.or_eq_true, beq_iff_eq] at hwhole
      rcases hwhole with hanchored | hlast
      · rw [hend hanchored, List.append_nil]
        exact hfront
      · exact hfront.extend hlast hb
    · exact hfront.append (itemsMatch_anything_iff.2 hb)
  · intro h
    split at h
    · exact ⟨[], t, [], (List.append_nil t).symm, h, fun _ => rfl, fun _ => rfl⟩
    · rename_i hwhole
      obtain ⟨m, b, rfl, hm, -⟩ := itemsMatch_append_iff.1 h
      refine ⟨[], m, b, rfl, hm, fun _ => rfl, ?_⟩
      intro hanchored
      rw [hanchored, Bool.true_or] at hwhole
      exact absurd rfl hwhole

/-! ## Globs -/

theorem globMatches_star_cons_iff {g t : Text} :
    GlobMatches ('*' :: g) t ↔ ∃ u v, t = u ++ v ∧ GlobMatches g v := by
  constructor
  · intro h
    cases h with
    | star u h => exact ⟨u, _, rfl, h⟩
    | char _ hne _ => exact absurd rfl hne
  · rintro ⟨u, v, rfl, h⟩
    exact .star u h

theorem globMatches_cons_iff
    {c : Char} {g t : Text}
    (hc : c ≠ '*') :
    GlobMatches (c :: g) t ↔ ∃ v, t = c :: v ∧ GlobMatches g v := by
  constructor
  · intro h
    cases h with
    | star _ _ => exact absurd rfl hc
    | char _ _ h => exact ⟨_, rfl, h⟩
  · rintro ⟨v, rfl, h⟩
    exact .char c hc h

/-- Within a line, items match the same texts as their glob. -/
theorem itemsMatch_iff_globMatches
    {is : List Item} {t : Text}
    (his : ∀ i ∈ is, i.IsPlain) (ht : '\n' ∉ t) :
    ItemsMatch is t ↔ GlobMatches (is.flatMap Item.toGlob) t := by
  induction is generalizing t with
  | nil =>
    rw [itemsMatch_nil_iff]
    constructor
    · rintro rfl
      exact .nil
    · intro h
      cases h
      rfl
  | cons i is ih =>
    have hlater : ∀ u v, t = u ++ v →
        (ItemsMatch is v ↔ GlobMatches (is.flatMap Item.toGlob) v) := by
      rintro u v rfl
      exact ih (fun j hj => his j (List.mem_cons_of_mem i hj))
        (fun h => ht (List.mem_append_right u h))
    -- Characters and dots match one character, here as in the glob.
    have hchar : ∀ c, (∃ v, t = c :: v ∧ ItemsMatch is v) ↔
        ∃ v, t = c :: v ∧ GlobMatches (is.flatMap Item.toGlob) v := by
      intro c
      exact exists_congr fun v => and_congr_right (hlater [c] v)
    rw [List.flatMap_cons]
    cases i with
    | plain c =>
      have hne : c ≠ '*' := by
        rintro rfl
        exact absurd (his (.plain '*') List.mem_cons_self) (by decide)
      rw [itemsMatch_plain_cons_iff, Item.toGlob, List.singleton_append,
        globMatches_cons_iff hne, hchar]
    | dot =>
      rw [itemsMatch_dot_cons_iff, Item.toGlob, List.singleton_append,
        globMatches_cons_iff (by decide), hchar]
    | anything =>
      rw [itemsMatch_anything_cons_iff, Item.toGlob, List.singleton_append,
        globMatches_star_cons_iff]
      constructor
      · rintro ⟨u, v, htext, -, hv⟩
        exact ⟨u, v, htext, (hlater u v htext).1 hv⟩
      · rintro ⟨u, v, htext, hv⟩
        refine ⟨u, v, htext, fun h => ht ?_, (hlater u v htext).2 hv⟩
        rw [htext]
        exact List.mem_append_left v h

/-! ## Patterns -/

theorem patternFinds_toPattern_iff
    {f : Form} {t : Text}
    (hf : ∀ i ∈ f.items, i.IsPlain) :
    PatternFinds f.toPattern t ↔ f.Finds t := by
  constructor
  · rintro ⟨f', hf', htext, hfinds⟩
    rwa [← Form.toPattern_inj hf' hf htext]
  · intro h
    exact ⟨f, hf, rfl, h⟩

/-- Within a line, the glob of a pattern matches a text exactly if the pattern finds
a match in it. -/
theorem patternFinds_iff_globMatches
    {p g t : Text}
    (h : ofPattern p = .ok g) (ht : '\n' ∉ t) :
    PatternFinds p t ↔ GlobMatches g t := by
  obtain ⟨f, hf, rfl, rfl⟩ := ofPattern_eq_ok_iff.1 h
  rw [patternFinds_toPattern_iff hf.1, hf.finds_iff ht, Form.toGlob_eq_flatMap]
  exact itemsMatch_iff_globMatches (Form.isPlain_of_mem_wholeItems hf.1) ht

/-- A pattern with each kind of item, which may go on after its last one. -/
theorem patternFinds_iff_globMatches_anchored :
    ofPattern "^a.*\\.b".toList = .ok "a*.b*".toList ∧ '\n' ∉ "axy.bc".toList ∧
      (PatternFinds "^a.*\\.b".toList "axy.bc".toList ↔
        GlobMatches "a*.b*".toList "axy.bc".toList) := by
  have h : ofPattern "^a.*\\.b".toList = .ok "a*.b*".toList :=
    ofPattern_eq_ok_iff.2 ⟨⟨true, [.plain 'a', .anything, .dot, .plain 'b'], false⟩,
      by decide, by decide, by decide⟩
  have ht : '\n' ∉ "axy.bc".toList := by decide
  exact ⟨h, ht, patternFinds_iff_globMatches h ht⟩

end PatternText.Pattern.Glob
