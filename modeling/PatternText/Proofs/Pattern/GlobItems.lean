import PatternText.Pattern.Glob
import PatternText.Proofs.Pattern.GlobForm
import PatternText.Proofs.Token.Protected

/-!
# Reading the items of a pattern

What is left of a pattern without its anchors is translated to a glob by two
nested splits that know nothing of escapes.  It is nevertheless read item by item:
`reads_ofBody`.

Splitting at the text of an item and translating the parts accepts one more kind
of item than the translation of the parts, since the text of that item has no
border and shares a character with no other item accepted so far.  This step,
`Reads.splitting`, is taken for escaped dots and then for wildcards.
-/

namespace PatternText.Pattern.Glob

open Token (pieces split Borderless)

/-! ## Reading items -/

/-- A translation accepts exactly the texts of items of a kind, and translates
them item by item. -/
def Reads (kind : Item → Prop) (translate : Text → Except Error Text) : Prop :=
  ∀ s g, translate s = .ok g ↔
    ∃ items : List Item, (∀ i ∈ items, kind i) ∧
      items.flatMap Item.toPattern = s ∧ items.flatMap Item.toGlob = g

/-- Splits a text at an item, translates the parts, and joins them as in a glob. -/
def translateParts
    (item : Item) (translate : Text → Except Error Text) (s : Text) :
    Except Error Text :=
  (List.intercalate item.toGlob) <$>
    (split ⟨item.toPattern, false, false⟩ s).mapM translate

theorem map_eq_ok_iff
    {α β : Type} {f : α → β} {x : Except Error α} {b : β} :
    f <$> x = .ok b ↔ ∃ a, x = .ok a ∧ f a = b := by
  cases x with
  | error e => simp [Functor.map, Except.map]
  | ok a => simp [Functor.map, Except.map]

theorem mapM_cons_eq_ok_iff
    {translate : Text → Except Error Text} {s : Text} {ss gs : List Text} :
    (s :: ss).mapM translate = .ok gs ↔
      ∃ g rest, translate s = .ok g ∧ ss.mapM translate = .ok rest ∧
        g :: rest = gs := by
  rw [List.mapM_cons]
  cases translate s with
  | error e => simp [bind, Except.bind]
  | ok g =>
    cases ss.mapM translate with
    | error e => simp [bind, Except.bind]
    | ok rest => simp [bind, Except.bind, pure, Except.pure]

theorem Reads.mapM_eq_ok_iff
    {kind : Item → Prop} {translate : Text → Except Error Text}
    (h : Reads kind translate) {ss gs : List Text} :
    ss.mapM translate = .ok gs ↔
      ∃ parts : List (List Item), (∀ items ∈ parts, ∀ i ∈ items, kind i) ∧
        parts.map (·.flatMap Item.toPattern) = ss ∧
        parts.map (·.flatMap Item.toGlob) = gs := by
  induction ss generalizing gs with
  | nil =>
    constructor
    · intro hgs
      obtain rfl : [] = gs := Except.ok.inj hgs
      exact ⟨[], by simp, rfl, rfl⟩
    · rintro ⟨parts, -, hss, rfl⟩
      rw [List.map_eq_nil_iff.1 hss]
      rfl
  | cons s ss ih =>
    rw [mapM_cons_eq_ok_iff]
    constructor
    · rintro ⟨g, rest, hg, hrest, rfl⟩
      obtain ⟨items, hitems, rfl, rfl⟩ := (h s g).1 hg
      obtain ⟨parts, hparts, rfl, rfl⟩ := ih.1 hrest
      refine ⟨items :: parts, ?_, rfl, rfl⟩
      intro is his
      rcases List.mem_cons.1 his with rfl | his
      · exact hitems
      · exact hparts is his
    · rintro ⟨parts, hparts, hss, rfl⟩
      cases parts with
      | nil => simp at hss
      | cons items parts =>
        obtain ⟨rfl, rfl⟩ := List.cons.inj hss
        have hitems := hparts items List.mem_cons_self
        have hlater : ∀ is ∈ parts, ∀ i ∈ is, kind i := by
          intro is his
          exact hparts is (List.mem_cons_of_mem items his)
        exact ⟨_, _, (h _ _).2 ⟨items, hitems, rfl, rfl⟩,
          ih.2 ⟨parts, hlater, rfl, rfl⟩, rfl⟩

/-! ## Splitting at one more kind of item -/

theorem flatMap_intercalate
    (f : Item → Text) (item : Item) (parts : List (List Item)) :
    ([item].intercalate parts).flatMap f =
      (f item).intercalate (parts.map (·.flatMap f)) := by
  induction parts with
  | nil => rfl
  | cons items parts ih =>
    cases parts with
    | nil => simp
    | cons next parts =>
      rw [List.intercalate_cons_cons, List.flatMap_append, ih]
      simp [List.intercalate_cons_cons]

theorem mem_intercalate_singleton
    {i item : Item} {parts : List (List Item)}
    (h : i ∈ [item].intercalate parts) :
    (∃ items ∈ parts, i ∈ items) ∨ i = item := by
  induction parts with
  | nil => simp at h
  | cons items parts ih =>
    by_cases hparts : parts = []
    · left
      exact ⟨items, List.mem_cons_self, by simpa [hparts] using h⟩
    · rw [List.intercalate_cons_of_ne_nil hparts, List.mem_append, List.mem_append,
        List.mem_singleton] at h
      rcases h with (h | h) | h
      · exact .inl ⟨items, List.mem_cons_self, h⟩
      · exact .inr h
      · rcases ih h with ⟨is, his, hi⟩ | heq
        · exact .inl ⟨is, List.mem_cons_of_mem items his, hi⟩
        · exact .inr heq

theorem mem_of_mem_splitOn
    {item i : Item} {items part : List Item}
    (hpart : part ∈ items.splitOn item) (hi : i ∈ part) :
    i ∈ items ∧ i ≠ item := by
  induction items generalizing part with
  | nil =>
    rw [List.splitOn_nil, List.mem_singleton] at hpart
    rw [hpart] at hi
    exact absurd hi List.not_mem_nil
  | cons j items ih =>
    rw [List.splitOn_cons_eq_if_modifyHead] at hpart
    split at hpart
    · rcases List.mem_cons.1 hpart with rfl | hpart
      · exact absurd hi List.not_mem_nil
      · exact (ih hpart hi).imp_left (List.mem_cons_of_mem j)
    · rename_i hj
      obtain ⟨first, rest, hsplit⟩ :=
        List.exists_cons_of_ne_nil (List.splitOn_ne_nil item items)
      rw [hsplit] at ih hpart
      rcases List.mem_cons.1 hpart with rfl | hpart
      · rcases List.mem_cons.1 hi with rfl | hi
        · exact ⟨List.mem_cons_self, by simpa using hj⟩
        · exact (ih List.mem_cons_self hi).imp_left (List.mem_cons_of_mem j)
      · exact (ih (List.mem_cons_of_mem first hpart) hi).imp_left
          (List.mem_cons_of_mem j)

/-- The empty text has no tokens, but it is translated as its one piece is. -/
theorem Reads.translateParts_eq
    {kind : Item → Prop} {translate : Text → Except Error Text}
    (h : Reads kind translate) {item : Item} (hd : item.toPattern ≠ []) (s : Text) :
    translateParts item translate s =
      (List.intercalate item.toGlob) <$>
        (pieces item.toPattern s).mapM translate := by
  rw [translateParts, Token.split_eq_group, Token.group_false]
  by_cases hs : s = []
  · have hempty : translate [] = .ok [] := (h [] []).2 ⟨[], by simp, rfl, rfl⟩
    rw [if_pos hs, hs, Token.pieces_nil hd, List.mapM_cons, hempty]
    rfl
  · rw [if_neg hs]

/-- If the text of an item has no border and a character that occurs in no other
item, the text of items is divided where the items are. -/
theorem pieces_flatMap_toPattern
    {item : Item} {items : List Item} {x : Char}
    (hb : Borderless item.toPattern) (hx : x ∈ item.toPattern)
    (hitems : ∀ i ∈ items, i ≠ item → x ∉ i.toPattern) :
    pieces item.toPattern (items.flatMap Item.toPattern) =
      (items.splitOn item).map (·.flatMap Item.toPattern) := by
  have hjoin : [item].intercalate (items.splitOn item) = items :=
    List.intercalate_splitOn item
  have hfree : ∀ p ∈ (items.splitOn item).map (·.flatMap Item.toPattern),
      ¬item.toPattern <:+: p := by
    intro p hp hin
    obtain ⟨part, hpart, rfl⟩ := List.mem_map.1 hp
    obtain ⟨i, hi, hxi⟩ := List.mem_flatMap.1 (List.IsInfix.subset hin hx)
    obtain ⟨hmem, hne⟩ := mem_of_mem_splitOn hpart hi
    exact hitems i hmem hne hxi
  have hne : (items.splitOn item).map (·.flatMap Item.toPattern) ≠ [] := by simp
  calc
    pieces item.toPattern (items.flatMap Item.toPattern)
        = pieces item.toPattern (item.toPattern.intercalate
            ((items.splitOn item).map (·.flatMap Item.toPattern))) := by
          rw [← flatMap_intercalate, hjoin]
    _ = (items.splitOn item).map (·.flatMap Item.toPattern) :=
          Token.pieces_intercalate (List.ne_nil_of_mem hx) hb hne hfree

/-- Splitting at an item and translating the parts reads that item in addition to
those that are read in the parts, if its text has no border and a character that
occurs in none of them. -/
theorem Reads.splitting
    {kind : Item → Prop} {translate : Text → Except Error Text}
    (h : Reads kind translate) (item : Item) (hb : Borderless item.toPattern)
    (x : Char) (hx : x ∈ item.toPattern) (hkind : ∀ i, kind i → x ∉ i.toPattern) :
    Reads (fun i => kind i ∨ i = item) (translateParts item translate) := by
  have hd : item.toPattern ≠ [] := List.ne_nil_of_mem hx
  intro s g
  rw [h.translateParts_eq hd, map_eq_ok_iff]
  constructor
  · rintro ⟨gs, hgs, rfl⟩
    obtain ⟨parts, hparts, hss, rfl⟩ := h.mapM_eq_ok_iff.1 hgs
    refine ⟨[item].intercalate parts, ?_, ?_, flatMap_intercalate _ _ _⟩
    · intro i hi
      rcases mem_intercalate_singleton hi with ⟨items, hitems, hmem⟩ | heq
      · exact .inl (hparts items hitems i hmem)
      · exact .inr heq
    · rw [flatMap_intercalate, hss, Token.intercalate_pieces hd]
  · rintro ⟨items, hitems, rfl, rfl⟩
    have hother : ∀ i ∈ items, i ≠ item → kind i := by
      intro i hi hne
      exact (hitems i hi).resolve_right hne
    have hparts : ∀ part ∈ items.splitOn item, ∀ i ∈ part, kind i := by
      intro part hpart i hi
      obtain ⟨hmem, hne⟩ := mem_of_mem_splitOn hpart hi
      exact hother i hmem hne
    have hsplit := pieces_flatMap_toPattern hb hx fun i hi hne =>
      hkind i (hother i hi hne)
    refine ⟨(items.splitOn item).map (·.flatMap Item.toGlob),
      h.mapM_eq_ok_iff.2 ⟨items.splitOn item, hparts, hsplit.symm, rfl⟩, ?_⟩
    rw [← flatMap_intercalate, List.intercalate_splitOn item]

def IsLiteral (i : Item) : Prop :=
  ∃ c, i = .plain c ∧ Escape.isMeta c = false

theorem reads_literal :
    Reads IsLiteral literal := by
  intro s g
  rw [literal]
  constructor
  · intro h
    split at h
    · simp at h
    · rename_i hmeta
      obtain rfl : s = g := Except.ok.inj h
      have hplain : ∀ c ∈ s, Escape.isMeta c = false := by
        simpa [Escape.hasMeta] using hmeta
      refine ⟨s.map .plain, ?_, ?_, ?_⟩
      · intro i hi
        obtain ⟨c, hc, rfl⟩ := List.mem_map.1 hi
        exact ⟨c, rfl, hplain c hc⟩
      · simp [List.flatMap_map, Item.toPattern]
      · simp [List.flatMap_map, Item.toGlob]
  · rintro ⟨items, hitems, rfl, rfl⟩
    have htexts : items.flatMap Item.toPattern = items.flatMap Item.toGlob := by
      rw [List.flatMap, List.flatMap]
      congr 1
      apply List.map_congr_left
      intro i hi
      obtain ⟨c, rfl, -⟩ := hitems i hi
      rfl
    have hmeta : ¬Escape.hasMeta (items.flatMap Item.toPattern) = true := by
      rw [Escape.hasMeta, List.any_eq_true]
      rintro ⟨c, hc, hcmeta⟩
      obtain ⟨i, hi, hci⟩ := List.mem_flatMap.1 hc
      obtain ⟨x, rfl, hx⟩ := hitems i hi
      rw [Item.toPattern, List.mem_singleton] at hci
      rw [hci, hx] at hcmeta
      exact Bool.false_ne_true hcmeta
    rw [if_neg hmeta, htexts]

theorem IsLiteral.notMem_toPattern
    {i : Item} {x : Char}
    (h : IsLiteral i) (hx : Escape.isMeta x = true) :
    x ∉ i.toPattern := by
  obtain ⟨c, rfl, hc⟩ := h
  rw [Item.toPattern, List.mem_singleton]
  rintro rfl
  exact Bool.false_ne_true (hc.symm.trans hx)

theorem reads_ofFragment :
    Reads (fun i => IsLiteral i ∨ i = .dot) ofFragment :=
  reads_literal.splitting .dot (by decide) '\\' (by decide)
    fun _ hi => hi.notMem_toPattern (by decide)

/-- What is left of a pattern without its anchors is read as any items that may be
written as they are. -/
theorem reads_ofBody :
    Reads Item.IsPlain ofBody := by
  have hreads : Reads (fun i => (IsLiteral i ∨ i = .dot) ∨ i = .anything) ofBody := by
    apply reads_ofFragment.splitting .anything (by decide) '*' (by decide)
    intro i hi
    rcases hi with hi | rfl
    · exact hi.notMem_toPattern (by decide)
    · decide
  have hkind : ∀ i, ((IsLiteral i ∨ i = .dot) ∨ i = .anything) ↔ i.IsPlain := by
    intro i
    cases i with
    | plain c => simp [IsLiteral, Item.IsPlain]
    | dot => simp [Item.IsPlain]
    | anything => simp [Item.IsPlain]
  simpa only [Reads, hkind] using hreads

/-! ## Errors -/

theorem exists_of_mapM_eq_error
    {translate : Text → Except Error Text} {ss : List Text} {e : Error}
    (h : ss.mapM translate = .error e) :
    ∃ s ∈ ss, translate s = .error e := by
  induction ss with
  | nil => exact absurd h (by simp [pure, Except.pure])
  | cons s ss ih =>
    rw [List.mapM_cons] at h
    cases hs : translate s with
    | error e' =>
      obtain rfl : e' = e := by simpa [hs, bind, Except.bind] using h
      exact ⟨s, List.mem_cons_self, hs⟩
    | ok g =>
      cases hss : ss.mapM translate with
      | ok gs => simp [hs, hss, bind, Except.bind, pure, Except.pure] at h
      | error e' =>
        obtain rfl : e' = e := by simpa [hs, hss, bind, Except.bind] using h
        obtain ⟨t, ht, hte⟩ := ih hss
        exact ⟨t, List.mem_cons_of_mem s ht, hte⟩

theorem exists_of_translateParts_eq_error
    (item : Item) (translate : Text → Except Error Text) {s : Text} {e : Error}
    (h : translateParts item translate s = .error e) :
    ∃ part, translate part = .error e := by
  rw [translateParts] at h
  cases hparts : (split ⟨item.toPattern, false, false⟩ s).mapM translate with
  | ok gs => simp [hparts, Functor.map, Except.map] at h
  | error e' =>
    obtain rfl : e' = e := by simpa [hparts, Functor.map, Except.map] using h
    obtain ⟨part, -, hpart⟩ := exists_of_mapM_eq_error hparts
    exact ⟨part, hpart⟩

/-- A body is refused only because a part of it that has to be literal is not. -/
theorem eq_notLiteral_of_ofBody
    {s : Text} {e : Error}
    (h : ofBody s = .error e) :
    ∃ fragment, Escape.hasMeta fragment = true ∧ e = .notLiteral fragment := by
  obtain ⟨part, hpart⟩ := exists_of_translateParts_eq_error .anything ofFragment h
  obtain ⟨fragment, hfragment⟩ := exists_of_translateParts_eq_error .dot literal hpart
  rw [literal] at hfragment
  split at hfragment
  · rename_i hmeta
    exact ⟨fragment, hmeta, (Except.error.inj hfragment).symm⟩
  · exact absurd hfragment (by simp)

end PatternText.Pattern.Glob
