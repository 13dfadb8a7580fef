import MinimalistGrammar.Proofs.Encoding.Basic

/-!
What the literals of an encoding stand for, whatever is true: the choices of a slot go with its candidates, and the
links with the pairs of points between which a check is possible. So every assignment selects among what the schema
offers.
-/

namespace MinimalistGrammar

open MinimalistGrammar.Sat
open MinimalistGrammar.Sat.Builder

namespace Sat

/-- Only the constant is known. -/
def Valuation.initial : Valuation := ⟨(· = 0), fun _ => true, rfl, rfl⟩

theorem Valuation.models_initial : initial.Models ∅ := by
  have hclauses : ∀ c ∈ (∅ : Formula).clauses, c = [.top] := by simp [EmptyCollection.emptyCollection]
  refine ⟨fun n => ?_, fun c hc l hl => ?_, fun c hc => ?_⟩
  · exact Nat.lt_one_iff.symm
  · rw [hclauses c hc, List.mem_singleton] at hl
    exact hl ▸ initial.knows_zero
  · rw [hclauses c hc]
    exact ⟨.top, .head _, Literal.value_top initial.value_zero⟩

end Sat

namespace Encoding

/-- The choices are those of the candidates, and the links those of the possible checks. -/
structure Aligns (s : Schema) (enc : Encoding) : Prop where
  choices : ∀ slot < s.slotCount, List.Forall₂ (fun c choice => choice.1 = c.1) (s.candidates slot) (enc.lexical.choicesAt slot)
  links : enc.checking.links.map (fun l => (l.trigger, l.target)) = s.linkPairs

variable {s : Schema} {enc : Encoding} {sel : Selection} {a : Assignment} {slot : SlotId}

theorem exists_mayHold (hs : s.IsBuilt) : ∃ t : SlotId → Option Item, ∀ slot ∈ s.slotIds, s.MayHold slot (t slot) := by
  refine ⟨fun slot => (s.candidates slot).head?.map (·.2), fun slot hslot => ?_⟩
  obtain ⟨c, hc⟩ := List.exists_mem_of_ne_nil _ (hs.candidates_ne_nil (Schema.mem_slotIds.1 hslot))
  cases hcs : s.candidates slot with
  | nil =>
    rw [hcs] at hc
    cases hc
  | cons c cs => exact .inr ⟨c.2, by simp [hcs], by simp [hcs]⟩

theorem aligns_build (hs : s.IsBuilt) : (result (build s) ∅).Aligns s := by
  obtain ⟨t, ht⟩ := exists_mayHold hs
  obtain ⟨v, _, hmodels, hlex⟩ := (Lexical.offers_build hs).2 ∅ t Valuation.models_initial ht
  refine ⟨fun slot hslot => (hlex.choices slot hslot).imp fun _ _ h => h.1, ?_⟩
  have hmem : ∀ p f, (s.fill t).Carries p f → s.MayCarry p f := fun p f =>
    Lexical.mayCarry_of_carries (Schema.mem_candidates_fill ht)
  obtain ⟨_, _, _, hlinks⟩ := (Checking.offers_links hmem hlex.features).2 _ (fun _ => False) hmodels
    fun _ _ hfalse => hfalse.elim
  exact (map_eq_map_of_forall₂ (f := id) (hlinks.imp fun _ _ hl => hl.1)).trans (List.map_id _)

theorem licensee_ne_bottom_iff {p : PointId} (hs : s.IsBuilt) (hp : p < s.pointCount) :
    (result (build s) ∅).lexical.licensee p ≠ .bottom ↔ ∃ f, s.MayCarry p f ∧ f.polarity = .licensee := by
  obtain ⟨t, ht⟩ := exists_mayHold hs
  constructor
  · intro hne
    obtain ⟨v, _, _, hlex⟩ := (Lexical.offers_build hs).2 ∅ t Valuation.models_initial ht
    obtain ⟨f, hf, hpol⟩ := hlex.licensees.mayCarry p hp hne
    exact ⟨f, hf, of_decide_eq_true hpol⟩
  · rintro ⟨f, ⟨c, hc, hfeat⟩, hpol⟩
    -- a selection with that candidate makes the literal true
    have hslot := hs.slotOf_lt hp
    have ht' : ∀ slot ∈ s.slotIds, s.MayHold slot (Function.update t (s.slotOf p) (some c.2) slot) := by
      intro slot hm
      by_cases he : slot = s.slotOf p
      · subst he
        rw [Function.update_self]
        exact .inr ⟨c.2, List.mem_map_of_mem hc, rfl⟩
      · rw [Function.update_of_ne he]
        exact ht slot hm
    obtain ⟨v, _, _, hlex⟩ := (Lexical.offers_build hs).2 ∅ _ Valuation.models_initial ht'
    refine hlex.licensee_ne_bottom (Selection.mem_landings.2 ⟨f, ?_, hpol⟩)
    exact Selection.carries_iff.2 ⟨hp, c.2, (Schema.item?_fill hslot).trans (Function.update_self _ _ t), hfeat⟩

section Assigned

theorem ofAssignment_eq_ok (h : Selection.ofAssignment s enc a = .ok sel) : sel.schema = s ∧
    List.Forall₂ (fun slot o => Selection.chooseItem s enc a slot = .ok o) s.slotIds sel.items ∧
      sel.links = (enc.checking.links.filter (·.literal.value a)).map fun l => (l.trigger, l.target) := by
  obtain ⟨items, hitems, h⟩ := Fallible.bind_eq_ok.1 h
  cases h
  exact ⟨rfl, Fallible.mapM_eq_ok.1 hitems, rfl⟩

theorem chooseItem_of_ofAssignment (h : Selection.ofAssignment s enc a = .ok sel) (hslot : slot < s.slotCount) :
    Selection.chooseItem s enc a slot = .ok (sel.item? slot) := by
  obtain ⟨_, hitems, _⟩ := ofAssignment_eq_ok h
  have hlt : slot < sel.items.length := by rwa [← hitems.length_eq, Schema.slotIds, List.length_range]
  have := hitems.get (i := slot) (by rwa [Schema.slotIds, List.length_range]) hlt
  rw [Selection.item?, List.getElem?_eq_getElem hlt, Option.join_some]
  simpa [Schema.slotIds] using this

theorem chosen_eq (h : Selection.ofAssignment s enc a = .ok sel) (hslot : slot < s.slotCount) :
    Selection.chosen s enc a slot = (sel.item? slot).toList ∧ (slot < s.words.length → (sel.item? slot).isSome = true) := by
  have hchoose := chooseItem_of_ofAssignment h hslot
  rw [Selection.chooseItem] at hchoose
  split at hchoose
  · rename_i hnil
    split at hchoose
    · cases hchoose
    · rename_i hw
      rw [hnil, ← Except.ok.inj hchoose]
      exact ⟨rfl, fun hl => absurd hl hw⟩
  · rename_i item hone
    rw [hone, ← Except.ok.inj hchoose]
    exact ⟨rfl, fun _ => rfl⟩
  · cases hchoose

variable (hs : s.IsBuilt) (ha : enc.Aligns s) (h : Selection.ofAssignment s enc a = .ok sel)
include ha h

theorem isOffered_of_ofAssignment : sel.IsOffered s := by
  obtain ⟨rfl, hitems, hlinks⟩ := ofAssignment_eq_ok h
  refine ⟨rfl, ?_, fun slot hslot => ?_, ?_⟩
  · rw [← hitems.length_eq, Schema.slotIds, List.length_range]
  · obtain ⟨hchosen, hword⟩ := chosen_eq h hslot
    cases hi : sel.item? slot with
    | none =>
      refine .inl ⟨rfl, Nat.le_of_not_lt fun hw => ?_⟩
      have := hword hw
      rw [hi] at this
      cases this
    | some item =>
      rw [hi] at hchosen
      have hm : item ∈ Selection.chosen sel.schema enc a slot := by simp [hchosen]
      obtain ⟨⟨c, choice⟩, hzip, hc⟩ := List.mem_filterMap.1 hm
      dsimp only at hc
      split at hc
      · rw [← Option.some.inj hc]
        exact .inr ⟨c.2, List.mem_map_of_mem (List.of_mem_zip hzip).1, rfl⟩
      · cases hc
  · have hsub : sel.links.Sublist sel.schema.linkPairs := by
      rw [hlinks, ← ha.links]
      exact List.filter_sublist.map _
    have hn := sel.schema.nodup_linkPairs
    have hlinks : sel.schema.linkPairs.filter (fun l => l ∈ sel.links) = sel.links := by
      refine (hn.perm_iff_eq_of_sublist List.filter_sublist hsub).1 ((List.perm_ext_iff_of_nodup (hn.filter _)
        (hn.sublist hsub)).2 fun l => ?_)
      rw [List.mem_filter, decide_eq_true_iff]
      exact and_iff_right_of_imp fun hl => hsub.subset hl
    exact congrArg (Selection.mk sel.schema sel.items) ((List.filter_congr fun _ _ => by simp).trans hlinks)

theorem value_link_iff {l : Link} (hl : l ∈ enc.checking.links) :
    l.literal.value a = true ↔ (l.trigger, l.target) ∈ sel.links := by
  obtain ⟨_, _, hlinks⟩ := ofAssignment_eq_ok h
  have hn : (enc.checking.links.map fun l => (l.trigger, l.target)).Nodup := ha.links ▸ s.nodup_linkPairs
  rw [hlinks]
  constructor
  · exact fun hv => List.mem_map_of_mem (List.mem_filter.2 ⟨hl, hv⟩)
  · intro hm
    obtain ⟨k, hk, he⟩ := List.mem_map.1 hm
    obtain ⟨hk, hv⟩ := List.mem_filter.1 hk
    rwa [List.inj_on_of_nodup_map hn hk hl he] at hv

include hs

omit ha in
theorem value_choice_iff {i : Nat} {c : ItemId × Item} {choice : ItemId × Literal} (hslot : slot < s.slotCount)
    (hc : (s.candidates slot)[i]? = some c) (hk : (enc.lexical.choicesAt slot)[i]? = some choice) :
    choice.2.value a = true ↔ sel.item? slot = some c.2 := by
  have hchosen := (chosen_eq h hslot).1
  have hzip : ((s.candidates slot).zip (enc.lexical.choicesAt slot))[i]? = some (c, choice) :=
    List.getElem?_zip_eq_some.2 ⟨hc, hk⟩
  constructor
  · intro hv
    have hm : c.2 ∈ Selection.chosen s enc a slot :=
      List.mem_filterMap.2 ⟨(c, choice), List.mem_of_getElem? hzip, if_pos hv⟩
    rwa [hchosen, Option.mem_toList] at hm
  · intro hi
    have hm : c.2 ∈ Selection.chosen s enc a slot := by simp [hchosen, hi]
    obtain ⟨⟨c', choice'⟩, hx, he⟩ := List.mem_filterMap.1 hm
    obtain ⟨j, hj⟩ := List.mem_iff_getElem?.1 hx
    obtain ⟨hc', hk'⟩ := List.getElem?_zip_eq_some.1 hj
    dsimp only at he
    split at he
    · rename_i hv
      have hmap : ((s.candidates slot).map (·.2))[i]? = ((s.candidates slot).map (·.2))[j]? := by
        rw [List.getElem?_map, List.getElem?_map, hc, hc', Option.map_some, Option.map_some, Option.some.inj he]
      have hlt : i < ((s.candidates slot).map (·.2)).length := by
        rw [List.length_map]
        exact (List.getElem?_eq_some_iff.1 hc).1
      obtain rfl := (List.getElem?_inj hlt hs.nodup_candidates).1 hmap
      rw [hk, Option.some.injEq] at hk'
      rwa [hk']
    · cases he

theorem map_choices (hslot : slot < s.slotCount) :
    (enc.lexical.choicesAt slot).map (fun choice => (choice.1, choice.2.value a)) =
      (s.candidates slot).map fun c => (c.1, decide (sel.item? slot = some c.2)) := by
  have haligned := ha.choices slot hslot
  refine List.ext_getElem (by simp [haligned.length_eq]) fun i h₁ h₂ => ?_
  rw [List.length_map] at h₁ h₂
  have hid := haligned.get h₂ h₁
  rw [List.get_eq_getElem, List.get_eq_getElem] at hid
  rw [List.getElem_map, List.getElem_map, hid, Prod.mk.injEq, Bool.eq_iff_iff, decide_eq_true_iff]
  exact ⟨rfl, value_choice_iff hs h hslot (List.getElem?_eq_getElem h₂) (List.getElem?_eq_getElem h₁)⟩

omit hs in
theorem map_links : enc.checking.links.map (fun l => ((l.trigger, l.target), l.literal.value a)) =
    s.linkPairs.map fun l => (l, decide (l ∈ sel.links)) := by
  rw [← ha.links, List.map_map]
  refine List.map_congr_left fun l hl => ?_
  rw [Function.comp_apply, Prod.mk.injEq, Bool.eq_iff_iff, decide_eq_true_iff]
  exact ⟨rfl, value_link_iff ha h hl⟩

end Assigned

end Encoding

end MinimalistGrammar
