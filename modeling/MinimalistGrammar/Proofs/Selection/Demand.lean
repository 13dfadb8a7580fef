import MinimalistGrammar.Proofs.Selection.Embedding
import MinimalistGrammar.Selection.Demand

/-!
The demands of a logical form concern words. So they are met by a selection just as by one that it is placed into.
-/

namespace MinimalistGrammar

def Demand.Within (n : Nat) : Demand → Prop
  | .root _ => True
  | .category slot _ => slot < n
  | .theta predicate _ argument => predicate < n ∧ ∀ slot ∈ argument, slot < n
  | .agree predicate argument => predicate < n ∧ ∀ slot ∈ argument, slot < n

namespace Requirement

variable {s s' : Schema} {word : String} {slot : SlotId} {form : LogicalForm} {requirements : List Requirement}

theorem getElem?_anchor (h : anchor s word = .ok slot) : s.words[slot]? = some word := by
  rw [anchor] at h
  split at h
  · cases h
  · rename_i position he
    cases h
    have hm : slot ∈ (s.words.zipIdx.filter (·.1 = word)).map (·.2) := by simp [he]
    obtain ⟨⟨w, i⟩, hx, rfl⟩ := List.mem_map.1 hm
    obtain ⟨hx, hw⟩ := List.mem_filter.1 hx
    have hw : w = word := of_decide_eq_true hw
    exact hw ▸ List.mem_zipIdx_iff_getElem?.1 hx
  · cases h

theorem anchor_lt (h : anchor s word = .ok slot) : slot < s.words.length :=
  (List.getElem?_eq_some_iff.1 (getElem?_anchor h)).1

theorem within_of_ofCategory {category : String} {r : Requirement} (h : ofCategory s word category = .ok r) :
    r.demand.Within s.words.length := by
  obtain ⟨slot, hs, h⟩ := Fallible.bind_eq_ok.1 h
  cases h
  exact anchor_lt hs

theorem within_of_ofRelation {relation : MinimalistGrammar.Relation} {r : Requirement}
    (h : ofRelation s relation = .ok r) : r.demand.Within s.words.length := by
  obtain ⟨predicate, hp, h⟩ := Fallible.bind_eq_ok.1 h
  obtain ⟨argument, ha, h⟩ := Fallible.bind_eq_ok.1 h
  have hargument : ∀ slot ∈ argument, slot < s.words.length := by
    intro slot hm
    obtain ⟨word, _, hw⟩ := exists_left_of_forall₂ (Fallible.mapM_eq_ok.1 ha) hm
    exact anchor_lt hw
  cases h
  cases relation with
  | theta => exact ⟨anchor_lt hp, hargument⟩
  | agree => exact ⟨anchor_lt hp, hargument⟩

theorem within_of_ofLogicalForm (h : ofLogicalForm s form = .ok requirements) :
    ∀ r ∈ requirements, r.demand.Within s.words.length := by
  obtain ⟨categories, hc, h⟩ := Fallible.bind_eq_ok.1 h
  obtain ⟨relations, hr, h⟩ := Fallible.bind_eq_ok.1 h
  cases h
  intro r hm
  rcases List.mem_append.1 hm with hm | hm
  · rcases List.mem_append.1 hm with hm | hm
    · obtain ⟨category, _, rfl⟩ := List.mem_map.1 hm
      trivial
    · obtain ⟨_, _, hx⟩ := exists_left_of_forall₂ (Fallible.mapM_eq_ok.1 hc) hm
      exact within_of_ofCategory hx
  · obtain ⟨_, _, hx⟩ := exists_left_of_forall₂ (Fallible.mapM_eq_ok.1 hr) hm
    exact within_of_ofRelation hx

theorem exists_theta_of_mem {predicate : String} {role : Role} {words : Phrase} (h : ofLogicalForm s form = .ok requirements)
    (hr : .theta predicate role words ∈ form.relations) : ∃ r ∈ requirements, ∃ slot argument,
      r.demand = .theta slot role argument ∧ s.words[slot]? = some predicate ∧
        ∀ word ∈ words, ∃ slot ∈ argument, s.words[slot]? = some word := by
  obtain ⟨categories, _, h⟩ := Fallible.bind_eq_ok.1 h
  obtain ⟨relations, hrelations, h⟩ := Fallible.bind_eq_ok.1 h
  cases h
  obtain ⟨r, hm, h⟩ := exists_right_of_forall₂ (Fallible.mapM_eq_ok.1 hrelations) hr
  obtain ⟨slot, hslot, h⟩ := Fallible.bind_eq_ok.1 h
  obtain ⟨argument, hargument, h⟩ := Fallible.bind_eq_ok.1 h
  cases h
  refine ⟨_, List.mem_append_right _ hm, slot, argument, rfl, getElem?_anchor hslot, fun word hw => ?_⟩
  obtain ⟨other, hother, ha⟩ := exists_right_of_forall₂ (Fallible.mapM_eq_ok.1 hargument) hw
  exact ⟨other, hother, getElem?_anchor ha⟩

theorem ofLogicalForm_congr (h : s'.words = s.words) : ofLogicalForm s' form = ofLogicalForm s form := by
  have hanchor : anchor s' = anchor s := by
    funext word
    rw [anchor, anchor, h]
  have hcategory : ofCategory s' = ofCategory s := by
    funext word category
    rw [ofCategory, hanchor, ofCategory]
  have hrelation : ofRelation s' = ofRelation s := by
    funext r
    rw [ofRelation, hanchor, ofRelation]
  rw [ofLogicalForm, hcategory, hrelation, ofLogicalForm]

end Requirement

section Members

variable {α : Type} {l : List α} {P Q : α → Bool}

theorem any_congr_of_mem (h : ∀ x ∈ l, P x = Q x) : l.any P = l.any Q := by
  rw [Bool.eq_iff_iff, List.any_eq_true, List.any_eq_true]
  exact exists_congr fun x => and_congr_right fun hx => by rw [h x hx]

theorem all_congr_of_mem (h : ∀ x ∈ l, P x = Q x) : l.all P = l.all Q := by
  rw [Bool.eq_iff_iff, List.all_eq_true, List.all_eq_true]
  exact forall₂_congr fun x hx => by rw [h x hx]

end Members

namespace Selection.Embeds

variable {sel sel' : Selection} {σ : SlotId → SlotId} {φ : PointId → PointId} (h : sel.Embeds sel' σ φ)
  {argument : List SlotId} {p : PointId} {slot predicate : SlotId}
include h

theorem selects_map (hp : p < sel.schema.pointCount) : sel'.selects (φ p) = sel.selects p := by
  rw [selects, h.feature?_map hp, selects]

theorem slot_lt (hs : slot < sel.schema.words.length) : slot < sel.schema.slotCount :=
  Nat.lt_of_lt_of_le hs h.filled.built.words_le_slotCount

theorem filterMap_pointsAt {next next' : PointId → Option PointId} (hs : slot < sel.schema.words.length)
    (hmap : ∀ p < sel.schema.pointCount, next' (φ p) = (next p).map φ)
    (hnext : ∀ q y, next' q = some y → ∃ f, sel'.Carries q f) :
    (sel'.schema.pointsAt slot).filterMap next' = ((sel.schema.pointsAt slot).filterMap next).map φ := by
  obtain ⟨rest, hrest⟩ := h.schema.pointsAt_prefix slot
  rw [h.schema.overt slot hs] at hrest
  have hnone : rest.filterMap next' = [] := by
    rw [List.filterMap_eq_nil_iff]
    intro q hq
    rw [Option.eq_none_iff_forall_not_mem]
    intro y hy
    obtain ⟨f, hf⟩ := hnext q y hy
    obtain ⟨p, hp, rfl⟩ := h.exists_point hf
    have hslot := (h.filled'.built.mem_pointsAt.1 (hrest ▸ List.mem_append_right _ hq)).2
    rw [h.schema.slotOf_map hp.1, h.schema.eq_iff hs] at hslot
    have hn := sel'.schema.nodup_pointsAt slot
    rw [← hrest] at hn
    exact (List.nodup_append.1 hn).2.2 _ (List.mem_map_of_mem (h.filled.built.mem_pointsAt.2 ⟨hp.1, hslot⟩)) _ hq rfl
  rw [← hrest, List.filterMap_append, hnone, List.append_nil, List.filterMap_map, List.map_filterMap]
  exact List.filterMap_congr fun p hp => hmap p (h.filled.built.mem_pointsAt.1 hp).1

variable (hd : sel.IsDerivation)
include hd

theorem spans_map (ha : ∀ slot ∈ argument, slot < sel.schema.words.length) (hp : p < sel.schema.pointCount) :
    sel'.spans argument (φ p) = sel.spans argument p := by
  have hslot : ∀ slot ∈ argument, (slot = σ (sel.schema.slotOf p) ↔ slot = sel.schema.slotOf p) := fun slot hs => by
    rw [eq_comm, h.schema.eq_iff (ha slot hs), eq_comm]
  have hmem : σ (sel.schema.slotOf p) ∈ argument ↔ sel.schema.slotOf p ∈ argument :=
    ⟨fun hm => (hslot _ hm).1 rfl ▸ hm, fun hm => (hslot _ hm).2 rfl ▸ hm⟩
  have hall : ∀ slot ∈ argument, (decide (slot = σ (sel.schema.slotOf p)) || sel'.dominates (φ p) (sel'.schema.lexicalPoint slot)) =
      (decide (slot = sel.schema.slotOf p) || sel.dominates p (sel.schema.lexicalPoint slot)) := by
    intro slot hs
    have hlex := h.schema.lexicalPoint_eq (h.slot_lt (ha slot hs))
    rw [h.schema.overt slot (ha slot hs)] at hlex
    rw [hlex, h.dominates_map hd.toIsMatching hd.isAcyclic hp (h.filled.built.lexicalPoint_lt (h.slot_lt (ha slot hs))),
      decide_eq_decide.2 (hslot slot hs)]
  rw [spans, spans, h.schema.slotOf_map hp, decide_eq_decide.2 hmem, all_congr_of_mem hall]

theorem any_partner_map (ha : ∀ slot ∈ argument, slot < sel.schema.words.length) (hp : p < sel.schema.pointCount) :
    (sel'.partner (φ p)).any (sel'.spans argument) = (sel.partner p).any (sel.spans argument) := by
  rw [h.partner_map hd.toIsMatching hp]
  cases hy : sel.partner p with
  | none => rfl
  | some y => exact h.spans_map hd ha (h.filled.links_lt _ _ (hd.toIsMatching.partner_eq_some.1 hy)).2

theorem selectsArgument_map (ha : ∀ slot ∈ argument, slot < sel.schema.words.length) (hp : p < sel.schema.pointCount) :
    sel'.selectsArgument argument (φ p) = sel.selectsArgument argument p := by
  rw [selectsArgument, h.selects_map hp, h.any_partner_map hd ha hp, selectsArgument]

theorem lexicalCheckers_map (hs : predicate < sel.schema.words.length) :
    sel'.lexicalCheckers predicate = (sel.lexicalCheckers predicate).map φ := by
  have hm' := h.isMatching hd.toIsMatching
  have hcheckers := h.filterMap_pointsAt hs (fun p hp => h.checker_map hd.toIsMatching hp) fun q x hx => by
    obtain ⟨_, g, _, hg, _⟩ := hm'.carries_of_link h.filled' (hm'.checker_eq_some.1 hx)
    exact ⟨g, hg⟩
  rw [lexicalCheckers, hcheckers, List.filter_map, lexicalCheckers]
  congr 1
  refine List.filter_congr fun x hx => ?_
  obtain ⟨y, _, hxy⟩ := List.mem_filterMap.1 hx
  have hlt := (h.filled.links_lt _ _ (hd.toIsMatching.checker_eq_some.1 hxy)).1
  have hslot : (sel'.schema.slotOf (φ x) != predicate) = (sel.schema.slotOf x != predicate) := by
    rw [h.schema.slotOf_map hlt, Bool.eq_iff_iff, bne_iff_ne, bne_iff_ne, ne_eq, ne_eq, h.schema.eq_iff hs]
  rw [Function.comp_apply, h.schema.isLexical_map hlt, hslot]

theorem any_selectsArgument_map {i : Nat} (hs : predicate < sel.schema.words.length)
    (ha : ∀ slot ∈ argument, slot < sel.schema.words.length) :
    (sel'.schema.pointAt? predicate i).any (sel'.selectsArgument argument) =
      (sel.schema.pointAt? predicate i).any (sel.selectsArgument argument) := by
  cases hp : sel.schema.pointAt? predicate i with
  | some p =>
    have hq := h.schema.pointAt?_eq_some hp
    rw [h.schema.overt _ hs] at hq
    rw [hq]
    exact h.selectsArgument_map hd ha (h.filled.built.pointAt?_eq_some.1 hp).1
  | none =>
    rw [Option.any_none, Bool.eq_false_iff]
    intro hany
    obtain ⟨q, hq, hselects⟩ := (Option.any_eq_true _ _).1 hany
    obtain ⟨f, hf, _⟩ := (Option.any_eq_true _ _).1 (Bool.and_eq_true_iff.1 hselects).1
    obtain ⟨hlt, hpoint⟩ := h.filled'.built.pointAt?_eq_some.1 hq
    obtain ⟨p, hc, rfl⟩ := h.exists_point ⟨hlt, hf⟩
    rw [h.schema.point_map hc.1] at hpoint
    obtain ⟨hslot, hindex⟩ := Point.mk.inj hpoint
    have := h.filled.built.pointAt?_of_lt hc.1
    rw [(h.schema.eq_iff hs).1 hslot, hindex, hp] at this
    cases this

theorem meets_map {demand : Demand} (hw : demand.Within sel.schema.words.length) :
    sel'.meets demand = sel.meets demand := by
  cases demand with
  | root category =>
    obtain ⟨f, hf, _⟩ := hd.hasRoot.isTop_root
    rw [meets, h.root_eq hd.hasRoot, h.feature?_map hf.1, meets]
  | category slot category =>
    have hitem := h.item?_map slot (h.slot_lt hw)
    rw [h.schema.overt slot hw] at hitem
    rw [meets, hitem, meets]
  | theta predicate role argument =>
    obtain ⟨hs, ha⟩ := hw
    cases role with
    | subj =>
      rw [meets, meets, h.lexicalCheckers_map hd hs, List.filterMap_map]
      have hsucc : (sel.lexicalCheckers predicate).filterMap (sel'.schema.successor ∘ φ) =
          ((sel.lexicalCheckers predicate).filterMap sel.schema.successor).map φ := by
        rw [List.map_filterMap]
        refine List.filterMap_congr fun x hx => ?_
        obtain ⟨y, _, hxy⟩ := List.mem_filterMap.1 (List.mem_filter.1 hx).1
        obtain ⟨f, _, hf, _, hc⟩ := hd.toIsMatching.carries_of_link h.filled (hd.toIsMatching.checker_eq_some.1 hxy)
        exact h.successor_map hf (isTrigger_of_checks hc)
      rw [hsucc, List.any_map]
      refine any_congr_of_mem fun q hq => ?_
      obtain ⟨x, _, hx⟩ := List.mem_filterMap.1 hq
      exact h.selectsArgument_map hd ha (h.filled.slotOf_successor hx).1
    | obj => exact h.any_selectsArgument_map hd hs ha
    | iobj => exact h.any_selectsArgument_map hd hs ha
  | agree predicate argument =>
    obtain ⟨hs, ha⟩ := hw
    have hm' := h.isMatching hd.toIsMatching
    have hpartners := h.filterMap_pointsAt hs (fun p hp => h.partner_map hd.toIsMatching hp) fun q y hy => by
      obtain ⟨f, _, hf, _⟩ := hm'.carries_of_link h.filled' (hm'.partner_eq_some.1 hy)
      exact ⟨f, hf⟩
    rw [meets, meets, hpartners, List.any_map]
    refine any_congr_of_mem fun y hy => ?_
    obtain ⟨x, _, hx⟩ := List.mem_filterMap.1 hy
    exact h.spans_map hd ha (h.filled.links_lt _ _ (hd.toIsMatching.partner_eq_some.1 hx)).2

end Selection.Embeds

end MinimalistGrammar
