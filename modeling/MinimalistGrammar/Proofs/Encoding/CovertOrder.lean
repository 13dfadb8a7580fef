import MinimalistGrammar.Encoding.CovertOrder
import MinimalistGrammar.Proofs.Encoding.Lexical

/-!
The clauses for the order of covert slots say that these hold their items by rank, the empty ones last.
-/

namespace MinimalistGrammar

open MinimalistGrammar.Sat
open MinimalistGrammar.Sat.Builder

namespace Selection

/-- The place of a covert slot's item among the candidates, or their number if there is none. -/
def rank (sel : Selection) (slot : SlotId) : Nat :=
  ((sel.item? slot).map fun item => (sel.schema.lexicon.covert.map (·.2)).idxOf item).getD
    sel.schema.lexicon.covert.length

/-- The covert slots are filled by rank. -/
def IsSorted (sel : Selection) : Prop :=
  ∀ slot, sel.schema.words.length ≤ slot → slot + 1 < sel.schema.slotCount → sel.rank slot ≤ sel.rank (slot + 1)

variable {sel : Selection} {slot : SlotId} {item : Item} {i : Nat}

theorem rank_of_some (h : sel.item? slot = some item) :
    sel.rank slot = (sel.schema.lexicon.covert.map (·.2)).idxOf item := by
  rw [rank, h]
  rfl

theorem rank_of_none (h : sel.item? slot = none) : sel.rank slot = sel.schema.lexicon.covert.length := by
  rw [rank, h]
  rfl

theorem rank_le : sel.rank slot ≤ sel.schema.lexicon.covert.length := by
  cases h : sel.item? slot with
  | none => exact Nat.le_of_eq (rank_of_none h)
  | some item =>
    rw [rank_of_some h, ← List.length_map (·.2)]
    exact List.idxOf_le_length

theorem rank_lt_iff (hf : sel.IsFilled) (hs : sel.schema.words.length ≤ slot) (hl : slot < sel.schema.slotCount) :
    sel.rank slot < sel.schema.lexicon.covert.length ↔ ∃ item, sel.item? slot = some item := by
  cases h : sel.item? slot with
  | none => simp [rank_of_none h]
  | some item =>
    have hm := hf.mem_candidates slot item h
    rw [hf.built.candidates_of_le hs hl] at hm
    have := List.idxOf_lt_length_of_mem hm
    rw [List.length_map] at this
    simp [rank_of_some h, this]

theorem rank_eq_iff (hf : sel.IsFilled) (hs : sel.schema.words.length ≤ slot) (hl : slot < sel.schema.slotCount)
    (hi : i < sel.schema.lexicon.covert.length) :
    sel.rank slot = i ↔ sel.item? slot = some (sel.schema.lexicon.covert[i]).2 := by
  have hn := sel.schema.lexicon.nodup_covert
  have hlt : i < (sel.schema.lexicon.covert.map (·.2)).length := by simpa using hi
  have hget : (sel.schema.lexicon.covert[i]).2 = (sel.schema.lexicon.covert.map (·.2))[i] := by simp
  constructor
  · intro h
    obtain ⟨item, hitem⟩ := (rank_lt_iff hf hs hl).1 (h ▸ hi)
    have hm := hf.mem_candidates slot item hitem
    rw [hf.built.candidates_of_le hs hl] at hm
    subst h
    rw [hitem, hget]
    simp [rank_of_some hitem]
  · intro h
    rw [rank_of_some h, hget, hn.idxOf_getElem]

end Selection

namespace Lexical

variable {v : Valuation} {sel : Selection} {lex : Lexical} {earlier later : SlotId}

theorem adds_orderPair (earlier later : SlotId) : Adds (lex.orderPair earlier later) :=
  adds_bind (adds_implies _ _) fun _ => adds_forM (fun _ => adds_impliesAny _ _) _

theorem adds_orderCovertSlots (s : Schema) (lex : Lexical) : Adds (lex.orderCovertSlots s) :=
  adds_forM (fun _ => adds_orderPair _ _) _

theorem Describes.choices_of_le {slot : SlotId} (hf : sel.IsFilled) (h : lex.Describes v sel)
    (hs : sel.schema.words.length ≤ slot) (hl : slot < sel.schema.slotCount) :
    Chooses v sel.schema.lexicon.covert (sel.item? slot) (lex.choicesAt slot) := by
  have hc := h.choices slot hl
  rwa [hf.built.candidates_of_le hs hl] at hc

theorem Describes.denotes_rank (hf : sel.IsFilled) (h : lex.Describes v sel)
    (hl : sel.schema.words.length ≤ later) (hll : later < sel.schema.slotCount) {x : (ItemId × Literal) × Nat}
    (hx : x ∈ (lex.choicesAt later).zipIdx) :
    x.2 < sel.schema.lexicon.covert.length ∧ v.Denotes x.1.2 (sel.rank later = x.2) := by
  obtain ⟨choice, i⟩ := x
  have hc := h.choices_of_le hf hl hll
  have hget : (lex.choicesAt later)[i]? = some choice := List.mem_zipIdx_iff_getElem?.1 hx
  obtain ⟨hi, rfl⟩ := List.getElem?_eq_some_iff.1 hget
  have hlt : i < sel.schema.lexicon.covert.length := by rwa [hc.length_eq]
  have hd := (hc.get (i := i) hlt hi).2
  simp only [List.get_eq_getElem] at hd
  exact ⟨hlt, hd.congr (Selection.rank_eq_iff hf hl hll hlt).symm⟩

theorem Describes.denotes_rank_le {i : Nat} (hf : sel.IsFilled) (h : lex.Describes v sel)
    (he : sel.schema.words.length ≤ earlier) (hel : earlier < sel.schema.slotCount)
    (hi : i < sel.schema.lexicon.covert.length) :
    ∃ ps, List.Forall₂ v.Denotes (((lex.choicesAt earlier).take (i + 1)).map (·.2)) ps ∧
      (AnyOf ps ↔ sel.rank earlier ≤ i) := by
  refine ⟨(sel.schema.lexicon.covert.take (i + 1)).map fun c => sel.item? earlier = some c.2, ?_, ?_⟩
  · rw [List.forall₂_map_left_iff, List.forall₂_map_right_iff]
    exact ((List.forall₂_take (i + 1) (h.choices_of_le hf he hel)).imp fun _ _ hc => hc.2).flip
  · rw [anyOf_map]
    constructor
    · rintro ⟨c, hc, hs⟩
      obtain ⟨j, hj, rfl⟩ := List.mem_iff_getElem.1 hc
      rw [List.getElem_take] at hs
      rw [List.length_take] at hj
      rw [(Selection.rank_eq_iff hf he hel (by omega)).2 hs]
      omega
    · intro hr
      have hlt : sel.rank earlier < sel.schema.lexicon.covert.length := by omega
      refine ⟨_, ?_, (Selection.rank_eq_iff hf he hel hlt).1 rfl⟩
      exact List.mem_take_iff_getElem.2 ⟨sel.rank earlier, by omega, rfl⟩

theorem asserts_orderPair (hf : sel.IsFilled) (h : lex.Describes v sel)
    (he : sel.schema.words.length ≤ earlier) (hel : earlier < sel.schema.slotCount)
    (hl : sel.schema.words.length ≤ later) (hll : later < sel.schema.slotCount) :
    Asserts v (lex.orderPair earlier later) (sel.rank earlier ≤ sel.rank later) := by
  have each : ∀ v', v ≤ v' → Asserts v' ((lex.choicesAt later).zipIdx.forM fun x =>
      impliesAny [x.1.2] (((lex.choicesAt earlier).take (x.2 + 1)).map (·.2)))
      (∀ x ∈ (lex.choicesAt later).zipIdx, sel.rank later = x.2 → sel.rank earlier ≤ x.2) := by
    intro v' hle
    refine Asserts.forM (fun _ => adds_impliesAny _ _) fun x hx v'' hle' => ?_
    obtain ⟨hi, hd⟩ := h.denotes_rank hf hl hll hx
    obtain ⟨ps, hps, hany⟩ := h.denotes_rank_le hf he hel hi
    have hle := Valuation.le_trans hle hle'
    refine (asserts_impliesAny (.cons (hd.mono hle) .nil) (Valuation.forall₂_denotes_mono hps hle)).congr ?_
    simp [hany]
  refine (Asserts.bind (asserts_implies_one (h.used later hll) (h.used earlier hel))
    (fun _ => adds_forM (fun _ => adds_impliesAny _ _) _) fun v' _ hle _ => each v' hle).congr ?_
  rw [← Selection.rank_lt_iff hf hl hll, ← Selection.rank_lt_iff hf he hel]
  constructor
  · rintro ⟨hused, hall⟩
    by_cases hlt : sel.rank later < sel.schema.lexicon.covert.length
    · -- the clause for the choice at the later slot's own rank
      have hi : sel.rank later < (lex.choicesAt later).length := by
        rwa [← (h.choices_of_le hf hl hll).length_eq]
      exact hall ((lex.choicesAt later)[sel.rank later], sel.rank later)
        (List.mem_zipIdx_iff_getElem?.2 (List.getElem?_eq_getElem hi)) rfl
    · exact Nat.le_trans Selection.rank_le (Nat.le_of_not_lt hlt)
  · intro hle
    exact ⟨fun h => Nat.lt_of_le_of_lt hle h, fun x _ hx => hx ▸ hle⟩

theorem mem_zip_tail_range' {w n a b : Nat} :
    (a, b) ∈ (List.range' w n).zip (List.range' w n).tail ↔ w ≤ a ∧ a + 1 < w + n ∧ b = a + 1 := by
  cases n with
  | zero =>
    simp only [List.range'_zero, List.tail_nil, List.zip_nil_left, List.not_mem_nil, false_iff]
    omega
  | succ n =>
    rw [List.range'_succ, List.tail_cons, List.mem_iff_getElem]
    simp only [List.length_zip, List.length_cons, List.length_range', List.getElem_zip]
    constructor
    · rintro ⟨i, hi, he⟩
      obtain ⟨rfl, rfl⟩ := Prod.mk.inj he
      cases i with
      | zero => simp; omega
      | succ i => simp; omega
    · rintro ⟨hw, hn, rfl⟩
      refine ⟨a - w, by omega, ?_⟩
      obtain ⟨k, rfl⟩ := Nat.exists_eq_add_of_le hw
      cases k with
      | zero => simp
      | succ k => simp; omega

/-- The clauses for the order of covert slots say that these are filled by rank. -/
theorem asserts_orderCovertSlots (hf : sel.IsFilled) (h : lex.Describes v sel) :
    Asserts v (lex.orderCovertSlots sel.schema) sel.IsSorted := by
  have hle := hf.built.words_le_slotCount
  have hmem : ∀ {a b}, (a, b) ∈ sel.schema.covertSlots.zip sel.schema.covertSlots.tail ↔
      sel.schema.words.length ≤ a ∧ a + 1 < sel.schema.slotCount ∧ b = a + 1 := by
    intro a b
    rw [Schema.covertSlots, mem_zip_tail_range', Nat.add_sub_cancel' hle]
  refine (Asserts.forM (C := fun x => sel.rank x.1 ≤ sel.rank x.2) (fun _ => adds_orderPair _ _)
    fun x hx v' hle' => ?_).congr ?_
  · obtain ⟨hw, hn, he⟩ := hmem.1 hx
    exact asserts_orderPair hf (h.mono hle') hw (Nat.lt_of_succ_lt hn) (he ▸ Nat.le_succ_of_le hw) (he ▸ hn)
  · constructor
    · exact fun hall slot hw hn => hall (slot, slot + 1) (hmem.2 ⟨hw, hn, rfl⟩)
    · rintro hs ⟨a, b⟩ hx
      obtain ⟨hw, hn, rfl⟩ := hmem.1 hx
      exact hs a hw hn

end Lexical

end MinimalistGrammar
