import MinimalistGrammar.Encoding.Lexical
import MinimalistGrammar.Proofs.Fallible
import MinimalistGrammar.Proofs.Grouping
import MinimalistGrammar.Proofs.Sat.Cardinality
import MinimalistGrammar.Proofs.Selection.Basic

/-!
The lexical literals: they offer every way to fill the slots, and say which item each slot holds and what
stands at each point.
-/

namespace MinimalistGrammar

open MinimalistGrammar.Sat
open MinimalistGrammar.Sat.Builder

/-- The slots filled in the given way, and no checks. -/
def Schema.fill (s : Schema) (t : SlotId → Option Item) : Selection := ⟨s, s.slotIds.map t, []⟩

/-- A slot may hold any of its candidates, and be empty if it has no word. -/
def Schema.MayHold (s : Schema) (slot : SlotId) (o : Option Item) : Prop :=
  (o = none ∧ s.words.length ≤ slot) ∨ ∃ item ∈ (s.candidates slot).map (·.2), o = some item

def Schema.MayCarry (s : Schema) (p : PointId) (f : Feature) : Prop :=
  ∃ c ∈ s.candidates (s.slotOf p), c.2.feature? (s.point p).index = some f

theorem Schema.item?_fill {s : Schema} {t : SlotId → Option Item} {slot : SlotId} (h : slot < s.slotCount) :
    (s.fill t).item? slot = t slot := by
  rw [Selection.item?, fill, List.getElem?_map, slotIds, List.getElem?_range h]
  rfl

theorem Schema.mem_candidates_fill {s : Schema} {t : SlotId → Option Item}
    (h : ∀ slot ∈ s.slotIds, s.MayHold slot (t slot)) :
    ∀ slot item, (s.fill t).item? slot = some item → item ∈ (s.candidates slot).map (·.2) := by
  intro slot item hi
  by_cases hs : slot < s.slotCount
  · rw [item?_fill hs] at hi
    rcases h slot (mem_slotIds.2 hs) with ⟨hn, _⟩ | ⟨i, hm, he⟩
    · rw [hi] at hn
      cases hn
    · rw [hi, Option.some.injEq] at he
      exact he ▸ hm
  · rw [Selection.item?, fill, List.getElem?_eq_none (by simpa [slotIds] using hs)] at hi
    cases hi

section Choices

variable {v : Valuation} {items : List Item} {o : Option Item} {ps : List Prop}

theorem exists_choice (hi : items.Nodup) (hl : ps.length = items.length) (hp : trueCount ps ≤ 1) :
    ∃ o, (o = none ∨ ∃ i ∈ items, o = some i) ∧ ps = items.map fun i => o = some i := by
  induction items generalizing ps with
  | nil =>
    rw [List.length_nil, List.length_eq_zero_iff] at hl
    exact ⟨none, .inl rfl, hl⟩
  | cons i items ih =>
    obtain ⟨p, ps, rfl⟩ := List.exists_cons_of_length_eq_add_one hl
    obtain ⟨hni, hi⟩ := List.nodup_cons.1 hi
    by_cases h : p
    · refine ⟨some i, .inr ⟨i, .head _, rfl⟩, ?_⟩
      rw [trueCount_cons_of_true h] at hp
      have hz := trueCount_eq_zero_iff.1 (show trueCount ps = 0 by omega)
      rw [List.map_cons]
      refine congrArg₂ List.cons (by simp [h]) (List.ext_getElem (by simpa using hl) fun n h₁ h₂ => ?_)
      rw [List.getElem_map, eq_iff_iff]
      have hn : n < items.length := by simpa using h₂
      have hne : i ≠ items[n] := fun e => hni (e ▸ List.getElem_mem _)
      exact ⟨fun hx => absurd hx (hz _ (List.getElem_mem _)), fun e => absurd (Option.some.inj e) hne⟩
    · rw [trueCount_cons_of_false h] at hp
      obtain ⟨o, ho, hps⟩ := ih hi (by simpa using hl) hp
      refine ⟨o, ho.imp id fun ⟨j, hj, e⟩ => ⟨j, .tail _ hj, e⟩, ?_⟩
      rw [List.map_cons, ← hps]
      refine congrArg₂ List.cons ?_ rfl
      rw [eq_iff_iff]
      refine ⟨fun hp => absurd hp h, fun e => ?_⟩
      rcases ho with rfl | ⟨j, hj, rfl⟩
      · cases e
      · cases e
        exact absurd hj hni

theorem trueCount_choice_le_one (hi : items.Nodup) : trueCount (items.map fun i => o = some i) ≤ 1 := by
  rw [trueCount_map_le_one_iff hi]
  intro i _ j _ h h'
  exact Option.some.inj (h.symm.trans h')

theorem anyOf_choice : AnyOf (items.map fun i => o = some i) ↔ ∃ i ∈ items, o = some i := anyOf_map

def Chooses (v : Valuation) (candidates : List (ItemId × Item)) (o : Option Item)
    (choices : List (ItemId × Literal)) : Prop :=
  List.Forall₂ (fun c choice => choice.1 = c.1 ∧ v.Denotes choice.2 (o = some c.2)) candidates choices

theorem Chooses.mono {v' : Valuation} {candidates : List (ItemId × Item)}
    {choices : List (ItemId × Literal)} (h : Chooses v candidates o choices) (hv : v ≤ v') :
    Chooses v' candidates o choices := h.imp fun _ _ hc => ⟨hc.1, hc.2.mono hv⟩

theorem chooses_zip {candidates : List (ItemId × Item)} {lits : List Literal}
    (h : List.Forall₂ v.Denotes lits (candidates.map fun c => o = some c.2)) :
    Chooses v candidates o ((candidates.map (·.1)).zip lits) := by
  induction candidates generalizing lits with
  | nil => exact .nil
  | cons c rest ih =>
    cases h with
    | cons hd ht => exact .cons ⟨rfl, hd⟩ (ih ht)

/-- The literals say which candidate is chosen, and whether one is. -/
def Fills (v : Valuation) (candidates : List (ItemId × Item)) (o : Option Item)
    (r : List (ItemId × Literal) × Literal) : Prop :=
  Chooses v candidates o r.1 ∧ v.Denotes r.2 (∃ item, o = some item)

theorem Fills.mono {v' : Valuation} {candidates : List (ItemId × Item)}
    {r : List (ItemId × Literal) × Literal} (h : Fills v candidates o r) (hv : v ≤ v') :
    Fills v' candidates o r := ⟨h.1.mono hv, h.2.mono hv⟩

end Choices

namespace Lexical

section Building

variable {s : Schema} {v : Valuation}

theorem adds_chosen (slot : SlotId) (lits : List Literal) : Adds (if slot < s.words.length
    then exactlyOne lits >>= fun _ => pure (((s.candidates slot).map (·.1)).zip lits, Literal.top)
    else atMostOne lits >>= fun _ => or lits >>= fun used =>
      pure (((s.candidates slot).map (·.1)).zip lits, used)) :=
  adds_ite (adds_bind (adds_exactlyOne _) fun _ => adds_pure _)
    (adds_bind (adds_atMostOne _) fun _ => adds_bind (adds_or _) fun _ => adds_pure _)

theorem adds_choose (slot : SlotId) : Adds (choose s slot) :=
  adds_bind (adds_freshList _) fun _ => adds_chosen slot _

theorem spec_chosen {slot : SlotId} {lits : List Literal} {ps : List Prop} (hlits : List.Forall₂ v.Denotes lits ps) :
    Spec v (if slot < s.words.length then exactlyOne lits >>= fun _ =>
        pure (((s.candidates slot).map (·.1)).zip lits, Literal.top)
      else atMostOne lits >>= fun _ => or lits >>= fun used =>
        pure (((s.candidates slot).map (·.1)).zip lits, used))
      (trueCount ps ≤ 1 ∧ (slot < s.words.length → AnyOf ps)) fun v' r =>
        (∃ lits, List.Forall₂ v'.Denotes lits ps ∧ r.1 = ((s.candidates slot).map (·.1)).zip lits) ∧
          v'.Denotes r.2 (AnyOf ps) := by
  split
  · rename_i hw
    have hone : trueCount ps = 1 ↔ trueCount ps ≤ 1 ∧ (slot < s.words.length → AnyOf ps) := by
      rw [anyOf_iff_trueCount]
      refine ⟨fun h => ⟨by omega, fun _ => by omega⟩, fun h => ?_⟩
      have := h.2 hw
      omega
    refine ((asserts_exactlyOne hlits).bind_pure fun v' _ hle hc _ => ?_).congr hone
    refine ⟨⟨lits, Valuation.forall₂_denotes_mono hlits hle, rfl⟩, Valuation.denotes_top.congr ?_⟩
    rw [true_iff]
    exact (hone.1 hc).2 hw
  · rename_i hw
    refine (Asserts.bind (asserts_atMostOne hlits)
      (fun _ => adds_bind (adds_or _) fun _ => adds_pure _) fun v₁ _ hle₁ _ =>
      (spec_or (Valuation.forall₂_denotes_mono hlits hle₁)).bind_pure fun v₂ used hle₂ _ hused => ?_).congr ?_
    · exact ⟨⟨lits, Valuation.forall₂_denotes_mono hlits (Valuation.le_trans hle₁ hle₂), rfl⟩, hused⟩
    · exact and_congr_right fun _ => ⟨fun _ h => absurd h hw, fun _ => trivial⟩

theorem anyOf_candidates {slot : SlotId} {o : Option Item} (ho : s.MayHold slot o) :
    AnyOf ((s.candidates slot).map fun c => o = some c.2) ↔ ∃ item, o = some item := by
  rw [anyOf_map]
  constructor
  · rintro ⟨c, _, h⟩
    exact ⟨c.2, h⟩
  · rintro ⟨item, rfl⟩
    rcases ho with ⟨h, _⟩ | ⟨i, hi, h⟩
    · cases h
    · cases h
      obtain ⟨c, hc, rfl⟩ := List.mem_map.1 hi
      exact ⟨c, hc, rfl⟩

theorem exists_mayHold_of_trueCount {slot : SlotId} {ps : List Prop} (hs : s.IsBuilt)
    (hl : ps.length = (s.candidates slot).length) (hone : trueCount ps ≤ 1)
    (hany : slot < s.words.length → AnyOf ps) :
    ∃ o, s.MayHold slot o ∧ ps = (s.candidates slot).map fun c => o = some c.2 := by
  obtain ⟨o, ho, rfl⟩ := exists_choice hs.nodup_candidates (by simpa using hl) hone
  refine ⟨o, ?_, by rw [List.map_map, Function.comp_def]⟩
  rcases ho with rfl | h
  · refine .inl ⟨rfl, Nat.le_of_not_lt fun hw => ?_⟩
    obtain ⟨_, _, h⟩ := anyOf_choice.1 (hany hw)
    cases h
  · exact .inr h

theorem offers_choose (hs : s.IsBuilt) (slot : SlotId) :
    Offers v (choose s slot) (s.MayHold slot) fun o v' r => Fills v' (s.candidates slot) o r := by
  refine ((offers_freshList _).bind (adds_chosen slot) fun _ _ _ _ _ hlits => spec_chosen hlits).imp ?_ ?_
  · rintro ⟨ps, ⟨⟩⟩ r ⟨hl, hone, hany⟩ ⟨⟨lits, hlits, hr⟩, hused⟩
    obtain ⟨o, ho, rfl⟩ := exists_mayHold_of_trueCount hs hl hone hany
    refine ⟨o, ho, ?_, hused.congr (anyOf_candidates ho)⟩
    rw [hr]
    exact chooses_zip hlits
  · intro o ho
    refine ⟨((s.candidates slot).map (fun c => o = some c.2), ()), ⟨by simp, ?_, fun hw => ?_⟩, ?_⟩
    · have hnodup : ((s.candidates slot).map (·.2)).Nodup := hs.nodup_candidates
      have := trueCount_choice_le_one (o := o) hnodup
      simpa [List.map_map, Function.comp_def] using this
    · rcases ho with ⟨_, hle⟩ | ⟨item, hi, rfl⟩
      · exact absurd hw (Nat.not_lt.2 hle)
      · exact (anyOf_candidates (.inr ⟨item, hi, rfl⟩)).2 ⟨item, rfl⟩
    · rintro v' ⟨choices, used⟩ _ ⟨⟨lits, hlits, rfl⟩, hused⟩
      exact ⟨chooses_zip hlits, hused.congr (anyOf_candidates ho)⟩

end Building

end Lexical

section Numbered

variable {α β γ : Type} {r : Nat → β → Prop} {R : α → β → Prop} {n i : Nat} {xs : List α} {ys : List β} {x : α}
  {y d : β}

theorem exists_mem_zip_of_forall₂ (h : List.Forall₂ R xs ys) (hx : x ∈ xs) : ∃ y, (x, y) ∈ xs.zip ys := by
  induction h with
  | nil => cases hx
  | @cons x' y _ _ _ _ ih =>
    rcases List.mem_cons.1 hx with rfl | hx
    · exact ⟨y, .head _⟩
    · obtain ⟨z, hz⟩ := ih hx
      exact ⟨z, .tail _ hz⟩

theorem map_eq_map_of_forall₂ {f : α → γ} {g : β → γ} (h : List.Forall₂ (fun x y => g y = f x) xs ys) :
    ys.map g = xs.map f := by
  induction h with
  | nil => rfl
  | cons he _ ih => rw [List.map_cons, List.map_cons, he, ih]

theorem getD_of_forall₂_range (h : List.Forall₂ r (List.range n) ys) (hi : i < n) : r i (ys.getD i d) := by
  have hlen := h.length_eq
  rw [List.length_range] at hlen
  have := h.get (i := i) (by simpa using hi) (by omega)
  simpa [List.getD_eq_getElem?_getD, List.getElem?_eq_getElem (hlen ▸ hi : i < ys.length)] using this

theorem getD_toArray_of_forall₂_range (h : List.Forall₂ r (List.range n) ys) (hi : i < n) :
    r i (ys.toArray.getD i d) := by
  have := getD_of_forall₂_range (d := d) h hi
  simpa [Array.getD_eq_getD_getElem?, List.getD_eq_getElem?_getD] using this

end Numbered

namespace Lexical

section Carrying

variable {s : Schema} {v : Valuation} {o : Option Item} {candidates : List (ItemId × Item)}
  {choices : List (ItemId × Literal)} {index : Nat} {f : Feature}

/-- What the candidates of a slot put at an index, with their choices. -/
def offered (candidates : List (ItemId × Item)) (choices : List (ItemId × Literal)) (index : Nat) :
    List (Feature × Literal) :=
  (candidates.zip choices).filterMap fun (candidate, choice) =>
    (candidate.2.feature? index).map fun f => (f, choice.2)

theorem offered_cons_of_none {c : ItemId × Item} {choice : ItemId × Literal}
    (h : c.2.feature? index = none) :
    offered (c :: candidates) (choice :: choices) index = offered candidates choices index := by
  simp only [offered, List.zip_cons_cons, List.filterMap_cons, h, Option.map_none]

theorem offered_cons_of_some {c : ItemId × Item} {choice : ItemId × Literal}
    (h : c.2.feature? index = some f) :
    offered (c :: candidates) (choice :: choices) index =
      (f, choice.2) :: offered candidates choices index := by
  simp only [offered, List.zip_cons_cons, List.filterMap_cons, h, Option.map_some]

theorem denotes_offered (h : Chooses v candidates o choices) (index : Nat) (f : Feature) :
    List.Forall₂ v.Denotes (((offered candidates choices index).filter (·.1 = f)).map (·.2))
      ((candidates.filter fun c => c.2.feature? index = some f).map fun c => o = some c.2) := by
  induction h with
  | nil => exact .nil
  | @cons c choice _ _ hc _ ih =>
    rw [List.filter_cons]
    cases hi : c.2.feature? index with
    | none =>
      rw [offered_cons_of_none hi]
      simpa using ih
    | some g =>
      rw [offered_cons_of_some hi, List.filter_cons]
      by_cases hg : g = f
      · simpa [hg] using And.intro hc.2 ih
      · simpa [hg] using ih

theorem mem_keys_offered (h : Chooses v candidates o choices) :
    f ∈ (offered candidates choices index).map (·.1) ↔ ∃ c ∈ candidates, c.2.feature? index = some f := by
  induction h with
  | nil => simp [offered]
  | @cons c choice _ _ _ _ ih =>
    rw [List.exists_mem_cons_iff, ← ih]
    cases hi : c.2.feature? index with
    | none => rw [offered_cons_of_none hi]; simp
    | some g => rw [offered_cons_of_some hi, List.map_cons, List.mem_cons, Option.some.injEq, eq_comm]

/-- The features at a point with literals that say which of them stands there. -/
structure Lists (v : Valuation) (sel : Selection) (p : PointId) (fs : List (Feature × Literal)) : Prop where
  nodup : (fs.map (·.1)).Nodup
  mem_keys : ∀ f, f ∈ fs.map (·.1) ↔ sel.schema.MayCarry p f
  denotes : ∀ f l, (f, l) ∈ fs → v.Denotes l (sel.Carries p f)

theorem Lists.mono {sel : Selection} {p : PointId} {fs : List (Feature × Literal)} {v' : Valuation}
    (h : Lists v sel p fs) (hv : v ≤ v') : Lists v' sel p fs :=
  ⟨h.nodup, h.mem_keys, fun f l hm => (h.denotes f l hm).mono hv⟩

theorem adds_carry (sources : List (Feature × List Literal)) : Adds (carry sources) :=
  adds_bind (adds_mapM (fun _ => adds_bind (adds_or _) fun _ => adds_pure _) _) fun _ =>
    adds_bind (adds_or _) fun _ => adds_pure _

theorem adds_carrying (features : List (List (Feature × Literal))) (test : Polarity → Bool) :
    Adds (carrying features test) :=
  adds_bind (adds_mapM (fun _ => adds_or _) _) fun _ => adds_pure _

theorem adds_build (s : Schema) : Adds (build s) :=
  adds_bind (adds_mapM adds_choose _) fun _ => adds_bind (adds_mapM (fun _ => adds_carry _) _) fun _ =>
    adds_bind (adds_carrying _ _) fun _ => adds_bind (adds_carrying _ _) fun _ =>
      adds_bind (adds_carrying _ _) fun _ => adds_bind (adds_carrying _ _) fun _ => adds_pure _

section Point

variable {sel : Selection} {p : PointId}
  (hmem : ∀ slot item, sel.item? slot = some item → item ∈ (sel.schema.candidates slot).map (·.2))
include hmem

theorem mayCarry_of_carries (h : sel.Carries p f) : sel.schema.MayCarry p f := by
  obtain ⟨_, item, hitem, hi⟩ := Selection.carries_iff.1 h
  obtain ⟨c, hc, rfl⟩ := List.mem_map.1 (hmem _ _ hitem)
  exact ⟨c, hc, hi⟩

/-- The literal for some feature of such a polarity is that for falsehood where no candidate has one. -/
theorem spec_or_carries {fs : List (Feature × Literal)} (h : Lists v sel p fs) (test : Polarity → Bool) :
    Spec v (or ((fs.filter fun f => test f.1.polarity).map (·.2))) True fun v' l =>
      v'.Denotes l (∃ f, sel.Carries p f ∧ test f.polarity = true) ∧
        (l ≠ .bottom → ∃ f, sel.schema.MayCarry p f ∧ test f.polarity = true) := by
  cases hfs : fs.filter fun f => test f.1.polarity with
  | nil =>
    refine spec_pure ⟨Valuation.denotes_bottom.congr ⟨False.elim, fun ⟨f, hc, ht⟩ => ?_⟩, fun hne => absurd rfl hne⟩
    obtain ⟨x, hx, rfl⟩ := List.mem_map.1 ((h.mem_keys f).2 (mayCarry_of_carries hmem hc))
    have hx : x ∈ fs.filter fun f => test f.1.polarity := List.mem_filter.2 ⟨hx, ht⟩
    rw [hfs] at hx
    cases hx
  | cons y ys =>
    have hy := List.mem_filter.1 (hfs ▸ List.mem_cons_self : y ∈ fs.filter fun f => test f.1.polarity)
    have hmay : ∃ f, sel.schema.MayCarry p f ∧ test f.polarity = true :=
      ⟨y.1, (h.mem_keys y.1).1 (List.mem_map_of_mem hy.1), hy.2⟩
    rw [← hfs]
    have hd : List.Forall₂ v.Denotes ((fs.filter fun f => test f.1.polarity).map (·.2))
        ((fs.filter fun f => test f.1.polarity).map fun x => sel.Carries p x.1) :=
      Valuation.forall₂_denotes_map fun x hx => h.denotes x.1 x.2 (List.mem_filter.1 hx).1
    refine (spec_or hd).post fun v' l _ _ hl => ⟨hl.congr ?_, fun _ => hmay⟩
    rw [anyOf_map]
    constructor
    · rintro ⟨x, hx, hc⟩
      exact ⟨x.1, hc, (List.mem_filter.1 hx).2⟩
    · rintro ⟨f, hc, ht⟩
      obtain ⟨x, hx, rfl⟩ := List.mem_map.1 ((h.mem_keys f).2 (mayCarry_of_carries hmem hc))
      exact ⟨x, List.mem_filter.2 ⟨hx, ht⟩, hc⟩

theorem spec_carry (hp : p < sel.schema.pointCount)
    (h : Chooses v (sel.schema.candidates (sel.schema.slotOf p)) (sel.item? (sel.schema.slotOf p)) choices) :
    Spec v (carry (groupByKey (offered (sel.schema.candidates (sel.schema.slotOf p)) choices
      (sel.schema.point p).index))) True fun v' r => Lists v' sel p r.1 := by
  generalize hcands : sel.schema.candidates (sel.schema.slotOf p) = candidates at h
  generalize hindex : (sel.schema.point p).index = index
  have each : ∀ src ∈ groupByKey (offered candidates choices index), ∀ v', v ≤ v' →
      Spec v' (or src.2 >>= fun l => pure (src.1, l)) True fun v'' y =>
        y.1 = src.1 ∧ v''.Denotes y.2 (sel.Carries p src.1) := by
    rintro ⟨f, lits⟩ hsrc v' hle
    have hd := denotes_offered h index f
    rw [← (mem_groupByKey.1 hsrc).2] at hd
    refine (spec_or (Valuation.forall₂_denotes_mono hd hle)).bind_pure fun v'' l _ _ hl => ⟨rfl, hl.congr ?_⟩
    rw [anyOf_map, Selection.carries_iff, hindex]
    constructor
    · rintro ⟨c, hc, ho⟩
      exact ⟨hp, c.2, ho, by simpa using (List.mem_filter.1 hc).2⟩
    · rintro ⟨_, item, ho, hi⟩
      obtain ⟨c, hc, rfl⟩ := List.mem_map.1 (hmem _ _ ho)
      exact ⟨c, List.mem_filter.2 ⟨hcands ▸ hc, by simpa using hi⟩, ho⟩
  have listed : ∀ v' fs, List.Forall₂ (fun src y => y.1 = src.1 ∧ v'.Denotes y.2 (sel.Carries p src.1))
      (groupByKey (offered candidates choices index)) fs → Lists v' sel p fs := by
    intro v' fs hfs
    have hkeys := map_eq_map_of_forall₂ (hfs.imp fun _ _ hy => hy.1)
    refine ⟨hkeys ▸ nodup_keys_groupByKey _, fun f => ?_, fun f l hm => ?_⟩
    · rw [hkeys, mem_keys_groupByKey, mem_keys_offered h, Schema.MayCarry, hcands, hindex]
    · obtain ⟨src, _, rfl, hd⟩ := exists_left_of_forall₂ hfs hm
      exact hd
  refine (Spec.bind (Spec.mapM ?_ (fun _ => adds_bind (adds_or _) fun _ => adds_pure _) each)
    (fun _ => adds_bind (adds_or _) fun _ => adds_pure _) (D := True) fun v₁ fs _ _ hfs => ?_).congr
      (by simp)
  · exact fun src v v' y hle hy => ⟨hy.1, hy.2.mono hle⟩
  · refine (spec_or (Valuation.forall₂_denotes_map fun x hx => (listed v₁ fs hfs).denotes x.1 x.2 hx)).bind_pure ?_
    exact fun v₂ _ hle _ _ => (listed v₁ fs hfs).mono hle

end Point

/-- One literal for each point, which holds where a feature of such a polarity stands, and is the one for falsehood where
none may stand. -/
structure Marks (v : Valuation) (sel : Selection) (test : Polarity → Bool) (lits : Array Literal) : Prop where
  size : lits.size = sel.schema.pointCount
  denotes : ∀ p < sel.schema.pointCount,
    v.Denotes (lits.getD p .bottom) (∃ f, sel.Carries p f ∧ test f.polarity = true)
  mayCarry : ∀ p < sel.schema.pointCount, lits.getD p .bottom ≠ .bottom →
    ∃ f, sel.schema.MayCarry p f ∧ test f.polarity = true

theorem Marks.mono {sel : Selection} {test : Polarity → Bool} {lits : Array Literal} {v' : Valuation}
    (h : Marks v sel test lits) (hv : v ≤ v') : Marks v' sel test lits :=
  ⟨h.size, fun p hp => (h.denotes p hp).mono hv, h.mayCarry⟩

theorem Marks.of_links {sel : Selection} {test : Polarity → Bool} {lits : Array Literal} (h : Marks v sel test lits)
    (links : List (PointId × PointId)) : Marks v { sel with links } test lits := ⟨h.size, h.denotes, h.mayCarry⟩

theorem spec_carrying {sel : Selection} {features : List (List (Feature × Literal))}
    (hmem : ∀ slot item, sel.item? slot = some item → item ∈ (sel.schema.candidates slot).map (·.2))
    (h : List.Forall₂ (Lists v sel) sel.schema.pointIds features) (test : Polarity → Bool) :
    Spec v (carrying features test) True fun v' lits => Marks v' sel test lits := by
  refine ((Spec.mapM_of_forall₂ (C := fun _ => True)
    (Q := fun p v' l => v'.Denotes l (∃ f, sel.Carries p f ∧ test f.polarity = true) ∧
      (l ≠ .bottom → ∃ f, sel.schema.MayCarry p f ∧ test f.polarity = true)) h
    (fun _ _ _ _ hle hl => ⟨hl.1.mono hle, hl.2⟩) (fun _ => adds_or _) ?_).bind_pure ?_).congr (by simp)
  · exact fun p _ fs hfs v' hle => spec_or_carries hmem (hfs.mono hle) test
  · intro v' lits _ _ hl
    have hpoint := fun p hp => getD_toArray_of_forall₂_range (d := .bottom) (i := p) hl hp
    refine ⟨?_, fun p hp => (hpoint p hp).1, fun p hp => (hpoint p hp).2⟩
    rw [List.size_toArray, ← hl.length_eq, Schema.pointIds, List.length_range]

end Carrying

structure Describes (v : Valuation) (sel : Selection) (lex : Lexical) : Prop where
  choices : ∀ slot < sel.schema.slotCount,
    Chooses v (sel.schema.candidates slot) (sel.item? slot) (lex.choicesAt slot)
  used : ∀ slot < sel.schema.slotCount, v.Denotes (lex.usedAt slot) (∃ item, sel.item? slot = some item)
  features : ∀ p < sel.schema.pointCount, Lists v sel p (lex.featuresAt p)
  triggers : Marks v sel Polarity.isTrigger lex.triggers
  targets : Marks v sel Polarity.isTarget lex.targets
  categories : Marks v sel (· = .category) lex.categories
  licensees : Marks v sel (· = .licensee) lex.licensees

theorem Describes.mono {v v' : Valuation} {sel : Selection} {lex : Lexical} (h : Describes v sel lex)
    (hv : v ≤ v') : Describes v' sel lex :=
  ⟨fun slot hs => (h.choices slot hs).mono hv, fun slot hs => (h.used slot hs).mono hv,
    fun p hp => (h.features p hp).mono hv, h.triggers.mono hv, h.targets.mono hv, h.categories.mono hv,
    h.licensees.mono hv⟩

/-- Nothing that the lexical literals say depends on the checks. -/
theorem Describes.of_links {v : Valuation} {sel : Selection} {lex : Lexical} (h : Describes v sel lex)
    (links : List (PointId × PointId)) : Describes v { sel with links } lex :=
  ⟨h.choices, h.used, fun p hp => ⟨(h.features p hp).nodup, (h.features p hp).mem_keys,
    (h.features p hp).denotes⟩, h.triggers.of_links links, h.targets.of_links links, h.categories.of_links links,
      h.licensees.of_links links⟩

theorem spec_carrying_all {v : Valuation} {sel : Selection} {choices : List (List (ItemId × Literal))}
    {used active : List Literal} {features : List (List (Feature × Literal))}
    (hmem : ∀ slot item, sel.item? slot = some item → item ∈ (sel.schema.candidates slot).map (·.2))
    (hc : ∀ slot < sel.schema.slotCount,
      Chooses v (sel.schema.candidates slot) (sel.item? slot) (choices.toArray.getD slot []))
    (hu : ∀ slot < sel.schema.slotCount,
      v.Denotes (used.toArray.getD slot .bottom) (∃ item, sel.item? slot = some item))
    (hf : List.Forall₂ (Lists v sel) sel.schema.pointIds features) :
    Spec v (do
      let triggers ← carrying features Polarity.isTrigger
      let targets ← carrying features Polarity.isTarget
      let categories ← carrying features (· = .category)
      let licensees ← carrying features (· = .licensee)
      return ({
        choices := choices.toArray
        used := used.toArray
        features := features.toArray
        active := active.toArray
        triggers, targets, categories, licensees } : Lexical)) True fun v' lex => Describes v' sel lex := by
  have later : ∀ v', v ≤ v' → List.Forall₂ (Lists v' sel) sel.schema.pointIds features :=
    fun v' hle => hf.imp fun _ _ h => h.mono hle
  -- each table is described by the valuation it was made under, and stays so under what the later ones add
  refine (spec_carrying hmem hf _).bind_free (fun _ => adds_bind (adds_carrying _ _) fun _ =>
    adds_bind (adds_carrying _ _) fun _ => adds_bind (adds_carrying _ _) fun _ => adds_pure _)
      fun v₁ triggers hle₁ _ htr => ?_
  refine (spec_carrying hmem (later v₁ hle₁) _).bind_free (fun _ => adds_bind (adds_carrying _ _)
    fun _ => adds_bind (adds_carrying _ _) fun _ => adds_pure _) fun v₂ targets hle₂ _ hta => ?_
  have hle₀₂ := Valuation.le_trans hle₁ hle₂
  refine (spec_carrying hmem (later v₂ hle₀₂) _).bind_free (fun _ => adds_bind (adds_carrying _ _)
    fun _ => adds_pure _) fun v₃ categories hle₃ _ hca => ?_
  have hle₀₃ := Valuation.le_trans hle₀₂ hle₃
  refine (spec_carrying hmem (later v₃ hle₀₃) _).bind_pure fun v₄ licensees hle₄ _ hli => ?_
  have hle := Valuation.le_trans hle₀₃ hle₄
  exact {
    choices := fun slot hs => (hc slot hs).mono hle
    used := fun slot hs => (hu slot hs).mono hle
    features := fun p hp => getD_toArray_of_forall₂_range (later v₄ hle) hp
    triggers := htr.mono (Valuation.le_trans hle₂ (Valuation.le_trans hle₃ hle₄))
    targets := hta.mono (Valuation.le_trans hle₃ hle₄)
    categories := hca.mono hle₄
    licensees := hli }

/-- The lexical literals offer every way to fill the slots. -/
theorem offers_build {s : Schema} {v : Valuation} (hs : s.IsBuilt) :
    Offers v (build s) (fun t : SlotId → Option Item => ∀ slot ∈ s.slotIds, s.MayHold slot (t slot))
      fun t v' lex => Describes v' (s.fill t) lex := by
  have hmem : ∀ t, (∀ slot ∈ s.slotIds, s.MayHold slot (t slot)) → ∀ slot item, (s.fill t).item? slot = some item →
      item ∈ ((s.fill t).schema.candidates slot).map (·.2) := fun _ => Schema.mem_candidates_fill
  have chosen : Offers v (s.slotIds.mapM (choose s))
      (fun t : SlotId → Option Item => ∀ slot ∈ s.slotIds, s.MayHold slot (t slot)) fun t v' ys =>
        List.Forall₂ (fun slot => Fills v' (s.candidates slot) (t slot)) s.slotIds ys :=
    Offers.mapM List.nodup_range (fun _ _ _ _ _ hle h => h.mono hle) adds_choose
      fun slot _ _ _ => offers_choose hs slot
  have carried : ∀ t v₁ ys, v ≤ v₁ → (∀ slot ∈ s.slotIds, s.MayHold slot (t slot)) →
      List.Forall₂ (fun slot => Fills v₁ (s.candidates slot) (t slot)) s.slotIds ys →
      Spec v₁ (s.pointIds.mapM fun p => carry (sources s (ys.map (·.1)) p)) True fun v' rs =>
        List.Forall₂ (fun p (r : List (Feature × Literal) × Literal) => Lists v' (s.fill t) p r.1)
          s.pointIds rs := by
    intro t v₁ ys _ ht hys
    have hchoices := List.forall₂_map_right_iff.2 (hys.imp fun _ _ hy => hy.1)
    refine (Spec.mapM (C := fun _ => True)
      (Q := fun p v' (r : List (Feature × Literal) × Literal) => Lists v' (s.fill t) p r.1)
      (fun _ _ _ _ hle h => h.mono hle) (fun _ => adds_carry _) fun p hp v' hle => ?_).congr (by simp)
    have hp := Schema.mem_pointIds.1 hp
    have hslot := hs.slotOf_lt hp
    have hch : Chooses v₁ (s.candidates (s.slotOf p)) (t (s.slotOf p)) _ :=
      getD_of_forall₂_range (d := []) hchoices hslot
    rw [← Schema.item?_fill (t := t) hslot] at hch
    have hspec := spec_carry (hmem t ht) hp (hch.mono hle)
    exact hspec
  -- only the slots are free; all that comes after has one value once they are filled
  refine chosen.bind_free ?_ fun t v₁ ys hle₁ ht hys => ?_
  · exact fun _ => adds_bind (adds_mapM (fun _ => adds_carry _) _) fun _ =>
      adds_bind (adds_carrying _ _) fun _ => adds_bind (adds_carrying _ _) fun _ =>
        adds_bind (adds_carrying _ _) fun _ => adds_bind (adds_carrying _ _) fun _ => adds_pure _
  · refine (carried t v₁ ys hle₁ ht hys).bind_free ?_ fun v₂ rs hle₂ _ hrs => ?_
    · exact fun _ => adds_bind (adds_carrying _ _) fun _ => adds_bind (adds_carrying _ _) fun _ =>
        adds_bind (adds_carrying _ _) fun _ => adds_bind (adds_carrying _ _) fun _ => adds_pure _
    · have hchoices := List.forall₂_map_right_iff.2 (hys.imp fun _ _ hy => hy.1)
      have hused : List.Forall₂ (fun slot l => v₁.Denotes l (∃ item, t slot = some item)) s.slotIds
          (ys.map (·.2)) := List.forall₂_map_right_iff.2 (hys.imp fun _ _ hy => hy.2)
      refine spec_carrying_all (hmem t ht) (fun slot hslot => ?_)
        (fun slot hslot => ?_) (List.forall₂_map_right_iff.2 hrs)
      · rw [Schema.item?_fill (s := s) hslot]
        exact (getD_toArray_of_forall₂_range hchoices hslot).mono hle₂
      · rw [Schema.item?_fill (s := s) hslot]
        exact (getD_toArray_of_forall₂_range hused hslot).mono hle₂

end Lexical

end MinimalistGrammar
