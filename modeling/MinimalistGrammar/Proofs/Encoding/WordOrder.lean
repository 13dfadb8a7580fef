import MinimalistGrammar.Proofs.Encoding.Layout
import MinimalistGrammar.Proofs.Selection.WordOrder

/-!
The clauses for word order say that the words are pronounced in the order of the sentence.
-/

namespace MinimalistGrammar

open MinimalistGrammar.Sat
open MinimalistGrammar.Sat.Builder
open Selection

variable {v v' : Valuation} {sel : Selection} {enc : Encoding} {lay : Layout} {o : SiteOrder}
  {D : SlotId → SlotId → Prop} {T : SlotId → PointId → Prop} {pins : List Pins} {p x y : PointId} {slot : SlotId}

namespace SiteOrder

def Describes (v : Valuation) (s : Schema) (D : SlotId → SlotId → Prop) (o : SiteOrder) : Prop :=
  ∀ a b, a < s.slotCount → b < s.slotCount → a ≠ b → v.Denotes (o.before a b) (Before D a b)

theorem Describes.mono {s : Schema} (h : Describes v s D o) (hv : v ≤ v') : Describes v' s D o :=
  fun a b ha hb hne => (h a b ha hb hne).mono hv

theorem adds_build (s : Schema) : Adds (build s) :=
  adds_bind (adds_mapM (fun _ => adds_freshList _) _) fun _ => adds_pure _

theorem before_of_lt {a b : SlotId} (h : b < a) : o.before a b = -o.before b a := by
  rw [before, before, if_neg (Nat.lt_asymm h), if_pos h]

theorem describes_of_lt {s : Schema} (h : ∀ a b, a < b → b < s.slotCount → v.Denotes (o.before a b) (D a b)) :
    Describes v s D o := by
  intro a b ha hb hne
  rw [Before]
  split
  · rename_i hab
    exact h a b hab hb
  · rename_i hab
    have hba := Nat.lt_of_le_of_ne (Nat.not_lt.1 hab) hne.symm
    rw [before_of_lt hba]
    exact (h b a hba ha).neg

theorem index_lt {a b n : Nat} (hab : a < b) (hb : b < n) : b - a - 1 < n - 1 - a := by omega

theorem index_add {a b : Nat} (hab : a < b) : a + 1 + (b - a - 1) = b := by omega

theorem offers_build (s : Schema) :
    Offers v (build s) (fun _ : SlotId → SlotId → Prop => True) fun D v' o => Describes v' s D o := by
  have rows : Offers v (build s) (fun t : SlotId → List Prop => ∀ a ∈ s.slotIds, (t a).length = s.slotCount - 1 - a)
      fun t v' o => ∀ a b, a < b → b < s.slotCount → ∀ p, (t a)[b - a - 1]? = some p → v'.Denotes (o.before a b) p := by
    refine (Offers.mapM (τ := List Prop) (Q := fun _ ps v' ls => List.Forall₂ v'.Denotes ls ps) s.nodup_slotIds
      (fun _ _ _ _ _ hle h => Valuation.forall₂_denotes_mono h hle) (fun _ => adds_freshList _)
      fun a _ v' _ => offers_freshList _).bind_pure fun t v' rows _ ht hrows a b hab hb p hp => ?_
    have hrow := getD_toArray_of_forall₂_range (d := #[]) (r := fun a (y : Array Literal) =>
      ∃ ls, y = ls.toArray ∧ List.Forall₂ v'.Denotes ls (t a)) 
      (List.forall₂_map_right_iff.2 (hrows.imp fun _ ls h => ⟨ls, rfl, h⟩)) (Nat.lt_trans hab hb)
    obtain ⟨ls, he, hls⟩ := hrow
    obtain ⟨hi, rfl⟩ := List.getElem?_eq_some_iff.1 hp
    rw [before, if_pos hab, he, Array.getD_eq_getD_getElem?, List.getElem?_toArray,
      List.getElem?_eq_getElem (hls.length_eq ▸ hi), Option.getD_some]
    exact hls.get (hls.length_eq ▸ hi) hi
  refine rows.imp (fun t o ht ho => ?_) fun D _ => ?_
  · refine ⟨fun a b => ∃ p, (t a)[b - a - 1]? = some p ∧ p, trivial, describes_of_lt fun a b hab hb => ?_⟩
    have hlen : b - a - 1 < (t a).length := by
      rw [ht a (Schema.mem_slotIds.2 (Nat.lt_trans hab hb))]
      exact index_lt hab hb
    have hp := List.getElem?_eq_getElem hlen
    refine (ho a b hab hb _ hp).congr ⟨fun h => ⟨_, hp, h⟩, fun ⟨p, hp', h⟩ => ?_⟩
    rw [hp, Option.some.injEq] at hp'
    exact hp' ▸ h
  · refine ⟨fun a => (List.range (s.slotCount - 1 - a)).map fun i => D a (a + 1 + i), fun a _ => by simp,
      fun v' o _ ho => describes_of_lt fun a b hab hb => ho a b hab hb _ ?_⟩
    rw [List.getElem?_map, List.getElem?_range (index_lt hab hb), Option.map_some, index_add hab]

end SiteOrder

theorem indicates_pinnedAt {s : Schema} (h : List.Forall₂ (fun slot ps => Layout.Pins.Tell v ps (T slot)) s.slotIds pins) :
    Indicates v Prod.fst Prod.snd (pinnedAt s pins p) fun slot => slot < s.slotCount ∧ T slot p := by
  constructor
  · rintro ⟨slot, l⟩ hx
    obtain ⟨⟨slot', ps⟩, hzip, he⟩ := List.mem_filterMap.1 hx
    obtain ⟨l', hl, he⟩ := Option.map_eq_some_iff.1 he
    obtain ⟨rfl, rfl⟩ := Prod.mk.inj he
    have hs := Schema.mem_slotIds.1 (List.of_mem_zip hzip).1
    obtain ⟨hn, hi⟩ := List.forall₂_zip h hzip
    have hd := hi.denotes_key hn (mem_of_lookup hl)
    exact ⟨_, hd, fun hT => ⟨hs, hT⟩⟩
  · rintro slot ⟨hs, hT⟩
    obtain ⟨ps, hzip⟩ := exists_mem_zip_of_forall₂ h (Schema.mem_slotIds.2 hs)
    obtain ⟨hn, hi⟩ := List.forall₂_zip h hzip
    obtain ⟨⟨p', l⟩, hmem, rfl, hd⟩ := hi.complete p hT
    refine ⟨(slot, l), List.mem_filterMap.2 ⟨(slot, ps), hzip, ?_⟩, rfl, hd⟩
    dsimp only
    rw [lookup_of_mem hn hmem]
    rfl

theorem lt_of_mem_pinnedAt {s : Schema} {y : SlotId × Literal} (h : y ∈ pinnedAt s pins p) : y.1 < s.slotCount := by
  obtain ⟨⟨slot, ps⟩, hzip, he⟩ := List.mem_filterMap.1 h
  obtain ⟨l, _, rfl⟩ := Option.map_eq_some_iff.1 he
  exact Schema.mem_slotIds.1 (List.of_mem_zip hzip).1

namespace Encoding

theorem adds_orderStay (s : Schema) (o : SiteOrder) (pinned : Array (List (SlotId × Literal))) (st : Stay) :
    Adds (orderStay s o pinned st) :=
  adds_forM (fun _ => adds_forM (fun _ => adds_ite (adds_pure _) (adds_implies _ _)) _) _

theorem adds_sites (enc : Encoding) (slot : SlotId) : Adds (enc.sites slot) :=
  adds_bind (adds_or _) fun _ => adds_bind (adds_and _) fun _ => adds_pure _

theorem adds_orderWords (o : SiteOrder) (first second : SlotId × List (SlotId × Literal)) :
    Adds (orderWords o first second) :=
  adds_forM (fun _ => adds_forM (fun _ =>
    adds_ite (adds_implies _ _) (adds_ite (adds_forbid _) (adds_pure _))) _) _

theorem adds_orderAll (o : SiteOrder) (words : List (SlotId × List (SlotId × Literal))) :
    Adds (orderAll o words) := by
  induction words with
  | nil => exact adds_pure _
  | cons word later ih => exact adds_bind (adds_forM (fun _ => adds_orderWords _ _ _) _) fun _ => ih

/-- The order agrees with a check after which the argument stays. -/
def Agrees (s : Schema) (D : SlotId → SlotId → Prop) (T : SlotId → PointId → Prop) (x y : PointId) : Prop :=
  ∀ a, a < s.slotCount ∧ T a x → ∀ b, b < s.slotCount ∧ T b y → a ≠ b →
    if (s.point x).isLexical then Before D a b else Before D b a

theorem asserts_orderStay {s : Schema} {pinned : Array (List (SlotId × Literal))} {st : Stay} {P : Prop}
    (ho : o.Describes v s D)
    (hlt : ∀ p < s.pointCount, ∀ x ∈ pinned.getD p [], x.1 < s.slotCount)
    (hpinned : ∀ p < s.pointCount,
      Indicates v Prod.fst Prod.snd (pinned.getD p []) fun slot => slot < s.slotCount ∧ T slot p)
    (ht : st.trigger < s.pointCount) (hg : st.target < s.pointCount) (hP : v.Denotes st.literal P) :
    Asserts v (orderStay s o pinned st) (P → Agrees s D T st.trigger st.target) := by
  refine (asserts_forM_of_indicates (C := fun a => P → ∀ b, b < s.slotCount ∧ T b st.target → a ≠ b →
      if (s.point st.trigger).isLexical then Before D a b else Before D b a)
    (fun _ => adds_forM (fun _ => adds_ite (adds_pure _) (adds_implies _ _)) _) (hpinned _ ht)
    fun x hx v₁ A hle₁ hA _ => ?_).congr ⟨fun h hP a ha => h a ha hP, fun h a ha hP => h hP a ha⟩
  refine (asserts_forM_of_indicates (C := fun b => A → P → x.1 ≠ b →
      if (s.point st.trigger).isLexical then Before D x.1 b else Before D b x.1)
    (fun _ => adds_ite (adds_pure _) (adds_implies _ _)) ((hpinned _ hg).mono hle₁)
    fun y hy v₂ B hle₂ hB _ => ?_).congr ⟨fun h hA hP b hb => h b hb hA hP, fun h b hb hA hP => h hA hP b hb⟩
  have hx := hlt _ ht x hx
  have hy := hlt _ hg y hy
  have hP := hP.mono (Valuation.le_trans hle₁ hle₂)
  have hA := hA.mono hle₂
  have ho := ho.mono (Valuation.le_trans hle₁ hle₂)
  split
  · rename_i he
    exact asserts_pure.congr ⟨fun _ _ _ _ hne => absurd he hne, fun _ => trivial⟩
  · rename_i hne
    have hd : v₂.Denotes (if (s.point st.trigger).isLexical then o.before x.1 y.1 else o.before y.1 x.1)
        (if (s.point st.trigger).isLexical then Before D x.1 y.1 else Before D y.1 x.1) := by
      split
      · exact ho _ _ hx hy hne
      · exact ho _ _ hy hx fun he => hne he.symm
    refine (asserts_implies (.cons hP (.cons hA (.cons hB .nil))) hd).congr ?_
    simp only [AllOf, and_true]
    exact ⟨fun h hB hA hP _ => h ⟨hP, hA, hB⟩, fun h ⟨hP, hA, hB⟩ => h hB hA hP hne⟩

/-- The sites of a word. -/
theorem spec_sites (henc : enc.Describes v sel) (hs : slot < sel.schema.slotCount) :
    Spec v (enc.sites slot) True fun v' sites =>
      (∀ x ∈ sites, x.1 < sel.schema.slotCount) ∧
        Indicates v' Prod.fst Prod.snd sites fun site => sel.StandsAt site slot := by
  have hhosts : Indicates v Prod.fst Prod.snd
      ((enc.headMoves.filter (·.mover = slot)).map fun m => (m.host, m.literal)) fun host => sel.TakesUp host slot := by
    constructor
    · intro x hx
      obtain ⟨m, hm, rfl⟩ := List.mem_map.1 hx
      obtain ⟨hmem, he⟩ := List.mem_filter.1 hm
      obtain rfl := of_decide_eq_true he
      exact ⟨_, (henc.headMoves.denotes m hmem).2, id⟩
    · intro host ht
      obtain ⟨m, hm, rfl, rfl⟩ := henc.headMoves.exists_move host slot ht
      refine ⟨_, List.mem_map.2 ⟨m, List.mem_filter.2 ⟨hm, by simp⟩, rfl⟩, rfl, ?_⟩
      exact (henc.headMoves.denotes m hm).2.congr (iff_true_intro ht)
  refine (spec_or_of_indicates hhosts).bind_free (fun _ => adds_bind (adds_and _) fun _ => adds_pure _)
    fun v₁ moved hle₁ _ hmoved => ?_
  refine (spec_and (.cons ((henc.lexical.used slot hs).mono hle₁) (.cons hmoved.neg .nil))).bind_pure
    fun v₂ stays hle₂ _ hstays => ⟨fun x hx => ?_, fun x hx => ?_, ?_⟩
  · rcases List.mem_cons.1 hx with rfl | hx
    · exact hs
    · obtain ⟨m, hm, rfl⟩ := List.mem_map.1 hx
      exact (henc.headMoves.denotes m (List.mem_filter.1 hm).1).1
  · rcases List.mem_cons.1 hx with rfl | hx
    · exact ⟨_, hstays, fun ⟨hi, hn, _⟩ => .inl ⟨rfl, hi, fun host h => hn ⟨host, h⟩⟩⟩
    · obtain ⟨P, hP, h⟩ := (hhosts.mono (Valuation.le_trans hle₁ hle₂)).sound x hx
      exact ⟨P, hP, fun hp => .inr (h hp)⟩
  · rintro site (⟨rfl, hi, hfree⟩ | ht)
    · refine ⟨_, .head _, rfl, hstays.congr (iff_true_intro ⟨hi, fun ⟨host, h⟩ => hfree host h, trivial⟩)⟩
    · obtain ⟨x, hx, he, hd⟩ := (hhosts.mono (Valuation.le_trans hle₁ hle₂)).complete site ht
      exact ⟨x, .tail _ hx, he, hd⟩

/-- The sites of two words come in the order of the words. -/
def InOrder (sel : Selection) (D : SlotId → SlotId → Prop) (i j : SlotId) : Prop :=
  ∀ a, sel.StandsAt a i → ∀ b, sel.StandsAt b j → (a ≠ b → Before D a b) ∧ (a = b → a = j)

theorem asserts_orderWords {first second : SlotId × List (SlotId × Literal)} (ho : o.Describes v sel.schema D)
    (hlt : ∀ x ∈ first.2, x.1 < sel.schema.slotCount) (hlt' : ∀ x ∈ second.2, x.1 < sel.schema.slotCount)
    (h : Indicates v Prod.fst Prod.snd first.2 fun site => sel.StandsAt site first.1)
    (h' : Indicates v Prod.fst Prod.snd second.2 fun site => sel.StandsAt site second.1) :
    Asserts v (orderWords o first second) (InOrder sel D first.1 second.1) := by
  refine asserts_forM_of_indicates (fun _ => adds_forM (fun _ =>
    adds_ite (adds_implies _ _) (adds_ite (adds_forbid _) (adds_pure _))) _) h fun x hx v₁ A hle₁ hA _ => ?_
  refine (asserts_forM_of_indicates (C := fun b => A → (x.1 ≠ b → Before D x.1 b) ∧ (x.1 = b → x.1 = second.1))
    (fun _ => adds_ite (adds_implies _ _) (adds_ite (adds_forbid _) (adds_pure _))) (h'.mono hle₁)
    fun y hy v₂ B hle₂ hB _ => ?_).congr ⟨fun h hA b hb => h b hb hA, fun h b hb hA => h hA b hb⟩
  have ho := ho.mono (Valuation.le_trans hle₁ hle₂)
  have hA := hA.mono hle₂
  split
  · rename_i hne
    refine (asserts_implies_two hA hB (ho _ _ (hlt x hx) (hlt' y hy) hne)).congr ?_
    exact ⟨fun h hB hA => ⟨fun _ => h hA hB, fun he => absurd he hne⟩, fun h hA hB => (h hB hA).1 hne⟩
  · rename_i he
    rw [not_not] at he
    split
    · rename_i hne
      refine (asserts_forbid_two hA hB).congr ?_
      exact ⟨fun h hB hA => absurd ⟨hA, hB⟩ h, fun h ⟨hA, hB⟩ => hne ((h hB hA).2 he)⟩
    · rename_i he'
      rw [not_not] at he'
      exact asserts_pure.congr ⟨fun _ _ _ => ⟨fun hne => absurd he hne, fun _ => he'⟩, fun _ => trivial⟩

theorem asserts_orderAll {words : List (SlotId × List (SlotId × Literal))} (ho : o.Describes v sel.schema D)
    (h : ∀ w ∈ words, (∀ x ∈ w.2, x.1 < sel.schema.slotCount) ∧
      Indicates v Prod.fst Prod.snd w.2 fun site => sel.StandsAt site w.1) :
    Asserts v (orderAll o words) ((words.map (·.1)).Pairwise (InOrder sel D)) := by
  induction words generalizing v with
  | nil => exact asserts_pure.congr (by simp)
  | cons word later ih =>
    obtain ⟨hlt, hsites⟩ := h word (.head _)
    refine (Asserts.bind (Asserts.forM (C := fun w => InOrder sel D word.1 w.1) (fun _ => adds_orderWords _ _ _)
      fun w hw v' hle => ?_) (fun _ => adds_orderAll _ _) fun v' _ hle _ => ih (ho.mono hle) fun w hw => ?_).congr ?_
    · obtain ⟨hlt', hsites'⟩ := h w (.tail _ hw)
      exact asserts_orderWords (ho.mono hle) hlt hlt' (hsites.mono hle) (hsites'.mono hle)
    · obtain ⟨hlt', hsites'⟩ := h w (.tail _ hw)
      exact ⟨hlt', hsites'.mono hle⟩
    · rw [List.map_cons, List.pairwise_cons, List.forall_mem_map]

theorem adds_requireWordOrder (s : Schema) (enc : Encoding) : Adds (enc.requireWordOrder s) :=
  adds_bind (Layout.adds_build s enc) fun _ => adds_bind (adds_mapM (Layout.adds_pin _ _) _) fun _ =>
    adds_bind (SiteOrder.adds_build s) fun _ => adds_bind (adds_forM (adds_orderStay _ _ _) _) fun _ =>
      adds_bind (adds_mapM (adds_sites enc) _) fun _ => adds_orderAll _ _

theorem asserts_words (hb : sel.schema.IsBuilt) (henc : enc.Describes v sel) (ho : o.Describes v sel.schema D) :
    Asserts v ((List.range sel.schema.words.length).mapM enc.sites >>= fun sites =>
      orderAll o ((List.range sel.schema.words.length).zip sites))
      (∀ i j, i < j → j < sel.schema.words.length → InOrder sel D i j) := by
  refine ((Spec.mapM (C := fun _ => True) (Q := fun slot v' (sites : List (SlotId × Literal)) =>
      (∀ x ∈ sites, x.1 < sel.schema.slotCount) ∧
        Indicates v' Prod.fst Prod.snd sites fun site => sel.StandsAt site slot)
    (fun _ _ _ _ hle h => ⟨h.1, h.2.mono hle⟩) (adds_sites enc) fun slot hs v' hle =>
      spec_sites (henc.mono hle) (Nat.lt_of_lt_of_le (List.mem_range.1 hs) hb.words_le_slotCount)).bind
    (D := ∀ i j, i < j → j < sel.schema.words.length → InOrder sel D i j) (fun _ => adds_orderAll _ _)
    fun v' sites hle _ hsites => ?_).congr (by simp)
  refine (asserts_orderAll (ho.mono hle)
    fun w hw => List.forall₂_zip hsites hw).congr ?_
  rw [List.map_fst_zip (Nat.le_of_eq hsites.length_eq), List.pairwise_iff_getElem]
  simp only [List.length_range, List.getElem_range]
  exact ⟨fun h i j hij hj => h i j (Nat.lt_trans hij hj) hj hij, fun h i j _ hj hij => h i j hij hj⟩

theorem asserts_agree (hb : sel.schema.IsBuilt) (henc : enc.Describes v sel) (hlay : lay.Describes v sel)
    (hpins : List.Forall₂ (fun slot ps => Layout.Pins.Tell v ps (T slot)) sel.schema.slotIds pins)
    (ho : o.Describes v sel.schema D) :
    Asserts v (do
      lay.stays.forM (orderStay sel.schema o (sel.schema.pointIds.map (pinnedAt sel.schema pins)).toArray)
      let words := (List.range sel.schema.words.length).filterMap sel.schema.overtSlot?
      let sites ← words.mapM enc.sites
      orderAll o (words.zip sites))
      ((∀ x y, sel.Stays x y → Agrees sel.schema D T x y) ∧
        ∀ i j, i < j → j < sel.schema.words.length → InOrder sel D i j) := by
  have hpinned : ∀ p < sel.schema.pointCount,
      (sel.schema.pointIds.map (pinnedAt sel.schema pins)).toArray.getD p [] = pinnedAt sel.schema pins p := by
    intro p hp
    rw [Array.getD_eq_getD_getElem?, List.getElem?_toArray, List.getElem?_map, Schema.pointIds, List.getElem?_range hp]
    rfl
  have hwords : (List.range sel.schema.words.length).filterMap sel.schema.overtSlot? =
      List.range sel.schema.words.length := by
    refine (List.filterMap_congr fun i hi => ?_).trans (List.filterMap_some)
    rw [Schema.overtSlot?, if_pos (List.mem_range.1 hi)]
  rw [hwords]
  refine (Asserts.bind (asserts_forM_of_indicates (C := fun x => Agrees sel.schema D T x.1 x.2)
    (adds_orderStay _ _ _) hlay.stays fun st hst v' P hle hP _ => ?_) (fun _ => adds_bind (adds_mapM (adds_sites enc) _)
      fun _ => adds_orderAll _ _) fun v' _ hle _ => asserts_words hb (henc.mono hle) (ho.mono hle)).congr
        (and_congr_left fun _ => Prod.forall)
  obtain ⟨ht, hg⟩ := hlay.stays_lt st hst
  refine asserts_orderStay (ho.mono hle) (fun p hp x hx => ?_) (fun p hp => ?_) ht hg hP
  · rw [hpinned p hp] at hx
    exact lt_of_mem_pinnedAt hx
  · rw [hpinned p hp]
    exact indicates_pinnedAt (hpins.imp fun _ _ h => h.mono hle)

/-- What the clauses say of the pins and of the order comes to this, however the slots are pinned. -/
theorem isInOrder_iff_exists_agrees (hf : sel.IsFilled) (hd : sel.IsDerivation) (hlay : lay.Describes v sel) :
    sel.IsInOrder ↔ ∃ T : SlotId → PointId → Prop, (∀ slot ∈ sel.schema.slotIds, lay.IsPinning sel slot (T slot)) ∧
      ∃ D, (∀ x y, sel.Stays x y → Agrees sel.schema D T x y) ∧
        ∀ i j, i < j → j < sel.schema.words.length → InOrder sel D i j := by
  rw [isInOrder_iff_exists hf hd]
  constructor
  · rintro ⟨D, hD⟩
    refine ⟨sel.PinnedAt, fun slot hs => Layout.isPinning_pinnedAt hlay hf (Schema.mem_slotIds.1 hs), D,
      fun x y hst a ha b hb hne => ?_, fun i j hij hj a hai b hbj => ⟨hD.before_of_lt i j a b hij hj hai hbj, ?_⟩⟩
    · split
      · rename_i hlex
        exact hD.before_of_precedes a b ha.1 hb.1 ⟨x, y, hst, .inl ⟨hlex, ha.2, hb.2⟩⟩
      · rename_i hlex
        exact hD.before_of_precedes b a hb.1 ha.1 ⟨x, y, hst, .inr ⟨by simpa using hlex, ha.2, hb.2⟩⟩
    · rintro rfl
      exact hD.eq_of_lt i j a hij hj hai hbj
  · rintro ⟨T, hT, D, hchecks, hwords⟩
    have hpin : ∀ {a p}, a < sel.schema.slotCount → sel.PinnedAt a p → T a p := fun ha hp =>
      (hT _ (Schema.mem_slotIds.2 ha)).of_pinnedAt hp
    refine ⟨D, fun a b ha hb hab => ?_, fun i j a b hij hj hai hbj => (hwords i j hij hj a hai b hbj).1,
      fun i j a hij hj hai haj => (hwords i j hij hj a hai a haj).2 rfl⟩
    have hne := hab.ne hf hd
    obtain ⟨x, y, hst, ⟨hlex, hax, hby⟩ | ⟨hlex, hbx, hay⟩⟩ := hab
    · have := hchecks x y hst a ⟨ha, hpin ha hax⟩ b ⟨hb, hpin hb hby⟩ hne
      rwa [if_pos hlex] at this
    · have := hchecks x y hst b ⟨hb, hpin hb hbx⟩ a ⟨ha, hpin ha hay⟩ hne.symm
      rwa [if_neg (by rw [hlex]; decide)] at this

theorem adds_agree (s : Schema) (enc : Encoding) (lay : Layout) (pins : List Pins) (o : SiteOrder) : Adds (do
    lay.stays.forM (orderStay s o (s.pointIds.map (pinnedAt s pins)).toArray)
    let words := (List.range s.words.length).filterMap s.overtSlot?
    let sites ← words.mapM enc.sites
    orderAll o (words.zip sites)) :=
  adds_bind (adds_forM (adds_orderStay _ _ _) _) fun _ => adds_bind (adds_mapM (adds_sites enc) _)
    fun _ => adds_orderAll _ _

/-- The clauses for word order say that the words are pronounced in the order of the sentence. -/
theorem asserts_requireWordOrder (hf : sel.IsFilled) (hd : sel.IsDerivation)
    (hsub : ∀ l ∈ sel.links, l ∈ sel.schema.linkPairs) (henc : enc.Describes v sel) :
    Asserts v (enc.requireWordOrder sel.schema) sel.IsInOrder := by
  refine ((Layout.spec_build hf henc hsub hd.toIsMatching).bind (D := sel.IsInOrder) (fun _ =>
    adds_bind (adds_mapM (Layout.adds_pin _ _) _) fun _ => adds_bind (SiteOrder.adds_build _) fun _ =>
      adds_agree _ _ _ _ _) fun v₁ lay hle₁ _ hlay => ?_).congr (by simp)
  have hpins : Offers v₁ (sel.schema.slotIds.mapM (lay.pin sel.schema))
      (fun T : SlotId → PointId → Prop => ∀ slot ∈ sel.schema.slotIds, lay.IsPinning sel slot (T slot))
      fun T v' pins => List.Forall₂ (fun slot ps => Layout.Pins.Tell v' ps (T slot)) sel.schema.slotIds pins :=
    Offers.mapM (Q := fun slot (P : PointId → Prop) v' ps => Layout.Pins.Tell v' ps P) sel.schema.nodup_slotIds
      (fun _ _ _ _ _ hle h => h.mono hle) (Layout.adds_pin _ _) fun slot hs v' hle =>
        Layout.offers_pin (hlay.mono hle) hf (Schema.mem_slotIds.1 hs)
  refine (hpins.bind_spec (C := fun T => ∃ D, (∀ x y, sel.Stays x y → Agrees sel.schema D T x y) ∧
      ∀ i j, i < j → j < sel.schema.words.length → InOrder sel D i j) (R := fun _ _ _ => True)
    (fun _ => adds_bind (SiteOrder.adds_build _) fun _ => adds_agree _ _ _ _ _)
    fun T v₂ pins hle₂ _ hT => ?_).exists.asserts.congr (isInOrder_iff_exists_agrees hf hd hlay).symm
  refine ((SiteOrder.offers_build sel.schema).bind_spec (C := fun D => (∀ x y, sel.Stays x y →
      Agrees sel.schema D T x y) ∧ ∀ i j, i < j → j < sel.schema.words.length → InOrder sel D i j)
    (R := fun _ _ _ => True) (fun _ => adds_agree _ _ _ _ _)
    fun D v₃ o hle₃ _ ho => asserts_agree hf.built ?_ ?_ ?_ ho).exists.imp ?_ fun _ _ _ _ _ => trivial
  · exact henc.mono (Valuation.le_trans hle₁ (Valuation.le_trans hle₂ hle₃))
  · exact hlay.mono (Valuation.le_trans hle₂ hle₃)
  · exact hT.imp fun _ _ h => h.mono hle₃
  · simp only [true_and]

end Encoding

end MinimalistGrammar
