import MinimalistGrammar.Encoding.WordOrder
import MinimalistGrammar.Proofs.Encoding.Basic
import MinimalistGrammar.Proofs.Sat.Indication
import MinimalistGrammar.Proofs.Selection.Layout

/-!
The literals for where phrases lie, and those that pin a slot to what it is pronounced under.
-/

open Relation

namespace MinimalistGrammar

open MinimalistGrammar.Sat
open MinimalistGrammar.Sat.Builder

namespace Layout

variable {v v' : Valuation} {sel : Selection} {enc : Encoding} {lay : Layout} {p q x : PointId} {l : Literal}
  {r : List (PointId × Literal) × List Stay}

structure Lays (v : Valuation) (sel : Selection) (p : PointId) (r : List (PointId × Literal) × List Stay) : Prop where
  lt : ∀ y ∈ r.1, y.1 < sel.schema.pointCount
  parents : Indicates v Prod.fst Prod.snd r.1 (sel.Lies p)
  trigger_lt : ∀ st ∈ r.2, st.trigger < sel.schema.pointCount ∧ st.target = p
  stays : Indicates v Stay.trigger Stay.literal r.2 fun x => sel.Stays x p

theorem Lays.mono (h : Lays v sel p r) (hv : v ≤ v') : Lays v' sel p r :=
  ⟨h.lt, h.parents.mono hv, h.trigger_lt, h.stays.mono hv⟩

structure Describes (v : Valuation) (sel : Selection) (lay : Layout) : Prop where
  lt : ∀ p < sel.schema.pointCount, ∀ y ∈ lay.parentsOf p, y.1 < sel.schema.pointCount
  parents : ∀ p < sel.schema.pointCount, Indicates v Prod.fst Prod.snd (lay.parentsOf p) (sel.Lies p)
  stays_lt : ∀ st ∈ lay.stays, st.trigger < sel.schema.pointCount ∧ st.target < sel.schema.pointCount
  stays : Indicates v (fun st => (st.trigger, st.target)) Stay.literal lay.stays fun x => sel.Stays x.1 x.2

theorem Describes.mono (h : Describes v sel lay) (hv : v ≤ v') : Describes v' sel lay :=
  ⟨h.lt, fun p hp => (h.parents p hp).mono hv, h.stays_lt, h.stays.mono hv⟩

theorem adds_stay (onward : Option (PointId × Literal)) (target checker : PointId) (link : Literal) :
    Adds (stay onward target checker link) := by
  cases onward with
  | none => exact adds_pure _
  | some y => exact adds_bind (adds_and _) fun _ => adds_pure _

theorem adds_layPoint (s : Schema) (enc : Encoding) (p : PointId) : Adds (layPoint s enc p) :=
  adds_bind (adds_mapM (fun _ => adds_stay _ _ _ _) _) fun _ => adds_pure _

theorem adds_build (s : Schema) (enc : Encoding) : Adds (build s enc) :=
  adds_bind (adds_mapM (adds_layPoint s enc) _) fun _ => adds_pure _

theorem onward?_eq_some {s : Schema} {lex : Lexical} {y : PointId × Literal} : onward? s lex p = some y ↔
    s.successor p = some y.1 ∧ lex.licensee y.1 ≠ .bottom ∧ y.2 = lex.licensee y.1 := by
  obtain ⟨q, l⟩ := y
  simp only [onward?, Option.bind_eq_some_iff]
  constructor
  · rintro ⟨q', hq, h⟩
    split at h
    · cases h
    · rename_i hne
      cases h
      exact ⟨hq, hne, rfl⟩
  · rintro ⟨hq, hne, rfl⟩
    exact ⟨q, hq, if_neg hne⟩

/-- The possible checkers of a point, each with the point that its check leads to. -/
def checkers (s : Schema) (enc : Encoding) (p : PointId) : List (PointId × PointId × Literal) :=
  (enc.checking.checkersOf p).filterMap fun (checker, link) =>
    (s.successor checker).map fun result => (checker, result, link)

theorem mem_checkers {s : Schema} :
    (x, q, l) ∈ checkers s enc p ↔ (x, l) ∈ enc.checking.checkersOf p ∧ s.successor x = some q := by
  simp only [checkers, List.mem_filterMap, Option.map_eq_some_iff, Prod.exists, Prod.mk.injEq]
  constructor
  · rintro ⟨x', l', hmem, z', hs, rfl, rfl, rfl⟩
    exact ⟨hmem, hs⟩
  · rintro ⟨hmem, hs⟩
    exact ⟨x, l, hmem, q, hs, rfl, rfl, rfl⟩

section Point

variable (hf : sel.IsFilled) (henc : enc.Describes v sel)
include hf henc

theorem denotes_onward (hs : sel.schema.successor p = some q) :
    v.Denotes (enc.lexical.licensee q) (q ∈ sel.landings) :=
  henc.lexical.denotes_licensee (hf.slotOf_successor hs).1

omit hf in
theorem onward?_of_mem_landings (hs : sel.schema.successor p = some q) (hq : q ∈ sel.landings) :
    onward? sel.schema enc.lexical p = some (q, enc.lexical.licensee q) :=
  onward?_eq_some.2 ⟨hs, henc.lexical.licensee_ne_bottom hq, rfl⟩

theorem spec_stay (hl : v.Denotes l ((x, p) ∈ sel.links)) :
    Spec v (stay (onward? sel.schema enc.lexical p) p x l) True fun v' st =>
      (st.trigger = x ∧ st.target = p) ∧ v'.Denotes st.literal (sel.Stays x p) := by
  cases h : onward? sel.schema enc.lexical p with
  | none =>
    refine spec_pure ⟨⟨rfl, rfl⟩, hl.congr ⟨fun hlink => ⟨hlink, fun q hs hq => ?_⟩, fun hst => hst.1⟩⟩
    rw [onward?_of_mem_landings henc hs hq] at h
    cases h
  | some y =>
    obtain ⟨hs, _, hy⟩ := onward?_eq_some.1 h
    have hd : v.Denotes y.2 (y.1 ∈ sel.landings) := hy ▸ denotes_onward hf henc hs
    refine (spec_and (.cons hl (.cons hd.neg .nil))).bind_pure fun v' m _ _ hm => ⟨⟨rfl, rfl⟩, ?_⟩
    refine hm.congr ⟨fun ⟨hlink, hn, _⟩ => ⟨hlink, fun q hq hql => hn ?_⟩, fun hst => ⟨hst.1, hst.2 _ hs, trivial⟩⟩
    rw [hs, Option.some.injEq] at hq
    exact hq ▸ hql

omit hf in
theorem indicates_projections (hp : p < sel.schema.pointCount) :
    Indicates v Prod.fst Prod.snd (if enc.lexical.trigger p = .bottom then []
      else (sel.schema.successor p).toList.map fun q => (q, enc.lexical.trigger p)) fun q =>
        (∃ f, sel.Carries p f ∧ f.polarity.isTrigger = true) ∧ sel.schema.successor p = some q := by
  have htrigger : v.Denotes (enc.lexical.trigger p) _ := henc.lexical.triggers.denotes p hp
  refine ⟨fun y hy => ?_, fun q hq => ⟨(q, enc.lexical.trigger p), ?_, rfl, htrigger.congr (iff_true_intro hq.1)⟩⟩
  · split at hy
    · cases hy
    · obtain ⟨q, hq, rfl⟩ := List.mem_map.1 hy
      exact ⟨_, htrigger, fun ht => ⟨ht, Option.mem_toList.1 hq⟩⟩
  · rw [if_neg (htrigger.ne_bottom hq.1), hq.2]
    exact .head _

theorem indicates_onward : Indicates v Prod.fst Prod.snd (onward? sel.schema enc.lexical p).toList fun q =>
    sel.schema.successor p = some q ∧ q ∈ sel.landings := by
  refine ⟨fun y hy => ?_, fun q hq => ⟨(q, enc.lexical.licensee q), ?_, rfl, ?_⟩⟩
  · obtain ⟨hs, _, hl⟩ := onward?_eq_some.1 (Option.mem_toList.1 hy)
    exact ⟨_, hl ▸ denotes_onward hf henc hs, fun hq => ⟨hs, hq⟩⟩
  · exact Option.mem_toList.2 (onward?_of_mem_landings henc hq.1 hq.2)
  · exact (denotes_onward hf henc hq.1).congr (iff_true_intro hq.2)

omit hf in
theorem of_mem_checkers (hp : p < sel.schema.pointCount) (h : (x, q, l) ∈ checkers sel.schema enc p) :
    (x, p) ∈ sel.schema.linkPairs ∧ v.Denotes l ((x, p) ∈ sel.links) ∧ sel.schema.successor x = some q := by
  obtain ⟨hmem, hs⟩ := mem_checkers.1 h
  obtain ⟨hpair, hd⟩ := henc.checking.mem_checkersOf hp hmem
  exact ⟨hpair, hd, hs⟩

theorem exists_mem_checkers (hsub : ∀ l ∈ sel.links, l ∈ sel.schema.linkPairs) (hm : sel.IsMatching)
    (hst : sel.Stays x p) : ∃ q l, (x, q, l) ∈ checkers sel.schema enc p := by
  obtain ⟨l, hl⟩ := henc.checking.exists_mem_checkersOf (hsub _ hst.1)
  obtain ⟨f, _, hx, _, hc⟩ := hm.carries_of_link hf hst.1
  obtain ⟨q, _, hs, _⟩ := hf.successor_of_isTrigger hx (Selection.isTrigger_of_checks hc)
  exact ⟨q, l, mem_checkers.2 ⟨hl, hs⟩⟩

theorem indicates_stays (hsub : ∀ l ∈ sel.links, l ∈ sel.schema.linkPairs) (hm : sel.IsMatching)
    (hp : p < sel.schema.pointCount) {stays : List Stay}
    (hstays : List.Forall₂ (fun c st => (st.trigger = c.1 ∧ st.target = p) ∧ v.Denotes st.literal (sel.Stays c.1 p))
      (checkers sel.schema enc p) stays) :
    Indicates v Prod.fst Prod.snd (((checkers sel.schema enc p).zip stays).map fun x => (x.1.2.1, x.2.literal))
      fun q => ∃ x, sel.Stays x p ∧ sel.schema.successor x = some q := by
  have hzip : ∀ {c st}, (c, st) ∈ (checkers sel.schema enc p).zip stays → v.Denotes st.literal (sel.Stays c.1 p) :=
    fun h => (List.forall₂_zip hstays h).2
  constructor
  · intro y hy
    obtain ⟨⟨⟨x, q, l⟩, st⟩, hmem, rfl⟩ := List.mem_map.1 hy
    exact ⟨_, hzip hmem, fun hst => ⟨x, hst, (of_mem_checkers henc hp (List.of_mem_zip hmem).1).2.2⟩⟩
  · rintro q ⟨x, hst, hs⟩
    obtain ⟨z, l, hmem⟩ := exists_mem_checkers hf henc hsub hm hst
    obtain ⟨st, hzip'⟩ := exists_mem_zip_of_forall₂ hstays hmem
    obtain rfl : q = z := Option.some.inj (hs.symm.trans (of_mem_checkers henc hp hmem).2.2)
    exact ⟨_, List.mem_map.2 ⟨_, hzip', rfl⟩, rfl, (hzip hzip').congr (iff_true_intro hst)⟩

theorem spec_layPoint (hsub : ∀ l ∈ sel.links, l ∈ sel.schema.linkPairs) (hm : sel.IsMatching)
    (hp : p < sel.schema.pointCount) : Spec v (layPoint sel.schema enc p) True fun v' r => Lays v' sel p r := by
  refine ((Spec.mapM (C := fun _ => True) (Q := fun (c : PointId × PointId × Literal) v' (st : Stay) =>
      (st.trigger = c.1 ∧ st.target = p) ∧ v'.Denotes st.literal (sel.Stays c.1 p))
    (fun _ _ _ _ hle h => ⟨h.1, h.2.mono hle⟩) (fun _ => adds_stay _ _ _ _) ?_).bind_pure ?_).congr (by simp)
  · rintro ⟨x, z, l⟩ hx v' hle
    exact spec_stay hf (henc.mono hle) ((of_mem_checkers henc hp hx).2.1.mono hle)
  · intro v' stays hle _ hstays
    have henc' := henc.mono hle
    refine ⟨?_, (((indicates_projections henc' hp).append (indicates_onward hf henc')).append
      (indicates_stays hf henc' hsub hm hp hstays)).congr fun q => ?_, fun st hst => ?_,
      fun st hst => ?_, fun x hx => ?_⟩
    · intro y hy
      rcases List.mem_append.1 hy with hy | hy
      · rcases List.mem_append.1 hy with hy | hy
        · split at hy
          · cases hy
          · obtain ⟨q, hq, rfl⟩ := List.mem_map.1 hy
            exact (hf.slotOf_successor (Option.mem_toList.1 hq)).1
        · exact (hf.slotOf_successor (onward?_eq_some.1 (Option.mem_toList.1 hy)).1).1
      · obtain ⟨⟨⟨x, z, l⟩, st⟩, hmem, rfl⟩ := List.mem_map.1 hy
        exact (hf.slotOf_successor (of_mem_checkers henc hp (List.of_mem_zip hmem).1).2.2).1
    · constructor
      · rintro ((⟨⟨f, hc, ht⟩, hs⟩ | ⟨hs, hq⟩) | ⟨x, hst, hs⟩)
        · exact .project hc ht hs
        · exact .moveOn hp hs hq
        · exact .stay hst hs
      · rintro (⟨hc, ht, hs⟩ | ⟨_, hs, hq⟩ | ⟨hst, hs⟩)
        · exact .inl (.inl ⟨⟨_, hc, ht⟩, hs⟩)
        · exact .inl (.inr ⟨hs, hq⟩)
        · exact .inr ⟨_, hst, hs⟩
    · obtain ⟨⟨x, z, l⟩, hx, ⟨he, ht⟩, _⟩ := exists_left_of_forall₂ hstays hst
      exact ⟨he ▸ (Schema.mem_linkPairs.1 (of_mem_checkers henc hp hx).1).1.1, ht⟩
    · obtain ⟨⟨x, z, l⟩, _, ⟨rfl, _⟩, hd⟩ := exists_left_of_forall₂ hstays hst
      exact ⟨_, hd, id⟩
    · obtain ⟨z, l, hmem⟩ := exists_mem_checkers hf henc hsub hm hx
      obtain ⟨st, hst, ⟨he, _⟩, hd⟩ := exists_right_of_forall₂ hstays hmem
      exact ⟨st, hst, he, hd.congr (iff_true_intro hx)⟩

theorem spec_build (hsub : ∀ l ∈ sel.links, l ∈ sel.schema.linkPairs) (hm : sel.IsMatching) :
    Spec v (build sel.schema enc) True fun v' lay => Describes v' sel lay := by
  refine ((Spec.mapM (C := fun _ => True) (Q := fun p v' r => Lays v' sel p r) (fun _ _ _ _ hle h => h.mono hle)
    (adds_layPoint _ _)
    fun p hp v' hle => spec_layPoint hf (henc.mono hle) hsub hm (Schema.mem_pointIds.1 hp)).bind_pure ?_).congr (by simp)
  intro v' laid hle _ hlaid
  have hparents : ∀ p < sel.schema.pointCount, ∃ r, Lays v' sel p r ∧
      (Layout.mk (laid.map (·.1)).toArray (laid.flatMap (·.2))).parentsOf p = r.1 := by
    intro p hp
    refine getD_toArray_of_forall₂_range (r := fun p y => ∃ r, Lays v' sel p r ∧ y = r.1) ?_ hp
    rw [List.forall₂_map_right_iff]
    exact hlaid.imp fun p r h => ⟨r, h, rfl⟩
  refine ⟨fun p hp => ?_, fun p hp => ?_, fun st hst => ?_, ⟨fun st hst => ?_, ?_⟩⟩
  · obtain ⟨r, hr, he⟩ := hparents p hp
    rw [he]
    exact hr.lt
  · obtain ⟨r, hr, he⟩ := hparents p hp
    rw [he]
    exact hr.parents
  · obtain ⟨r, hr, hst⟩ := List.mem_flatMap.1 hst
    obtain ⟨p, hp, hl⟩ := exists_left_of_forall₂ hlaid hr
    obtain ⟨hlt, rfl⟩ := hl.trigger_lt st hst
    exact ⟨hlt, Schema.mem_pointIds.1 hp⟩
  · obtain ⟨r, hr, hst⟩ := List.mem_flatMap.1 hst
    obtain ⟨p, _, hl⟩ := exists_left_of_forall₂ hlaid hr
    obtain ⟨_, rfl⟩ := hl.trigger_lt st hst
    exact hl.stays.sound st hst
  · rintro ⟨x, p⟩ hst
    obtain ⟨r, hr, hl⟩ := exists_right_of_forall₂ hlaid (Schema.mem_pointIds.2 (hf.links_lt x p hst.1).2)
    obtain ⟨st, hmem, rfl, hd⟩ := hl.stays.complete x hst
    exact ⟨st, List.mem_flatMap.2 ⟨r, hr, hmem⟩, by rw [(hl.trigger_lt st hmem).2], hd⟩

end Point

section Pins

variable {slot : SlotId} {pins : Pins} {P : PointId → Prop}

/-- What may be said of the points that a slot may be pronounced under. -/
def reached (lay : Layout) (s : Schema) (slot : SlotId) : List PointId :=
  reachable (fun q => (lay.parentsOf q).map (·.1)) s.pointIds (s.lexicalPoint slot)

/-- The property is passed on to all that the slot is pronounced under. -/
structure IsPinning (sel : Selection) (lay : Layout) (slot : SlotId) (P : PointId → Prop) : Prop where
  first : P (sel.schema.lexicalPoint slot)
  upward : ∀ p, P p → ∀ q, sel.Lies p q → P q
  reached : ∀ p, P p → p ∈ lay.reached sel.schema slot

theorem IsPinning.of_pinnedAt (h : IsPinning sel lay slot P) (hp : sel.PinnedAt slot p) : P p := by
  induction hp with
  | refl => exact h.first
  | tail _ hl ih => exact h.upward _ ih _ hl

theorem lt_of_mem_reached (hf : sel.IsFilled) (hs : slot < sel.schema.slotCount)
    (h : p ∈ lay.reached sel.schema slot) : p < sel.schema.pointCount := by
  rcases mem_domain_of_mem_reachable h with rfl | h
  · exact hf.built.lexicalPoint_lt hs
  · exact Schema.mem_pointIds.1 h

theorem Describes.mem_reached (hlay : Describes v sel lay) (hf : sel.IsFilled) (hs : slot < sel.schema.slotCount)
    (h : p ∈ lay.reached sel.schema slot) {y : PointId × Literal} (hy : y ∈ lay.parentsOf p) :
    y.1 ∈ lay.reached sel.schema slot :=
  mem_reachable_of_mem_next h (List.mem_map.2 ⟨y, hy, rfl⟩)
    (Schema.mem_pointIds.2 (hlay.lt p (lt_of_mem_reached hf hs h) y hy))

theorem isPinning_pinnedAt (hlay : Describes v sel lay) (hf : sel.IsFilled) (hs : slot < sel.schema.slotCount) :
    IsPinning sel lay slot (sel.PinnedAt slot) where
  first := .refl
  upward _ hp _ hl := hp.tail hl
  reached p hp := by
    induction hp with
    | refl => exact mem_reachable_self
    | tail _ hl ih =>
      obtain ⟨y, hy, rfl, _⟩ := (hlay.parents _ (lt_of_mem_reached hf hs ih)).complete _ hl
      exact hlay.mem_reached hf hs ih hy

theorem adds_pinUpward (lay : Layout) (pins : Pins) : Adds (lay.pinUpward pins) :=
  adds_forM (fun _ => adds_forM (fun _ => adds_option_forM (fun _ => adds_implies _ _) _) _) _

theorem adds_pin (lay : Layout) (s : Schema) (slot : SlotId) : Adds (lay.pin s slot) :=
  adds_bind (adds_freshList _) fun _ => adds_bind (adds_pinUpward _ _) fun _ => adds_pure _

theorem asserts_pinUpward (hlay : Describes v sel lay) (hf : sel.IsFilled) (hs : slot < sel.schema.slotCount)
    (hkeys : pins.map (·.1) = lay.reached sel.schema slot) (h : Indicates v Prod.fst Prod.snd pins P) :
    Asserts v (lay.pinUpward pins) (∀ p, P p → ∀ q, sel.Lies p q → P q) := by
  have hn : (pins.map (·.1)).Nodup := hkeys ▸ nodup_reachable
  refine asserts_forM_of_indicates (fun _ => adds_forM (fun _ => adds_option_forM (fun _ => adds_implies _ _) _) _) h
    fun x hx v₁ B hle₁ hB _ => ?_
  obtain ⟨p, below⟩ := x
  have hp : p ∈ lay.reached sel.schema slot := hkeys ▸ List.mem_map.2 ⟨_, hx, rfl⟩
  refine (asserts_forM_of_indicates (C := fun q => B → P q)
    (fun _ => adds_option_forM (fun _ => adds_implies _ _) _)
    ((hlay.parents p (lt_of_mem_reached hf hs hp)).mono hle₁) fun y hy v₂ R hle₂ hR _ => ?_).congr ?_
  · obtain ⟨above, habove⟩ := exists_lookup (hkeys ▸ hlay.mem_reached hf hs hp hy : y.1 ∈ pins.map (·.1))
    have hd := (h.denotes_key hn (mem_of_lookup habove)).mono (Valuation.le_trans hle₁ hle₂)
    rw [habove]
    exact asserts_implies_two hR (hB.mono hle₂) hd
  · exact ⟨fun h hB q hq => h q hq hB, fun h q hq hB => h hB q hq⟩

/-- The pins say of each point once whether it has the property. -/
def Pins.Tell (v : Valuation) (pins : Pins) (P : PointId → Prop) : Prop :=
  (pins.map (·.1)).Nodup ∧ Indicates v Prod.fst Prod.snd pins P

theorem Pins.Tell.mono (h : Pins.Tell v pins P) (hv : v ≤ v') : Pins.Tell v' pins P := ⟨h.1, h.2.mono hv⟩

theorem Pins.tell_cons {first : PointId} {rest : List PointId} {D : PointId → Prop} (hn : (first :: rest).Nodup)
    (hkeys : pins.map (·.1) = rest) (hd : ∀ k l, (k, l) ∈ pins → v.Denotes l (D k)) :
    Pins.Tell v ((first, Literal.top) :: pins) fun p => p = first ∨ (p ∈ rest ∧ D p) := by
  subst hkeys
  refine ⟨hn, ?_, ?_⟩
  · intro y hy
    rcases List.mem_cons.1 hy with rfl | hy
    · exact ⟨True, Valuation.denotes_top, fun _ => .inl rfl⟩
    · exact ⟨D y.1, hd _ _ hy, fun h => .inr ⟨List.mem_map.2 ⟨y, hy, rfl⟩, h⟩⟩
  · rintro p (rfl | ⟨hp, h⟩)
    · exact ⟨_, .head _, rfl, Valuation.denotes_top⟩
    · obtain ⟨y, hy, rfl⟩ := List.mem_map.1 hp
      exact ⟨y, .tail _ hy, rfl, (hd _ _ hy).congr (iff_true_intro h)⟩

theorem pin_eq {s : Schema} {rest : List PointId} (h : lay.reached s slot = s.lexicalPoint slot :: rest) :
    lay.pin s slot = (freshList rest.length >>= fun ls => pure (rest.zip ls)) >>= fun r =>
      lay.pinUpward ((s.lexicalPoint slot, .top) :: r) >>= fun _ => pure ((s.lexicalPoint slot, .top) :: r) := by
  rw [reached] at h
  rw [pin]
  simp only [h]
  rfl

theorem IsPinning.iff {rest : List PointId} (h : IsPinning sel lay slot P)
    (hrest : lay.reached sel.schema slot = sel.schema.lexicalPoint slot :: rest) :
    (p = sel.schema.lexicalPoint slot ∨ (p ∈ rest ∧ P p)) ↔ P p := by
  constructor
  · rintro (rfl | ⟨_, hp⟩)
    · exact h.first
    · exact hp
  · intro hp
    have := h.reached p hp
    rw [hrest, List.mem_cons] at this
    exact this.imp_right fun h => ⟨h, hp⟩

/-- The pins of a slot may be true of any points as long as what is pronounced under one point is pronounced
under the next. -/
theorem offers_pin (hlay : Describes v sel lay) (hf : sel.IsFilled) (hs : slot < sel.schema.slotCount) :
    Offers v (lay.pin sel.schema slot) (IsPinning sel lay slot) fun P v' pins => Pins.Tell v' pins P := by
  obtain ⟨rest, hrest⟩ : ∃ rest, lay.reached sel.schema slot = sel.schema.lexicalPoint slot :: rest :=
    exists_reachable_eq_cons
  have hnodup : (sel.schema.lexicalPoint slot :: rest).Nodup := hrest ▸ nodup_reachable
  rw [pin_eq hrest]
  refine ((offers_freshKeyed (List.nodup_cons.1 hnodup).2).bind_spec
    (C := fun D => ∀ p, (p = sel.schema.lexicalPoint slot ∨ (p ∈ rest ∧ D p)) →
      ∀ q, sel.Lies p q → q = sel.schema.lexicalPoint slot ∨ (q ∈ rest ∧ D q))
    (R := fun D v' pins => Pins.Tell v' pins fun p =>
      p = sel.schema.lexicalPoint slot ∨ (p ∈ rest ∧ D p))
    (fun r => adds_bind (adds_pinUpward _ _) fun _ => adds_pure _) fun D v' r hle _ hr => ?_).imp ?_ ?_
  · have htell := Pins.tell_cons hnodup hr.1 hr.2
    refine (asserts_pinUpward (hlay.mono hle) hf hs ?_ htell.2).bind_pure fun v'' _ hle' _ _ => htell.mono hle'
    rw [List.map_cons, hr.1, hrest]
  · rintro D pins ⟨_, hup⟩ hpins
    refine ⟨_, ⟨.inl rfl, hup, ?_⟩, hpins⟩
    rintro p (rfl | ⟨hp, _⟩)
    · exact hrest ▸ .head _
    · exact hrest ▸ .tail _ hp
  · intro P hP
    refine ⟨P, ⟨trivial, fun p hp q hq => ?_⟩, fun v' pins _ h => ⟨h.1, h.2.congr fun p => hP.iff hrest⟩⟩
    exact (hP.iff hrest).2 (hP.upward p ((hP.iff hrest).1 hp) q hq)

end Pins

end Layout

end MinimalistGrammar
