import MinimalistGrammar.Encoding.Basic
import MinimalistGrammar.Proofs.Encoding.CovertOrder
import MinimalistGrammar.Proofs.Encoding.HeadMovement

/-!
The literals that describe a derivation offer every derivation over the schema whose covert slots are in order,
and no other selection.
-/

namespace MinimalistGrammar

open MinimalistGrammar.Sat
open MinimalistGrammar.Sat.Builder

namespace Selection

/-- A selection as the literals of a schema can give it: candidates for items, and possible checks in order. -/
structure IsOffered (s : Schema) (sel : Selection) : Prop where
  schema : sel.schema = s
  length_items : sel.items.length = s.slotCount
  mayHold : ∀ slot < s.slotCount, s.MayHold slot (sel.item? slot)
  links : sel.withLinks (· ∈ sel.links) = sel

variable {s : Schema} {sel : Selection}

theorem withLinks_self (sel : Selection) (L : PointId × PointId → Prop) :
    (sel.withLinks L).withLinks (· ∈ (sel.withLinks L).links) = sel.withLinks L := by
  have hl : ((sel.withLinks L).withLinks (· ∈ (sel.withLinks L).links)).links = (sel.withLinks L).links := by
    refine List.filter_congr fun l hl => ?_
    exact decide_eq_decide.2 (mem_links_withLinks.trans (and_iff_right hl))
  exact congrArg (Selection.mk sel.schema sel.items) hl

theorem IsOffered.mem_linkPairs (h : sel.IsOffered s) : ∀ l ∈ sel.links, l ∈ sel.schema.linkPairs := by
  intro l hl
  rw [← h.links] at hl
  exact (mem_links_withLinks.1 hl).1

theorem IsOffered.isFilled (hs : s.IsBuilt) (h : sel.IsOffered s) : sel.IsFilled := by
  obtain rfl := h.schema
  have hitem : ∀ slot item, sel.item? slot = some item → slot < sel.schema.slotCount := by
    intro slot item hi
    by_contra hn
    rw [item?, List.getElem?_eq_none (h.length_items ▸ Nat.le_of_not_lt hn)] at hi
    cases hi
  refine ⟨hs, h.length_items, fun slot item hi => ?_, fun slot hw => ?_, fun x y hl => ?_, ?_⟩
  · rcases h.mayHold slot (hitem slot item hi) with ⟨hn, _⟩ | ⟨i, hm, he⟩
    · rw [hi] at hn
      cases hn
    · rw [hi, Option.some.injEq] at he
      exact he ▸ hm
  · rcases h.mayHold slot (Nat.lt_of_lt_of_le hw hs.words_le_slotCount) with ⟨_, hle⟩ | ⟨i, _, he⟩
    · exact absurd hw (Nat.not_lt.2 hle)
    · exact ⟨i, he⟩
  · exact (Schema.mem_linkPairs.1 (h.mem_linkPairs _ hl)).1
  · rw [← h.links, withLinks]
    exact sel.schema.nodup_linkPairs.filter _

theorem isOffered_fill {t : SlotId → Option Item} (L : PointId × PointId → Prop)
    (ht : ∀ slot ∈ s.slotIds, s.MayHold slot (t slot)) : ((s.fill t).withLinks L).IsOffered s := by
  refine ⟨rfl, ?_, fun slot hs => ?_, withLinks_self _ L⟩
  · simp [withLinks, Schema.fill, Schema.slotIds]
  · have := ht slot (Schema.mem_slotIds.2 hs)
    rwa [← Schema.item?_fill (s := s) (t := t) hs] at this

theorem IsOffered.eq_fill (h : sel.IsOffered s) : sel = (s.fill sel.item?).withLinks (· ∈ sel.links) := by
  obtain ⟨rfl, hlen, _, hl⟩ := h
  have hitems : sel.items = sel.schema.slotIds.map sel.item? := by
    refine List.ext_getElem (by simp [hlen, Schema.slotIds]) fun i h₁ h₂ => ?_
    simp [item?, Schema.slotIds, List.getElem?_eq_getElem h₁]
  rw [Schema.fill, ← hitems]
  exact hl.symm

end Selection

namespace Encoding

/-- What all literals say of a selection. -/
structure Describes (v : Valuation) (sel : Selection) (enc : Encoding) : Prop where
  lexical : enc.lexical.Describes v sel
  checking : enc.checking.Describes v sel
  dominance : enc.dominance.Describes v sel
  headMoves : HeadMove.Describes v sel enc.headMoves
  movements : enc.movements = Movement.all sel.schema enc.lexical enc.checking

/-- What the literals for items, links and dominance say of a selection. -/
structure Outlines (v : Valuation) (sel : Selection) (enc : Encoding) : Prop where
  lexical : enc.lexical.Describes v sel
  checking : enc.checking.Describes v sel
  dominance : enc.dominance.Describes v sel

/-- What is said of a derivation once the links are there. -/
def constrain (s : Schema) (lexical : Lexical) (checking : Checking) : Builder Encoding := do
  lexical.requireRoot
  let dominance ← Dominance.build s lexical checking
  Movement.constrain s lexical checking dominance
  let headMoves ← HeadMove.build s lexical checking
  lexical.orderCovertSlots s
  return { lexical, checking, dominance, movements := Movement.all s lexical checking, headMoves }

/-- What is said of a derivation whatever the order of its covert slots. -/
def frame (s : Schema) (lexical : Lexical) (checking : Checking) : Builder Encoding := do
  lexical.requireRoot
  let dominance ← Dominance.build s lexical checking
  Movement.constrain s lexical checking dominance
  let headMoves ← HeadMove.build s lexical checking
  return { lexical, checking, dominance, movements := Movement.all s lexical checking, headMoves }

/-- The construction of all literals, without an account of the families. -/
def build (s : Schema) : Builder Encoding := do
  let lexical ← Lexical.build s
  let checking ← Checking.build s lexical
  constrain s lexical checking

variable {v : Valuation} {s : Schema} {sel : Selection} {enc : Encoding}

theorem Describes.mono {v' : Valuation} (h : Describes v sel enc) (hv : v ≤ v') : Describes v' sel enc :=
  ⟨h.lexical.mono hv, h.checking.mono hv, h.dominance.mono hv, h.headMoves.mono hv, h.movements⟩

theorem Outlines.mono {v' : Valuation} (h : Outlines v sel enc) (hv : v ≤ v') : Outlines v' sel enc :=
  ⟨h.lexical.mono hv, h.checking.mono hv, h.dominance.mono hv⟩

theorem Describes.outlines (h : Describes v sel enc) : Outlines v sel enc := ⟨h.lexical, h.checking, h.dominance⟩

theorem constrain_eq (s : Schema) (lex : Lexical) (c : Checking) : constrain s lex c =
    frame s lex c >>= fun enc => lex.orderCovertSlots s >>= fun _ => pure enc := by
  simp only [constrain, frame, bind_assoc, pure_bind]

theorem adds_frame (s : Schema) (lex : Lexical) (c : Checking) : Adds (frame s lex c) :=
  adds_bind (Lexical.adds_requireRoot _) fun _ => adds_bind (Dominance.adds_build _ _ _) fun _ =>
    adds_bind (Movement.adds_constrain _ _ _ _) fun _ => adds_bind (HeadMove.adds_build _ _ _) fun _ => adds_pure _

theorem adds_constrain (s : Schema) (lex : Lexical) (c : Checking) : Adds (constrain s lex c) := by
  rw [constrain_eq]
  exact adds_bind (adds_frame _ _ _) fun _ => adds_bind (Lexical.adds_orderCovertSlots _ _) fun _ => adds_pure _

theorem adds_build (s : Schema) : Adds (build s) :=
  adds_bind (Lexical.adds_build _) fun _ => adds_bind (Checking.adds_build _ _) fun _ => adds_constrain _ _ _

section Linked

variable {lex : Lexical} {c : Checking}

theorem spec_frame (hf : sel.IsFilled) (hm : sel.IsMatching) (hsub : ∀ l ∈ sel.links, l ∈ sel.schema.linkPairs)
    (hlex : lex.Describes v sel) (hc : c.Describes v sel) :
    Spec v (frame sel.schema lex c) sel.IsDerivation fun v' enc => Describes v' sel enc := by
  refine (Asserts.bind (D := sel.IsAcyclic ∧ ((∀ p ∈ sel.landings, sel.isLicensed p = true) ∧
    sel.landings.length ≤ sel.schema.bounds.movements) ∧
      (∀ host mover, (host, mover) ∈ sel.hosts → sel.isProperMover mover = true) ∧
        sel.hosts.length ≤ sel.schema.bounds.headMovements)
    (Lexical.asserts_requireRoot hlex) (fun _ => adds_bind (Dominance.adds_build _ _ _) fun _ =>
      adds_bind (Movement.adds_constrain _ _ _ _) fun _ => adds_bind (HeadMove.adds_build _ _ _) fun _ =>
        adds_pure _) fun v₁ _ hle₁ hroot => ?_).congr ?_
  · refine Spec.bind (Dominance.spec_build hf hm (hlex.mono hle₁) (hc.mono hle₁) hsub) (fun _ =>
      adds_bind (Movement.adds_constrain _ _ _ _) fun _ => adds_bind (HeadMove.adds_build _ _ _) fun _ =>
        adds_pure _) fun v₂ d hle₂ ha hd => ?_
    have hle₂ := Valuation.le_trans hle₁ hle₂
    refine Asserts.bind (Movement.asserts_constrain hf hm ha (hlex.mono hle₂) (hc.mono hle₂) hd hsub) (fun _ =>
      adds_bind (HeadMove.adds_build _ _ _) fun _ => adds_pure _) fun v₃ _ hle₃ _ => ?_
    have hle₃' := Valuation.le_trans hle₂ hle₃
    refine (HeadMove.spec_build hf (hlex.mono hle₃') hm (hc.mono hle₃') hsub).bind_pure fun v₄ moves hle₄ _ hmoves => ?_
    have hle₄' := Valuation.le_trans hle₃' hle₄
    exact ⟨hlex.mono hle₄', hc.mono hle₄', hd.mono (Valuation.le_trans hle₃ hle₄), hmoves, rfl⟩
  · constructor
    · rintro ⟨hroot, ha, ⟨hlic, hmov⟩, hproper, hhead⟩
      exact ⟨hm, hroot, ha, fun p f hp hl => hlic p (Selection.mem_landings.2 ⟨f, hp, hl⟩), hmov, hproper, hhead⟩
    · intro hd
      refine ⟨hd.hasRoot, hd.isAcyclic, ⟨fun p hp => ?_, hd.movements⟩, hd.isProperMover, hd.headMovements⟩
      obtain ⟨f, hp, hl⟩ := Selection.mem_landings.1 hp
      exact hd.isLicensed p f hp hl

theorem spec_constrain (hf : sel.IsFilled) (hm : sel.IsMatching) (hsub : ∀ l ∈ sel.links, l ∈ sel.schema.linkPairs)
    (hlex : lex.Describes v sel) (hc : c.Describes v sel) :
    Spec v (constrain sel.schema lex c) (sel.IsDerivation ∧ sel.IsSorted) fun v' enc => Describes v' sel enc := by
  rw [constrain_eq]
  exact (spec_frame hf hm hsub hlex hc).bind (fun _ => adds_bind (Lexical.adds_orderCovertSlots _ _) fun _ =>
    adds_pure _) fun v₁ enc hle₁ _ henc => (Lexical.asserts_orderCovertSlots hf (hlex.mono hle₁)).bind_pure
      fun v₂ _ hle₂ _ _ => henc.mono hle₂

/-- What is said once the links are there holds of some of the selections that the literals offer. -/
theorem offers_linked {α : Type} {k : Lexical → Checking → Builder α} {C : Selection → Prop}
    {R : Selection → Valuation → α → Prop} (hs : s.IsBuilt) (hk : ∀ lex c, Adds (k lex c))
    (hC : ∀ sel, C sel → sel.IsMatching)
    (h : ∀ {v : Valuation} {sel : Selection} {lex : Lexical} {c : Checking}, sel.schema = s → sel.IsFilled →
      sel.IsMatching → (∀ l ∈ sel.links, l ∈ sel.schema.linkPairs) → lex.Describes v sel → c.Describes v sel →
        Spec v (k lex c) (C sel) (R sel)) :
    Offers v (Lexical.build s >>= fun lex => Checking.build s lex >>= k lex)
      (fun sel => sel.IsOffered s ∧ C sel) R := by
  have checked : ∀ t v₁ lex, v ≤ v₁ → (∀ slot ∈ s.slotIds, s.MayHold slot (t slot)) →
      lex.Describes v₁ (s.fill t) → Offers v₁ (Checking.build s lex >>= k lex)
        (fun L => ((s.fill t).withLinks L).IsMatching ∧ C ((s.fill t).withLinks L))
          fun L => R ((s.fill t).withLinks L) := by
    intro t v₁ lex _ ht hlex
    have hmem : ∀ p f, (s.fill t).Carries p f → s.MayCarry p f := fun p f =>
      Lexical.mayCarry_of_carries (Schema.mem_candidates_fill ht)
    refine (Checking.offers_build hmem hlex).bind_spec (hk lex) fun L v₂ c hle₂ hm hc => ?_
    have ho := Selection.isOffered_fill L ht
    exact h rfl (ho.isFilled hs) hm ho.mem_linkPairs ((hlex.mono hle₂).of_links _) hc
  refine ((Lexical.offers_build hs).bind (fun _ => adds_bind (Checking.adds_build _ _) (hk _)) checked).imp ?_ ?_
  · rintro ⟨t, L⟩ enc ⟨ht, _, hd⟩ henc
    exact ⟨(s.fill t).withLinks L, ⟨Selection.isOffered_fill L ht, hd⟩, henc⟩
  · rintro sel ⟨ho, hd⟩
    have he := ho.eq_fill
    refine ⟨(sel.item?, (· ∈ sel.links)), ⟨fun slot hslot => ho.mayHold slot (Schema.mem_slotIds.1 hslot), ?_⟩, ?_⟩
    · rw [← he]
      exact ⟨hC sel hd, hd⟩
    · intro v' enc _ h
      rwa [← he] at h

/-- The literals offer the derivations whose covert slots are in order. -/
theorem offers_build (hs : s.IsBuilt) : Offers v (build s)
    (fun sel : Selection => sel.IsOffered s ∧ sel.IsDerivation ∧ sel.IsSorted) fun sel v' enc => Describes v' sel enc :=
  offers_linked hs (adds_constrain s) (fun _ h => h.1.toIsMatching) fun hsel hf hm hsub hlex hc =>
    hsel ▸ spec_constrain hf hm hsub hlex hc

end Linked

section Choices

variable {candidates : List (ItemId × Item)} {choices : List (ItemId × Literal)} {o : Option Item}

theorem filterMap_of_chooses (hn : (candidates.map (·.2)).Nodup) (ho : ∀ item ∈ o, item ∈ candidates.map (·.2))
    (h : Chooses v candidates o choices) : ((candidates.zip choices).filterMap fun x =>
      if x.2.2.value v.value then some x.1.2 else none) = o.toList := by
  have none_of_not_mem : ∀ {cs : List (ItemId × Item)} {ks : List (ItemId × Literal)}, Chooses v cs o ks →
      (∀ item ∈ o, item ∉ cs.map (·.2)) → ((cs.zip ks).filterMap fun x =>
        if x.2.2.value v.value then some x.1.2 else none) = [] := by
    intro cs ks hc hno
    rw [List.filterMap_eq_nil_iff]
    rintro ⟨c, k⟩ hck
    have hd := (List.forall₂_zip hc hck).2
    refine if_neg fun hv => hno c.2 (hd.2.1 hv) (List.mem_map_of_mem (List.of_mem_zip hck).1)
  induction h with
  | nil =>
    cases o with
    | none => rfl
    | some item => exact absurd (ho item rfl) (by simp)
  | @cons c k cs ks hck hrest ih =>
    obtain ⟨hc, hn⟩ := List.nodup_cons.1 hn
    rw [List.zip_cons_cons, List.filterMap_cons]
    by_cases hv : k.2.value v.value = true
    · have hco := hck.2.2.1 hv
      rw [if_pos hv, none_of_not_mem hrest ?_, hco]
      · rfl
      · rw [hco]
        rintro item ⟨⟩
        exact hc
    · have hco : o ≠ some c.2 := fun he => hv (hck.2.2.2 he)
      rw [if_neg hv]
      refine ih hn fun item hi => ?_
      rcases List.mem_cons.1 (ho item hi) with rfl | hm
      · exact absurd hi hco
      · exact hm

theorem chooseItem_eq (hs : s.IsBuilt) (ho : sel.IsOffered s) (h : Outlines v sel enc) {slot : SlotId}
    (hslot : slot < s.slotCount) : Selection.chooseItem s enc v.value slot = .ok (sel.item? slot) := by
  obtain rfl := ho.schema
  have hf := ho.isFilled hs
  have hchosen : Selection.chosen sel.schema enc v.value slot = (sel.item? slot).toList :=
    filterMap_of_chooses hs.nodup_candidates (fun item hi => hf.mem_candidates slot item hi)
      (h.lexical.choices slot hslot)
  rw [Selection.chooseItem, hchosen]
  cases hi : sel.item? slot with
  | some item => rfl
  | none =>
    refine if_neg fun hw => ?_
    obtain ⟨item, hitem⟩ := hf.words slot hw
    rw [hi] at hitem
    cases hitem

/-- The literals say just what the selection is. -/
theorem ofAssignment_eq_of_outlines (hs : s.IsBuilt) (ho : sel.IsOffered s) (h : Outlines v sel enc) :
    Selection.ofAssignment s enc v.value = .ok sel := by
  obtain rfl := ho.schema
  have hitems : sel.schema.slotIds.mapM (Selection.chooseItem sel.schema enc v.value) = .ok sel.items := by
    rw [Fallible.mapM_eq_ok, List.forall₂_iff_get]
    refine ⟨by simp [Schema.slotIds, ho.length_items], fun i h₁ h₂ => ?_⟩
    have hi : i < sel.schema.slotCount := by simpa [Schema.slotIds] using h₁
    have hitem : sel.item? i = sel.items[i] := by simp [Selection.item?, List.getElem?_eq_getElem h₂]
    simpa [Schema.slotIds, hitem] using chooseItem_eq hs ho h hi
  have hlinks : (enc.checking.links.filter (·.literal.value v.value)).map (fun l => (l.trigger, l.target)) =
      sel.links := by
    have hvalue : enc.checking.links.filter (fun l => l.literal.value v.value) =
        enc.checking.links.filter fun l => (l.trigger, l.target) ∈ sel.links :=
      List.filter_congr fun l hl => Bool.eq_iff_iff.2
        ((h.checking.denotes_of_mem hl).2.2.trans decide_eq_true_iff.symm)
    have hfilter : (enc.checking.links.filter fun l => (l.trigger, l.target) ∈ sel.links).map
        (fun l => (l.trigger, l.target)) = sel.schema.linkPairs.filter (· ∈ sel.links) := by
      rw [← h.checking.map_links, List.filter_map]
      rfl
    rw [hvalue, hfilter]
    exact (List.filter_congr fun _ _ => by simp).trans (congrArg Selection.links ho.links)
  rw [Selection.ofAssignment, hitems]
  show Except.ok (ε := Inconsistency) _ = _
  rw [hlinks]

theorem ofAssignment_eq (hs : s.IsBuilt) (ho : sel.IsOffered s) (h : Describes v sel enc) :
    Selection.ofAssignment s enc v.value = .ok sel := ofAssignment_eq_of_outlines hs ho h.outlines

end Choices

end Encoding

end MinimalistGrammar
