import MinimalistGrammar.Encoding.HeadMovement
import MinimalistGrammar.Proofs.Encoding.Movement
import MinimalistGrammar.Proofs.Selection.Hosts

/-!
The clauses for head movement say that every host takes up a head that is no host itself, and that there are
no more hosts than the bound allows.
-/

namespace MinimalistGrammar

open MinimalistGrammar.Sat
open MinimalistGrammar.Sat.Builder

namespace HeadMove

variable {v : Valuation} {sel : Selection} {lex : Lexical} {c : Checking} {slot host mover : SlotId}
  {lits : List Literal}

theorem mem_hosts {s : Schema} : (slot, lits) ∈ hosts s lex ↔ slot < s.slotCount ∧
    lits = lex.literalsAt (s.lexicalPoint slot) (·.movesHead) ∧ lits ≠ [] := by
  simp only [hosts, List.mem_filterMap, Schema.mem_slotIds]
  constructor
  · rintro ⟨slot', hs, h⟩
    split at h
    · cases h
    · rename_i hne
      cases h
      exact ⟨hs, rfl, hne⟩
  · rintro ⟨hs, rfl, hne⟩
    refine ⟨slot, hs, ?_⟩
    split
    · contradiction
    · rfl

theorem nodup_hosts {s : Schema} : ((hosts s lex).map (·.1)).Nodup := by
  have hsub : (hosts s lex).map (·.1) = s.slotIds.filter fun slot =>
      lex.literalsAt (s.lexicalPoint slot) (·.movesHead) ≠ [] := by
    rw [hosts, List.map_filterMap, ← List.filterMap_eq_filter]
    refine List.filterMap_congr fun slot _ => ?_
    cases h : lex.literalsAt (s.lexicalPoint slot) (·.movesHead) <;> simp [Option.guard, h]
  rw [hsub]
  exact s.nodup_slotIds.filter _

theorem mem_movers {s : Schema} : (mover, lits) ∈ movers s c host →
    ∀ l, l ∈ lits ↔ ∃ y, (y, l) ∈ c.partnersOf (s.lexicalPoint host) ∧ s.slotOf y = mover := by
  intro h l
  rw [(mem_groupByKey.1 h).2]
  simp only [List.mem_map, List.mem_filter, decide_eq_true_eq, Prod.exists]
  constructor
  · rintro ⟨k, l, ⟨⟨y, l', hy, he⟩, hk⟩, rfl⟩
    obtain ⟨rfl, rfl⟩ := Prod.mk.inj he
    exact ⟨y, hy, hk⟩
  · rintro ⟨y, hy, hk⟩
    exact ⟨mover, l, ⟨⟨y, l, hy, by rw [hk]⟩, rfl⟩, rfl⟩

theorem exists_mem_movers {s : Schema} {y : PointId} {l : Literal}
    (h : (y, l) ∈ c.partnersOf (s.lexicalPoint host)) : ∃ lits, (s.slotOf y, lits) ∈ movers s c host :=
  ⟨_, mem_groupByKey.2 ⟨List.mem_map.2 ⟨(s.slotOf y, l), List.mem_map.2 ⟨(y, l), h, rfl⟩, rfl⟩, rfl⟩⟩

def Takes (v : Valuation) (sel : Selection) (host mover : SlotId) (m : HeadMove) : Prop :=
  (m.host = host ∧ m.mover = mover) ∧ v.Denotes m.literal (sel.TakesUp host mover)

theorem Takes.mono {v' : Valuation} {m : HeadMove} (h : Takes v sel host mover m) (hv : v ≤ v') :
    Takes v' sel host mover m := ⟨h.1, h.2.mono hv⟩

structure Describes (v : Valuation) (sel : Selection) (moves : List HeadMove) : Prop where
  denotes : ∀ m ∈ moves, m.host < sel.schema.slotCount ∧ v.Denotes m.literal (sel.TakesUp m.host m.mover)
  exists_move : ∀ host mover, sel.TakesUp host mover → ∃ m ∈ moves, m.host = host ∧ m.mover = mover

theorem Describes.mono {v' : Valuation} {moves : List HeadMove} (h : Describes v sel moves) (hv : v ≤ v') :
    Describes v' sel moves :=
  ⟨fun m hm => ⟨(h.denotes m hm).1, (h.denotes m hm).2.mono hv⟩, h.exists_move⟩

theorem adds_takeUp (slot : SlotId) (host : Literal) (m : SlotId × List Literal) : Adds (takeUp slot host m) :=
  adds_bind adds_fresh fun _ => adds_bind (adds_forM (fun _ => adds_implies _ _) _) fun _ =>
    adds_bind (adds_implies _ _) fun _ => adds_bind (adds_impliesAny _ _) fun _ => adds_pure _

theorem adds_attract (s : Schema) (cand : SlotId × List Literal) : Adds (attract s c cand) :=
  adds_bind (adds_or _) fun _ => adds_bind (adds_mapM (adds_takeUp _ _) _) fun _ => adds_pure _

theorem adds_forbidChains (moves : List HeadMove) : Adds (forbidChains moves) :=
  adds_forM (fun _ => adds_forM (fun _ => adds_ite (adds_forbid _) (adds_pure _)) _) _

theorem adds_build (s : Schema) (lex : Lexical) (c : Checking) : Adds (build s lex c) :=
  adds_bind (adds_mapM (adds_attract s) _) fun _ => adds_bind (adds_forbidChains _) fun _ =>
    adds_bind (adds_atMost _ _) fun _ => adds_pure _

/-- A new literal that holds when the host is there and has one of the links. -/
theorem spec_takeUp {h : Literal} {H : Prop} {ps : List Prop} (hh : v.Denotes h H)
    (hl : List.Forall₂ v.Denotes lits ps) : Spec v (takeUp slot h (mover, lits)) True fun v' m =>
      (m.host = slot ∧ m.mover = mover) ∧ v'.Denotes m.literal (H ∧ AnyOf ps) := by
  let define : Literal → Builder Unit := fun moved => do
    lits.forM fun link => Builder.implies [h, link] moved
    Builder.implies [moved] h
    Builder.impliesAny [moved] lits
  have hdefine : ∀ v' moved q, v ≤ v' → v'.Denotes moved q → Asserts v' (define moved) (q ↔ H ∧ AnyOf ps) := by
    intro v' moved q hle hq
    have forced : Asserts v' (lits.forM fun link => Builder.implies [h, link] moved)
        (∀ l ∈ lits, H → l.value v.value = true → q) :=
      Asserts.forM (fun _ => adds_implies _ _) fun l hml v'' hle' =>
        asserts_implies_two (hh.mono (Valuation.le_trans hle hle'))
          ((Valuation.denotes_self (Valuation.knows_of_denotes hl l hml)).mono (Valuation.le_trans hle hle'))
          (hq.mono hle')
    refine (Asserts.bind forced (fun _ => adds_bind (adds_implies _ _) fun _ => adds_impliesAny _ _)
      fun v₁ _ hle₁ _ => Asserts.bind (asserts_implies_one (hq.mono hle₁) (hh.mono (Valuation.le_trans hle hle₁)))
        (fun _ => adds_impliesAny _ _) fun v₂ _ hle₂ _ => asserts_impliesAny
          (.cons (hq.mono (Valuation.le_trans hle₁ hle₂)) .nil)
          (Valuation.forall₂_denotes_mono hl (Valuation.le_trans (Valuation.le_trans hle hle₁) hle₂))).congr ?_
    rw [← Valuation.exists_true_iff hl]
    constructor
    · rintro ⟨h₁, h₂, h₃⟩
      exact ⟨fun hq => ⟨h₂ hq, h₃ ⟨hq, trivial⟩⟩, fun ⟨hH, l, hl, hv⟩ => h₁ l hl hH hv⟩
    · intro he
      exact ⟨fun l hl hH hv => he.2 ⟨hH, l, hl, hv⟩, fun hq => (he.1 hq).1, fun hq => (he.1 hq.1).2⟩
  have hspec := (spec_fresh_defined (d := define) (fun _ => adds_bind (adds_forM (fun _ =>
    adds_implies _ _) _) fun _ => adds_bind (adds_implies _ _) fun _ => adds_impliesAny _ _) hdefine).bind_pure
      (g := fun l => (⟨mover, slot, l⟩ : HeadMove)) (R := fun v' m => (m.host = slot ∧ m.mover = mover) ∧
        v'.Denotes m.literal (H ∧ AnyOf ps)) fun v' l _ _ hl => ⟨⟨rfl, rfl⟩, hl⟩
  simpa only [takeUp, define, bind_assoc, pure_bind] using hspec

/-- A slot that may hold a host, with all that it may take up. -/
def Attracts (v : Valuation) (sel : Selection) (slot : SlotId) (r : Literal × List HeadMove) : Prop :=
  v.Denotes r.1 (sel.IsHost slot) ∧
    (∀ m ∈ r.2, Takes v sel slot m.mover m) ∧ ∀ mover, sel.TakesUp slot mover → ∃ m ∈ r.2, m.mover = mover

theorem Attracts.mono {v' : Valuation} {r : Literal × List HeadMove} (h : Attracts v sel slot r) (hv : v ≤ v') :
    Attracts v' sel slot r :=
  ⟨h.1.mono hv, fun m hm => (h.2.1 m hm).mono hv, h.2.2⟩

theorem denotes_isHost (hf : sel.IsFilled) (hlex : lex.Describes v sel) (hs : slot < sel.schema.slotCount) :
    ∃ ps, List.Forall₂ v.Denotes (lex.literalsAt (sel.schema.lexicalPoint slot) (·.movesHead)) ps ∧
      (AnyOf ps ↔ sel.IsHost slot) := by
  have hp := hf.built.lexicalPoint_lt hs
  refine ⟨_, Valuation.forall₂_denotes_map (P := fun x => sel.Carries (sel.schema.lexicalPoint slot) x.1)
    fun x hx => (hlex.features _ hp).denotes x.1 x.2 (List.mem_filter.1 hx).1, ?_⟩
  rw [anyOf_map, Selection.isHost_iff hf hs]
  constructor
  · rintro ⟨x, hx, hc⟩
    exact ⟨x.1, hc, (List.mem_filter.1 hx).2⟩
  · rintro ⟨f, hc, hm⟩
    obtain ⟨x, hx, rfl⟩ := List.mem_map.1
      ((hlex.mayCarry_iff hp).2 (Lexical.mayCarry_of_carries hf.mem_candidates hc))
    exact ⟨x, List.mem_filter.2 ⟨hx, hm⟩, hc⟩

theorem spec_attract (hf : sel.IsFilled) (hlex : lex.Describes v sel) (hc : c.Describes v sel)
    (hsub : ∀ l ∈ sel.links, l ∈ sel.schema.linkPairs) (hs : slot < sel.schema.slotCount) :
    Spec v (attract sel.schema c (slot, lex.literalsAt (sel.schema.lexicalPoint slot) (·.movesHead))) True
      fun v' r => Attracts v' sel slot r := by
  obtain ⟨ps, hps, hany⟩ := denotes_isHost hf hlex hs
  have hp := hf.built.lexicalPoint_lt hs
  have taken : ∀ x ∈ movers sel.schema c slot, ∀ v' h, v ≤ v' → v'.Denotes h (sel.IsHost slot) →
      Spec v' (takeUp slot h x) True fun v'' m => Takes v'' sel slot x.1 m := by
    rintro ⟨mover, lits⟩ hx v' h hle hh
    have hmem := mem_movers hx
    have hlits : List.Forall₂ v.Denotes (lits.map id) (lits.map fun l => l.value v.value = true) := by
      refine Valuation.forall₂_denotes_map fun l hl => ?_
      obtain ⟨y, hy, _⟩ := (hmem l).1 hl
      exact Valuation.denotes_self (hc.mem_partnersOf hp hy).2.1
    rw [List.map_id] at hlits
    refine (spec_takeUp hh (Valuation.forall₂_denotes_mono hlits hle)).post fun v'' m _ _ hm =>
      ⟨hm.1, hm.2.congr (and_congr_right fun _ => ?_)⟩
    rw [anyOf_map]
    constructor
    · rintro ⟨l, hl, hv⟩
      obtain ⟨y, hy, hk⟩ := (hmem l).1 hl
      exact ⟨y, (hc.mem_partnersOf hp hy).2.2.1 hv, hk⟩
    · rintro ⟨y, hy, hk⟩
      obtain ⟨l, hl⟩ := hc.exists_mem_partnersOf (hsub _ hy)
      exact ⟨l, (hmem l).2 ⟨y, hl, hk⟩, (hc.mem_partnersOf hp hl).2.2.2 hy⟩
  -- the host's own literal comes first, for every mover's is defined by it
  refine (spec_or hps).bind_free (fun _ => adds_bind (adds_mapM (adds_takeUp _ _) _) fun _ => adds_pure _)
    fun v₁ h hle₁ _ hh => ?_
  have hh := hh.congr hany
  refine ((Spec.mapM (C := fun _ => True) (Q := fun (x : SlotId × List Literal) v'' => Takes v'' sel slot x.1)
    (fun _ _ _ _ hle hm => hm.mono hle) (adds_takeUp _ _) fun x hx v' hle =>
      taken x hx v' h (Valuation.le_trans hle₁ hle) (hh.mono hle)).bind_pure ?_).congr (by simp)
  intro v₂ moves hle₂ _ hmoves
  refine ⟨hh.mono hle₂, fun m hm => ?_, fun mover ht => ?_⟩
  · obtain ⟨x, _, hx⟩ := exists_left_of_forall₂ hmoves hm
    exact hx.1.2 ▸ hx
  · obtain ⟨_, y, hy, rfl⟩ := ht
    obtain ⟨l, hl⟩ := hc.exists_mem_partnersOf (hsub _ hy)
    obtain ⟨lits, hlits⟩ := exists_mem_movers hl
    obtain ⟨m, hm, hx⟩ := exists_right_of_forall₂ hmoves hlits
    exact ⟨m, hm, hx.1.2⟩

theorem asserts_forbidChains {moves : List HeadMove} (h : Describes v sel moves) :
    Asserts v (forbidChains moves) (∀ host mover, sel.TakesUp host mover → ¬∃ mover', sel.TakesUp mover mover') := by
  refine (Asserts.forM (C := fun first => ∀ second ∈ moves, second.mover = first.host →
    ¬(sel.TakesUp first.host first.mover ∧ sel.TakesUp second.host second.mover))
    (fun _ => adds_forM (fun _ => adds_ite (adds_forbid _) (adds_pure _)) _) fun first hfirst v' hle => ?_).congr ?_
  · refine Asserts.forM (fun _ => adds_ite (adds_forbid _) (adds_pure _)) fun second hsecond v'' hle' => ?_
    have hle := Valuation.le_trans hle hle'
    split
    · rename_i he
      refine (asserts_forbid_two ((h.denotes first hfirst).2.mono hle) ((h.denotes second hsecond).2.mono hle)).congr ?_
      exact ⟨fun h _ => h, fun h => h he⟩
    · rename_i hne
      exact asserts_pure.congr ⟨fun _ he => absurd he hne, fun _ => trivial⟩
  · constructor
    · rintro hall host mover ht ⟨mover', ht'⟩
      obtain ⟨first, hfirst, rfl, rfl⟩ := h.exists_move _ _ ht'
      obtain ⟨second, hsecond, rfl, he⟩ := h.exists_move _ _ ht
      exact hall first hfirst second hsecond he ⟨ht', he ▸ ht⟩
    · rintro hall first _ second _ he ⟨hf, hs⟩
      exact hall _ _ (he ▸ hs) ⟨_, hf⟩

section Build

variable (hf : sel.IsFilled) (hlex : lex.Describes v sel)
include hf hlex

theorem mem_hosts_of_isHost (h : sel.IsHost slot) : slot ∈ (hosts sel.schema lex).map (·.1) := by
  have hs : slot < sel.schema.slotCount := h.elim fun item hi => hf.item_lt hi.1
  obtain ⟨ps, hps, hany⟩ := denotes_isHost hf hlex hs
  refine List.mem_map.2 ⟨(slot, _), mem_hosts.2 ⟨hs, rfl, fun hn => ?_⟩, rfl⟩
  rw [hn] at hps
  cases hps
  exact hany.2 h

theorem trueCount_isHost : trueCount ((hosts sel.schema lex).map fun x => sel.IsHost x.1) = sel.hosts.length := by
  have hlen := congrArg List.length sel.map_fst_hosts
  rw [List.length_map] at hlen
  rw [hlen, ← trueCount_map_eq_length (P := sel.IsHost) nodup_hosts (sel.schema.nodup_slotIds.filter _), List.map_map]
  · rfl
  · intro slot
    simp only [List.mem_filter, Option.any_eq_true, Schema.mem_slotIds]
    exact ⟨fun h => ⟨mem_hosts_of_isHost hf hlex h.2, h.2⟩,
      fun h => ⟨h.2.elim fun item hi => hf.item_lt hi.1, h.2⟩⟩

theorem describes_of_attracts {v' : Valuation} {hosted : List (Literal × List HeadMove)}
    (h : List.Forall₂ (fun x => Attracts v' sel x.1) (hosts sel.schema lex) hosted) :
    Describes v' sel (hosted.flatMap (·.2)) := by
  constructor
  · intro m hm
    obtain ⟨r, hr, hmr⟩ := List.mem_flatMap.1 hm
    obtain ⟨x, hx, ha⟩ := exists_left_of_forall₂ h hr
    obtain ⟨⟨he, _⟩, hd⟩ := ha.2.1 m hmr
    rw [he]
    exact ⟨(mem_hosts.1 hx).1, hd⟩
  · intro host mover ht
    obtain ⟨x, hx, rfl⟩ := List.mem_map.1 (mem_hosts_of_isHost hf hlex ht.1)
    obtain ⟨r, hr, ha⟩ := exists_right_of_forall₂ h hx
    obtain ⟨m, hm, he⟩ := ha.2.2 mover ht
    exact ⟨m, List.mem_flatMap.2 ⟨r, hr, hm⟩, (ha.2.1 m hm).1.1, he⟩

theorem spec_attracted (hc : c.Describes v sel) (hsub : ∀ l ∈ sel.links, l ∈ sel.schema.linkPairs) :
    Spec v ((hosts sel.schema lex).mapM (attract sel.schema c)) True fun v' hosted =>
      List.Forall₂ (fun x => Attracts v' sel x.1) (hosts sel.schema lex) hosted := by
  refine (Spec.mapM (C := fun _ => True) (Q := fun (x : SlotId × List Literal) v' => Attracts v' sel x.1)
    (fun _ _ _ _ hle h => h.mono hle) (adds_attract _) ?_).congr (by simp)
  rintro ⟨slot, lits⟩ hx v' hle
  obtain ⟨hs, rfl, _⟩ := mem_hosts.1 hx
  exact spec_attract hf (hlex.mono hle) (hc.mono hle) hsub hs

/-- The clauses for head movement say that hosts take up heads that are no hosts, and that there are not too
many of them. -/
theorem spec_build (hm : sel.IsMatching) (hc : c.Describes v sel) (hsub : ∀ l ∈ sel.links, l ∈ sel.schema.linkPairs) :
    Spec v (build sel.schema lex c)
      ((∀ host mover, (host, mover) ∈ sel.hosts → sel.isProperMover mover = true) ∧
        sel.hosts.length ≤ sel.schema.bounds.headMovements) fun v' moves => Describes v' sel moves := by
  refine ((spec_attracted hf hlex hc hsub).bind
    (D := (∀ host mover, sel.TakesUp host mover → ¬∃ mover', sel.TakesUp mover mover') ∧
      sel.hosts.length ≤ sel.schema.bounds.headMovements) (fun _ => adds_bind (adds_forbidChains _) fun _ =>
        adds_bind (adds_atMost _ _) fun _ => adds_pure _) fun v₁ hosted _ _ hh => ?_).congr ?_
  · have hmoves := describes_of_attracts hf hlex hh
    refine Asserts.bind (asserts_forbidChains hmoves) (fun _ => adds_bind (adds_atMost _ _)
      fun _ => adds_pure _) fun v₂ _ hle₂ _ => ?_
    have hlits : List.Forall₂ v₂.Denotes (hosted.map (·.1)) ((hosts sel.schema lex).map fun x => sel.IsHost x.1) := by
      rw [List.forall₂_map_left_iff, List.forall₂_map_right_iff]
      exact (hh.imp fun _ _ ha => ha.1.mono hle₂).flip
    refine ((asserts_atMost hlits _).bind_pure fun v₃ _ hle₃ _ _ => ?_).congr (by rw [trueCount_isHost hf hlex])
    exact hmoves.mono (Valuation.le_trans hle₂ hle₃)
  · rw [true_and, Selection.isProperMover_iff hf hm]
    refine and_congr_left fun _ => forall_congr' fun host => forall_congr' fun mover => imp_congr_right fun _ => ?_
    refine not_congr ⟨fun ⟨_, h⟩ => h.1, fun h => hm.exists_takesUp hf ?_ h⟩
    exact h.elim fun item hi => hf.item_lt hi.1

end Build

end HeadMove

end MinimalistGrammar
