import MinimalistGrammar.Encoding.Checking
import MinimalistGrammar.Proofs.Encoding.Lexical
import MinimalistGrammar.Proofs.Selection.Matching

/-!
The links: they offer every way to match triggers and targets one to one.
-/

namespace MinimalistGrammar

open MinimalistGrammar.Sat
open MinimalistGrammar.Sat.Builder

/-- Some candidates of two slots have matching features at the points. -/
def Schema.MayCheck (s : Schema) (x y : PointId) : Prop :=
  s.slotOf x ≠ s.slotOf y ∧ ∃ f g, s.MayCarry x f ∧ s.MayCarry y g ∧ f.checks g = true

open Classical in
/-- The pairs of points between which a check is possible, by trigger and then by target. -/
noncomputable def Schema.linkPairs (s : Schema) : List (PointId × PointId) :=
  s.pointIds.flatMap fun x => (s.pointIds.filter fun y => s.MayCheck x y).map fun y => (x, y)

theorem Schema.mem_linkPairs {s : Schema} {x y : PointId} :
    (x, y) ∈ s.linkPairs ↔ (x < s.pointCount ∧ y < s.pointCount) ∧ s.MayCheck x y := by
  simp only [linkPairs, List.mem_flatMap, List.mem_map, List.mem_filter, mem_pointIds, Prod.mk.injEq,
    decide_eq_true_eq]
  constructor
  · rintro ⟨x', hx, y', ⟨hy, hc⟩, rfl, rfl⟩
    exact ⟨⟨hx, hy⟩, hc⟩
  · rintro ⟨⟨hx, hy⟩, hc⟩
    exact ⟨x, hx, y, ⟨hy, hc⟩, rfl, rfl⟩

theorem Schema.exists_successor_of_mem_linkPairs {s : Schema} {x y : PointId} (h : (x, y) ∈ s.linkPairs) :
    ∃ z, s.successor x = some z := by
  obtain ⟨_, f, _, ⟨c, hc, hf⟩, _, hck⟩ := (mem_linkPairs.1 h).2
  have hlt := (Item.isTrigger_iff hf).1 (Selection.isTrigger_of_checks hck)
  exact exists_pointAt? hc (Nat.lt_of_le_of_lt hlt c.2.categoryIndex_lt)

theorem Schema.nodup_linkPairs (s : Schema) : s.linkPairs.Nodup := by
  rw [linkPairs, List.nodup_flatMap]
  constructor
  · intro x _
    exact (List.nodup_range.filter _).map fun _ _ h => (Prod.mk.inj h).2
  · refine List.nodup_range.imp fun {x x'} hne => ?_
    rintro ⟨a, b⟩ h h'
    obtain ⟨_, _, he⟩ := List.mem_map.1 h
    obtain ⟨_, _, he'⟩ := List.mem_map.1 h'
    exact hne ((Prod.mk.inj he).1.trans (Prod.mk.inj he').1.symm)

open Classical in
/-- The selection with the given checks, as far as they are possible. -/
noncomputable def Selection.withLinks (sel : Selection) (L : PointId × PointId → Prop) : Selection :=
  { sel with links := sel.schema.linkPairs.filter fun l => L l }

theorem Selection.mem_links_withLinks {sel : Selection} {L : PointId × PointId → Prop}
    {l : PointId × PointId} : l ∈ (sel.withLinks L).links ↔ l ∈ sel.schema.linkPairs ∧ L l := by
  simp [withLinks]

namespace Checking

section Candidates

variable {s : Schema} {lex : Lexical} {x y : PointId} {ms : List (Literal × List Literal)}

theorem mem_candidates : (x, y, ms) ∈ candidates s lex ↔
    (x < s.pointCount ∧ y < s.pointCount) ∧ s.slotOf x ≠ s.slotOf y ∧ ms = matching lex x y ∧ ms ≠ [] := by
  simp only [candidates, List.mem_flatMap, List.mem_filterMap, Schema.mem_pointIds]
  constructor
  · rintro ⟨x', hx, y', hy, h⟩
    split at h
    · cases h
    · rename_i hne
      split at h
      · cases h
      · rename_i hms
        cases h
        exact ⟨⟨hx, hy⟩, hne, rfl, hms⟩
  · rintro ⟨⟨hx, hy⟩, hne, rfl, hms⟩
    refine ⟨x, hx, y, hy, ?_⟩
    rw [if_neg hne]
    split
    · contradiction
    · rfl

theorem mem_literalsAt {p : PointId} {test : Feature → Bool} {l : Literal} :
    l ∈ lex.literalsAt p test ↔ ∃ f, (f, l) ∈ lex.featuresAt p ∧ test f = true := by
  simp only [Lexical.literalsAt, List.mem_map, List.mem_filter]
  constructor
  · rintro ⟨⟨f, l⟩, h, rfl⟩
    exact ⟨f, h⟩
  · rintro ⟨f, h⟩
    exact ⟨(f, l), h, rfl⟩

theorem mem_matching {m : Literal × List Literal} : m ∈ matching lex x y ↔
    ∃ f, (f, m.1) ∈ lex.featuresAt x ∧ m.2 = lex.literalsAt y f.checks ∧ m.2 ≠ [] := by
  simp only [matching, List.mem_filterMap]
  constructor
  · rintro ⟨⟨f, l⟩, hf, h⟩
    split at h
    · cases h
    · rename_i hne
      cases h
      exact ⟨f, hf, rfl, hne⟩
  · rintro ⟨f, hf, he, hne⟩
    refine ⟨(f, m.1), hf, ?_⟩
    rw [he] at hne
    split
    · contradiction
    · rw [← he]

end Candidates

section Links

variable {v : Valuation} {sel : Selection} {lex : Lexical} {x y p : PointId}

def Compatible (sel : Selection) (x y : PointId) : Prop :=
  ∃ f g, sel.Carries x f ∧ sel.Carries y g ∧ f.checks g = true

theorem matching_ne_nil_iff (hx : Lexical.Lists v sel x (lex.featuresAt x))
    (hy : Lexical.Lists v sel y (lex.featuresAt y)) : matching lex x y ≠ [] ↔
      ∃ f g, sel.schema.MayCarry x f ∧ sel.schema.MayCarry y g ∧ f.checks g = true := by
  constructor
  · intro hne
    obtain ⟨m, hm⟩ := List.exists_mem_of_ne_nil _ hne
    obtain ⟨f, hf, he, hne⟩ := mem_matching.1 hm
    obtain ⟨l, hl⟩ := List.exists_mem_of_ne_nil _ hne
    rw [he] at hl
    obtain ⟨g, hg, hc⟩ := mem_literalsAt.1 hl
    exact ⟨f, g, (hx.mem_keys f).1 (List.mem_map_of_mem hf), (hy.mem_keys g).1 (List.mem_map_of_mem hg), hc⟩
  · rintro ⟨f, g, hf, hg, hc⟩
    obtain ⟨⟨f, l⟩, hfl, rfl⟩ := List.mem_map.1 ((hx.mem_keys f).2 hf)
    obtain ⟨⟨g, k⟩, hgk, rfl⟩ := List.mem_map.1 ((hy.mem_keys g).2 hg)
    exact List.ne_nil_of_mem (a := (l, lex.literalsAt y f.checks)) (mem_matching.2
      ⟨f, hfl, rfl, List.ne_nil_of_mem (mem_literalsAt.2 ⟨g, hgk, hc⟩)⟩)

theorem map_candidates (h : ∀ p < sel.schema.pointCount, Lexical.Lists v sel p (lex.featuresAt p)) :
    (candidates sel.schema lex).map (fun c => (c.1, c.2.1)) = sel.schema.linkPairs := by
  classical
  rw [candidates, List.map_flatMap, Schema.linkPairs]
  refine List.flatMap_congr fun x hx => ?_
  rw [List.map_filterMap, ← List.filterMap_eq_filter, List.map_filterMap]
  refine List.filterMap_congr fun y hy => ?_
  have hne := matching_ne_nil_iff (h x (Schema.mem_pointIds.1 hx)) (h y (Schema.mem_pointIds.1 hy))
  by_cases hs : sel.schema.slotOf x = sel.schema.slotOf y
  · simp [hs, Schema.MayCheck, Option.guard]
  · cases hm : matching lex x y with
    | nil =>
      have hno : ¬sel.schema.MayCheck x y := fun hc => hne.2 hc.2 hm
      simp [hs, hno, Option.guard]
    | cons m ms =>
      have hyes : sel.schema.MayCheck x y := ⟨hs, hne.1 (by simp [hm])⟩
      simp [hs, hyes, Option.guard]

theorem adds_link (c : PointId × PointId × List (Literal × List Literal)) : Adds (link c.1 c.2.1 c.2.2) :=
  adds_bind adds_fresh fun _ => adds_bind (adds_impliesAny _ _) fun _ =>
    adds_bind (adds_forM (fun _ => adds_impliesAny _ _) _) fun _ => adds_pure _

/-- The clauses of a link say that the features match. -/
theorem clauses_iff_compatible {q : Prop} (hmem : ∀ f, sel.Carries x f → sel.schema.MayCarry x f)
    (hmem' : ∀ f, sel.Carries y f → sel.schema.MayCarry y f)
    (hx : Lexical.Lists v sel x (lex.featuresAt x)) (hy : Lexical.Lists v sel y (lex.featuresAt y)) :
    ((q → ∃ m ∈ matching lex x y, m.1.value v.value = true) ∧
      ∀ m ∈ matching lex x y, q → m.1.value v.value = true → ∃ l ∈ m.2, l.value v.value = true) ↔
        (q → Compatible sel x y) := by
  constructor
  · rintro ⟨h₁, h₂⟩ hq
    obtain ⟨m, hm, hv⟩ := h₁ hq
    obtain ⟨l, hl, hlv⟩ := h₂ m hm hq hv
    obtain ⟨f, hf, he, _⟩ := mem_matching.1 hm
    rw [he] at hl
    obtain ⟨g, hg, hc⟩ := mem_literalsAt.1 hl
    exact ⟨f, g, (hx.denotes f m.1 hf).2.1 hv, (hy.denotes g l hg).2.1 hlv, hc⟩
  · intro h
    constructor
    · intro hq
      obtain ⟨f, g, hf, hg, hc⟩ := h hq
      obtain ⟨⟨f, l⟩, hfl, rfl⟩ := List.mem_map.1 ((hx.mem_keys f).2 (hmem f hf))
      obtain ⟨⟨g, k⟩, hgk, rfl⟩ := List.mem_map.1 ((hy.mem_keys g).2 (hmem' g hg))
      exact ⟨(l, lex.literalsAt y f.checks), mem_matching.2
        ⟨f, hfl, rfl, List.ne_nil_of_mem (mem_literalsAt.2 ⟨g, hgk, hc⟩)⟩, (hx.denotes f l hfl).2.2 hf⟩
    · intro m hm hq hv
      obtain ⟨f, g, hf, hg, hc⟩ := h hq
      obtain ⟨f', hf', he, _⟩ := mem_matching.1 hm
      have hff : f' = f := ((hx.denotes f' m.1 hf').2.1 hv).unique hf
      obtain ⟨⟨g, k⟩, hgk, rfl⟩ := List.mem_map.1 ((hy.mem_keys g).2 (hmem' g hg))
      rw [he, hff]
      exact ⟨k, mem_literalsAt.2 ⟨g, hgk, hc⟩, (hy.denotes g k hgk).2.2 hg⟩

/-- The link is between the points, and its literal says whether the check takes place. -/
def IsLink (v : Valuation) (xy : PointId × PointId) (q : Prop) (l : Link) : Prop :=
  (l.trigger, l.target) = xy ∧ v.Denotes l.literal q

theorem IsLink.mono {v' : Valuation} {xy : PointId × PointId} {q : Prop} {l : Link} (h : IsLink v xy q l)
    (hv : v ≤ v') : IsLink v' xy q l := ⟨h.1, h.2.mono hv⟩

theorem denotes_trigger {m : Literal × List Literal} (hx : Lexical.Lists v sel x (lex.featuresAt x))
    (hm : m ∈ matching lex x y) : v.Denotes m.1 (m.1.value v.value = true) := by
  obtain ⟨f, hf, _⟩ := mem_matching.1 hm
  exact Valuation.denotes_self (hx.denotes f m.1 hf).1

theorem denotes_targets {m : Literal × List Literal} (hy : Lexical.Lists v sel y (lex.featuresAt y))
    (hm : m ∈ matching lex x y) : List.Forall₂ v.Denotes m.2 (m.2.map fun l => l.value v.value = true) := by
  rw [List.forall₂_map_right_iff, List.forall₂_same]
  intro l hl
  obtain ⟨f, _, he, _⟩ := mem_matching.1 hm
  rw [he] at hl
  obtain ⟨g, hg, _⟩ := mem_literalsAt.1 hl
  exact Valuation.denotes_self (hy.denotes g l hg).1

section Link

variable (hmem : ∀ f, sel.Carries x f → sel.schema.MayCarry x f)
  (hmem' : ∀ f, sel.Carries y f → sel.schema.MayCarry y f)
  (hx : Lexical.Lists v sel x (lex.featuresAt x)) (hy : Lexical.Lists v sel y (lex.featuresAt y))
include hmem hmem' hx hy

theorem asserts_matching {q : Prop} {l : Literal} (hl : v.Denotes l q) :
    Asserts v (impliesAny [l] ((matching lex x y).map (·.1)) >>= fun _ =>
      (matching lex x y).forM fun m => impliesAny [l, m.1] m.2) (q → Compatible sel x y) := by
  have first : Asserts v (impliesAny [l] ((matching lex x y).map (·.1)))
      (q → ∃ m ∈ matching lex x y, m.1.value v.value = true) :=
    (asserts_impliesAny (.cons hl .nil)
      (Valuation.forall₂_denotes_map fun m hm => denotes_trigger hx hm)).congr (by rw [anyOf_map]; simp)
  have second : ∀ v', v ≤ v' → Asserts v' ((matching lex x y).forM fun m => impliesAny [l, m.1] m.2)
      (∀ m ∈ matching lex x y, q → m.1.value v.value = true → ∃ l ∈ m.2, l.value v.value = true) := by
    intro v' hle
    refine Asserts.forM (fun _ => adds_impliesAny _ _) fun m hm v'' hle' => ?_
    have hle := Valuation.le_trans hle hle'
    refine (asserts_impliesAny (.cons (hl.mono hle) (.cons ((denotes_trigger hx hm).mono hle) .nil))
      (Valuation.forall₂_denotes_mono (denotes_targets hy hm) hle)).congr ?_
    rw [anyOf_map]
    simp
  exact (Asserts.bind first (fun _ => adds_forM (fun _ => adds_impliesAny _ _) _)
    fun v' _ hle _ => second v' hle).congr (clauses_iff_compatible hmem hmem' hx hy)

theorem offers_link : Offers v (link x y (matching lex x y)) (fun q : Prop => q → Compatible sel x y) fun q v' l =>
    IsLink v' (x, y) q l := by
  have clauses : ∀ q v' l, v ≤ v' → True → v'.Denotes l q →
      Spec v' (impliesAny [l] ((matching lex x y).map (·.1)) >>= fun _ =>
        (matching lex x y).forM (fun m => impliesAny [l, m.1] m.2) >>= fun _ =>
          pure (⟨x, y, l⟩ : Link)) (q → Compatible sel x y) fun v'' r => IsLink v'' (x, y) q r := by
    intro q v' l hle _ hl
    rw [← bind_assoc]
    exact (asserts_matching hmem hmem' (hx.mono hle) (hy.mono hle) hl).bind_pure fun _ _ hle' _ _ =>
      ⟨rfl, hl.mono hle'⟩
  refine (offers_fresh.bind_spec (fun _ => adds_bind (adds_impliesAny _ _) fun _ =>
    adds_bind (adds_forM (fun _ => adds_impliesAny _ _) _) fun _ => adds_pure _) clauses).imp ?_ ?_
  · exact fun q _ hp hq => ⟨q, hp.2, hq⟩
  · exact fun q hp => ⟨q, ⟨trivial, hp⟩, fun _ _ _ hq => hq⟩

end Link

end Links

structure Describes (v : Valuation) (sel : Selection) (c : Checking) : Prop where
  links : List.Forall₂ (fun xy => IsLink v xy (xy ∈ sel.links)) sel.schema.linkPairs c.links
  partners : ∀ p < sel.schema.pointCount,
    c.partnersOf p = (c.links.filter (·.trigger = p)).map fun l => (l.target, l.literal)
  checkers : ∀ p < sel.schema.pointCount,
    c.checkersOf p = (c.links.filter (·.target = p)).map fun l => (l.trigger, l.literal)

namespace Describes

variable {v v' : Valuation} {sel : Selection} {c : Checking} {p x y : PointId} {l : Literal}

theorem mono (h : Describes v sel c) (hv : v ≤ v') : Describes v' sel c :=
  ⟨h.links.imp fun _ _ hl => hl.mono hv, h.partners, h.checkers⟩

theorem denotes_of_mem (h : Describes v sel c) {k : Link} (hk : k ∈ c.links) :
    (k.trigger, k.target) ∈ sel.schema.linkPairs ∧
      v.Denotes k.literal ((k.trigger, k.target) ∈ sel.links) := by
  obtain ⟨xy, hxy, rfl, hd⟩ := exists_left_of_forall₂ h.links hk
  exact ⟨hxy, hd⟩

theorem exists_link (h : Describes v sel c) (hxy : (x, y) ∈ sel.schema.linkPairs) :
    ∃ k ∈ c.links, k.trigger = x ∧ k.target = y := by
  obtain ⟨k, hk, he, _⟩ := exists_right_of_forall₂ h.links hxy
  exact ⟨k, hk, Prod.mk.inj he⟩

theorem mem_partnersOf (h : Describes v sel c) (hp : p < sel.schema.pointCount)
    (hm : (y, l) ∈ c.partnersOf p) : (p, y) ∈ sel.schema.linkPairs ∧ v.Denotes l ((p, y) ∈ sel.links) := by
  rw [h.partners p hp, List.mem_map] at hm
  obtain ⟨k, hk, he⟩ := hm
  obtain ⟨hk, ht⟩ := List.mem_filter.1 hk
  obtain ⟨rfl, rfl⟩ := Prod.mk.inj he
  have := h.denotes_of_mem hk
  rwa [of_decide_eq_true ht] at this

theorem exists_mem_partnersOf (h : Describes v sel c) (hxy : (x, y) ∈ sel.schema.linkPairs) :
    ∃ l, (y, l) ∈ c.partnersOf x := by
  obtain ⟨k, hk, rfl, rfl⟩ := h.exists_link hxy
  rw [h.partners _ (Schema.mem_linkPairs.1 hxy).1.1]
  exact ⟨k.literal, List.mem_map.2 ⟨k, List.mem_filter.2 ⟨hk, by simp⟩, rfl⟩⟩

theorem mem_checkersOf (h : Describes v sel c) (hp : p < sel.schema.pointCount)
    (hm : (x, l) ∈ c.checkersOf p) : (x, p) ∈ sel.schema.linkPairs ∧ v.Denotes l ((x, p) ∈ sel.links) := by
  rw [h.checkers p hp, List.mem_map] at hm
  obtain ⟨k, hk, he⟩ := hm
  obtain ⟨hk, ht⟩ := List.mem_filter.1 hk
  obtain ⟨rfl, rfl⟩ := Prod.mk.inj he
  have := h.denotes_of_mem hk
  rwa [of_decide_eq_true ht] at this

theorem exists_mem_checkersOf (h : Describes v sel c) (hxy : (x, y) ∈ sel.schema.linkPairs) :
    ∃ l, (x, l) ∈ c.checkersOf y := by
  obtain ⟨k, hk, rfl, rfl⟩ := h.exists_link hxy
  rw [h.checkers _ (Schema.mem_linkPairs.1 hxy).1.2]
  exact ⟨k.literal, List.mem_map.2 ⟨k, List.mem_filter.2 ⟨hk, by simp⟩, rfl⟩⟩

theorem map_links (h : Describes v sel c) : c.links.map (fun k => (k.trigger, k.target)) = sel.schema.linkPairs :=
  (map_eq_map_of_forall₂ (f := id) (h.links.imp fun _ _ hl => hl.1)).trans (List.map_id _)

theorem nodup_checkersOf (h : Describes v sel c) (hp : p < sel.schema.pointCount) :
    ((c.checkersOf p).map (·.1)).Nodup := by
  have hn : ((c.links.filter (·.target = p)).map fun k => (k.trigger, k.target)).Nodup :=
    (h.map_links ▸ sel.schema.nodup_linkPairs).sublist (List.filter_sublist.map _)
  rw [h.checkers p hp, List.map_map]
  refine hn.of_map.map_on fun k hk k' hk' he => List.inj_on_of_nodup_map hn hk hk' (Prod.ext he ?_)
  exact (of_decide_eq_true (List.mem_filter.1 hk).2).trans (of_decide_eq_true (List.mem_filter.1 hk').2).symm

theorem denotes_filter (h : Describes v sel c) (test : PointId × PointId → Bool) :
    List.Forall₂ v.Denotes ((c.links.filter fun l => test (l.trigger, l.target)).map (·.literal))
      ((sel.schema.linkPairs.filter test).map (· ∈ sel.links)) := by
  have hl := h.links
  generalize sel.schema.linkPairs = pairs at hl
  generalize c.links = ks at hl
  induction hl with
  | nil => exact .nil
  | @cons xy k _ _ hk _ ih =>
    rw [List.filter_cons, List.filter_cons, hk.1]
    by_cases ht : test xy = true
    · simpa [ht] using And.intro hk.2 ih
    · simpa [ht] using ih

end Describes

theorem adds_checkOnce (feature : Literal) (links : List (PointId × Literal)) :
    Adds (checkOnce feature links) :=
  adds_bind (adds_impliesAny _ _) fun _ => adds_atMostOne _

theorem adds_build (s : Schema) (lex : Lexical) : Adds (build s lex) :=
  adds_bind (adds_mapM adds_link _) fun _ => adds_bind (adds_forM (fun _ =>
    adds_bind (adds_checkOnce _ _) fun _ => adds_checkOnce _ _) _) fun _ => adds_pure _

section Matching

variable {v : Valuation} {sel : Selection} {lex : Lexical} {c : Checking} {p : PointId}

theorem asserts_checkOnce {feature : Literal} {P : Prop} {links : List (PointId × Literal)}
    {pairs : List (PointId × PointId)} {L : PointId × PointId → Prop} (hf : v.Denotes feature P)
    (hl : List.Forall₂ v.Denotes (links.map (·.2)) (pairs.map L)) (hn : pairs.Nodup) :
    Asserts v (checkOnce feature links) ((P → ∃ l ∈ pairs, L l) ∧
      ∀ l ∈ pairs, ∀ l' ∈ pairs, L l → L l' → l = l') := by
  refine (Asserts.bind (asserts_impliesAny (.cons hf .nil) hl) (fun _ => adds_atMostOne _)
    fun v' _ hle _ => asserts_atMostOne (Valuation.forall₂_denotes_mono hl hle)).congr ?_
  rw [trueCount_map_le_one_iff hn, anyOf_map]
  simp

theorem nodup_candidates (h : ∀ p < sel.schema.pointCount, Lexical.Lists v sel p (lex.featuresAt p)) :
    (candidates sel.schema lex).Nodup := by
  have := sel.schema.nodup_linkPairs
  rw [← map_candidates h] at this
  exact this.of_map _

theorem candidate_ext (h : ∀ p < sel.schema.pointCount, Lexical.Lists v sel p (lex.featuresAt p))
    {c c' : PointId × PointId × List (Literal × List Literal)} (hc : c ∈ candidates sel.schema lex)
    (hc' : c' ∈ candidates sel.schema lex) (he : (c.1, c.2.1) = (c'.1, c'.2.1)) : c = c' := by
  have hn : ((candidates sel.schema lex).map fun c => (c.1, c.2.1)).Nodup := map_candidates h ▸ sel.schema.nodup_linkPairs
  exact List.inj_on_of_nodup_map hn hc hc' he

theorem forall₂_isLink {v' : Valuation} {t : PointId × PointId × List (Literal × List Literal) → Prop} {L : PointId × PointId → Prop}
    {links : List Link} (h : ∀ p < sel.schema.pointCount, Lexical.Lists v sel p (lex.featuresAt p))
    (hl : List.Forall₂ (fun c => IsLink v' (c.1, c.2.1) (t c)) (candidates sel.schema lex) links)
    (ht : ∀ c ∈ candidates sel.schema lex, t c ↔ L (c.1, c.2.1)) :
    List.Forall₂ (fun xy => IsLink v' xy (xy ∈ (sel.withLinks L).links)) sel.schema.linkPairs links := by
  rw [← map_candidates h, List.forall₂_map_left_iff]
  refine List.forall₂_iff_get.2 ⟨hl.length_eq, fun i h₁ h₂ => ?_⟩
  have hi := hl.get h₁ h₂
  have hmem := List.get_mem (candidates sel.schema lex) ⟨i, h₁⟩
  refine ⟨hi.1, hi.2.congr ?_⟩
  rw [Selection.mem_links_withLinks, ht _ hmem]
  exact ⟨fun hL => ⟨map_candidates h ▸ List.mem_map_of_mem hmem, hL⟩, fun hL => hL.2⟩

/-- The links are new variables for the possible checks, each of which requires matching features. -/
theorem offers_links (hmem : ∀ p f, sel.Carries p f → sel.schema.MayCarry p f)
    (h : ∀ p < sel.schema.pointCount, Lexical.Lists v sel p (lex.featuresAt p)) :
    Offers v ((candidates sel.schema lex).mapM fun c => link c.1 c.2.1 c.2.2)
      (fun L : PointId × PointId → Prop => ∀ xy ∈ sel.schema.linkPairs, L xy → Compatible sel xy.1 xy.2)
      fun L v' links => List.Forall₂ (fun xy => IsLink v' xy (xy ∈ (sel.withLinks L).links))
        sel.schema.linkPairs links := by
  have each : Offers v ((candidates sel.schema lex).mapM fun c => link c.1 c.2.1 c.2.2)
      (fun t : PointId × PointId × List (Literal × List Literal) → Prop =>
        ∀ c ∈ candidates sel.schema lex, t c → Compatible sel c.1 c.2.1)
      fun t v' links => List.Forall₂ (fun c => IsLink v' (c.1, c.2.1) (t c))
        (candidates sel.schema lex) links := by
    refine Offers.mapM (α := PointId × PointId × List (Literal × List Literal))
      (P := fun c q => q → Compatible sel c.1 c.2.1) (Q := fun c q v' => IsLink v' (c.1, c.2.1) q) (nodup_candidates h)
      (fun _ _ _ _ _ hle hl => hl.mono hle) adds_link ?_
    rintro ⟨x, y, ms⟩ hc v' hle
    obtain ⟨⟨hx, hy⟩, _, rfl, _⟩ := mem_candidates.1 hc
    exact offers_link (hmem x) (hmem y) ((h x hx).mono hle) ((h y hy).mono hle)
  refine each.imp ?_ ?_
  · intro t links ht hl
    refine ⟨fun xy => ∃ c ∈ candidates sel.schema lex, (c.1, c.2.1) = xy ∧ t c, ?_, forall₂_isLink h hl fun c hc => ?_⟩
    · rintro xy _ ⟨c, hc, rfl, htc⟩
      exact ht c hc htc
    · constructor
      · exact fun htc => ⟨c, hc, rfl, htc⟩
      · rintro ⟨c', hc', he, htc⟩
        exact candidate_ext h hc' hc he ▸ htc
  · intro L hL
    exact ⟨fun c => L (c.1, c.2.1), fun c hc => hL _ (map_candidates h ▸ List.mem_map_of_mem hc),
      fun v' links _ hl => forall₂_isLink h hl fun _ _ => Iff.rfl⟩

/-- What the clauses at a point say. -/
def ChecksOnce (sel : Selection) (p : PointId) : Prop :=
  (((∃ f, sel.Carries p f ∧ f.polarity.isTrigger = true) → ∃ y, (p, y) ∈ sel.links) ∧
    ∀ y y', (p, y) ∈ sel.links → (p, y') ∈ sel.links → y = y') ∧
  (((∃ f, sel.Carries p f ∧ f.polarity.isTarget = true) → ∃ x, (x, p) ∈ sel.links) ∧
    ∀ x x', (x, p) ∈ sel.links → (x', p) ∈ sel.links → x = x')

theorem checkOnce_iff {P : Prop} {pairs : List (PointId × PointId)} {L : PointId × PointId → Prop}
    (pair : PointId → PointId × PointId) (hinj : Function.Injective pair) (hpairs : ∀ l ∈ pairs, ∃ z, pair z = l)
    (hsub : ∀ z, L (pair z) → pair z ∈ pairs) :
    ((P → ∃ l ∈ pairs, L l) ∧ ∀ l ∈ pairs, ∀ l' ∈ pairs, L l → L l' → l = l') ↔
      (P → ∃ z, L (pair z)) ∧ ∀ z z', L (pair z) → L (pair z') → z = z' := by
  have hex : (∃ l ∈ pairs, L l) ↔ ∃ z, L (pair z) := by
    constructor
    · rintro ⟨l, hl, hL⟩
      obtain ⟨z, rfl⟩ := hpairs l hl
      exact ⟨z, hL⟩
    · rintro ⟨z, hL⟩
      exact ⟨pair z, hsub z hL, hL⟩
  rw [hex]
  refine and_congr_right fun _ => ⟨fun h z z' hz hz' => hinj (h _ (hsub z hz) _ (hsub z' hz') hz hz'),
    fun h l hl l' hl' hL hL' => ?_⟩
  obtain ⟨z, rfl⟩ := hpairs l hl
  obtain ⟨z', rfl⟩ := hpairs l' hl'
  rw [h z z' hL hL']

theorem asserts_checksOnce (hp : p < sel.schema.pointCount) (hlex : lex.Describes v sel)
    (hc : Describes v sel c) (hsub : ∀ l ∈ sel.links, l ∈ sel.schema.linkPairs) :
    Asserts v (checkOnce (lex.trigger p) (c.partnersOf p) >>= fun _ =>
      checkOnce (lex.target p) (c.checkersOf p)) (ChecksOnce sel p) := by
  have partners : List.Forall₂ v.Denotes ((c.partnersOf p).map (·.2))
      ((sel.schema.linkPairs.filter (·.1 = p)).map (· ∈ sel.links)) := by
    rw [hc.partners p hp, List.map_map]
    exact hc.denotes_filter fun l => l.1 = p
  have checkers : List.Forall₂ v.Denotes ((c.checkersOf p).map (·.2))
      ((sel.schema.linkPairs.filter (·.2 = p)).map (· ∈ sel.links)) := by
    rw [hc.checkers p hp, List.map_map]
    exact hc.denotes_filter fun l => l.2 = p
  have hn := sel.schema.nodup_linkPairs
  refine (Asserts.bind (asserts_checkOnce (hlex.triggers.denotes p hp) partners (hn.filter _))
    (fun _ => adds_checkOnce _ _) fun v' _ hle _ => asserts_checkOnce ((hlex.targets.denotes p hp).mono hle)
      (Valuation.forall₂_denotes_mono checkers hle) (hn.filter _)).congr ?_
  refine and_congr (checkOnce_iff (fun y => (p, y)) ?_ ?_ ?_) (checkOnce_iff (fun x => (x, p)) ?_ ?_ ?_)
  · exact fun y y' he => (Prod.mk.inj he).2
  · exact fun l hl => ⟨l.2, Prod.ext (of_decide_eq_true (List.mem_filter.1 hl).2).symm rfl⟩
  · exact fun y hl => List.mem_filter.2 ⟨hsub _ hl, by simp⟩
  · exact fun x x' he => (Prod.mk.inj he).1
  · exact fun l hl => ⟨l.1, Prod.ext rfl (of_decide_eq_true (List.mem_filter.1 hl).2).symm⟩
  · exact fun x hl => List.mem_filter.2 ⟨hsub _ hl, by simp⟩

theorem describes_ofLinks {links : List Link} (h : List.Forall₂ (fun xy => IsLink v xy (xy ∈ sel.links))
    sel.schema.linkPairs links) :
    Describes v sel (ofLinks sel.schema links) := by
  refine ⟨h, fun p hp => ?_, fun p hp => ?_⟩
  · simp [partnersOf, ofLinks, Array.getD_eq_getD_getElem?, Schema.pointIds, hp]
  · simp [checkersOf, ofLinks, Array.getD_eq_getD_getElem?, Schema.pointIds, hp]

theorem describes_of_map_eq {links : List Link} (hpairs : links.map (fun k => (k.trigger, k.target)) = sel.schema.linkPairs)
    (h : ∀ k ∈ links, v.Denotes k.literal ((k.trigger, k.target) ∈ sel.links)) :
    Describes v sel (ofLinks sel.schema links) := by
  refine describes_ofLinks ?_
  rw [← hpairs, List.forall₂_map_left_iff, List.forall₂_same]
  exact fun k hk => ⟨rfl, h k hk⟩

theorem isMatching_iff (hsub : ∀ l ∈ sel.links, l ∈ sel.schema.linkPairs) :
    sel.IsMatching ↔ (∀ l ∈ sel.links, Compatible sel l.1 l.2) ∧
      ∀ p < sel.schema.pointCount, ChecksOnce sel p := by
  have hlt : ∀ x y, (x, y) ∈ sel.links → x < sel.schema.pointCount ∧ y < sel.schema.pointCount :=
    fun x y h => (Schema.mem_linkPairs.1 (hsub _ h)).1
  constructor
  · intro hm
    refine ⟨fun ⟨x, y⟩ hl => ?_, fun p hp => ⟨⟨?_, hm.target_unique p⟩, ?_, fun x x' => hm.trigger_unique x x' p⟩⟩
    · obtain ⟨f, g, hf, hg, hck⟩ := Selection.checks_of_isCompatible (hm.compatible x y hl)
      exact ⟨f, g, ⟨(hlt x y hl).1, hf⟩, ⟨(hlt x y hl).2, hg⟩, hck⟩
    · exact fun ⟨f, hf, ht⟩ => hm.exists_target p f hf ht
    · exact fun ⟨f, hf, ht⟩ => hm.exists_trigger p f hf ht
  · rintro ⟨hcom, hck⟩
    refine ⟨fun x y hl => ?_, fun p f hf ht => (hck p hf.1).1.1 ⟨f, hf, ht⟩,
      fun p f hf ht => (hck p hf.1).2.1 ⟨f, hf, ht⟩, fun x y y' h => (hck x (hlt x y h).1).1.2 y y' h,
      fun x x' y h => (hck y (hlt x y h).2).2.2 x x' h⟩
    obtain ⟨f, g, hf, hg, hc⟩ := hcom _ hl
    exact Selection.isCompatible_of_checks hf.2 hg.2 hc

/-- The links offer every matching. -/
theorem offers_build (hmem : ∀ p f, sel.Carries p f → sel.schema.MayCarry p f) (hlex : lex.Describes v sel) :
    Offers v (build sel.schema lex) (fun L => (sel.withLinks L).IsMatching) fun L v' c =>
      Describes v' (sel.withLinks L) c := by
  have hsub : ∀ L, ∀ l ∈ (sel.withLinks L).links, l ∈ sel.schema.linkPairs :=
    fun L l hl => (Selection.mem_links_withLinks.1 hl).1
  have checked : ∀ L v' links, v ≤ v' → (∀ xy ∈ sel.schema.linkPairs, L xy → Compatible sel xy.1 xy.2) →
      List.Forall₂ (fun xy => IsLink v' xy (xy ∈ (sel.withLinks L).links)) sel.schema.linkPairs links →
      Spec v' ((sel.schema.pointIds.forM fun p =>
        checkOnce (lex.trigger p) ((ofLinks sel.schema links).partnersOf p) >>= fun _ =>
          checkOnce (lex.target p) ((ofLinks sel.schema links).checkersOf p)) >>= fun _ =>
        pure (ofLinks sel.schema links)) (∀ p ∈ sel.schema.pointIds, ChecksOnce (sel.withLinks L) p)
        fun v'' c => Describes v'' (sel.withLinks L) c := by
    intro L v' links hle _ hl
    have hd : Describes v' (sel.withLinks L) (ofLinks sel.schema links) := describes_ofLinks hl
    refine (Asserts.forM (fun _ => adds_bind (adds_checkOnce _ _) fun _ => adds_checkOnce _ _)
      fun p hp v'' hle' => ?_).bind_pure fun v'' _ hle' _ _ => hd.mono hle'
    have hlex' : lex.Describes v'' (sel.withLinks L) := (hlex.mono (Valuation.le_trans hle hle')).of_links _
    exact asserts_checksOnce (Schema.mem_pointIds.1 hp) hlex' (hd.mono hle') (hsub L)
  refine ((offers_links hmem hlex.features).bind_spec (fun _ => adds_bind (adds_forM (fun _ =>
    adds_bind (adds_checkOnce _ _) fun _ => adds_checkOnce _ _) _) fun _ => adds_pure _) checked).imp ?_ ?_
  · rintro L c ⟨hL, hp⟩ hd
    refine ⟨L, (isMatching_iff (hsub L)).2 ⟨fun l hl => ?_, fun p hlt => hp p (Schema.mem_pointIds.2 hlt)⟩, hd⟩
    obtain ⟨hl, hLl⟩ := Selection.mem_links_withLinks.1 hl
    exact hL l hl hLl
  · intro L hm
    obtain ⟨hcom, hck⟩ := (isMatching_iff (hsub L)).1 hm
    refine ⟨L, ⟨fun l hl hLl => hcom l (Selection.mem_links_withLinks.2 ⟨hl, hLl⟩), fun p hp =>
      hck p (Schema.mem_pointIds.1 hp)⟩, fun _ _ _ hd => hd⟩

end Matching

end Checking

end MinimalistGrammar
