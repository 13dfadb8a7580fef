import MinimalistGrammar.Proofs.Sat.Session
import MinimalistGrammar.Sat.Enumeration
import Mathlib.Data.List.Sections
import Mathlib.Data.Set.Card
import Mathlib.Data.Set.Finite.List
import Mathlib.SetTheory.Cardinal.NatCard

/-!
An enumeration comes to each projection once. After a model the blocking clause rules out its projection and no other,
so that what is left to be found are just the models whose projections have not come yet.
-/

namespace MinimalistGrammar.Sat

/-- The values of the literals of a projection. -/
def projected (projection : List Literal) (a : Assignment) : List Bool := projection.map (·.value a)

/-- The projections of models, in the order in which they came. -/
def foundOn (projection : List Literal) (ms : List Model) : List (List Bool) :=
  ms.map fun m => projected projection m.assignment

/-- What the models of a formula come to under a projection. -/
def Formula.projections (f : Formula) (projection : List Literal) : Set (List Bool) :=
  {p | ∃ a, f.Holds a ∧ projected projection a = p}

/-- All clauses of a formula are over its variables. -/
def Formula.IsClosed (f : Formula) : Prop := Clause.Within f.numVars f.clauses.toList

theorem Formula.finite_projections (f : Formula) (projection : List Literal) : (f.projections projection).Finite := by
  refine (List.finite_length_eq Bool projection.length).subset ?_
  rintro p ⟨a, _, rfl⟩
  exact List.length_map _

theorem Formula.ncard_projections_le (f : Formula) (projection : List Literal) :
    (f.projections projection).ncard ≤ 2 ^ projection.length := by
  have hsub : f.projections projection ⊆ Set.range (List.ofFn : (Fin projection.length → Bool) → List Bool) := by
    rintro _ ⟨a, _, rfl⟩
    exact ⟨fun i => projection[i].value a, List.ext_getElem (by simp [projected]) (by simp [projected])⟩
  calc (f.projections projection).ncard
    _ ≤ (Set.range (List.ofFn : (Fin projection.length → Bool) → List Bool)).ncard :=
      Set.ncard_le_ncard hsub (Set.finite_range _)
    _ ≤ Nat.card (Fin projection.length → Bool) := Finite.card_range_le _
    _ = 2 ^ projection.length := by simp

theorem foundOn_subset {f : Formula} {projection : List Literal} {ms : List Model} (h : ∀ m ∈ ms, f.Holds m.assignment) :
    ((foundOn projection ms).toFinset : Set (List Bool)) ⊆ f.projections projection := by
  intro p hp
  obtain ⟨m, hm, rfl⟩ := List.mem_map.1 (List.mem_toFinset.1 hp)
  exact ⟨m.assignment, h m hm, rfl⟩

theorem ncard_foundOn {projection : List Literal} {ms : List Model} (h : (foundOn projection ms).Nodup) :
    ((foundOn projection ms).toFinset : Set (List Bool)).ncard = ms.length := by
  rw [Set.ncard_coe_finset, List.toFinset_card_of_nodup h, foundOn, List.length_map]

theorem nodup_foundOn_append {projection : List Literal} {ms : List Model} {m : Model} :
    (foundOn projection (ms ++ [m])).Nodup ↔
      projected projection m.assignment ∉ foundOn projection ms ∧ (foundOn projection ms).Nodup := by
  rw [← List.nodup_concat, List.concat_eq_append]
  simp only [foundOn, List.map_append, List.map_singleton]

theorem Formula.length_le_ncard_projections {f : Formula} {projection : List Literal} {ms : List Model}
    (h : ∀ m ∈ ms, f.Holds m.assignment) (hn : (foundOn projection ms).Nodup) :
    ms.length ≤ (f.projections projection).ncard :=
  ncard_foundOn hn ▸ Set.ncard_le_ncard (foundOn_subset h) (f.finite_projections projection)

/-- Blocking the projection of a model rules out that projection and no other. -/
theorem holds_blockingClause_iff {projection : List Literal} {m : Model} {a : Assignment} :
    (blockingClause projection m).Holds a ↔ projected projection a ≠ projected projection m.assignment := by
  have hliteral : ∀ l : Literal, ((if m.value l then -l else l).value a = true) ↔ l.value a ≠ l.value m.assignment := by
    intro l
    rw [Model.value]
    cases h : l.value m.assignment <;> simp
  rw [blockingClause, projected, projected, ne_eq, List.map_inj_left]
  simp only [Clause.Holds, List.mem_map, exists_exists_and_eq_and, hliteral]
  push Not
  rfl

namespace Enumeration

variable {ε : Type} [Engine ε] {e₀ : ε} {e e' : Enumeration ε} {f : Formula} {projection : List Literal}
  {ms : List Model} {m : Model}

/-- Asked again and again, the enumeration comes to these models, and then to nothing. -/
inductive Yields : Enumeration ε → List Model → Enumeration ε → Prop
  | ends {e e' : Enumeration ε} (h : e.next = (none, e')) : Yields e [] e'
  | comes {e e' e'' : Enumeration ε} {m : Model} {ms : List Model} (h : e.next = (some (.ok m), e'))
      (hs : Yields e' ms e'') : Yields e (m :: ms) e''

/-- The enumeration has come to the models `ms` and goes on. -/
structure HasYielded (e₀ : ε) (f : Formula) (projection : List Literal) (ms : List Model) (e : Enumeration ε) : Prop where
  termination : e.termination = none
  released : e.released = false
  projection_eq : e.projection = projection
  numVars : e.session.numVars = f.numVars
  isReady : e.session.IsReady e₀ (f.clauses.toList ++ ms.map (blockingClause projection))
  /-- The models found so far are models of the formula, each with a projection of its own. -/
  holds : ∀ m ∈ ms, f.Holds m.assignment
  nodup : (foundOn projection ms).Nodup

theorem hasYielded_ofSession (h : Engine.Answers e₀) (f : Formula) (timeout : Option Nat) (projection : List Literal)
    (limit : Option Nat) : HasYielded e₀ f projection [] (ofSession (Session.ofFormula f timeout e₀) projection limit) where
  termination := rfl
  released := rfl
  projection_eq := rfl
  numVars := rfl
  isReady := by
    rw [List.map_nil, List.append_nil]
    exact Session.isReady_ofFormula h f timeout
  holds := by simp
  nodup := .nil

theorem forall_holds_iff {a : Assignment} :
    (∀ c ∈ f.clauses.toList ++ ms.map (blockingClause projection), c.Holds a) ↔
      f.Holds a ∧ projected projection a ∉ foundOn projection ms := by
  simp only [foundOn, List.mem_append, or_imp, forall_and, Array.mem_toList_iff, List.mem_map, forall_exists_index, and_imp,
    forall_apply_eq_imp_iff₂, holds_blockingClause_iff, not_exists, not_and]
  exact and_congr_right fun _ => forall₂_congr fun _ _ => ne_comm

theorem within_append (hf : f.IsClosed) (hp : ∀ l ∈ projection, l.var < f.numVars) (ms : List Model) :
    Clause.Within f.numVars (f.clauses.toList ++ ms.map (blockingClause projection)) := by
  intro c hc l hl
  rcases List.mem_append.1 hc with hc | hc
  · exact hf c hc l hl
  · obtain ⟨m, _, rfl⟩ := List.mem_map.1 hc
    obtain ⟨k, hk, rfl⟩ := List.mem_map.1 hl
    have hvar : (if m.value k then -k else k).var = k.var := by split <;> rfl
    exact hvar ▸ hp k hk

/-- How an enumeration ends that could still come to `remaining` models, when it has come to `n` of them and to all
of `ms` in the end. -/
def EndsAfter (f : Formula) (projection : List Literal) (remaining : Option Nat) (n : Nat) (ms : List Model)
    (e : Enumeration ε) : Prop :=
  (remaining = some n ∧ e.termination = some .limitReached) ∨
    ((∀ k, remaining = some k → n < k) ∧ e.termination = some .exhausted ∧
      ∀ a, f.Holds a → projected projection a ∈ foundOn projection ms)

omit [Engine ε] in
theorem EndsAfter.succ {remaining : Option Nat} {n : Nat} (hr : remaining ≠ some 0)
    (h : EndsAfter f projection (remaining.map (· - 1)) n ms e) : EndsAfter f projection remaining (n + 1) ms e := by
  cases remaining with
  | none => exact h.imp (fun h => by cases h.1) fun h => ⟨fun k hk => (by cases hk), h.2⟩
  | some k =>
    have hk : k ≠ 0 := fun hk => hr (congrArg some hk)
    rcases h with ⟨hn, ht⟩ | ⟨hn, ht⟩
    · have hn : k - 1 = n := Option.some.inj hn
      exact .inl ⟨congrArg some (by omega), ht⟩
    · refine .inr ⟨fun i hi => ?_, ht⟩
      have hlt := hn (k - 1) rfl
      cases hi
      omega

/-- One more call brings a model with a new projection, or the end. -/
theorem HasYielded.next (h : Engine.Answers e₀) (hf : f.IsClosed) (hp : ∀ l ∈ projection, l.var < f.numVars)
    (hs : HasYielded e₀ f projection ms e) :
    (∃ e', e.next = (none, e') ∧ EndsAfter f projection e.remaining 0 ms e') ∨
      (e.remaining ≠ some 0 ∧ ∃ m e', e.next = (some (.ok m), e') ∧ e'.remaining = e.remaining.map (· - 1) ∧
        HasYielded e₀ f projection (ms ++ [m]) e') := by
  rw [Enumeration.next, if_neg (by simp [hs.termination])]
  by_cases hr : e.remaining = some 0
  · rw [if_pos hr]
    exact .inl ⟨_, rfl, .inl ⟨hr, rfl⟩⟩
  · rw [if_neg hr, if_neg (by simp [hs.released])]
    obtain ⟨s, hvars, hready, ⟨m, hsolve, hm⟩ | ⟨hsolve, hnone⟩⟩ := hs.isReady.solve h
      (hs.numVars ▸ within_append hf hp ms)
    · obtain ⟨hholds, hnew⟩ := forall_holds_iff.1 hm
      obtain ⟨s', hblock, hvars', hready'⟩ := hready.block (blockingClause projection m)
      refine .inr ⟨hr, m, { e with session := s', remaining := e.remaining.map (· - 1) }, ?_, rfl, ?_⟩
      · rw [hsolve]
        simp only [accept, hs.projection_eq, hblock]
        rfl
      · refine ⟨hs.termination, hs.released, hs.projection_eq, hvars'.trans (hvars.trans hs.numVars), ?_, ?_, ?_⟩
        · rw [List.map_append, ← List.append_assoc]
          exact hready'
        · intro m' hm'
          rcases List.mem_append.1 hm' with hm' | hm'
          · exact hs.holds m' hm'
          · exact List.mem_singleton.1 hm' ▸ hholds
        · exact nodup_foundOn_append.2 ⟨hnew, hs.nodup⟩
    · refine .inl ⟨finish .exhausted { e with session := s }, ?_, .inr ⟨fun k hk => ?_, rfl, fun a ha => ?_⟩⟩
      · rw [hsolve]
      · exact Nat.pos_of_ne_zero fun hz => hr (hk.trans (congrArg some hz))
      · by_contra hnot
        exact hnone a (forall_holds_iff.2 ⟨ha, hnot⟩)

theorem HasYielded.refund (hs : HasYielded e₀ f projection ms e) : HasYielded e₀ f projection ms e.refund :=
  ⟨hs.termination, hs.released, hs.projection_eq, hs.numVars, hs.isReady, hs.holds, hs.nodup⟩

theorem HasYielded.length_le (hs : HasYielded e₀ f projection ms e) : ms.length ≤ (f.projections projection).ncard :=
  f.length_le_ncard_projections hs.holds hs.nodup

theorem HasYielded.length_eq (hs : HasYielded e₀ f projection ms e)
    (hall : ∀ a, f.Holds a → projected projection a ∈ foundOn projection ms) :
    ms.length = (f.projections projection).ncard := by
  have heq : ((foundOn projection ms).toFinset : Set (List Bool)) = f.projections projection := by
    refine Set.Subset.antisymm (foundOn_subset hs.holds) ?_
    rintro p ⟨a, ha, rfl⟩
    exact List.mem_toFinset.2 (hall a ha)
  rw [← heq, ncard_foundOn hs.nodup]

/-- From there on, the enumeration comes to some more models and to an end. There are only so many projections left. -/
theorem HasYielded.exists_yields (h : Engine.Answers e₀) (hf : f.IsClosed) (hp : ∀ l ∈ projection, l.var < f.numVars)
    (hs : HasYielded e₀ f projection ms e) : ∃ ms' e' e'', Yields e ms' e'' ∧ HasYielded e₀ f projection (ms ++ ms') e' ∧
      EndsAfter f projection e.remaining ms'.length (ms ++ ms') e'' := by
  -- by the number of projections that have not come yet
  generalize hn : (f.projections projection).ncard - ms.length = n
  induction n generalizing ms e with
  | zero =>
    rcases hs.next h hf hp with ⟨e', hnext, hend⟩ | ⟨_, m, e', hnext, _, hs'⟩
    · exact ⟨[], e, e', .ends hnext, by rwa [List.append_nil], by rwa [List.append_nil]⟩
    · have hle := hs'.length_le
      rw [List.length_append, List.length_singleton] at hle
      omega
  | succ n ih =>
    rcases hs.next h hf hp with ⟨e', hnext, hend⟩ | ⟨hr, m, e', hnext, hremaining, hs'⟩
    · exact ⟨[], e, e', .ends hnext, by rwa [List.append_nil], by rwa [List.append_nil]⟩
    · obtain ⟨ms', e₁, e₂, hyields, hlast, hend⟩ := ih hs' (by rw [List.length_append, List.length_singleton]; omega)
      rw [List.append_assoc] at hlast hend
      rw [hremaining] at hend
      exact ⟨m :: ms', e₁, e₂, .comes hnext hyields, hlast, hend.succ hr⟩

/-- With an engine that answers, an enumeration comes to models of the formula that differ on the projection. Without
a limit it comes to every projection, and ends because there are no more. With a limit it comes to that many, or to
one for each projection if these are fewer. -/
theorem exists_yields_projections (h : Engine.Answers e₀) (hf : f.IsClosed) (hp : ∀ l ∈ projection, l.var < f.numVars)
    (timeout limit : Option Nat) : ∃ ms e', (ofSession (Session.ofFormula f timeout e₀) projection limit).Yields ms e' ∧
      (∀ m ∈ ms, f.Holds m.assignment) ∧ (foundOn projection ms).Nodup ∧ e'.next = (none, e') ∧
        (limit = none → (∀ a, f.Holds a → projected projection a ∈ foundOn projection ms) ∧
          e'.termination = some .exhausted) ∧
        ∀ k, limit = some k → ms.length = min k (f.projections projection).ncard ∧
          e'.termination = some (if k ≤ (f.projections projection).ncard then .limitReached else .exhausted) := by
  obtain ⟨ms, e, e', hyields, hs, hend⟩ := (hasYielded_ofSession h f timeout projection limit).exists_yields h hf hp
  rw [List.nil_append] at hs hend
  have hnext : ∀ t, e'.termination = some t → e'.next = (none, e') := by
    intro t ht
    rw [Enumeration.next, ht]
    rfl
  have hle := hs.length_le
  rcases hend with ⟨hr, ht⟩ | ⟨hr, ht, hall⟩
  · obtain rfl : limit = some ms.length := hr
    refine ⟨ms, e', hyields, hs.holds, hs.nodup, hnext _ ht, fun hk => (by cases hk), fun k hk => ?_⟩
    cases hk
    exact ⟨(min_eq_left hle).symm, by rw [if_pos hle, ht]⟩
  · refine ⟨ms, e', hyields, hs.holds, hs.nodup, hnext _ ht, fun _ => ⟨hall, ht⟩, fun k hk => ?_⟩
    have hlt : ms.length < k := hr k hk
    rw [← hs.length_eq hall, if_neg (Nat.not_le.2 hlt)]
    exact ⟨(min_eq_right (Nat.le_of_lt hlt)).symm, ht⟩

end Enumeration

/-- An engine that goes through a table of all values. -/
structure Table where
  clauses : List Clause

namespace Table

/-- The models over the first `n` variables. -/
def models (n : Nat) : List Model := (List.replicate n [false, true]).sections.map fun values => ⟨values.toArray⟩

instance : Engine Table where
  addClause c t := (.ok (), ⟨t.clauses ++ [c]⟩)
  solve n t := match (models n).find? fun m => ∀ c ∈ t.clauses, c.Holds m.assignment with
    | some m => (.reply (.ok (.sat m)), t)
    | none => (.reply (.ok .unsat), t)

theorem clauses_of_takes {cs : List Clause} {t : Table} (h : Engine.Takes ⟨[]⟩ cs t) : t.clauses = cs := by
  induction h with
  | start => rfl
  | clause c _ ih => exact congrArg (· ++ [c]) ih
  | @search cs t n _ ih =>
    rw [← ih]
    show (Engine.solve n t).2.clauses = t.clauses
    simp only [Engine.solve]
    split <;> rfl

theorem exists_mem_models (n : Nat) (a : Assignment) : ∃ m ∈ models n, ∀ i < n, m.assignment i = a i := by
  refine ⟨⟨((List.range n).map a).toArray⟩, List.mem_map_of_mem (List.mem_sections.2 ?_), fun i hi => ?_⟩
  · rw [List.forall₂_iff_get]
    refine ⟨by simp, fun i h₁ h₂ => ?_⟩
    cases h : a i <;> simp [h]
  · simp [Model.assignment, hi]

theorem answers : Engine.Answers (⟨[]⟩ : Table) where
  addClause _ _ _ _ := rfl
  solve cs t n ht hw := by
    obtain rfl := clauses_of_takes ht
    simp only [Engine.solve]
    split
    · rename_i m hm
      have hholds : ∀ c ∈ t.clauses, c.Holds m.assignment := by simpa using List.find?_some hm
      exact hholds
    · rename_i hnone
      intro a ha
      obtain ⟨m, hm, hagree⟩ := exists_mem_models n a
      refine of_decide_eq_false (Bool.eq_false_iff.2 (List.find?_eq_none.1 hnone m hm)) fun c hc => ?_
      obtain ⟨l, hl, hv⟩ := ha c hc
      exact ⟨l, hl, by rwa [Literal.value, hagree _ (hw c hc l hl)]⟩

end Table

namespace Enumeration

/-- One of two variables is true. -/
def oneOfTwo : Formula := ⟨3, #[[.top], [⟨1, false⟩, ⟨2, false⟩]]⟩

/-- Projected on the first variable and its negation, the three models come to two. -/
theorem exists_yields_oneOfTwo : Engine.Answers (⟨[]⟩ : Table) ∧ oneOfTwo.IsClosed ∧
    (∀ l ∈ [(⟨1, false⟩ : Literal), ⟨1, true⟩], l.var < oneOfTwo.numVars) ∧ ∃ ms e',
      (ofSession (Session.ofFormula oneOfTwo none (⟨[]⟩ : Table)) [⟨1, false⟩, ⟨1, true⟩] (some 3)).Yields ms e' ∧
        (∀ m ∈ ms, oneOfTwo.Holds m.assignment) ∧ (foundOn [⟨1, false⟩, ⟨1, true⟩] ms).Nodup ∧
          ms.length = 2 ∧ e'.termination = some .exhausted := by
  have hclosed : ∀ c ∈ oneOfTwo.clauses.toList, ∀ l ∈ c, l.var < 3 := by decide
  have hvars : ∀ l ∈ [(⟨1, false⟩ : Literal), ⟨1, true⟩], l.var < oneOfTwo.numVars := by decide
  have hcount : (oneOfTwo.projections [⟨1, false⟩, ⟨1, true⟩]).ncard = 2 := by
    have heq : oneOfTwo.projections [⟨1, false⟩, ⟨1, true⟩] = {[true, false], [false, true]} := by
      ext p
      constructor
      · rintro ⟨a, _, rfl⟩
        cases h : a 1 <;> simp [projected, Literal.value, h]
      · rintro (rfl | rfl)
        · exact ⟨(· ∈ [0, 1]), by decide, by decide⟩
        · exact ⟨(· ∈ [0, 2]), by decide, by decide⟩
    rw [heq, Set.ncard_pair (by decide)]
  obtain ⟨ms, e', hyields, hholds, hnodup, _, _, hlimit⟩ := exists_yields_projections Table.answers hclosed hvars none (some 3)
  obtain ⟨hlength, hend⟩ := hlimit 3 rfl
  rw [hcount] at hlength hend
  exact ⟨Table.answers, hclosed, hvars, ms, e', hyields, hholds, hnodup, hlength, hend⟩

end Enumeration

end MinimalistGrammar.Sat
