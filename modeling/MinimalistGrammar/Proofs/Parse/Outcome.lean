import MinimalistGrammar.Parse.Report
import MinimalistGrammar.Proofs.Parse.Enumeration

/-!
What a parse reports, by the answers of its searches. Only the last search can find nothing or give no answer in time.
An enumeration looks at its limit before it searches, and ends without a search only after it has found something.
-/

namespace MinimalistGrammar

open MinimalistGrammar.Sat

variable {ε : Type} [Engine ε] {e₀ : ε} {g : Grammar} {c : Condition} {p : Problem} {answers : List Outcome}
  {ms : List Model} {m m' : Model} {limit : Option Nat} {session : Session ε} {ps₀ ps ps' rest : Parses ε} {d : Derivation}
  {o : ParseOutcome} {n : Nat}

namespace Sat

namespace Enumeration

variable {e e' : Enumeration ε}

/-- What the search answers that the next call makes. -/
def answer? (e : Enumeration ε) : Option Outcome :=
  if e.termination.isSome ∨ e.remaining = some 0 ∨ e.released = true then none else e.session.solve.1.toOption

structure IsOpen (e : Enumeration ε) : Prop where
  termination : e.termination = none
  released : e.released = false

theorem accept_eq_ok (h : accept m e = (.ok m', e')) :
    m' = m ∧ e'.termination = e.termination ∧ e'.released = e.released := by
  rw [accept] at h
  split at h
  · cases h
    exact ⟨rfl, rfl, rfl⟩
  · cases h

theorem IsOpen.of_next_eq_ok (h : e.IsOpen) (hnext : e.next = (some (.ok m), e')) :
    e.answer? = some (.sat m) ∧ e'.IsOpen := by
  rw [Enumeration.next, if_neg (by simp [h.termination])] at hnext
  by_cases hr : e.remaining = some 0
  · rw [if_pos hr] at hnext
    cases hnext
  · rw [if_neg hr, if_neg (by simp [h.released])] at hnext
    rw [answer?, if_neg (by simp [h.termination, h.released, hr])]
    generalize e.session.solve = answer at hnext ⊢
    obtain ⟨_ | o, s⟩ := answer
    · cases hnext
    · cases o with
      | sat m' =>
        obtain ⟨hm, he⟩ := Prod.mk.inj hnext
        obtain ⟨rfl, ht, hrel⟩ := accept_eq_ok (Prod.ext (Option.some.inj hm) he)
        exact ⟨rfl, ht.trans h.termination, hrel.trans h.released⟩
      | unsat => cases hnext
      | timeout => cases hnext

end Enumeration

end Sat

theorem Problem.solutionOf_sat_eq_ok {s : Solution} :
    p.solutionOf (.sat m) = .ok s ↔ ∃ d, p.extract m.assignment = .ok d ∧ s = .found d := by
  rw [solutionOf, Fallible.mapError_ok_iff]
  cases p.extract m.assignment with
  | ok d => simp [Except.map, eq_comm]
  | error e => simp [Except.map]

namespace ParseOutcome

/-- An outcome says of the answers what they are. -/
structure Follows (answers : List Outcome) (o : ParseOutcome) : Prop where
  isUnsatisfiable_iff : o.isUnsatisfiable = true ↔ answers.head? = some .unsat
  timedOut_iff : o.timedOut = true ↔ .timeout ∈ answers
  exists_of_limitReached : o.termination = .limitReached → o.derivations ≠ []
  label_eq_sat_iff : o.label = "SAT" ↔ o.derivations ≠ []
  label_eq_unsat_iff : o.label = "UNSAT" ↔ o.isUnsatisfiable = true
  label_eq_timeout_iff : o.label = "TIMEOUT" ↔ o.derivations = [] ∧ .timeout ∈ answers

end ParseOutcome

namespace Parses

/-- The looks at an enumeration that have each come to a model, with the answers of the searches that they made. -/
inductive Looks (ps₀ : Parses ε) : List Outcome → Parses ε → Prop
  | start : Looks ps₀ [] ps₀
  | look {answers : List Outcome} {ps ps' rest : Parses ε} (h : Looks ps₀ answers ps)
      (hstep : ps.step = (some (.ok ps'), rest)) : Looks ps₀ (answers ++ ps.enumeration.answer?.toList) ps'

theorem step_eq_ok (h : ps.step = (some (.ok ps'), rest)) : ∃ m d enum, ps.enumeration.next = (some (.ok m), enum) ∧
    ps.problem.extract m.assignment = .ok d ∧ ps' = Parses.add d { ps with enumeration := enum } := by
  rw [Parses.step] at h
  generalize ps.enumeration.next = x at h
  obtain ⟨_ | _ | m, enum⟩ := x
  · cases h
  · cases h
  · dsimp only at h
    split at h
    · rename_i d hd
      cases h
      exact ⟨m, d, enum, rfl, hd, rfl⟩
    · cases h

theorem step_eq_none (h : ps.step = (none, ps')) :
    ∃ enum, ps.enumeration.next = (none, enum) ∧ ps' = { ps with enumeration := enum } := by
  rw [Parses.step] at h
  generalize ps.enumeration.next = x at h
  obtain ⟨_ | _ | m, enum⟩ := x
  · cases h
    exact ⟨enum, rfl, rfl⟩
  · cases h
  · dsimp only at h
    split at h <;> cases h

omit [Engine ε] in
theorem found_add_ne_nil (d : Derivation) (ps : Parses ε) : (ps.add d).found ≠ [] := by
  rw [Parses.add]
  split
  · rename_i h
    exact List.ne_nil_of_mem (List.mem_map.1 h).choose_spec.1
  · simp

omit [Engine ε] in
theorem add_congr {P : Enumeration ε → Prop} (h : P ps.enumeration) (hr : P ps.enumeration.refund) (d : Derivation) :
    P (ps.add d).enumeration := by
  rw [Parses.add]
  split
  · exact hr
  · exact h

theorem Looks.exists_models (h : (ofSession p session limit).Looks answers ps) : ∃ ms, answers = ms.map .sat ∧
    ps.enumeration.IsOpen ∧ (ps.found = [] ↔ ms = []) ∧ (ms = [] → ps.enumeration.remaining = limit) := by
  induction h with
  | start => exact ⟨[], rfl, ⟨rfl, rfl⟩, by simp [ofSession], fun _ => rfl⟩
  | look h hstep ih =>
    obtain ⟨ms, rfl, hopen, _, _⟩ := ih
    obtain ⟨m, d, enum, hnext, _, rfl⟩ := step_eq_ok hstep
    obtain ⟨ha, hopen'⟩ := hopen.of_next_eq_ok hnext
    refine ⟨ms ++ [m], by simp [ha], add_congr hopen' ⟨hopen'.termination, hopen'.released⟩ d, ?_, by simp⟩
    simp [found_add_ne_nil]

theorem Looks.answer_eq (h : (ofSession p session limit).Looks answers ps) (hstep : ps.step = (some (.ok ps'), rest)) :
    ∃ m, ps.enumeration.answer? = some (.sat m) := by
  obtain ⟨_, _, hopen, _⟩ := h.exists_models
  obtain ⟨m, _, _, hnext, _⟩ := step_eq_ok hstep
  exact ⟨m, (hopen.of_next_eq_ok hnext).1⟩

/-- With an engine that answers, the looks come to the models of an enumeration. -/
theorem Looks.hasYielded {timeout : Option Nat} (h : Engine.Answers e₀) (hf : p.formula.IsClosed)
    (hv : ∀ l ∈ p.encoding.projection, l.var < p.formula.numVars)
    (hl : (ofSession p (Session.ofFormula p.formula timeout e₀) limit).Looks answers ps) :
    ∃ ms, answers = ms.map .sat ∧ Enumeration.HasYielded e₀ p.formula p.encoding.projection ms ps.enumeration := by
  induction hl with
  | start => exact ⟨[], rfl, Enumeration.hasYielded_ofSession h _ _ _ _⟩
  | look hl hstep ih =>
    obtain ⟨ms, rfl, hy⟩ := ih
    obtain ⟨m, d, enum, hnext, _, rfl⟩ := step_eq_ok hstep
    rcases hy.next h hf hv with ⟨e, he, _⟩ | ⟨_, m', e, he, _, hy'⟩
    · cases hnext.symm.trans he
    · cases hnext.symm.trans he
      obtain ⟨hsat, _⟩ := Enumeration.IsOpen.of_next_eq_ok ⟨hy.termination, hy.released⟩ hnext
      exact ⟨ms ++ [m], by simp [hsat], add_congr hy' hy'.refund d⟩

theorem Looks.run (h : (ofSession p session limit).Looks answers ps) (n : Nat) :
    (ofSession p session limit).run (answers.length + n) = ps.run n := by
  induction h generalizing n with
  | start => rw [List.length_nil, Nat.zero_add]
  | look h hstep ih =>
    obtain ⟨m, ha⟩ := h.answer_eq hstep
    rw [ha, Option.toList_some, List.length_append, List.length_singleton, Nat.add_assoc, ih, Nat.add_comm 1 n,
      Parses.run, hstep]

end Parses

namespace Grammar

variable {start : Formula → Option Nat → Session ε}

/-- The enumeration of all parses. -/
def parses (start : Formula → Option Nat → Session ε) (g : Grammar) (p : Problem) : Parses ε :=
  .ofSession p (start p.formula p.timeout) (some g.options.maxParses)

/-- The parse comes to the outcome, with these answers of its searches. -/
inductive Returns (start : Formula → Option Nat → Session ε) (g : Grammar) (c : Condition) :
    List Outcome → ParseOutcome → Prop
  | one {p : Problem} {answer : Outcome} {s : Solution} (hg : g.options.allParses = false) (hp : g.prepare c = .ok p)
      (ha : (start p.formula p.timeout).solve.1 = .ok answer) (hs : p.solutionOf answer = .ok s) :
      Returns start g c [answer] (.ofSolution s)
  | all {p : Problem} {answers : List Outcome} {ps ps' : Parses ε} (hg : g.options.allParses = true)
      (hp : g.prepare c = .ok p) (h : (g.parses start p).Looks answers ps) (hend : ps.step = (none, ps')) :
      Returns start g c (answers ++ ps.enumeration.answer?.toList)
        ⟨ps'.found, ps'.enumeration.termination.getD .exhausted⟩

/-- If all parses are wanted, what a search finds is a model of the formula and of what has been blocked. -/
def FindsModels (start : Formula → Option Nat → Session ε) (g : Grammar) (c : Condition) : Prop :=
  g.options.allParses = true → ∀ p answers ps m, g.prepare c = .ok p → (g.parses start p).Looks answers ps →
    ps.enumeration.answer? = some (.sat m) → p.formula.Holds m.assignment ∧
      ∀ m', .sat m' ∈ answers → (blockingClause p.encoding.projection m').Holds m.assignment

theorem FindsModels.exists_models (hm : g.FindsModels start c) (hg : g.options.allParses = true) (hp : g.prepare c = .ok p)
    (h : (g.parses start p).Looks answers ps) : ∃ ms, answers = ms.map .sat ∧ (∀ m ∈ ms, p.formula.Holds m.assignment) ∧
      (foundOn p.encoding.projection ms).Nodup := by
  induction h with
  | start => exact ⟨[], rfl, by simp, .nil⟩
  | look h hstep ih =>
    obtain ⟨ms, rfl, hholds, hnodup⟩ := ih
    obtain ⟨m, ha⟩ := h.answer_eq hstep
    obtain ⟨hnew, hblocked⟩ := hm hg _ _ _ _ hp h ha
    refine ⟨ms ++ [m], by simp [ha], fun m' hm' => ?_, ?_⟩
    · rcases List.mem_append.1 hm' with hm' | hm'
      · exact hholds m' hm'
      · exact List.mem_singleton.1 hm' ▸ hnew
    · refine nodup_foundOn_append.2 ⟨fun hold => ?_, hnodup⟩
      obtain ⟨m', hm', he⟩ := List.mem_map.1 hold
      exact holds_blockingClause_iff.1 (hblocked m' (List.mem_map_of_mem hm')) he.symm

theorem FindsModels.length_le (hm : g.FindsModels start c) (hg : g.options.allParses = true) (hp : g.prepare c = .ok p)
    (h : (g.parses start p).Looks answers ps) : answers.length ≤ 2 ^ p.encoding.projection.length := by
  obtain ⟨ms, rfl, hholds, hnodup⟩ := hm.exists_models hg hp h
  rw [List.length_map]
  exact Nat.le_trans (Formula.length_le_ncard_projections hholds hnodup) (p.formula.ncard_projections_le _)

theorem parseWith_eq_ok : g.parseWith start c = .ok o ↔ ∃ p, g.prepare c = .ok p ∧
    if g.options.allParses then ∃ ps, (g.parses start p).runAll = .ok ps ∧
      o = ⟨ps.found, ps.enumeration.termination.getD .exhausted⟩
    else ∃ s, p.solveIn (start p.formula p.timeout) = .ok s ∧ o = .ofSolution s := by
  rw [parseWith, Fallible.bind_eq_ok]
  refine exists_congr fun p => and_congr_right fun _ => ?_
  split
  · rw [Fallible.bind_eq_ok]
    exact exists_congr fun ps => and_congr_right fun _ => ⟨fun h => by cases h; rfl, fun h => h ▸ rfl⟩
  · rw [Fallible.bind_eq_ok]
    exact exists_congr fun s => and_congr_right fun _ => ⟨fun h => by cases h; rfl, fun h => h ▸ rfl⟩

theorem exists_parseWith_of_holds (h : Engine.Answers e₀) (hg : g.locality.OnlyAdds) (hs : g.locality.IsScoped)
    (hone : g.options.allParses = false) (hp : g.prepare c = .ok p) {a : Assignment} (ha : p.formula.Holds a) :
    ∃ d, g.parseWith (fun f timeout => Session.ofFormula f timeout e₀) c = .ok (.ofSolution (.found d)) := by
  have hprepared := isPrepared_of_prepare hp
  obtain ⟨hproper, _⟩ := hprepared.scoped hs
  obtain ⟨_, _, _, ⟨m, hsolve, hm⟩ | ⟨_, hnone⟩⟩ := (Session.isReady_ofFormula h p.formula p.timeout).solve h hproper.closed
  · obtain ⟨d, hd⟩ := hprepared.exists_extract hg fun c hc => hm c (Array.mem_toList_iff.2 hc)
    refine ⟨d, parseWith_eq_ok.2 ⟨p, hp, ?_⟩⟩
    rw [if_neg (by simp [hone])]
    exact ⟨_, Fallible.bind_eq_ok.2 ⟨_, by rw [hsolve]; rfl, Problem.solutionOf_sat_eq_ok.2 ⟨d, hd, rfl⟩⟩, rfl⟩
  · exact absurd (fun c hc => ha c (Array.mem_toList_iff.1 hc)) (hnone a)

def tableSession (f : Formula) (timeout : Option Nat) : Session Table := .ofFormula f timeout ⟨[]⟩

end Grammar

end MinimalistGrammar
