import MinimalistGrammar.Proofs.Parse.Outcome
import MinimalistGrammar.Proofs.Parse.Validity
import MinimalistGrammar.Proofs.Selection.Predication

/-!
The thematic relations of a logical form, as what a derivation says. Whatever the engine answers, a derivation is returned
only after it has been extracted, and what is extracted says all that the logical form asks for.
-/

namespace MinimalistGrammar

open MinimalistGrammar.Sat

variable {ε : Type} [Engine ε] {e₀ : ε} {g : Grammar} {c : Condition} {p : Problem} {a : Assignment} {d : Derivation}
  {form : LogicalForm} {o : ParseOutcome} {name : String} {role : Role} {words : Phrase}

namespace Parses

variable {ps ps' rest : Parses ε} {session : Session ε} {limit : Option Nat} {n : Nat}

omit [Engine ε] in
/-- All that has been found has been extracted from what is parsed. -/
structure Extracts (p : Problem) (ps : Parses ε) : Prop where
  problem : ps.problem = p
  found : ∀ d ∈ ps.found, ∃ a, p.extract a = .ok d

omit [Engine ε] in
theorem Extracts.add (h : ps.Extracts p) (hd : p.extract a = .ok d) : (ps.add d).Extracts p := by
  rw [Parses.add]
  split
  · exact ⟨h.problem, h.found⟩
  · refine ⟨h.problem, fun d' hd' => ?_⟩
    rcases List.mem_append.1 hd' with hd' | hd'
    · exact h.found d' hd'
    · exact ⟨a, List.mem_singleton.1 hd' ▸ hd⟩

theorem Extracts.step (h : ps.Extracts p) (hstep : ps.step = (some (.ok ps'), rest)) : ps'.Extracts p := by
  obtain ⟨m, d, enum, _, hd, rfl⟩ := step_eq_ok hstep
  exact Extracts.add ⟨h.problem, h.found⟩ (h.problem ▸ hd)

theorem Extracts.run (h : ps.Extracts p) (hrun : ps.run n = .ok ps') : ps'.Extracts p := by
  induction n generalizing ps with
  | zero =>
    cases hrun
    exact h
  | succ n ih =>
    rw [Parses.run] at hrun
    split at hrun
    · rename_i hstep
      cases hrun
      obtain ⟨enum, _, rfl⟩ := step_eq_none hstep
      exact ⟨h.problem, h.found⟩
    · rename_i hstep
      exact ih (h.step hstep) hrun
    · cases hrun

omit [Engine ε] in
theorem extracts_ofSession (p : Problem) (session : Session ε) (limit : Option Nat) : (ofSession p session limit).Extracts p :=
  ⟨rfl, fun _ hd => by cases hd⟩

end Parses

namespace Grammar

variable {start : Formula → Option Nat → Session ε}

theorem exists_extract_of_parseWith (ho : g.parseWith start c = .ok o) (hd : d ∈ o.derivations) :
    ∃ p a, g.prepare c = .ok p ∧ p.extract a = .ok d := by
  obtain ⟨p, hp, h⟩ := parseWith_eq_ok.1 ho
  split at h
  · obtain ⟨ps, hrun, rfl⟩ := h
    obtain ⟨a, ha⟩ := ((Parses.extracts_ofSession p _ _).run hrun).found d hd
    exact ⟨p, a, hp, ha⟩
  · obtain ⟨s, hs, rfl⟩ := h
    obtain ⟨answer, _, hs⟩ := Fallible.bind_eq_ok.1 hs
    cases answer with
    | sat m =>
      obtain ⟨d', hd', rfl⟩ := Problem.solutionOf_sat_eq_ok.1 hs
      obtain rfl := List.mem_singleton.1 hd
      exact ⟨p, _, hp, hd'⟩
    | unsat =>
      cases hs
      cases hd
    | timeout =>
      cases hs
      cases hd

/-- What is extracted under a logical form says all its thematic relations. -/
theorem says_of_extract (hp : g.prepare c = .ok p) (hform : g.form? c = some form)
    (hr : .theta name role words ∈ form.relations) (hd : p.extract a = .ok d) : d.Says name role words := by
  obtain ⟨sel, hsel, hcheck, hder, _, hmeets⟩ := Problem.extract_eq_ok.1 hd
  have hassembled := Problem.isAssembled_of_prepare hp
  have hrequirements := (isPrepared_of_prepare hp).requirements
  rw [requirementsOf, hform] at hrequirements
  have hrequirements := Fallible.mapError_ok_iff.1 hrequirements
  obtain ⟨r, hmem, slot, argument, hdemand, hname, hwords⟩ := Requirement.exists_theta_of_mem hrequirements hr
  have hmet := Problem.checkLogicalForm_eq_ok.1 hmeets r hmem
  rw [hdemand] at hmet
  rw [← (Encoding.ofAssignment_eq_ok hsel).1] at hname hwords
  exact Selection.says_of_meets (hassembled.isFilled hsel) (hassembled.isDerivation hsel hcheck) hder hmet hname hwords

/-- The predications of what is extracted are what its pronounced leaves take, and nothing else. -/
theorem mem_predications_of_extract {q : Predication} (hp : g.prepare c = .ok p) (hd : p.extract a = .ok d) :
    q ∈ d.predications ↔ ∃ l u, d.Takes l q.role u ∧ d.predication? l q.role u = some q := by
  obtain ⟨sel, hsel, hcheck, hder, _⟩ := Problem.extract_eq_ok.1 hd
  have hassembled := Problem.isAssembled_of_prepare hp
  have hf := hassembled.isFilled hsel
  have hderivation := hassembled.isDerivation hsel hcheck
  obtain ⟨place, points, hn⟩ := hderivation.exists_numbered hf hder
  exact Derivation.mem_predications fun _ _ _ => hn.merges_unique hf hderivation

theorem form?_eq_some (hg : g.options.constrainsLogicalForm = true) (hc : c.logicalForm = some form) :
    g.form? c = some form := by
  rw [form?, hg, hc]
  rfl

/-- The thematic relations of a logical form can be read off every derivation: off what an assignment describes, off what
an enumeration has found, whatever its session answers and whatever its limit is, and off the outcome of a parse. What is
read off is what the pronounced leaves take, so that a derivation says no more than it merges. -/
theorem says_of_mem_relations (hg : g.options.constrainsLogicalForm = true) (hc : c.logicalForm = some form)
    (hr : .theta name role words ∈ form.relations) :
    (∀ p a d, g.prepare c = .ok p → p.extract a = .ok d → d.Says name role words ∧
        ∀ q, q ∈ d.predications ↔ ∃ l u, d.Takes l q.role u ∧ d.predication? l q.role u = some q) ∧
      (∀ p (session : Session ε) limit n ps, g.prepare c = .ok p → (Parses.ofSession p session limit).run n = .ok ps →
        ∀ d ∈ ps.found, d.Says name role words) ∧
        ∀ (start : Formula → Option Nat → Session ε) o, g.parseWith start c = .ok o →
          ∀ d ∈ o.derivations, d.Says name role words := by
  have extracted : ∀ p a d, g.prepare c = .ok p → p.extract a = .ok d → d.Says name role words :=
    fun _ _ _ hp hd => says_of_extract hp (form?_eq_some hg hc) hr hd
  refine ⟨fun p a d hp hd => ⟨extracted p a d hp hd, fun _ => mem_predications_of_extract hp hd⟩,
    fun p session limit n ps hp hrun d hd => ?_, fun start o ho d hd => ?_⟩
  · obtain ⟨a, ha⟩ := ((Parses.extracts_ofSession p session limit).run hrun).found d hd
    exact extracted p a d hp ha
  · obtain ⟨p, a, hp, ha⟩ := exists_extract_of_parseWith ho hd
    exact extracted p a d hp ha

/-- An auxiliary that selects a verb and its subject, and a verb with two objects. -/
def ditransitive : Grammar where
  lexicon := ⟨[
    ⟨"may", [⟨"V", .selector, false⟩, ⟨"D", .selector, false⟩, ⟨"C", .category, false⟩], some "may", none, by decide,
      by decide +kernel⟩,
    ⟨"lend", [⟨"D", .selector, false⟩, ⟨"D", .selector, false⟩, ⟨"V", .selectee, false⟩], some "lend", none, by decide,
      by decide +kernel⟩,
    ⟨"Ann", [⟨"D", .selectee, false⟩], some "Ann", none, isFeatureSequence_selectee "D", by decide +kernel⟩,
    ⟨"Tom", [⟨"D", .selectee, false⟩], some "Tom", none, isFeatureSequence_selectee "D", by decide +kernel⟩,
    ⟨"the", [⟨"N", .selector, false⟩, ⟨"D", .selectee, false⟩], some "the", none, by decide, by decide +kernel⟩,
    ⟨"map", [⟨"N", .selectee, false⟩], some "map", none, isFeatureSequence_selectee "N", by decide +kernel⟩],
    by decide, by decide⟩

/-- Who lends what to whom. -/
def lending : LogicalForm where
  words := some ["Ann", "may", "Tom", "lend", "the", "map"]
  relations := [.theta "lend" .subj ["Ann"], .theta "lend" .obj ["the", "map"], .theta "lend" .iobj ["Tom"]]

/-- The derivation that a parse returns says who lends what to whom. -/
theorem says_of_mem_relations_lending : ∃ d,
    ditransitive.parseWith tableSession { logicalForm := some lending } = .ok (.ofSolution (.found d)) ∧
      d.Says "lend" .subj ["Ann"] ∧ d.Says "lend" .obj ["the", "map"] ∧ d.Says "lend" .iobj ["Tom"] := by
  have hall : (ditransitive.prepare { logicalForm := some lending }).toOption.any
      (fun p => decide (p.formula.Holds (· ∉ [9, 10, 11, 12, 14, 16, 18, 20, 21, 27]))) = true := by
    decide +kernel
  obtain ⟨p, hp, ha⟩ := Fallible.exists_of_any hall
  obtain ⟨d, ho⟩ := exists_parseWith_of_holds Table.answers LocalityPolicy.onlyAdds_shortestMove
    LocalityPolicy.isScoped_shortestMove rfl hp (of_decide_eq_true ha)
  have hd : d ∈ (ParseOutcome.ofSolution (.found d)).derivations := List.mem_singleton_self d
  exact ⟨d, ho, (says_of_mem_relations rfl rfl (by decide)).2.2 _ _ ho d hd,
    (says_of_mem_relations rfl rfl (by decide)).2.2 _ _ ho d hd, (says_of_mem_relations rfl rfl (by decide)).2.2 _ _ ho d hd⟩

end Grammar

end MinimalistGrammar
