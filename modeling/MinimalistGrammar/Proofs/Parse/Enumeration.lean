import MinimalistGrammar.Proofs.Parse.Extraction
import MinimalistGrammar.Proofs.Parse.Scope
import MinimalistGrammar.Proofs.Sat.Enumeration

/-!
The derivations of a problem, counted by how they read. The projection of a model settles its derivation, so that
an enumeration that has come to every projection has come to every reading; and a model that is given back leaves the
limit to the readings still to come.
-/

namespace MinimalistGrammar

open MinimalistGrammar.Sat

variable {ε : Type} [Engine ε] {e₀ : ε} {g : Grammar} {c : Condition} {p : Problem} {s : Schema} {enc : Encoding}
  {a b : Assignment} {ms : List Model} {limit : Option Nat} {ps : Parses ε} {d : Derivation}

namespace Selection

theorem chosen_congr (h : projected enc.projection a = projected enc.projection b) (slot : SlotId) :
    chosen s enc a slot = chosen s enc b slot := by
  refine List.filterMap_congr fun x hx => ?_
  have hmem : x.2.2 ∈ enc.projection := by
    obtain ⟨row, hr, hl⟩ := exists_mem_of_mem_getD (List.of_mem_zip hx).2
    exact List.mem_append_left _ (List.mem_flatMap.2 ⟨row, hr, List.mem_map_of_mem hl⟩)
  simp only [List.map_inj_left.1 h _ hmem]

theorem ofAssignment_congr (h : projected enc.projection a = projected enc.projection b) :
    ofAssignment s enc a = ofAssignment s enc b := by
  have hitems : chooseItem s enc a = chooseItem s enc b := by
    funext slot
    rw [chooseItem, chooseItem, chosen_congr h]
  have hlinks : enc.checking.links.filter (·.literal.value a) = enc.checking.links.filter (·.literal.value b) := by
    refine List.filter_congr fun l hl => ?_
    rw [List.map_inj_left.1 h _ (List.mem_append_right _ (List.mem_map_of_mem hl))]
  rw [ofAssignment, ofAssignment, hitems, hlinks]

end Selection

namespace Problem

/-- How the derivations of the models read. -/
def readings (p : Problem) : Set String := {t | ∃ a d, p.formula.Holds a ∧ p.extract a = .ok d ∧ toString d = t}

theorem extract_congr (h : projected p.encoding.projection a = projected p.encoding.projection b) :
    p.extract a = p.extract b := by
  rw [extract, extract, Selection.ofAssignment_congr h]

end Problem

namespace Parses

/-- The enumeration has come to the models `ms`, and their derivations are found, each reading once. What may still
come, and what is found, make up the limit. -/
structure HasFound (e₀ : ε) (p : Problem) (limit : Option Nat) (ms : List Model) (ps : Parses ε) : Prop where
  problem : ps.problem = p
  hasYielded : Enumeration.HasYielded e₀ p.formula p.encoding.projection ms ps.enumeration
  derives : ∀ d ∈ ps.found, ∃ a, p.formula.Holds a ∧ p.extract a = .ok d
  nodup : (ps.found.map toString).Nodup
  covers : ∀ m ∈ ms, ∀ d, p.extract m.assignment = .ok d → toString d ∈ ps.found.map toString
  remaining : ps.enumeration.remaining.map (· + ps.found.length) = limit

/-- No more is found, because the limit is reached, or before that because every reading has come. -/
structure HasEnded (p : Problem) (limit : Option Nat) (ps : Parses ε) : Prop where
  derives : ∀ d ∈ ps.found, ∃ a, p.formula.Holds a ∧ p.extract a = .ok d
  nodup : (ps.found.map toString).Nodup
  termination : limit = some ps.found.length ∧ ps.enumeration.termination = some .limitReached ∨
    (∀ k, limit = some k → ps.found.length < k) ∧ ps.enumeration.termination = some .exhausted ∧
      ∀ t ∈ p.readings, t ∈ ps.found.map toString

theorem hasFound_ofSession (h : Engine.Answers e₀) (p : Problem) (limit : Option Nat) :
    HasFound e₀ p limit [] (ofSession p (Session.ofFormula p.formula p.timeout e₀) limit) where
  problem := rfl
  hasYielded := Enumeration.hasYielded_ofSession h _ _ _ _
  derives := by simp [ofSession]
  nodup := .nil
  covers := by simp
  remaining := by cases limit <;> rfl

theorem HasFound.add {enum : Enumeration ε} {m : Model} (hs : HasFound e₀ p limit ms ps)
    (hr : ps.enumeration.remaining ≠ some 0) (hremaining : enum.remaining = ps.enumeration.remaining.map (· - 1))
    (henum : Enumeration.HasYielded e₀ p.formula p.encoding.projection (ms ++ [m]) enum)
    (hd : p.extract m.assignment = .ok d) :
    HasFound e₀ p limit (ms ++ [m]) (Parses.add d { ps with enumeration := enum }) := by
  have hm : p.formula.Holds m.assignment := henum.holds m (List.mem_append_right _ (List.mem_singleton_self m))
  rw [Parses.add]
  -- a model of a derivation that is there already does not count, so what was taken off the limit is given back
  split
  · rename_i hold
    refine ⟨hs.problem, henum.refund, hs.derives, hs.nodup, fun m' hm' d' hd' => ?_, ?_⟩
    · rcases List.mem_append.1 hm' with hm' | hm'
      · exact hs.covers m' hm' d' hd'
      · cases List.mem_singleton.1 hm'
        cases hd.symm.trans hd'
        exact hold
    · rw [← hs.remaining]
      simp only [Enumeration.refund, hremaining]
      cases hc : ps.enumeration.remaining with
      | none => rfl
      | some k =>
        have hk : k ≠ 0 := fun hz => hr (hc.trans (congrArg some hz))
        exact congrArg some (by dsimp only; omega)
  · rename_i hnew
    refine ⟨hs.problem, henum, fun d' hd' => ?_, ?_, fun m' hm' d' hd' => ?_, ?_⟩
    · rcases List.mem_append.1 hd' with hd' | hd'
      · exact hs.derives d' hd'
      · cases List.mem_singleton.1 hd'
        exact ⟨_, hm, hd⟩
    · rw [List.map_append, List.map_singleton, ← List.concat_eq_append]
      exact (List.nodup_concat _ _).2 ⟨hnew, hs.nodup⟩
    · rw [List.map_append]
      rcases List.mem_append.1 hm' with hm' | hm'
      · exact List.mem_append_left _ (hs.covers m' hm' d' hd')
      · cases List.mem_singleton.1 hm'
        cases hd.symm.trans hd'
        exact List.mem_append_right _ (List.mem_singleton_self _)
    · rw [← hs.remaining]
      simp only [hremaining, List.length_append, List.length_singleton]
      cases hc : ps.enumeration.remaining with
      | none => rfl
      | some k =>
        have hk : k ≠ 0 := fun hz => hr (hc.trans (congrArg some hz))
        exact congrArg some (by dsimp only; omega)

/-- When the enumeration has come to all projections, all readings are found. -/
theorem HasFound.covers_readings (hs : HasFound e₀ p limit ms ps)
    (hall : ∀ a, p.formula.Holds a → projected p.encoding.projection a ∈ foundOn p.encoding.projection ms) :
    ∀ t ∈ p.readings, t ∈ ps.found.map toString := by
  rintro _ ⟨a, d, ha, hd, rfl⟩
  obtain ⟨m, hm, he⟩ := List.mem_map.1 (hall a ha)
  exact hs.covers m hm d ((Problem.extract_congr he).trans hd)

/-- One more look finds one more model, or the end. -/
theorem HasFound.step (h : Engine.Answers e₀) (hf : p.formula.IsClosed)
    (hv : ∀ l ∈ p.encoding.projection, l.var < p.formula.numVars)
    (hx : ∀ a, p.formula.Holds a → ∃ d, p.extract a = .ok d) (hs : HasFound e₀ p limit ms ps) :
    (∃ ps', ps.step = (none, ps') ∧ HasEnded p limit ps') ∨
      ∃ m ps' ps'', ps.step = (some (.ok ps'), ps'') ∧ HasFound e₀ p limit (ms ++ [m]) ps' := by
  rcases hs.hasYielded.next h hf hv with ⟨enum, hnext, hend⟩ | ⟨hr, m, enum, hnext, hremaining, henum⟩
  · refine .inl ⟨{ ps with enumeration := enum }, by simp only [Parses.step, hnext], hs.derives, hs.nodup, ?_⟩
    have hlimit := hs.remaining
    rcases hend with ⟨hr, ht⟩ | ⟨hr, ht, hall⟩
    · rw [hr] at hlimit
      exact .inl ⟨by simp [← hlimit], ht⟩
    · refine .inr ⟨fun k hk => ?_, ht, hs.covers_readings hall⟩
      obtain ⟨r, hc, rfl⟩ := Option.map_eq_some_iff.1 (hlimit.trans hk)
      exact Nat.lt_add_of_pos_left (hr r hc)
  · obtain ⟨d, hd⟩ := hx _ (henum.holds m (List.mem_append_right _ (List.mem_singleton_self m)))
    refine .inr ⟨m, _, { ps with enumeration := enum }, ?_, hs.add hr hremaining henum hd⟩
    simp only [Parses.step, hnext, hs.problem, hd]

/-- With enough looks for all projections that have not come yet, the end is found. -/
theorem HasFound.run (h : Engine.Answers e₀) (hf : p.formula.IsClosed)
    (hv : ∀ l ∈ p.encoding.projection, l.var < p.formula.numVars)
    (hx : ∀ a, p.formula.Holds a → ∃ d, p.extract a = .ok d) (hs : HasFound e₀ p limit ms ps) {n : Nat}
    (hn : (p.formula.projections p.encoding.projection).ncard - ms.length < n) :
    ∃ ps', ps.run n = .ok ps' ∧ HasEnded p limit ps' := by
  induction n generalizing ms ps with
  | zero => exact absurd hn (Nat.not_lt_zero _)
  | succ n ih =>
    rcases hs.step h hf hv hx with ⟨ps', hstep, hend⟩ | ⟨m, ps', ps'', hstep, hs'⟩
    · exact ⟨ps', by rw [Parses.run, hstep], hend⟩
    · have hle := hs'.hasYielded.length_le
      rw [List.length_append, List.length_singleton] at hle
      obtain ⟨last, hrun, hend⟩ := ih hs' (by rw [List.length_append, List.length_singleton]; omega)
      exact ⟨last, by rw [Parses.run, hstep]; exact hrun, hend⟩

theorem HasFound.runAll (h : Engine.Answers e₀) (hf : p.formula.IsClosed)
    (hv : ∀ l ∈ p.encoding.projection, l.var < p.formula.numVars)
    (hx : ∀ a, p.formula.Holds a → ∃ d, p.extract a = .ok d) (hs : HasFound e₀ p limit [] ps) :
    ∃ ps', ps.runAll = .ok ps' ∧ HasEnded p limit ps' := by
  refine hs.run h hf hv hx ?_
  have hle := p.formula.ncard_projections_le p.encoding.projection
  rw [maxModels, hs.hasYielded.projection_eq, Nat.pow_eq]
  omega

omit [Engine ε] in
theorem HasEnded.subset_readings (hs : HasEnded p limit ps) :
    ((ps.found.map toString).toFinset : Set String) ⊆ p.readings := by
  intro t ht
  obtain ⟨d, hd, rfl⟩ := List.mem_map.1 (List.mem_toFinset.1 ht)
  obtain ⟨a, ha, he⟩ := hs.derives d hd
  exact ⟨a, d, ha, he, rfl⟩

omit [Engine ε] in
theorem HasEnded.ncard_found (hs : HasEnded p limit ps) :
    ((ps.found.map toString).toFinset : Set String).ncard = ps.found.length := by
  rw [Set.ncard_coe_finset, List.toFinset_card_of_nodup hs.nodup, List.length_map]

end Parses

namespace Problem

theorem finite_readings (p : Problem) : p.readings.Finite := by
  have hone : ∀ x, {t | ∃ a d, projected p.encoding.projection a = x ∧ p.extract a = .ok d ∧ toString d = t}.Subsingleton := by
    rintro x _ ⟨a, d, ha, hd, rfl⟩ _ ⟨b, d', hb, hd', rfl⟩
    rw [extract_congr (ha.trans hb.symm), hd'] at hd
    cases hd
    rfl
  refine ((p.formula.finite_projections p.encoding.projection).biUnion fun x _ => (hone x).finite).subset ?_
  rintro t ⟨a, d, ha, hd, ht⟩
  exact Set.mem_biUnion ⟨a, ha, rfl⟩ ⟨a, d, rfl, hd, ht⟩

end Problem

namespace Grammar

theorem IsPrepared.exists_extract (hp : g.IsPrepared c p) (hg : g.locality.OnlyAdds) (ha : p.formula.Holds a) :
    ∃ d, p.extract a = .ok d := by
  obtain ⟨sel, hsel, he⟩ := exists_selects hg hp ha
  exact (hsel.extract hp he).imp fun _ => And.right

theorem IsPrepared.exists_hasEnded (hp : g.IsPrepared c p) (hg : g.locality.OnlyAdds) (hs : g.locality.IsScoped)
    (h : Engine.Answers e₀) (limit : Option Nat) :
    ∃ ps, (Parses.ofSession p (Session.ofFormula p.formula p.timeout e₀) limit).runAll = .ok ps ∧
      Parses.HasEnded p limit ps := by
  obtain ⟨hproper, hscope⟩ := hp.scoped hs
  exact (Parses.hasFound_ofSession h p limit).runAll h hproper.closed (Encoding.projection_lt hscope)
    fun _ => hp.exists_extract hg

/-- With an engine that answers, all readings are found once. A limit ends the search when it is reached, and repeated
readings do not count towards it. -/
theorem exists_runAll_readings (hg : g.locality.OnlyAdds) (hs : g.locality.IsScoped) (hp : g.prepare c = .ok p)
    (h : Engine.Answers e₀) (limit : Option Nat) : p.readings.Finite ∧
      ∃ ps, (Parses.ofSession p (Session.ofFormula p.formula p.timeout e₀) limit).runAll = .ok ps ∧
        (∀ d ∈ ps.found, ∃ a, p.formula.Holds a ∧ p.extract a = .ok d) ∧ (ps.found.map toString).Nodup ∧
          (limit = none → ps.found.length = p.readings.ncard ∧ ps.enumeration.termination = some .exhausted) ∧
            ∀ k, limit = some k → ps.found.length = min k p.readings.ncard ∧
              ps.enumeration.termination = some (if k ≤ p.readings.ncard then .limitReached else .exhausted) := by
  obtain ⟨ps, hrun, hend⟩ := (isPrepared_of_prepare hp).exists_hasEnded hg hs h limit
  refine ⟨p.finite_readings, ps, hrun, hend.derives, hend.nodup, ?_⟩
  have hle : ps.found.length ≤ p.readings.ncard :=
    hend.ncard_found ▸ Set.ncard_le_ncard hend.subset_readings p.finite_readings
  rcases hend.termination with ⟨rfl, ht⟩ | ⟨hlt, ht, hall⟩
  · refine ⟨fun hk => (by cases hk), fun k hk => ?_⟩
    cases hk
    exact ⟨(min_eq_left hle).symm, by rw [if_pos hle, ht]⟩
  · have heq : ((ps.found.map toString).toFinset : Set String) = p.readings :=
      Set.Subset.antisymm hend.subset_readings fun t ht => List.mem_toFinset.2 (hall t ht)
    rw [← heq, hend.ncard_found]
    refine ⟨fun _ => ⟨rfl, ht⟩, fun k hk => ?_⟩
    have hlt := hlt k hk
    exact ⟨(min_eq_right (Nat.le_of_lt hlt)).symm, by rw [if_neg (Nat.not_le.2 hlt), ht]⟩

/-- The name after the verb is found when one derivation is asked for. -/
theorem exists_runAll_verbThenName : verbAndName.locality.OnlyAdds ∧ verbAndName.locality.IsScoped ∧
    Engine.Answers (⟨[]⟩ : Table) ∧ ∃ p ps, verbAndName.prepare verbThenName = .ok p ∧
      (Parses.ofSession p (Session.ofFormula p.formula p.timeout (⟨[]⟩ : Table)) (some 1)).runAll = .ok ps ∧
        ps.found.length = 1 ∧ ps.enumeration.termination = some .limitReached := by
  have hg : verbAndName.locality.OnlyAdds := LocalityPolicy.onlyAdds_shortestMove
  have hs : verbAndName.locality.IsScoped := LocalityPolicy.isScoped_shortestMove
  have hall : (verbAndName.prepare verbThenName).toOption.any
      (fun p => decide (p.formula.Holds fun _ => true)) = true := by decide +kernel
  obtain ⟨p, hp, ha⟩ := Fallible.exists_of_any hall
  have ha : p.formula.Holds fun _ => true := of_decide_eq_true ha
  obtain ⟨hfinite, ps, hrun, _, _, _, hlimit⟩ := exists_runAll_readings hg hs hp Table.answers (some 1)
  obtain ⟨hlength, ht⟩ := hlimit 1 rfl
  obtain ⟨d, hd⟩ := (isPrepared_of_prepare hp).exists_extract hg ha
  have hone : 1 ≤ p.readings.ncard := (Set.ncard_pos hfinite).2 ⟨_, _, d, ha, hd, rfl⟩
  rw [min_eq_left hone] at hlength
  rw [if_pos hone] at ht
  exact ⟨hg, hs, Table.answers, p, ps, hp, hrun, hlength, ht⟩

end Grammar

end MinimalistGrammar
