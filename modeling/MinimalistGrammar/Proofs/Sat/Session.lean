import MinimalistGrammar.Sat.Session

/-!
A session with an engine that answers rightly. The worker serves in order, so each search is about the formula
together with all that has been blocked, and what is found is what the caller is told.
-/

namespace MinimalistGrammar.Sat

/-- All variables of the clauses are among the first `n`. -/
def Clause.Within (n : Nat) (cs : List Clause) : Prop := ∀ c ∈ cs, ∀ l ∈ c, l.var < n

/-- The search has ended, and rightly, for the given clauses. -/
def Response.Decides (cs : List Clause) : Response → Prop
  | reply (.ok (.sat m)) => ∀ c ∈ cs, c.Holds m.assignment
  | reply (.ok .unsat) => ∀ a, ¬∀ c ∈ cs, c.Holds a
  | _ => False

namespace Engine

variable {ε : Type} [Engine ε] {e₀ e : ε} {taken : List Clause}

/-- An engine that began as `e₀` has been handed the clauses, whatever searches there were in between. -/
inductive Takes (e₀ : ε) : List Clause → ε → Prop
  | start : Takes e₀ [] e₀
  | clause {cs : List Clause} {e : ε} (c : Clause) (h : Takes e₀ cs e) : Takes e₀ (cs ++ [c]) (addClause c e).2
  | search {cs : List Clause} {e : ε} (n : Nat) (h : Takes e₀ cs e) : Takes e₀ cs (solve n e).2

/-- From `e₀` on the engine refuses no clause and decides whatever it is asked. -/
structure Answers (e₀ : ε) : Prop where
  addClause : ∀ cs e c, Takes e₀ cs e → (addClause c e).1 = .ok ()
  solve : ∀ cs e n, Takes e₀ cs e → Clause.Within n cs → (solve n e).1.Decides cs

theorem Answers.load (h : Answers e₀) (ht : Takes e₀ taken e) (cs : List Clause) :
    ∃ e', load cs e = (none, e') ∧ Takes e₀ (taken ++ cs) e' := by
  induction cs generalizing taken e with
  | nil => exact ⟨e, rfl, by rwa [List.append_nil]⟩
  | cons c cs ih =>
    obtain ⟨e', he, ht'⟩ := ih (ht.clause c)
    refine ⟨e', ?_, by rwa [List.append_assoc] at ht'⟩
    rw [Engine.load, ← he]
    have hc := h.addClause _ _ c ht
    split
    · rename_i heq
      rw [heq]
    · rename_i heq
      rw [heq] at hc
      cases hc

end Engine

namespace Session

variable {ε : Type} [Engine ε] {e₀ : ε} {s : Session ε} {cs queued taken : List Clause} {rest : List Command}

/-- The session waits for a call. The clauses are those that the engine has taken and those that wait to be taken. -/
structure IsReady (e₀ : ε) (cs : List Clause) (s : Session ε) : Prop where
  loadError : s.loadError = none
  worker : s.worker = .ready
  replies : s.replies = []
  abandoned : s.abandoned = false
  clauses : ∃ taken queued, Engine.Takes e₀ taken s.engine ∧ s.commands = queued.map .block ∧ taken ++ queued = cs

theorem isReady_ofFormula (h : Engine.Answers e₀) (f : Formula) (timeout : Option Nat) :
    IsReady e₀ f.clauses.toList (ofFormula f timeout e₀) := by
  obtain ⟨e, he, ht⟩ := h.load .start f.clauses.toList
  rw [ofFormula, he]
  exact ⟨rfl, rfl, rfl, rfl, _, [], ht, rfl, List.append_nil _⟩

theorem IsReady.send (hs : IsReady e₀ cs s) (command : Command) :
    s.send command = (.ok (), { s with commands := s.commands ++ [command] }) := by
  rw [Session.send, hs.abandoned, hs.worker]
  rfl

theorem IsReady.block (hs : IsReady e₀ cs s) (c : Clause) :
    ∃ s', s.block c = (.ok (), s') ∧ s'.numVars = s.numVars ∧ IsReady e₀ (cs ++ [c]) s' := by
  obtain ⟨taken, queued, ht, hc, rfl⟩ := hs.clauses
  refine ⟨_, hs.send _, rfl, hs.loadError, hs.worker, hs.replies, hs.abandoned, taken, queued ++ [c], ht, ?_, ?_⟩
  · rw [List.map_append, ← hc]
    rfl
  · rw [List.append_assoc]

theorem serve_block {c : Clause} (h : Engine.Answers e₀) (ht : Engine.Takes e₀ taken s.engine)
    (hl : s.loadError = none) (hw : s.worker = .ready) (hc : s.commands = .block c :: rest) :
    s.serve = { s with commands := rest, engine := (Engine.addClause c s.engine).2 } := by
  have hadd := h.addClause _ _ c ht
  simp only [serve, hw, hc, execute, hl]
  split
  · rename_i heq
    rw [heq]
  · rename_i heq
    rw [heq] at hadd
    cases hadd

/-- All that has been blocked goes to the engine before what was sent after it. -/
theorem foldl_serve_block (h : Engine.Answers e₀) (ht : Engine.Takes e₀ taken s.engine)
    (hl : s.loadError = none) (hw : s.worker = .ready) (hc : s.commands = queued.map .block ++ rest) :
    ∃ e, Engine.Takes e₀ (taken ++ queued) e ∧
      (queued.map Command.block).foldl (fun s _ => s.serve) s = { s with commands := rest, engine := e } := by
  -- by what is queued; each step moves one clause from the queue to those the engine has taken
  induction queued generalizing taken s with
  | nil =>
    refine ⟨s.engine, by rwa [List.append_nil], ?_⟩
    rw [List.map_nil, List.nil_append] at hc
    rw [List.map_nil, List.foldl_nil, ← hc]
  | cons c queued ih =>
    have hserve := serve_block h ht hl hw hc
    have ht' : Engine.Takes e₀ (taken ++ [c]) s.serve.engine := by
      rw [hserve]
      exact ht.clause c
    obtain ⟨e, he, hfold⟩ := ih ht' (by rw [hserve]; exact hl) (by rw [hserve]; exact hw) (by rw [hserve]; rfl)
    refine ⟨e, by rwa [List.append_assoc] at he, ?_⟩
    rw [List.map_cons, List.foldl_cons, hfold, hserve]

/-- A call finds a model of all clauses, or that there is none, and leaves the session ready for the next. -/
theorem IsReady.solve (h : Engine.Answers e₀) (hs : IsReady e₀ cs s) (hw : Clause.Within s.numVars cs) :
    ∃ s', s'.numVars = s.numVars ∧ IsReady e₀ cs s' ∧
      ((∃ m, s.solve = (.ok (.sat m), s') ∧ ∀ c ∈ cs, c.Holds m.assignment) ∨
        (s.solve = (.ok .unsat, s') ∧ ∀ a, ¬∀ c ∈ cs, c.Holds a)) := by
  obtain ⟨taken, queued, ht, hc, rfl⟩ := hs.clauses
  obtain ⟨e, he, hfold⟩ := foldl_serve_block (s := { s with commands := s.commands ++ [.solve] }) h ht hs.loadError
    hs.worker (by rw [hc])
  have hsolve : s.solve = receive (serve { s with commands := [.solve], engine := e }) := by
    rw [Session.solve, hs.send]
    simp only [serveAll, List.foldl_append]
    rw [← hfold, hc]
    rfl
  have hdecides := h.solve _ _ s.numVars he hw
  refine ⟨{ s with commands := [], engine := (Engine.solve s.numVars e).2 }, rfl, ⟨hs.loadError, hs.worker, hs.replies,
    hs.abandoned, _, [], he.search _, rfl, List.append_nil _⟩, ?_⟩
  rw [hsolve]
  simp only [serve, hs.worker, execute, hs.loadError]
  generalize Engine.solve s.numVars e = r at hdecides
  obtain ⟨response, e'⟩ := r
  cases response with
  | silence => cases hdecides
  | crash => cases hdecides
  | reply answer =>
    cases answer with
    | error err => cases hdecides
    | ok verdict =>
      cases verdict with
      | interrupted => cases hdecides
      | sat m => exact .inl ⟨m, by simp [receive, hs.replies, outcomeOf], hdecides⟩
      | unsat => exact .inr ⟨by simp [receive, hs.replies, outcomeOf], hdecides⟩

end Session

end MinimalistGrammar.Sat
