import MinimalistGrammar.Proofs.Sat.Enumeration

/-!
Which search a reply belongs to. Commands and replies wait in queues, and a clause that is refused brings a reply that no
call waits for. So from then on every call reads the reply to a search before its own, one more for each clause refused.
-/

namespace MinimalistGrammar.Sat

namespace Engine

variable {ε : Type} [Engine ε]

/-- From `e₀` on the engine has served the commands, one after the other. It has taken the clauses, in order, and refused
that many. -/
inductive Serves (n : Nat) (e₀ : ε) : List Command → List Clause → Nat → ε → Prop
  | start : Serves n e₀ [] [] 0 e₀
  | search {calls : List Command} {cs : List Clause} {r : Nat} {e : ε} {answer : Reply} (h : Serves n e₀ calls cs r e)
      (ha : (solve n e).1 = .reply answer) : Serves n e₀ (calls ++ [.solve]) cs r (solve n e).2
  | take {calls : List Command} {cs : List Clause} {r : Nat} {e : ε} {c : Clause} (h : Serves n e₀ calls cs r e)
      (hc : (addClause c e).1 = .ok ()) : Serves n e₀ (calls ++ [.block c]) (cs ++ [c]) r (addClause c e).2
  | refuse {calls : List Command} {cs : List Clause} {r : Nat} {e : ε} {c : Clause} {err : SolverError}
      (h : Serves n e₀ calls cs r e) (hc : (addClause c e).1 = .error err) :
      Serves n e₀ (calls ++ [.block c]) cs (r + 1) (addClause c e).2

theorem Serves.engine_eq {n : Nat} {e₀ e : ε} {calls : List Command} {cs : List Clause} {r : Nat}
    (h : Serves n e₀ calls cs r e) : e = calls.foldl (fun e call =>
      match call with
      | .solve => (solve n e).2
      | .block c => (addClause c e).2) e₀ := by
  induction h with
  | start => rfl
  | search _ _ ih => rw [List.foldl_append, ← ih]; rfl
  | take _ _ ih => rw [List.foldl_append, ← ih]; rfl
  | refuse _ _ ih => rw [List.foldl_append, ← ih]; rfl

/-- The reply answers a search among the calls. As many clauses have been refused before it as searches come after it,
and `ahead` more. -/
def Replies (n : Nat) (e₀ : ε) (calls : List Command) (ahead : Nat) (answer : Reply) : Prop :=
  ∃ before after cs r e, calls = before ++ .solve :: after ∧ Serves n e₀ before cs r e ∧
    (solve n e).1 = .reply answer ∧ r = after.count .solve + ahead

variable {n ahead : Nat} {e₀ : ε} {calls : List Command} {answer : Reply}

theorem eq_of_concat_solve {before after : List Command} (h : calls ++ [.solve] = before ++ .solve :: after)
    (hafter : after.count .solve = 0) : before = calls := by
  rcases List.eq_nil_or_concat after with rfl | ⟨after, last, rfl⟩
  · exact (List.append_inj' h rfl).1.symm
  · have hlast : Command.solve = last := by
      rw [List.concat_eq_append, ← List.cons_append, ← List.append_assoc] at h
      exact List.singleton_inj.1 (List.append_inj' h rfl).2
    rw [← hlast, List.concat_eq_append, List.count_append, List.count_singleton_self] at hafter
    omega

theorem Replies.block (h : Replies n e₀ calls ahead answer) (c : Clause) :
    Replies n e₀ (calls ++ [.block c]) ahead answer := by
  obtain ⟨before, after, cs, r, e, rfl, hs, ha, hr⟩ := h
  refine ⟨before, after ++ [.block c], cs, r, e, by simp, hs, ha, ?_⟩
  simpa [List.count_append] using hr

theorem Replies.solve (h : Replies n e₀ calls (ahead + 1) answer) :
    Replies n e₀ (calls ++ [.solve]) ahead answer := by
  obtain ⟨before, after, cs, r, e, rfl, hs, ha, hr⟩ := h
  refine ⟨before, after ++ [.solve], cs, r, e, by simp, hs, ha, ?_⟩
  rw [List.count_append, List.count_singleton_self]
  omega

end Engine

namespace Session

variable {ε : Type} {s₀ s : Session ε} {calls rest : List Command} {command : Command} {ahead : Nat} {answer : Reply}

/-- No call is answered any more. -/
def IsClosed (s : Session ε) : Prop := s.abandoned = true ∨ s.worker = .gone

theorem IsClosed.send (h : s.IsClosed) (command : Command) : ∃ err, s.send command = (.error err, s) := by
  rw [Session.send]
  split
  · exact ⟨_, rfl⟩
  · rw [if_pos (h.resolve_left ‹_›)]
    exact ⟨_, rfl⟩

theorem send_of_not_isClosed (h : ¬s.IsClosed) (command : Command) :
    s.send command = (.ok (), { s with commands := s.commands ++ [command] }) := by
  rw [Session.send, if_neg fun ha => h (.inl ha), if_neg fun hg => h (.inr hg)]

variable [Engine ε]

theorem abandoned_execute (command : Command) (s : Session ε) : (execute command s).abandoned = s.abandoned := by
  unfold execute
  split
  · rfl
  · split <;> rfl
  · split <;> rfl

theorem IsClosed.serve (h : s.IsClosed) : s.serve.IsClosed := by
  rw [Session.serve]
  split
  · rename_i hw _
    exact h.imp (fun ha => by rwa [abandoned_execute]) fun hg => by cases hg.symm.trans hw
  · exact h

/-- What a call that comes back may come to, and the session after it. While the caller waits the worker serves, and it may have
more to serve when the caller reads. -/
inductive Solves (s : Session ε) : Except SolverError Outcome → Session ε → Prop
  | refused {err : SolverError} (h : s.send .solve = (.error err, s)) : Solves s (.error err) s
  | waited {s' : Session ε} (k : Nat) (h : s.send .solve = (.ok (), s')) (hr : (serve^[k] s').Returns) :
      Solves s (receive (serve^[k] s')).1 (receive (serve^[k] s')).2

/-- The session after some calls. In between, the worker may have served commands at any time. -/
inductive Run (s₀ : Session ε) : List Command → Session ε → Prop
  | start : Run s₀ [] s₀
  | solve {calls : List Command} {s s' : Session ε} {result : Except SolverError Outcome} (h : Run s₀ calls s)
      (hs : s.Solves result s') : Run s₀ (calls ++ [.solve]) s'
  | block {calls : List Command} {s : Session ε} (c : Clause) (h : Run s₀ calls s) :
      Run s₀ (calls ++ [.block c]) (s.block c).2
  | serve {calls : List Command} {s : Session ε} (h : Run s₀ calls s) : Run s₀ calls s.serve

theorem solves_solve (s : Session ε) (hr : ¬s.IsClosed → (s.send .solve).2.serveAll.Returns) :
    s.Solves s.solve.1 s.solve.2 := by
  by_cases hc : s.IsClosed
  · obtain ⟨err, he⟩ := hc.send .solve
    rw [Session.solve, he]
    exact .refused he
  · have hsend := send_of_not_isClosed hc .solve
    have hr := hr hc
    rw [hsend, serveAll, List.foldl_const] at hr
    rw [Session.solve, hsend]
    dsimp only
    rw [serveAll, List.foldl_const]
    exact .waited _ hsend hr

theorem IsClosed.solves {result : Except SolverError Outcome} {s' : Session ε} (h : s.IsClosed)
    (hs : s.Solves result s') : (∃ err, result = .error err) ∧ s' = s := by
  obtain ⟨err, he⟩ := h.send .solve
  cases hs with
  | refused => exact ⟨⟨_, rfl⟩, rfl⟩
  | waited k hsend _ =>
    rw [he] at hsend
    cases hsend

/-- The replies in the queue are to the searches of the calls, as many calls late as clauses have been refused. Between
calls `ahead` is 1, and while a call waits for its reply it is 0. -/
structure Keeps (s₀ : Session ε) (calls : List Command) (ahead : Nat) (s : Session ε) : Prop where
  loadError : s.loadError = s₀.loadError
  numVars : s.numVars = s₀.numVars
  replies : ∀ i answer, s.replies[i]? = some answer → (∃ err, answer = .error err) ∨
    s₀.loadError = none ∧ Engine.Replies s₀.numVars s₀.engine calls (i + ahead) answer
  engine : s.worker = .ready → s₀.loadError = none → ∃ done cs r, calls = done ++ s.commands ∧
    Engine.Serves s₀.numVars s₀.engine done cs r s.engine ∧
      r + done.count .solve + 1 = calls.count .solve + ahead + s.replies.length

theorem Keeps.replies_push (h : Keeps s₀ calls ahead s)
    (ha : (∃ err, answer = .error err) ∨
      s₀.loadError = none ∧ Engine.Replies s₀.numVars s₀.engine calls (s.replies.length + ahead) answer) :
    ∀ i answer', (s.replies ++ [answer])[i]? = some answer' → (∃ err, answer' = .error err) ∨
      s₀.loadError = none ∧ Engine.Replies s₀.numVars s₀.engine calls (i + ahead) answer' := by
  intro i answer' hi
  rcases Nat.lt_trichotomy i s.replies.length with hlt | rfl | hgt
  · rw [List.getElem?_append_left hlt] at hi
    exact h.replies i answer' hi
  · rw [List.getElem?_concat_length, Option.some.injEq] at hi
    exact hi ▸ ha
  · rw [List.getElem?_eq_none (by simpa using hgt)] at hi
    cases hi

section Execute

variable (h : Keeps s₀ calls ahead s) (hw : s.worker = .ready) (hl : s.loadError = none)
include h hw hl

theorem Keeps.exists_serves (hc : s.commands = command :: rest) : s₀.loadError = none ∧ ∃ done cs r,
    (calls = done ++ command :: rest ∧ calls = (done ++ [command]) ++ rest) ∧
      Engine.Serves s₀.numVars s₀.engine done cs r s.engine ∧
        r + done.count .solve + 1 = calls.count .solve + ahead + s.replies.length := by
  have hl₀ := h.loadError.symm.trans hl
  obtain ⟨done, cs, r, hcalls, hserves⟩ := h.engine hw hl₀
  rw [hc] at hcalls
  exact ⟨hl₀, done, cs, r, ⟨hcalls, by rw [hcalls, List.append_assoc]; rfl⟩, hserves⟩

/-- A search brings a reply of its own. -/
theorem Keeps.execute_solve (hc : s.commands = .solve :: rest) :
    Keeps s₀ calls ahead (execute .solve { s with commands := rest }) := by
  obtain ⟨hl₀, done, cs, r, ⟨hcalls, hnext⟩, hserves, hcount⟩ := h.exists_serves hw hl hc
  simp only [Session.execute, hl]
  rw [← hl]
  have hown : r = rest.count .solve + (s.replies.length + ahead) := by
    rw [hcalls, List.count_append, List.count_cons_self] at hcount
    omega
  generalize hx : Engine.solve s.numVars s.engine = x
  obtain ⟨response, e⟩ := x
  rw [h.numVars] at hx
  cases response with
  | reply answer =>
    have ha : (Engine.solve s₀.numVars s.engine).1 = .reply answer := by rw [hx]
    refine ⟨h.loadError, h.numVars,
      h.replies_push (.inr ⟨hl₀, done, rest, cs, r, s.engine, hcalls, hserves, ha, hown⟩),
      fun _ _ => ⟨done ++ [.solve], cs, r, hnext, ?_, ?_⟩⟩
    · have := hserves.search ha
      rwa [hx] at this
    · rw [List.count_append, List.count_singleton_self, List.length_append, List.length_singleton]
      omega
  | silence => exact ⟨h.loadError, h.numVars, h.replies, fun hready => by cases hready⟩
  | crash => exact ⟨h.loadError, h.numVars, h.replies, fun hready => by cases hready⟩

/-- A clause brings a reply only when it is refused. -/
theorem Keeps.execute_block {c : Clause} (hc : s.commands = .block c :: rest) :
    Keeps s₀ calls ahead (execute (.block c) { s with commands := rest }) := by
  obtain ⟨_, done, cs, r, ⟨_, hnext⟩, hserves, hcount⟩ := h.exists_serves hw hl hc
  simp only [Session.execute, hl]
  rw [← hl]
  have hsame : (done ++ [Command.block c]).count .solve = done.count .solve := by simp [List.count_append]
  generalize hx : Engine.addClause c s.engine = x
  obtain ⟨result, e⟩ := x
  cases result with
  | ok u =>
    refine ⟨h.loadError, h.numVars, h.replies,
      fun _ _ => ⟨done ++ [.block c], cs ++ [c], r, hnext, ?_, by rwa [hsame]⟩⟩
    have := hserves.take (show (Engine.addClause c s.engine).1 = .ok () by rw [hx])
    rwa [hx] at this
  | error err =>
    refine ⟨h.loadError, h.numVars, h.replies_push (.inl ⟨err, rfl⟩),
      fun _ _ => ⟨done ++ [.block c], cs, r + 1, hnext, ?_, ?_⟩⟩
    · have := hserves.refuse (show (Engine.addClause c s.engine).1 = .error err by rw [hx])
      rwa [hx] at this
    · rw [hsame, List.length_append, List.length_singleton]
      omega

end Execute

theorem Keeps.execute (h : Keeps s₀ calls ahead s) (hw : s.worker = .ready) (hc : s.commands = command :: rest) :
    Keeps s₀ calls ahead (execute command { s with commands := rest }) := by
  cases hl : s.loadError with
  | some err =>
    -- the formula did not load, and every command is answered by the error that this met with
    simp only [Session.execute]
    rw [← hl]
    exact ⟨h.loadError, h.numVars, h.replies_push (.inl ⟨err, rfl⟩), fun _ hnone => by
      cases hl.symm.trans (h.loadError.trans hnone)⟩
  | none =>
    rw [← hl]
    cases command with
    | solve => exact h.execute_solve hw hl hc
    | block c => exact h.execute_block hw hl hc

theorem Keeps.serve (h : Keeps s₀ calls ahead s) : Keeps s₀ calls ahead s.serve := by
  rw [Session.serve]
  split
  · rename_i hw hc
    exact h.execute hw hc
  · exact h

theorem Keeps.iterate_serve (h : Keeps s₀ calls ahead s) (k : Nat) : Keeps s₀ calls ahead (Session.serve^[k] s) := by
  induction k generalizing s with
  | zero => exact h
  | succ k ih => exact ih h.serve

theorem Keeps.receive (h : Keeps s₀ calls 0 s) : (s.receive.2.IsClosed ∨ Keeps s₀ calls 1 s.receive.2) ∧
    ∀ o, o ≠ .timeout → s.receive.1 = .ok o → s₀.loadError = none ∧
      ∃ answer, Engine.Replies s₀.numVars s₀.engine calls 0 answer ∧ outcomeOf answer = .ok o := by
  rw [Session.receive]
  split
  · rename_i answer rest hr
    refine ⟨.inr ⟨h.loadError, h.numVars, fun i answer' hi => h.replies (i + 1) answer' (by rw [hr]; exact hi),
      fun hw hl => ?_⟩, fun o _ ho => ?_⟩
    · obtain ⟨done, cs, r, hcalls, hserves, hcount⟩ := h.engine hw hl
      refine ⟨done, cs, r, hcalls, hserves, ?_⟩
      rw [hr, List.length_cons] at hcount
      show _ = calls.count .solve + 1 + rest.length
      omega
    · rcases h.replies 0 answer (by rw [hr]; rfl) with ⟨err, rfl⟩ | ⟨hl, hreplies⟩
      · cases ho
      · exact ⟨hl, answer, hreplies, ho⟩
  · rename_i hr
    split
    · rename_i hgone
      exact ⟨.inl (.inr hgone), fun o _ ho => by cases ho⟩
    · exact ⟨.inl (.inl rfl), fun o hne ho => absurd (Except.ok.inj ho).symm hne⟩

theorem Keeps.sendSolve (h : Keeps s₀ calls 1 s) :
    Keeps s₀ (calls ++ [.solve]) 0 { s with commands := s.commands ++ [.solve] } := by
  refine ⟨h.loadError, h.numVars, fun i answer hi => ?_, fun hw hl => ?_⟩
  · exact (h.replies i answer hi).imp_right fun ⟨hl, hreplies⟩ => ⟨hl, hreplies.solve⟩
  · obtain ⟨done, cs, r, rfl, hserves, hcount⟩ := h.engine hw hl
    refine ⟨done, cs, r, List.append_assoc .., hserves, ?_⟩
    rw [List.count_append, List.count_singleton_self]
    show _ = _ + s.replies.length
    omega

theorem Keeps.sendBlock (h : Keeps s₀ calls 1 s) (c : Clause) :
    Keeps s₀ (calls ++ [.block c]) 1 { s with commands := s.commands ++ [.block c] } := by
  refine ⟨h.loadError, h.numVars, fun i answer hi => ?_, fun hw hl => ?_⟩
  · exact (h.replies i answer hi).imp_right fun ⟨hl, hreplies⟩ => ⟨hl, hreplies.block c⟩
  · obtain ⟨done, cs, r, rfl, hserves, hcount⟩ := h.engine hw hl
    exact ⟨done, cs, r, List.append_assoc .., hserves, by simpa [List.count_append] using hcount⟩

theorem Keeps.solves {result : Except SolverError Outcome} {s' : Session ε} (h : Keeps s₀ calls 1 s)
    (hs : s.Solves result s') : (s'.IsClosed ∨ Keeps s₀ (calls ++ [.solve]) 1 s') ∧
      ∀ o, o ≠ .timeout → result = .ok o → s₀.loadError = none ∧
        ∃ answer, Engine.Replies s₀.numVars s₀.engine (calls ++ [.solve]) 0 answer ∧ outcomeOf answer = .ok o := by
  by_cases hc : s.IsClosed
  · obtain ⟨⟨err, rfl⟩, rfl⟩ := hc.solves hs
    exact ⟨.inl hc, fun o _ ho => by cases ho⟩
  · rcases hs with hrefused | ⟨k, hsend, _⟩
    · cases hrefused.symm.trans (send_of_not_isClosed hc .solve)
    · cases hsend.symm.trans (send_of_not_isClosed hc .solve)
      exact (h.sendSolve.iterate_serve k).receive

theorem Run.keeps {f : Formula} {timeout : Option Nat} {e₀ : ε} (h : (ofFormula f timeout e₀).Run calls s) :
    s.IsClosed ∨ Keeps (ofFormula f timeout e₀) calls 1 s := by
  induction h with
  | start => exact .inr ⟨rfl, rfl, fun i answer hi => (by cases hi), fun _ _ => ⟨[], [], 0, rfl, .start, rfl⟩⟩
  | solve h hs ih =>
    rcases ih with hclosed | hkeeps
    · exact .inl ((hclosed.solves hs).2 ▸ hclosed)
    · exact (hkeeps.solves hs).1
  | @block calls s c h ih =>
    rw [Session.block]
    by_cases hclosed : s.IsClosed
    · obtain ⟨err, he⟩ := hclosed.send (.block c)
      exact .inl (by rwa [he])
    · rw [send_of_not_isClosed hclosed]
      exact .inr ((ih.resolve_left hclosed).sendBlock c)
  | serve h ih => exact ih.imp IsClosed.serve Keeps.serve

/-- A verdict that a call returns was found by a search, for the formula and the clauses that were taken before it. The
search belongs to an earlier call, as many searches back as clauses had been refused by then. -/
theorem exists_serves_of_solves_ok {f : Formula} {timeout : Option Nat} {e₀ : ε} {o : Outcome} {s' : Session ε}
    (hrun : (ofFormula f timeout e₀).Run calls s) (hs : s.Solves (.ok o) s') (hne : o ≠ .timeout) :
    ∃ e₁, Engine.load f.clauses.toList e₀ = (none, e₁) ∧ ∃ before after cs r e answer,
      calls ++ [.solve] = before ++ .solve :: after ∧ Engine.Serves f.numVars e₁ before cs r e ∧
        (Engine.solve f.numVars e).1 = .reply answer ∧ outcomeOf answer = .ok o ∧
          after.count .solve = r ∧ (r = 0 → before = calls) := by
  rcases hrun.keeps with hclosed | hkeeps
  · obtain ⟨⟨err, he⟩, _⟩ := hclosed.solves hs
    cases he
  obtain ⟨hl, answer, ⟨before, after, cs, r, e, hcalls, hserves, ha, hr⟩, hanswer⟩ := (hkeeps.solves hs).2 o hne rfl
  refine ⟨_, Prod.ext hl rfl, before, after, cs, r, e, answer, hcalls, hserves, ha, hanswer, hr.symm, fun hzero => ?_⟩
  exact Engine.eq_of_concat_solve hcalls (by omega)

end Session

/-- An engine that goes through a table, and refuses one clause. -/
structure GuardedTable where
  table : Table
  refused : Clause

namespace GuardedTable

instance : Engine GuardedTable where
  addClause c g :=
    if c = g.refused then (.error (.engineFailed "refused"), g)
    else (.ok (), { g with table := (Engine.addClause c g.table).2 })
  solve n g := ((Engine.solve n g.table).1, g)

/-- It refuses the first variable. -/
def ofTop : GuardedTable := ⟨⟨[]⟩, [⟨1, false⟩]⟩

end GuardedTable

namespace Session

/-- A clause that is refused, a search, and a clause that nothing satisfies. -/
def refusedThenEmpty : List Command := [.block [⟨1, false⟩], .solve, .block [.bottom]]

def afterRefusal : Session GuardedTable :=
  (((ofFormula ⟨2, #[[.top]]⟩ none GuardedTable.ofTop).block [⟨1, false⟩]).2.solve.2.block [.bottom]).2

theorem run_afterRefusal :
    (ofFormula ⟨2, #[[.top]]⟩ none GuardedTable.ofTop).Run refusedThenEmpty afterRefusal :=
  .block [.bottom] (.solve (.block [⟨1, false⟩] .start) (solves_solve _ fun _ => by decide))

theorem solves_afterRefusal : afterRefusal.Solves (.ok (.sat ⟨#[true, false]⟩)) afterRefusal.solve.2 := by
  have hsolve : afterRefusal.solve.1 = .ok (.sat ⟨#[true, false]⟩) := by decide
  rw [← hsolve]
  exact solves_solve _ fun _ => by decide

theorem exists_serves_afterRefusal :
    (ofFormula ⟨2, #[[.top]]⟩ none GuardedTable.ofTop).Run refusedThenEmpty afterRefusal ∧
      afterRefusal.Solves (.ok (.sat ⟨#[true, false]⟩)) afterRefusal.solve.2 ∧
        Outcome.sat ⟨#[true, false]⟩ ≠ .timeout ∧
          ∃ e₁, Engine.load [[.top]] GuardedTable.ofTop = (none, e₁) ∧ ∃ before after cs r e answer,
            refusedThenEmpty ++ [.solve] = before ++ .solve :: after ∧ Engine.Serves 2 e₁ before cs r e ∧
              (Engine.solve 2 e).1 = .reply answer ∧ outcomeOf answer = .ok (.sat ⟨#[true, false]⟩) ∧
                after.count .solve = r ∧ (r = 0 → before = refusedThenEmpty) :=
  ⟨run_afterRefusal, solves_afterRefusal, nofun,
    exists_serves_of_solves_ok run_afterRefusal solves_afterRefusal nofun⟩

/-- No call has timed out, and a model is returned after a clause that excludes all of them was taken. -/
theorem exists_stale_solve :
    (ofFormula ⟨2, #[[.top]]⟩ none GuardedTable.ofTop).Run refusedThenEmpty afterRefusal ∧
      afterRefusal.abandoned = false ∧ afterRefusal.Solves (.ok (.sat ⟨#[true, false]⟩)) afterRefusal.solve.2 ∧
        ∃ e₁ e, Engine.load [[.top]] GuardedTable.ofTop = (none, e₁) ∧
          Engine.Serves 2 e₁ refusedThenEmpty [[.bottom]] 1 e ∧
            ∀ cs r e' answer, Engine.Serves 2 e₁ refusedThenEmpty cs r e' → (Engine.solve 2 e').1 = .reply answer →
              outcomeOf answer = .ok .unsat := by
  set e₁ := (Engine.load [[.top]] GuardedTable.ofTop).2
  have hrefuse : Engine.Serves 2 e₁ [.block [⟨1, false⟩]] [] 1 e₁ := Engine.Serves.start.refuse rfl
  have hsearch : Engine.Serves 2 e₁ [.block [⟨1, false⟩], .solve] [] 1 e₁ :=
    hrefuse.search (show (Engine.solve 2 e₁).1 = .reply (.ok (.sat ⟨#[true, false]⟩)) from rfl)
  refine ⟨run_afterRefusal, rfl, solves_afterRefusal, e₁, _, rfl, hsearch.take rfl, fun cs r e answer h ha => ?_⟩
  obtain rfl := h.engine_eq
  have hsolve : (Engine.solve 2 (Engine.addClause [.bottom] e₁).2).1 = .reply (.ok .unsat) := rfl
  cases hsolve.symm.trans ha
  rfl

end Session

end MinimalistGrammar.Sat
