import MinimalistGrammar.Proofs.Sat.Replies

/-!
A session with calls that time out, at any point of the worker's progress. When no clause is refused there is a reply to
the current search at most, so what a call returns is about the formula and what was blocked before it. A call that has
timed out may leave a reply behind, but no later call reads it.
-/

namespace MinimalistGrammar.Sat

/-- The clauses that are blocked by some calls, in order. -/
def blockedClauses (calls : List Command) : List Clause :=
  calls.filterMap fun
    | .block c => some c
    | .solve => none

namespace Engine

variable {ε : Type} [Engine ε] {n r : Nat} {e₀ e : ε} {calls : List Command} {cs : List Clause}

/-- The engine refuses no clause. -/
def Accepts (ε : Type) [Engine ε] : Prop := ∀ (c : Clause) (e : ε), (addClause c e).1 = .ok ()

theorem Accepts.load (h : Accepts ε) (cs : List Clause) (e : ε) : (load cs e).1 = none := by
  induction cs generalizing e with
  | nil => rfl
  | cons c cs ih =>
    have hc := h c e
    rw [Engine.load]
    split
    · exact ih _
    · rename_i heq
      rw [heq] at hc
      cases hc

theorem Serves.of_accepts (h : Accepts ε) (hs : Serves n e₀ calls cs r e) : r = 0 ∧ cs = blockedClauses calls := by
  induction hs with
  | start => exact ⟨rfl, rfl⟩
  | search _ _ ih => exact ⟨ih.1, by simp [blockedClauses, ih.2]⟩
  | take _ _ ih => exact ⟨ih.1, by simp [blockedClauses, ih.2]⟩
  | refuse _ hc => cases (h _ _).symm.trans hc

/-- The search that comes after the calls has found the outcome. -/
def Finds (n : Nat) (e₀ : ε) (calls : List Command) (o : Outcome) : Prop :=
  ∃ e answer, Serves n e₀ calls (blockedClauses calls) 0 e ∧ (solve n e).1 = .reply answer ∧
    Session.outcomeOf answer = .ok o

end Engine

namespace Session

inductive Event where
  | blocked (clause : Clause) (result : Except SolverError Unit)
  | solved (late : Bool) (result : Except SolverError Outcome)
deriving DecidableEq

namespace Event

def command : Event → Command
  | blocked c _ => .block c
  | solved _ _ => .solve

/-- The call has timed out. -/
def IsLate (x : Event) : Prop := ∃ result, x = solved true result

/-- The session has refused the call because an earlier one has timed out. -/
def IsAbandoned (x : Event) : Prop :=
  (∃ c, x = blocked c (.error .abandoned)) ∨ x = solved false (.error .abandoned)

end Event

variable {ε : Type} {s₀ s s' : Session ε} {log : List Event} {waiting : Bool} {command : Command} {rest : List Command}

/-- The time of the call that waits is up. -/
def expire (s : Session ε) : Except SolverError Outcome × Session ε := (.ok .timeout, { s with abandoned := true })

/-- A search is stopped from outside, or ends when nobody waits for it any more. -/
def stop (answer : Reply) (engine : ε) (s : Session ε) : Session ε :=
  match s.worker, s.commands with
  | .searching, _ => { s with engine, worker := .ready, replies := s.replies ++ [answer] }
  | .ready, .solve :: rest => { s with engine, commands := rest, replies := s.replies ++ [answer] }
  | _, _ => s

theorem send_eq_error {err : SolverError} (h : s.send command = (.error err, s')) : s.IsClosed ∧ s' = s := by
  by_cases hc : s.IsClosed
  · obtain ⟨err, he⟩ := hc.send command
    cases he.symm.trans h
    exact ⟨hc, rfl⟩
  · cases (send_of_not_isClosed hc command).symm.trans h

theorem send_eq_ok (h : s.send command = (.ok (), s')) :
    ¬s.IsClosed ∧ s' = { s with commands := s.commands ++ [command] } := by
  by_cases hc : s.IsClosed
  · obtain ⟨err, he⟩ := hc.send command
    cases he.symm.trans h
  · cases (send_of_not_isClosed hc command).symm.trans h
    exact ⟨hc, rfl⟩

theorem send_of_abandoned (h : s.abandoned = true) (command : Command) : s.send command = (.error .abandoned, s) :=
  if_pos h

variable [Engine ε]

/-- The session after some calls, and whether one more waits for its reply. The worker may serve at any time. A call that
waits may read a reply or find that none can come, and if its time is limited, that may be up whether or not a reply is there.
A search that is on when the time is up is one that is served, or stopped, only then. -/
inductive Exchange (s₀ : Session ε) : List Event → Bool → Session ε → Prop
  | start : Exchange s₀ [] false s₀
  | block {log : List Event} {s : Session ε} (c : Clause) (h : Exchange s₀ log false s) :
      Exchange s₀ (log ++ [.blocked c (s.block c).1]) false (s.block c).2
  | refuse {log : List Event} {s s' : Session ε} {err : SolverError} (h : Exchange s₀ log false s)
      (hs : s.send .solve = (.error err, s')) : Exchange s₀ (log ++ [.solved false (.error err)]) false s'
  | ask {log : List Event} {s s' : Session ε} (h : Exchange s₀ log false s) (hs : s.send .solve = (.ok (), s')) :
      Exchange s₀ log true s'
  | serve {log : List Event} {waiting : Bool} {s : Session ε} (h : Exchange s₀ log waiting s) :
      Exchange s₀ log waiting s.serve
  | stop {log : List Event} {waiting : Bool} {s : Session ε} (answer : Reply) (engine : ε)
      (h : Exchange s₀ log waiting s) (ha : s.abandoned = true) : Exchange s₀ log waiting (s.stop answer engine)
  | receive {log : List Event} {s : Session ε} (h : Exchange s₀ log true s) (hr : s.replies ≠ [] ∨ s.worker = .gone) :
      Exchange s₀ (log ++ [.solved false s.receive.1]) false s.receive.2
  | expire {log : List Event} {s : Session ε} (h : Exchange s₀ log true s) (ht : s.timeout.isSome) :
      Exchange s₀ (log ++ [.solved true s.expire.1]) false s.expire.2

/-- What the worker can do in one step when no clause is refused. -/
inductive Serves (s : Session ε) : Session ε → Prop
  | idle : Serves s s
  | take {c : Clause} {rest : List Command} {e : ε} (hw : s.worker = .ready) (hc : s.commands = .block c :: rest) :
      Serves s { s with engine := e, commands := rest }
  | reply {rest : List Command} {e : ε} {answer : Reply} (hw : s.worker = .ready) (hc : s.commands = .solve :: rest) :
      Serves s { s with engine := e, commands := rest, replies := s.replies ++ [answer] }
  | search {rest : List Command} {e : ε} (hw : s.worker = .ready) (hc : s.commands = .solve :: rest) :
      Serves s { s with engine := e, commands := rest, worker := .searching }
  | crash {rest : List Command} {e : ε} (hw : s.worker = .ready) (hc : s.commands = .solve :: rest) :
      Serves s { s with engine := e, commands := [], worker := .gone }

theorem serves_serve (h : Engine.Accepts ε) (hl : s.loadError = none) : s.Serves s.serve := by
  obtain ⟨engine, numVars, loadError, commands, replies, worker, timeout, abandoned⟩ := s
  obtain rfl : loadError = none := hl
  unfold serve
  split
  · rename_i command rest hw hc
    cases command with
    | solve =>
      simp only [execute]
      split
      · exact .reply hw hc
      · exact .search hw hc
      · exact .crash hw hc
    | block c =>
      have hadd := h c engine
      simp only [execute]
      split
      · exact .take hw hc
      · rename_i heq
        rw [heq] at hadd
        cases hadd
  · exact .idle

section InFlight

omit [Engine ε]

/-- How many replies wait to be read or are still to come. -/
def pending (s : Session ε) : Nat :=
  s.replies.length + s.commands.count .solve + if s.worker = .searching then 1 else 0

theorem Serves.pending_le (hs : s.Serves s') : s'.pending ≤ s.pending := by
  cases hs with
  | idle => exact Nat.le_refl _
  | take hw hc => simp [pending, hc]
  | reply hw hc =>
    simp [pending, hw, hc]
    omega
  | search hw hc => simp [pending, hw, hc]
  | crash hw hc => simp [pending, hw, hc]

theorem Serves.frame (hs : s.Serves s') : s'.loadError = s.loadError ∧ s'.abandoned = s.abandoned := by
  cases hs <;> exact ⟨rfl, rfl⟩

theorem Serves.commands_eq_nil (hs : s.Serves s') (h : s.worker = .gone → s.commands = []) :
    s'.worker = .gone → s'.commands = [] := by
  cases hs with
  | idle => exact h
  | take hw _ => exact fun hg => by cases hw.symm.trans hg
  | reply hw _ => exact fun hg => by cases hw.symm.trans hg
  | search _ _ => exact nofun
  | crash _ _ => exact fun _ => rfl

theorem pending_stop (answer : Reply) (engine : ε) (s : Session ε) : (s.stop answer engine).pending = s.pending := by
  unfold stop
  split
  · rename_i hw
    simp [pending, hw]
    omega
  · rename_i hw hc
    simp [pending, hw, hc]
    omega
  · rfl

/-- There is at most the reply to the search of the call that waits, or of the one that has timed out. -/
structure InFlight (waiting : Bool) (s : Session ε) : Prop where
  loadError : s.loadError = none
  gone : s.worker = .gone → s.commands = []
  pending_le : s.pending ≤ 1
  pending_eq : waiting = false → s.abandoned = false → s.pending = 0
  abandoned : waiting = true → s.abandoned = false

theorem InFlight.serves (h : InFlight waiting s) (hs : s.Serves s') : InFlight waiting s' := by
  have hle := hs.pending_le
  obtain ⟨hl, ha⟩ := hs.frame
  refine ⟨hl.trans h.loadError, hs.commands_eq_nil h.gone, hle.trans h.pending_le, fun hi ha' => ?_,
    fun hi => ha.trans (h.abandoned hi)⟩
  have := h.pending_eq hi (ha.symm.trans ha')
  omega

theorem InFlight.stop (h : InFlight waiting s) (ha : s.abandoned = true) (answer : Reply) (engine : ε) :
    InFlight waiting (s.stop answer engine) := by
  have hframe : (s.stop answer engine).loadError = s.loadError ∧ (s.stop answer engine).abandoned = s.abandoned ∧
      ((s.stop answer engine).worker = .gone → s.worker = .gone ∧ (s.stop answer engine).commands = s.commands) := by
    unfold Session.stop
    split
    · exact ⟨rfl, rfl, nofun⟩
    · rename_i hw _
      exact ⟨rfl, rfl, fun hg => by cases hw.symm.trans hg⟩
    · exact ⟨rfl, rfl, fun hg => ⟨hg, rfl⟩⟩
  obtain ⟨hl, habandoned, hgone⟩ := hframe
  have hpending := pending_stop answer engine s
  refine ⟨hl.trans h.loadError, fun hg => ?_, hpending ▸ h.pending_le, fun _ ha' => ?_, fun hw => ?_⟩
  · obtain ⟨hg, hc⟩ := hgone hg
    exact hc.trans (h.gone hg)
  · cases ha.symm.trans (habandoned.symm.trans ha')
  · cases ha.symm.trans (h.abandoned hw)

theorem InFlight.block (h : InFlight false s) (c : Clause) : InFlight false (s.block c).2 := by
  rw [Session.block]
  by_cases hc : s.IsClosed
  · obtain ⟨err, he⟩ := hc.send (.block c)
    rwa [he]
  · rw [send_of_not_isClosed hc]
    have hp : pending { s with commands := s.commands ++ [.block c] } = s.pending := by simp [pending]
    exact ⟨h.loadError, fun hg => absurd (.inr hg) hc, hp ▸ h.pending_le, fun hi ha => hp ▸ h.pending_eq hi ha,
      fun hi => by cases hi⟩

theorem InFlight.ask (h : InFlight false s) (hs : s.send .solve = (.ok (), s')) : InFlight true s' := by
  obtain ⟨hc, rfl⟩ := send_eq_ok hs
  have ha : s.abandoned = false := Bool.eq_false_iff.2 fun ha => hc (.inl ha)
  have hp : pending { s with commands := s.commands ++ [.solve] } = s.pending + 1 := by
    simp [pending]
    omega
  have hzero := h.pending_eq rfl ha
  exact ⟨h.loadError, fun hg => absurd (.inr hg) hc, by omega, nofun, fun _ => ha⟩

theorem InFlight.receive (h : InFlight true s) (hr : s.replies ≠ [] ∨ s.worker = .gone) :
    InFlight false s.receive.2 ∧ s.receive.2.abandoned = false ∧ s.receive.1 ≠ .ok .timeout := by
  have hle := h.pending_le
  rw [Session.receive]
  split
  · rename_i reply rest he
    have hp : pending { s with replies := rest } = 0 := by
      simp only [pending, he, List.length_cons] at hle ⊢
      omega
    refine ⟨⟨h.loadError, h.gone, hp.le.trans (Nat.zero_le 1), fun _ _ => hp, fun hi => by cases hi⟩, h.abandoned rfl, ?_⟩
    intro ht
    rcases reply with err | verdict
    · cases ht
    · cases verdict <;> cases ht
  · rename_i he
    have hg := hr.resolve_left fun hne => hne he
    have hp : s.pending = 0 := by simp [pending, he, h.gone hg, hg]
    rw [if_pos hg]
    exact ⟨⟨h.loadError, h.gone, hle, fun _ _ => hp, fun hi => by cases hi⟩, h.abandoned rfl, fun ht => by cases ht⟩

theorem InFlight.expire (h : InFlight true s) : InFlight false s.expire.2 :=
  ⟨h.loadError, h.gone, h.pending_le, nofun, nofun⟩

end InFlight

variable {f : Formula} {timeout : Option Nat} {e₀ : ε} {o : Outcome} {x : Event}

theorem Exchange.inFlight (hadd : Engine.Accepts ε) (h : (ofFormula f timeout e₀).Exchange log waiting s) :
    InFlight waiting s := by
  induction h with
  | start => exact ⟨hadd.load _ _, nofun, Nat.zero_le 1, fun _ _ => rfl, nofun⟩
  | block c _ ih => exact ih.block c
  | refuse _ hs ih => exact (send_eq_error hs).2 ▸ ih
  | ask _ hs ih => exact ih.ask hs
  | serve _ ih => exact ih.serves (serves_serve hadd ih.loadError)
  | stop answer engine _ ha ih => exact ih.stop ha answer engine
  | receive _ hr ih => exact (ih.receive hr).1
  | expire _ _ ih => exact ih.expire

theorem abandoned_serve (s : Session ε) : s.serve.abandoned = s.abandoned := by
  unfold serve
  split
  · exact abandoned_execute _ _
  · rfl

omit [Engine ε] in
theorem abandoned_stop (answer : Reply) (engine : ε) (s : Session ε) :
    (s.stop answer engine).abandoned = s.abandoned := by
  unfold stop
  split <;> rfl

/-- As long as the session is open, the replies are to the searches of its calls. -/
theorem Exchange.keeps (hadd : Engine.Accepts ε) (h : (ofFormula f timeout e₀).Exchange log waiting s) :
    (waiting = true → Keeps (ofFormula f timeout e₀) (log.map Event.command ++ [.solve]) 0 s) ∧
      (waiting = false → s.IsClosed ∨ Keeps (ofFormula f timeout e₀) (log.map Event.command) 1 s) := by
  induction h with
  | start =>
    exact ⟨fun hw => (by cases hw), fun _ => .inr ⟨rfl, rfl, fun i answer hi => (by cases hi),
      fun _ _ => ⟨[], [], 0, rfl, .start, rfl⟩⟩⟩
  | @block log s c _ ih =>
    refine ⟨fun hw => (by cases hw), fun _ => ?_⟩
    rw [Session.block, List.map_append]
    by_cases hc : s.IsClosed
    · obtain ⟨err, he⟩ := hc.send (.block c)
      exact .inl (by rwa [he])
    · rw [send_of_not_isClosed hc]
      exact .inr (((ih.2 rfl).resolve_left hc).sendBlock c)
  | refuse _ hs =>
    obtain ⟨hc, rfl⟩ := send_eq_error hs
    exact ⟨fun hw => (by cases hw), fun _ => .inl hc⟩
  | ask _ hs ih =>
    obtain ⟨hc, rfl⟩ := send_eq_ok hs
    exact ⟨fun _ => ((ih.2 rfl).resolve_left hc).sendSolve, fun hw => (by cases hw)⟩
  | serve _ ih => exact ⟨fun hw => (ih.1 hw).serve, fun hw => (ih.2 hw).imp IsClosed.serve Keeps.serve⟩
  | stop answer engine h ha =>
    refine ⟨fun hw => ?_, fun _ => .inl (.inl ((abandoned_stop answer engine _).trans ha))⟩
    cases ha.symm.trans ((h.inFlight hadd).abandoned hw)
  | receive _ _ ih =>
    refine ⟨fun hw => (by cases hw), fun _ => ?_⟩
    rw [List.map_append]
    exact (ih.1 rfl).receive.1
  | expire => exact ⟨fun hw => (by cases hw), fun _ => .inl (.inl rfl)⟩

/-- A reply that is read was found by the search of the call that reads it. -/
theorem Exchange.finds (hadd : Engine.Accepts ε) (h : (ofFormula f timeout e₀).Exchange log true s)
    (hne : o ≠ .timeout) (ho : s.receive.1 = .ok o) :
    Engine.Finds f.numVars (Engine.load f.clauses.toList e₀).2 (log.map Event.command) o := by
  obtain ⟨_, answer, ⟨before, after, cs, r, e, hcalls, hserves, ha, hr⟩, hanswer⟩ :=
    ((h.keeps hadd).1 rfl).receive.2 o hne ho
  obtain ⟨rfl, rfl⟩ := hserves.of_accepts hadd
  obtain rfl := Engine.eq_of_concat_solve hcalls (by omega)
  exact ⟨e, answer, hserves, ha, hanswer⟩

structure Records (n : Nat) (e₁ : ε) (log : List Event) (s : Session ε) : Prop where
  found : ∀ before x after, log = before ++ x :: after → ∀ late o, x = .solved late (.ok o) → o ≠ .timeout →
    Engine.Finds n e₁ (before.map Event.command) o
  late_iff : ∀ late result, .solved late result ∈ log → (late = true ↔ result = .ok .timeout)
  abandoned : (∃ x ∈ log, x.IsLate) → s.abandoned = true
  refused : log.Pairwise fun x y => x.IsLate → y.IsAbandoned

theorem Records.concat {n : Nat} {e₁ : ε} (h : Records n e₁ log s)
    (hfound : ∀ late o, x = .solved late (.ok o) → o ≠ .timeout → Engine.Finds n e₁ (log.map Event.command) o)
    (hlate : ∀ late result, x = .solved late result → (late = true ↔ result = .ok .timeout))
    (hrefused : s.abandoned = true → x.IsAbandoned) (hs : s.abandoned = true ∨ x.IsLate → s'.abandoned = true) :
    Records n e₁ (log ++ [x]) s' := by
  constructor
  · intro before y after heq
    rcases List.eq_nil_or_concat after with rfl | ⟨after, last, rfl⟩
    · obtain ⟨rfl, hx⟩ := List.append_inj' heq rfl
      cases hx
      exact hfound
    · rw [List.concat_eq_append, ← List.cons_append, ← List.append_assoc] at heq
      exact h.found before y after (List.append_inj' heq rfl).1
  · intro late result hmem
    rcases List.mem_append.1 hmem with hmem | hmem
    · exact h.late_iff late result hmem
    · exact hlate late result (List.mem_singleton.1 hmem).symm
  · rintro ⟨y, hy, hl⟩
    rcases List.mem_append.1 hy with hy | hy
    · exact hs (.inl (h.abandoned ⟨y, hy, hl⟩))
    · exact hs (.inr (List.mem_singleton.1 hy ▸ hl))
  · refine List.pairwise_append.2 ⟨h.refused, List.pairwise_singleton _ _, fun y hy z hz hl => ?_⟩
    exact List.mem_singleton.1 hz ▸ hrefused (h.abandoned ⟨y, hy, hl⟩)

theorem Exchange.records (hadd : Engine.Accepts ε) (h : (ofFormula f timeout e₀).Exchange log waiting s) :
    Records f.numVars (Engine.load f.clauses.toList e₀).2 log s := by
  -- four of the steps end a command and add it to the log; the others leave the log as it is
  induction h with
  | start => exact ⟨by simp, by simp, by simp, .nil⟩
  | @block log s c _ ih =>
    refine ih.concat (fun _ _ hx => by cases hx) (fun _ _ hx => by cases hx) (fun ha => .inl ⟨c, ?_⟩) fun ha => ?_
    · rw [Session.block, send_of_abandoned ha]
    · rcases ha with ha | ⟨_, hl⟩
      · rwa [Session.block, send_of_abandoned ha]
      · cases hl
  | @refuse log s s' err _ hs ih =>
    obtain ⟨_, rfl⟩ := send_eq_error hs
    refine ih.concat (fun _ _ hx => by cases hx) ?_ (fun ha => .inr ?_) fun ha => ?_
    · rintro _ _ ⟨⟩
      exact ⟨fun ht => (by cases ht), fun ht => (by cases ht)⟩
    · cases hs.symm.trans (send_of_abandoned ha .solve)
      rfl
    · rcases ha with ha | ⟨_, hl⟩
      · exact ha
      · cases hl
  | ask _ hs ih =>
    obtain ⟨_, rfl⟩ := send_eq_ok hs
    exact ⟨ih.found, ih.late_iff, ih.abandoned, ih.refused⟩
  | serve _ ih => exact ⟨ih.found, ih.late_iff, fun hl => (abandoned_serve _).trans (ih.abandoned hl), ih.refused⟩
  | stop answer engine _ ha ih =>
    exact ⟨ih.found, ih.late_iff, fun hl => (abandoned_stop answer engine _).trans ha, ih.refused⟩
  | @receive log s h hr ih =>
    have ha := (h.inFlight hadd).abandoned rfl
    refine ih.concat (fun late o hx hne => ?_) ?_ (fun ha' => by cases ha.symm.trans ha') ?_
    · obtain ⟨_, ho⟩ := Event.solved.inj hx
      exact h.finds hadd hne ho
    · rintro _ _ ⟨⟩
      exact ⟨fun hl => (by cases hl), fun ht => absurd ht ((h.inFlight hadd).receive hr).2.2⟩
    · rintro (ha' | ⟨_, hl⟩)
      · cases ha.symm.trans ha'
      · cases hl
  | @expire log s h _ ih =>
    have ha := (h.inFlight hadd).abandoned rfl
    refine ih.concat ?_ ?_ (fun ha' => by cases ha.symm.trans ha') fun _ => rfl
    · rintro _ _ ⟨⟩ hne
      exact absurd rfl hne
    · rintro _ _ ⟨⟩
      exact ⟨fun _ => rfl, fun _ => rfl⟩

/-- There is never more than the reply to the current search. A verdict that a call returns was found by its own search,
for the formula and what was blocked before. A call that times out says so, and after it all are refused. -/
theorem exchange_isOrderly (hadd : Engine.Accepts ε) (h : (ofFormula f timeout e₀).Exchange log waiting s) :
    s.pending ≤ 1 ∧ (waiting = false → s.abandoned = false → s.pending = 0) ∧
      (∃ e₁, Engine.load f.clauses.toList e₀ = (none, e₁) ∧ ∀ before late o after,
        log = before ++ .solved late (.ok o) :: after → o ≠ .timeout →
          Engine.Finds f.numVars e₁ (before.map Event.command) o) ∧
        (∀ late result, .solved late result ∈ log → (late = true ↔ result = .ok .timeout)) ∧
          log.Pairwise (fun x y => x.IsLate → y.IsAbandoned) ∧ ((∃ x ∈ log, x.IsLate) → waiting = false) := by
  have hflight := h.inFlight hadd
  have hrecords := h.records hadd
  refine ⟨hflight.pending_le, hflight.pending_eq, ⟨_, Prod.ext (hadd.load _ _) rfl, fun before late o after heq hne => ?_⟩,
    hrecords.late_iff, hrecords.refused, fun hl => ?_⟩
  · exact hrecords.found before _ after heq late o rfl hne
  · refine Bool.eq_false_iff.2 fun hw => ?_
    cases (hrecords.abandoned hl).symm.trans (hflight.abandoned hw)

theorem Exchange.iterate_serve (h : s₀.Exchange log waiting s) (k : Nat) :
    s₀.Exchange log waiting (Session.serve^[k] s) := by
  induction k generalizing s with
  | zero => exact h
  | succ k ih => exact ih h.serve

theorem Exchange.read (h : s₀.Exchange log true s) (hr : s.Returns) :
    ∃ late, s₀.Exchange (log ++ [.solved late s.receive.1]) false s.receive.2 := by
  by_cases hreply : s.replies ≠ [] ∨ s.worker = .gone
  · exact ⟨false, h.receive hreply⟩
  · have ht : s.timeout.isSome := (or_assoc.2 hr).resolve_left hreply
    rw [not_or, not_not] at hreply
    have hexpire : s.receive = s.expire := by
      unfold Session.receive
      split
      · rename_i heq
        cases hreply.1.symm.trans heq
      · exact if_neg hreply.2
    rw [hexpire]
    exact ⟨true, h.expire ht⟩

theorem Exchange.solve (h : s₀.Exchange log false s) (hr : ¬s.IsClosed → (s.send .solve).2.serveAll.Returns) :
    ∃ late, s₀.Exchange (log ++ [.solved late s.solve.1]) false s.solve.2 := by
  by_cases hc : s.IsClosed
  · obtain ⟨err, he⟩ := hc.send .solve
    rw [Session.solve, he]
    exact ⟨false, h.refuse he⟩
  · have hsend := send_of_not_isClosed hc .solve
    have hr := hr hc
    rw [hsend] at hr
    rw [Session.solve, hsend]
    dsimp only [serveAll] at hr ⊢
    rw [List.foldl_const] at hr ⊢
    exact ((h.ask hsend).iterate_serve _).read hr

/-- After a model, and none once its first variable is blocked, a call times out with its reply already there. -/
theorem exchange_isOrderly_lateReply : Engine.Accepts Table ∧ ∃ log s,
    (ofFormula ⟨2, #[[.top], [⟨1, false⟩]]⟩ (some 10) (⟨[]⟩ : Table)).Exchange log false s ∧
      log = [.solved false (.ok (.sat ⟨#[true, true]⟩)), .blocked [⟨1, true⟩] (.ok ()), .solved false (.ok .unsat),
        .solved true (.ok .timeout), .blocked [⟨0, false⟩] (.error .abandoned), .solved false (.error .abandoned)] ∧
        s.replies = [.ok .unsat] ∧ s.pending ≤ 1 ∧ log.Pairwise (fun x y => x.IsLate → y.IsAbandoned) ∧
          ∃ e₁, Engine.load [[.top], [⟨1, false⟩]] (⟨[]⟩ : Table) = (none, e₁) ∧
            Engine.Finds 2 e₁ [.solve, .block [⟨1, true⟩]] .unsat := by
  have hadd : Engine.Accepts Table := fun _ _ => rfl
  have hstart : (ofFormula ⟨2, #[[.top], [⟨1, false⟩]]⟩ (some 10) (⟨[]⟩ : Table)).Exchange [] false
      (ofFormula ⟨2, #[[.top], [⟨1, false⟩]]⟩ (some 10) ⟨[]⟩) := .start
  have hsat := (hstart.ask rfl).serve.receive (.inl (by decide))
  have hunsat := ((hsat.block [⟨1, true⟩]).ask rfl).serve.serve.receive (.inl (by decide))
  have hrun := (((hunsat.ask rfl).serve.expire rfl).block [⟨0, false⟩]).refuse rfl
  obtain ⟨hpending, _, ⟨e₁, hload, hfound⟩, _, hrefused, _⟩ := exchange_isOrderly hadd hrun
  exact ⟨hadd, _, _, hrun, rfl, rfl, hpending, hrefused, e₁, hload, hfound [_, _] false .unsat [_, _, _] rfl nofun⟩

end Session

end MinimalistGrammar.Sat
