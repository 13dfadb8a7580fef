import MinimalistGrammar.Proofs.Sat.Enumeration

/-!
What holds of an enumeration whatever the session answers, and however its caller mixes calls for a model and refunds.
The limit bounds the models that came and were not taken back. What ends the enumeration, or fails, does so for good, and
an end is never claimed without its cause.
-/

namespace MinimalistGrammar.Sat

namespace Enumeration

/-- A call of a run. -/
inductive Event where
  /-- A call for the next model: the answer of the search that it made, if it made one, and what came of it. -/
  | looked (search : Option (Except SolverError Outcome)) (found : Option (Except SolverError Model))
  | refunded
deriving DecidableEq

namespace Event

def isYield : Event → Bool
  | looked _ (some (.ok _)) => true
  | _ => false

def isRefund : Event → Bool
  | refunded => true
  | _ => false

def Fails (x : Event) : Prop := ∃ search err, x = looked search (some (.error err))

/-- Nothing is searched and nothing comes. -/
def IsIdle (x : Event) : Prop := x = refunded ∨ x = looked none none

def yields (log : List Event) : Nat := log.countP isYield

def refunds (log : List Event) : Nat := log.countP isRefund

theorem IsIdle.not_fails {x : Event} (h : x.IsIdle) : ¬x.Fails := by
  rintro ⟨_, _, rfl⟩
  rcases h with h | h <;> cases h

end Event

open Event

variable {ε : Type} [Engine ε] {log log₀ log' : List Event} {e e₀ e' : Enumeration ε} {limit : Option Nat}
  {search : Option (Except SolverError Outcome)} {result : Option (Except SolverError Model)} {session : Session ε}
  {projection : List Literal} {t : Termination}

/-- What the search answers that the next call makes, if it makes one. -/
def search? (e : Enumeration ε) : Option (Except SolverError Outcome) :=
  if e.termination.isSome ∨ e.remaining = some 0 ∨ e.released = true then none else some e.session.solve.1

/-- An enumeration after further calls, with all calls so far. No more is taken back than has come, and the session may
come to any state between the calls. -/
inductive Run (log₀ : List Event) (e₀ : Enumeration ε) : List Event → Enumeration ε → Prop
  | start : Run log₀ e₀ log₀ e₀
  | next {log : List Event} {e : Enumeration ε} (h : Run log₀ e₀ log e) :
      Run log₀ e₀ (log ++ [.looked e.search? e.next.1]) e.next.2
  | refund {log : List Event} {e : Enumeration ε} (h : Run log₀ e₀ log e) (hr : refunds log < yields log) :
      Run log₀ e₀ (log ++ [.refunded]) e.refund
  | session {log : List Event} {e : Enumeration ε} (h : Run log₀ e₀ log e) (session : Session ε) :
      Run log₀ e₀ log { e with session }

/-- Nothing will come of a call. -/
def IsOver (e : Enumeration ε) : Prop := e.termination.isSome ∨ e.released = true ∧ e.remaining ≠ some 0

/-- What a call for the next model can come to, with the answer of its search. -/
inductive Looks (e : Enumeration ε) :
    Option (Except SolverError Outcome) → Option (Except SolverError Model) → Enumeration ε → Prop
  | ended (ho : e.IsOver) : Looks e none none e
  | limited (ho : ¬e.IsOver) (hr : e.remaining = some 0) : Looks e none none (e.finish .limitReached)
  | found {m : Model} {session : Session ε} (ho : ¬e.IsOver) (hr : e.remaining ≠ some 0) :
      Looks e (some (.ok (.sat m))) (some (.ok m)) { e with session, remaining := e.remaining.map (· - 1) }
  | exhausted {session : Session ε} (ho : ¬e.IsOver) :
      Looks e (some (.ok .unsat)) none (finish .exhausted { e with session })
  | timedOut {session : Session ε} (ho : ¬e.IsOver) :
      Looks e (some (.ok .timeout)) none (finish .timedOut { e with session })
  | failed {answer : Except SolverError Outcome} {err : SolverError} {session : Session ε} (ho : ¬e.IsOver)
      (hr : e.remaining ≠ some 0) : Looks e (some answer) (some (.error err)) (release { e with session })

/-- Why an enumeration ends so after some calls: what its last search answered, or that it made none and as many models
came and stayed as the limit allows. -/
def EndsFor (limit : Option Nat) (log : List Event) (search : Option (Except SolverError Outcome)) :
    Termination → Prop
  | .exhausted => search = some (.ok .unsat)
  | .timedOut => search = some (.ok .timeout)
  | .limitReached => search = none ∧ limit = some (yields log - refunds log)

/-- The call that ended the enumeration so found nothing, and after it nothing is searched and nothing comes. -/
def EndedFor (limit : Option Nat) (t : Termination) (log : List Event) : Prop :=
  ∃ before search after, log = before ++ .looked search none :: after ∧ EndsFor limit before search t ∧
    ∀ x ∈ after, x.IsIdle

theorem EndedFor.concat {x : Event} (h : EndedFor limit t log) (hx : x.IsIdle) : EndedFor limit t (log ++ [x]) := by
  obtain ⟨before, search, after, rfl, hends, hidle⟩ := h
  refine ⟨before, search, after ++ [x], by simp, hends, fun y hy => ?_⟩
  rcases List.mem_append.1 hy with hy | hy
  · exact hidle y hy
  · exact List.mem_singleton.1 hy ▸ hx

structure Tracks (limit : Option Nat) (log : List Event) (e : Enumeration ε) : Prop where
  refunds_le : refunds log ≤ yields log
  remaining : e.remaining = limit.map (· - (yields log - refunds log))
  within : ∀ k, limit = some k → yields log - refunds log ≤ k
  ended : ∀ t, e.termination = some t → EndedFor limit t log
  failed : (∃ x ∈ log, x.Fails) → e.termination = none ∧ e.IsOver
  idle : log.Pairwise fun x y => x.Fails → y.IsIdle

section Tracks

omit [Engine ε]

theorem IsOver.refund (h : e.IsOver) : e.refund.IsOver := by
  refine h.imp_right fun ⟨hl, hr⟩ => ⟨hl, ?_⟩
  simp only [Enumeration.refund]
  cases e.remaining <;> simp

theorem tracks_ofSession : Tracks limit [] (ofSession session projection limit) where
  refunds_le := Nat.le_refl _
  remaining := by simp [ofSession, yields, refunds]
  within _ _ := Nat.zero_le _
  ended _ ht := by cases ht
  failed := by simp
  idle := .nil

theorem Tracks.pairwise_concat {x : Event} (h : Tracks limit log e) (hx : (∃ y ∈ log, y.Fails) → x.IsIdle) :
    (log ++ [x]).Pairwise fun x y => x.Fails → y.IsIdle :=
  List.pairwise_append.2 ⟨h.idle, List.pairwise_singleton _ _, fun y hy _ hz hf =>
    List.mem_singleton.1 hz ▸ hx ⟨y, hy, hf⟩⟩

theorem exists_fails_concat {x : Event} (hx : ¬x.Fails) : (∃ y ∈ log ++ [x], y.Fails) ↔ ∃ y ∈ log, y.Fails := by
  simp only [List.mem_append, List.mem_singleton]
  constructor
  · rintro ⟨y, hy | rfl, hf⟩
    · exact ⟨y, hy, hf⟩
    · exact absurd hf hx
  · rintro ⟨y, hy, hf⟩
    exact ⟨y, .inl hy, hf⟩

theorem Tracks.not_fails (h : Tracks limit log e) (ho : ¬e.IsOver) : ¬∃ x ∈ log, x.Fails := fun hf => ho (h.failed hf).2

theorem Tracks.refund (h : Tracks limit log e) (hr : refunds log < yields log) :
    Tracks limit (log ++ [.refunded]) e.refund := by
  have hy : yields (log ++ [.refunded]) = yields log := by simp [yields, isYield]
  have hrf : refunds (log ++ [.refunded]) = refunds log + 1 := by simp [refunds, isRefund]
  have hidle : IsIdle .refunded := .inl rfl
  refine ⟨by omega, ?_, fun k hk => ?_, fun t ht => (h.ended t ht).concat hidle, fun hf => ?_,
    h.pairwise_concat fun _ => hidle⟩
  · rw [Enumeration.refund, h.remaining, hy, hrf, Option.map_map]
    cases limit with
    | none => rfl
    | some k =>
      have := h.within k rfl
      simp only [Option.map_some, Function.comp_apply, Option.some.injEq]
      omega
  · have := h.within k hk
    omega
  · obtain ⟨ht, ho⟩ := h.failed ((exists_fails_concat hidle.not_fails).1 hf)
    exact ⟨ht, ho.refund⟩

theorem Tracks.change (h : Tracks limit log e) (session : Session ε) : Tracks limit log { e with session } :=
  ⟨h.refunds_le, h.remaining, h.within, h.ended, h.failed, h.idle⟩

theorem Tracks.concat_none (h : Tracks limit log e) (hr : e'.remaining = e.remaining)
    (hf : (∃ x ∈ log, x.Fails) → e'.termination = none ∧ e'.IsOver ∧ search = none)
    (ht : ∀ t, e'.termination = some t → EndedFor limit t (log ++ [.looked search none])) :
    Tracks limit (log ++ [.looked search none]) e' := by
  have hy : yields (log ++ [.looked search none]) = yields log := by simp [yields, isYield]
  have hrf : refunds (log ++ [.looked search none]) = refunds log := by simp [refunds, isRefund]
  have hnot : ¬Fails (.looked search none) := by rintro ⟨_, _, h⟩; cases h
  refine ⟨by rw [hy, hrf]; exact h.refunds_le, by rw [hr, h.remaining, hy, hrf], by rw [hy, hrf]; exact h.within, ht,
    fun hx => ?_, h.pairwise_concat fun hx => .inr (by rw [(hf hx).2.2])⟩
  obtain ⟨ht', ho, _⟩ := hf ((exists_fails_concat hnot).1 hx)
  exact ⟨ht', ho⟩

theorem Tracks.found (h : Tracks limit log e) (ho : ¬e.IsOver) (hr : e.remaining ≠ some 0) (m : Model)
    (session : Session ε) : Tracks limit (log ++ [.looked search (some (.ok m))])
      { e with session, remaining := e.remaining.map (· - 1) } := by
  have hy : yields (log ++ [.looked search (some (.ok m))]) = yields log + 1 := by simp [yields, isYield]
  have hrf : refunds (log ++ [.looked search (some (.ok m))]) = refunds log := by simp [refunds, isRefund]
  have hnot : ¬Fails (.looked search (some (.ok m))) := by rintro ⟨_, _, h⟩; cases h
  have hle := h.refunds_le
  have hopen : ∀ k, limit = some k → yields log - refunds log < k := by
    rintro k rfl
    have := h.within k rfl
    rw [h.remaining, Option.map_some, ne_eq, Option.some.injEq] at hr
    omega
  refine ⟨by omega, ?_, fun k hk => ?_, fun t ht => absurd (.inl (by rw [ht]; rfl)) ho,
    fun hf => absurd ((exists_fails_concat hnot).1 hf) (h.not_fails ho),
    h.pairwise_concat fun hf => absurd hf (h.not_fails ho)⟩
  · dsimp only
    rw [h.remaining, hy, hrf, Option.map_map]
    cases limit with
    | none => rfl
    | some k =>
      simp only [Option.map_some, Function.comp_apply, Option.some.injEq]
      omega
  · have := hopen k hk
    omega

end Tracks

theorem IsOver.next (h : e.IsOver) : e.search? = none ∧ e.next = (none, e) := by
  by_cases ht : e.termination.isSome
  · exact ⟨if_pos (.inl ht), if_pos ht⟩
  · obtain ⟨hl, hr⟩ := h.resolve_left ht
    exact ⟨if_pos (.inr (.inr hl)), by rw [Enumeration.next, if_neg ht, if_neg hr, if_pos hl]⟩

theorem looks_next (e : Enumeration ε) : e.Looks e.search? e.next.1 e.next.2 := by
  by_cases ho : e.IsOver
  · rw [ho.next.1, ho.next.2]
    exact .ended ho
  have ht : ¬e.termination.isSome := fun h => ho (.inl h)
  by_cases hr : e.remaining = some 0
  · have hsearch : e.search? = none := if_pos (.inr (.inl hr))
    rw [hsearch, next, if_neg ht, if_pos hr]
    exact .limited ho hr
  have hl : ¬e.released = true := fun h => ho (.inr ⟨h, hr⟩)
  have hsearch : e.search? = some e.session.solve.1 := if_neg (by simp [ht, hr, hl])
  rw [hsearch, next, if_neg ht, if_neg hr, if_neg hl]
  generalize e.session.solve = answer
  obtain ⟨err | outcome, session⟩ := answer
  · exact .failed ho hr
  · cases outcome with
    | unsat => exact .exhausted ho
    | timeout => exact .timedOut ho
    | sat m =>
      simp only [accept]
      generalize session.block (blockingClause e.projection m) = answer
      obtain ⟨err | _, session⟩ := answer
      · exact .failed ho hr
      · exact .found ho hr

/-- Once nothing will come of a call, calls change no more than what remains of the limit. -/
theorem IsOver.run (h : e.IsOver) (hrun : Run log e log' e') : e'.IsOver ∧ e'.termination = e.termination ∧
    ∃ later, log' = log ++ later ∧ ∀ x ∈ later, x.IsIdle := by
  induction hrun with
  | start => exact ⟨h, rfl, [], by simp, by simp⟩
  | next _ ih =>
    obtain ⟨ho, ht, later, rfl, hidle⟩ := ih
    obtain ⟨hs, hn⟩ := ho.next
    rw [hs, hn]
    refine ⟨ho, ht, later ++ [.looked none none], List.append_assoc .., fun x hx => ?_⟩
    rcases List.mem_append.1 hx with hx | hx
    · exact hidle x hx
    · exact .inr (List.mem_singleton.1 hx)
  | refund _ _ ih =>
    obtain ⟨ho, ht, later, rfl, hidle⟩ := ih
    refine ⟨ho.refund, ht, later ++ [.refunded], List.append_assoc .., fun x hx => ?_⟩
    rcases List.mem_append.1 hx with hx | hx
    · exact hidle x hx
    · exact .inl (List.mem_singleton.1 hx)
  | session _ _ ih => exact ih

theorem Tracks.finish (h : Tracks limit log e) (ho : ¬e.IsOver) (hends : EndsFor limit log search t) :
    Tracks limit (log ++ [.looked search none]) (e.finish t) := by
  refine h.concat_none rfl (fun hf => absurd hf (h.not_fails ho)) fun t' ht' => ?_
  cases ht'
  exact ⟨log, search, [], rfl, hends, by simp⟩

theorem Tracks.fail (h : Tracks limit log e) (ho : ¬e.IsOver) (hr : e.remaining ≠ some 0) (err : SolverError) :
    Tracks limit (log ++ [.looked search (some (.error err))]) e.release := by
  have hy : yields (log ++ [.looked search (some (.error err))]) = yields log := by simp [yields, isYield]
  have hrf : refunds (log ++ [.looked search (some (.error err))]) = refunds log := by simp [refunds, isRefund]
  have ht : e.termination = none := Option.not_isSome_iff_eq_none.1 fun h => ho (.inl h)
  refine ⟨by rw [hy, hrf]; exact h.refunds_le, by rw [hy, hrf]; exact h.remaining, by rw [hy, hrf]; exact h.within,
    fun t ht' => ?_, fun _ => ⟨ht, .inr ⟨rfl, hr⟩⟩, h.pairwise_concat fun hf => absurd hf (h.not_fails ho)⟩
  cases ht.symm.trans ht'

theorem Tracks.looks (h : Tracks limit log e) (hl : e.Looks search result e') :
    Tracks limit (log ++ [.looked search result]) e' := by
  cases hl with
  | ended ho =>
    exact h.concat_none rfl (fun hf => ⟨(h.failed hf).1, ho, rfl⟩) fun t ht => (h.ended t ht).concat (.inr rfl)
  | limited ho hr =>
    refine h.finish ho ⟨rfl, ?_⟩
    rw [h.remaining, Option.map_eq_some_iff] at hr
    obtain ⟨k, hk, hzero⟩ := hr
    have := h.within k hk
    rw [hk, Option.some.injEq]
    omega
  | @found m session ho hr => exact h.found ho hr m session
  | @exhausted session ho => exact (h.change session).finish ho rfl
  | @timedOut session ho => exact (h.change session).finish ho rfl
  | @failed _ err session ho hr => exact (h.change session).fail ho hr err

theorem Run.tracks (h : Run [] (ofSession session projection limit) log e) : Tracks limit log e := by
  induction h with
  | start => exact tracks_ofSession
  | next _ ih => exact ih.looks (looks_next _)
  | refund _ hr ih => exact ih.refund hr
  | session _ session ih => exact ih.change session

/-- Models that came and were not taken back are never more than the limit. An end has its cause, stays, and is followed
by no search; after a failure nothing comes, and there is no end. -/
theorem run_isSafe (h : Run [] (ofSession session projection limit) log e) :
    (∀ k, limit = some k → yields log - refunds log ≤ k) ∧
      (∀ t, e.termination = some t → EndedFor limit t log ∧ e.next = (none, e) ∧
        ∀ log' e', Run log e log' e' → e'.termination = some t ∧ ∃ later, log' = log ++ later ∧ ∀ x ∈ later, x.IsIdle) ∧
        log.Pairwise (fun x y => x.Fails → y.IsIdle) ∧ ((∃ x ∈ log, x.Fails) → e.termination = none) := by
  have ht := h.tracks
  refine ⟨ht.within, fun t hend => ?_, ht.idle, fun hf => (ht.failed hf).1⟩
  have ho : e.IsOver := .inl (by rw [hend]; rfl)
  refine ⟨ht.ended t hend, ho.next.2, fun log' e' hrun => ?_⟩
  obtain ⟨_, he, hlater⟩ := ho.run hrun
  exact ⟨he.trans hend, hlater⟩

/-- Of three models that come one is taken back, and the limit of two ends the enumeration. -/
theorem run_isSafe_oneOfTwo : ∃ log e,
    Run [] (ofSession (Session.ofFormula oneOfTwo none (⟨[]⟩ : Table)) [⟨1, false⟩, ⟨2, false⟩] (some 2)) log e ∧
      yields log = 3 ∧ refunds log = 1 ∧ e.termination = some .limitReached ∧ yields log - refunds log ≤ 2 ∧
        EndedFor (some 2) .limitReached log ∧ e.next = (none, e) ∧ log.Pairwise fun x y => x.Fails → y.IsIdle := by
  have hstart : Run [] (ofSession (Session.ofFormula oneOfTwo none (⟨[]⟩ : Table)) [⟨1, false⟩, ⟨2, false⟩] (some 2)) []
      (ofSession (Session.ofFormula oneOfTwo none (⟨[]⟩ : Table)) [⟨1, false⟩, ⟨2, false⟩] (some 2)) := .start
  have hrun := (hstart.next.refund (by decide)).next.next.next
  obtain ⟨hlimit, hended, hidle, _⟩ := run_isSafe hrun
  obtain ⟨hcause, hnext, _⟩ := hended .limitReached rfl
  exact ⟨_, _, hrun, by decide, by decide, rfl, hlimit 2 rfl, hcause, hnext, hidle⟩

end Enumeration

end MinimalistGrammar.Sat
