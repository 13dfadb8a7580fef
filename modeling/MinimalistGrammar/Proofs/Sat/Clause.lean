import MinimalistGrammar.Sat.Formula
import Mathlib.Tactic.Common

/-!
The normal form of a clause means the disjunction that it comes from, and has no literals of its own but the
false constant. Its literals increase strictly.
-/

namespace MinimalistGrammar.Sat

namespace Literal

variable {k l m : Literal}

theorem value_top {a : Assignment} (h : a 0 = true) : top.value a = true := by simp [value, top, h]

theorem value_bottom {a : Assignment} (h : a 0 = true) : bottom.value a = false := by
  simp [value, bottom, h]

theorem lt_trans (h : k < l) (h' : l < m) : k < m := by
  rcases lt_iff.1 h with hv | ⟨hv, hk, hl⟩
  · rcases lt_iff.1 h' with hv' | ⟨hv', _⟩
    · exact .inl (Nat.lt_trans hv hv')
    · exact .inl (hv' ▸ hv)
  · rcases lt_iff.1 h' with hv' | ⟨_, hl', _⟩
    · exact .inl (hv ▸ hv')
    · rw [hl] at hl'
      cases hl'

theorem lt_of_not_lt (h : ¬l < m) (hne : l ≠ m) : m < l := by
  obtain ⟨v, b⟩ := l
  obtain ⟨w, c⟩ := m
  rcases Nat.lt_trichotomy v w with hv | rfl | hv
  · exact absurd (.inl hv) h
  · cases b <;> cases c <;> simp_all [lt_iff]
  · exact .inl hv

end Literal

namespace Clause

variable {a : Assignment} {l m : Literal} {c : Clause} {lits : List Literal}

theorem mem_insert : m ∈ insert l c ↔ m = l ∨ m ∈ c := by
  induction c with
  | nil => simp [insert]
  | cons k rest ih =>
    simp only [insert]
    split
    · simp
    · split
      · rename_i h
        simp [h]
      · simp only [List.mem_cons, ih]
        exact or_left_comm

theorem mem_sorted : m ∈ sorted lits ↔ m ∈ lits := by
  induction lits with
  | nil => simp [sorted]
  | cons k rest ih =>
    rw [show sorted (k :: rest) = insert k (sorted rest) from rfl, mem_insert, ih, List.mem_cons]

theorem pairwise_insert (h : c.Pairwise (· < ·)) : (insert l c).Pairwise (· < ·) := by
  induction c with
  | nil => exact List.pairwise_singleton _ _
  | cons m rest ih =>
    obtain ⟨hm, hrest⟩ := List.pairwise_cons.1 h
    simp only [insert]
    split
    · rename_i hlt
      exact List.pairwise_cons.2 ⟨List.forall_mem_cons.2 ⟨hlt, fun k hk => Literal.lt_trans hlt (hm k hk)⟩, h⟩
    · split
      · exact h
      · rename_i hlt hne
        refine List.pairwise_cons.2 ⟨fun k hk => ?_, ih hrest⟩
        rcases mem_insert.1 hk with rfl | hk
        · exact Literal.lt_of_not_lt hlt hne
        · exact hm k hk

theorem pairwise_sorted (lits : List Literal) : (sorted lits).Pairwise (· < ·) := by
  induction lits with
  | nil => exact .nil
  | cons l rest ih => exact pairwise_insert ih

theorem holds_of_hasOpposites (h : hasOpposites c = true) : c.Holds a := by
  induction c with
  | nil => simp [hasOpposites] at h
  | cons k rest ih =>
    cases rest with
    | nil => simp [hasOpposites] at h
    | cons m rest =>
      simp only [hasOpposites, Bool.or_eq_true, beq_iff_eq] at h
      rcases h with h | h
      · subst h
        cases hk : k.value a <;> simp [hk]
      · exact (holds_cons a k (m :: rest)).2 (.inr (ih h))

/-- A disjunction holds when its normal form does, if it has one. -/
theorem holds_normalize (h : a 0 = true) :
    (∀ c ∈ normalize lits, c.Holds a) ↔ ∃ l ∈ lits, l.value a = true := by
  have filtered : (∃ l ∈ lits, l.value a = true) ↔
      ∃ l ∈ lits.filter (· != .bottom), l.value a = true := by
    constructor
    · rintro ⟨l, hl, hv⟩
      refine ⟨l, List.mem_filter.2 ⟨hl, ?_⟩, hv⟩
      rw [bne_iff_ne]
      rintro rfl
      simp [Literal.value_bottom h] at hv
    · rintro ⟨l, hl, hv⟩
      exact ⟨l, (List.mem_filter.1 hl).1, hv⟩
  rw [filtered]
  unfold normalize
  simp only
  split
  · rename_i ht
    exact ⟨fun _ => ⟨.top, ht, Literal.value_top h⟩, fun _ => by simp⟩
  · have hs : (sorted (lits.filter (· != .bottom))).Holds a ↔
        ∃ l ∈ lits.filter (· != .bottom), l.value a = true := by
      simp only [Holds, mem_sorted]
    split
    · rename_i ho
      simpa using hs.1 (holds_of_hasOpposites ho)
    · split
      · rename_i he
        rw [List.isEmpty_iff] at he
        rw [← hs, he]
        simp [Literal.value_bottom h]
      · simpa using hs

theorem mem_of_mem_normalize (h : normalize lits = some c) (hl : l ∈ c) : l ∈ lits ∨ l = .bottom := by
  unfold normalize at h
  simp only at h
  split at h
  · cases h
  · split at h
    · cases h
    · split at h
      · cases h
        exact .inr (List.mem_singleton.1 hl)
      · cases h
        exact .inl (List.mem_filter.1 (mem_sorted.1 hl)).1

end Clause

namespace Formula

variable {a : Assignment} {f : Formula} {lits : List Literal}

@[simp] theorem numVars_push : (f.push lits).numVars = f.numVars := by
  unfold push
  split <;> rfl

theorem mem_push {c : Clause} :
    c ∈ (f.push lits).clauses ↔ c ∈ f.clauses ∨ c ∈ Clause.normalize lits := by
  unfold push
  split <;> rename_i h <;> simp [h, eq_comm]

theorem holds_push (h : a 0 = true) :
    (f.push lits).Holds a ↔ f.Holds a ∧ ∃ l ∈ lits, l.value a = true := by
  rw [← Clause.holds_normalize h]
  simp only [Holds, mem_push]
  constructor
  · intro hf
    exact ⟨fun c hc => hf c (.inl hc), fun c hc => hf c (.inr hc)⟩
  · rintro ⟨hf, hn⟩ c (hc | hc)
    · exact hf c hc
    · exact hn c hc

end Formula

end MinimalistGrammar.Sat
