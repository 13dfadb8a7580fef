import MinimalistGrammar.Sat.Word
import MinimalistGrammar.Proofs.Sat.Scope
import Mathlib.Data.List.Sort

/-!
As long as a formula has no more variables than there is room for, memory holds what it says: words are ordered and negated as
their literals are, a clause of words is brought into normal form as that of its literals is, and the clauses of both have the same
models.
-/

namespace MinimalistGrammar.Sat

namespace Literal

variable {l m : Literal} {v : Nat}

theorem toNat_ofNat (h : v < capacity) : (UInt32.ofNat v).toNat = v :=
  UInt32.toNat_ofNat_of_lt' (Nat.lt_trans h (by decide))

theorem toNat_shiftLeft_one (h : v < capacity) : (UInt32.ofNat v <<< 1).toNat = v <<< 1 := by
  rw [UInt32.toNat_shiftLeft, toNat_ofNat h]
  refine Nat.mod_eq_of_lt ?_
  rw [capacity] at h
  simp only [UInt32.reduceToNat, Nat.reduceMod, Nat.shiftLeft_eq]
  omega

theorem toNat_word (h : l.var < capacity) : l.word.toNat = 2 * l.var + l.negated.toNat := by
  have hb : (if l.negated then (1 : UInt32) else 0).toNat = l.negated.toNat := by cases l.negated <;> rfl
  rw [word, UInt32.toNat_or, toNat_shiftLeft_one h, hb, ← Nat.shiftLeft_add_eq_or_of_lt (by cases l.negated <;> decide),
    Nat.shiftLeft_eq]
  omega

theorem word_top : top.word = 0 := rfl

theorem word_bottom : bottom.word = 1 := rfl

theorem word_neg (l : Literal) : (-l).word = l.word ^^^ 1 := by
  obtain ⟨v, b⟩ := l
  apply UInt32.toBitVec_inj.mp
  ext i hi
  cases b <;> cases i <;> simp [word, Neg.neg]

theorem var_ofWord (w : UInt32) : (ofWord w).var = w.toNat / 2 := by simp [ofWord, Nat.shiftRight_eq_div_pow]

theorem var_ofWord_lt (w : UInt32) : (ofWord w).var < capacity := by
  have h := w.toNat_lt
  rw [var_ofWord, capacity]
  omega

theorem toNat_negated_ofWord (w : UInt32) : (ofWord w).negated.toNat = w.toNat % 2 := by
  have hand : (w &&& 1).toNat = w.toNat % 2 := by simp
  have hone : (ofWord w).negated = decide ((w &&& 1).toNat = 1) := by
    rw [Bool.eq_iff_iff, decide_eq_true_eq, ofWord, beq_iff_eq, ← UInt32.toNat_inj]
    rfl
  rw [hone, hand]
  rcases Nat.mod_two_eq_zero_or_one w.toNat with h | h <;> simp [h]

theorem word_ofWord (w : UInt32) : (ofWord w).word = w := by
  rw [← UInt32.toNat_inj, toNat_word (var_ofWord_lt w), var_ofWord, toNat_negated_ofWord]
  omega

theorem eq_of_word_eq (h : l.var < capacity) (h' : m.var < capacity) (he : l.word = m.word) : l = m := by
  have he : 2 * l.var + l.negated.toNat = 2 * m.var + m.negated.toNat := by rw [← toNat_word h, he, toNat_word h']
  obtain ⟨v, b⟩ := l
  obtain ⟨v', b'⟩ := m
  cases b <;> cases b' <;> simp at he ⊢ <;> omega

/-- The first variable without room shares its word with the constant. -/
example : (⟨capacity, false⟩ : Literal).word = top.word := rfl

theorem word_inj (h : l.var < capacity) (h' : m.var < capacity) : l.word = m.word ↔ l = m :=
  ⟨eq_of_word_eq h h', congrArg word⟩

theorem ofWord_word (h : l.var < capacity) : ofWord l.word = l := eq_of_word_eq (var_ofWord_lt _) h (word_ofWord _)

/-- The variable of a word. -/
theorem word_shiftRight (h : l.var < capacity) : l.word >>> 1 = UInt32.ofNat l.var := by
  have hw : (l.word >>> 1).toNat = l.var := congrArg var (ofWord_word h)
  rw [← UInt32.toNat_inj, hw, toNat_ofNat h]

theorem word_lt_iff (h : l.var < capacity) (h' : m.var < capacity) : l.word < m.word ↔ l < m := by
  rw [UInt32.lt_iff_toNat_lt, toNat_word h, toNat_word h', lt_iff]
  cases l.negated <;> cases m.negated <;> simp <;> omega

end Literal

namespace WordClause

open Literal

variable {a : Assignment} {c d : Clause} {ws : WordClause} {w : UInt32} {l : Literal} {lits : List Literal}

theorem holds_map_word (h : ∀ l ∈ c, l.var < capacity) : Holds a (c.map word) ↔ c.Holds a := by
  simp only [Holds, Clause.Holds, List.mem_map, exists_exists_and_eq_and]
  exact exists_congr fun l => and_congr_right fun hl => by rw [ofWord_word (h l hl)]

theorem mem_map_word (h : l.var < capacity) (hc : ∀ l ∈ c, l.var < capacity) : l.word ∈ c.map word ↔ l ∈ c := by
  rw [List.mem_map]
  constructor
  · rintro ⟨m, hm, he⟩
    exact eq_of_word_eq (hc m hm) h he ▸ hm
  · exact fun hl => ⟨l, hl, rfl⟩

theorem pairwise_map_word (h : ∀ l ∈ c, l.var < capacity) : (c.map word).Pairwise (· < ·) ↔ c.Pairwise (· < ·) := by
  rw [List.pairwise_map]
  exact List.Pairwise.iff_of_mem fun hl hm => word_lt_iff (h _ hl) (h _ hm)

theorem mem_dropRepeats : w ∈ dropRepeats ws ↔ w ∈ ws := by
  fun_induction dropRepeats ws with
  | case1 v rest ih => simp [ih]
  | case2 v u rest hne ih => simp only [List.mem_cons, ih]
  | case3 ws => rfl

/-- What is sorted increases strictly once repetitions have gone. -/
theorem pairwise_dropRepeats (h : ws.Pairwise (· ≤ ·)) : (dropRepeats ws).Pairwise (· < ·) := by
  fun_induction dropRepeats ws with
  | case1 v rest ih => exact ih h.of_cons
  | case2 v u rest hne ih =>
    refine List.pairwise_cons.2 ⟨fun w hw => ?_, ih h.of_cons⟩
    obtain ⟨hv, hu⟩ := List.pairwise_cons.1 h
    have hvu : v < u := UInt32.lt_of_le_of_ne (hv u (.head _)) hne
    rcases List.mem_cons.1 (mem_dropRepeats.1 hw) with rfl | hw
    · exact hvu
    · exact UInt32.lt_of_lt_of_le hvu ((List.pairwise_cons.1 hu).1 w hw)
  | case3 ws hne =>
    match ws with
    | [] => exact .nil
    | [v] => exact List.pairwise_singleton _ _
    | v :: w :: rest => exact absurd rfl (hne v w rest)

theorem hasOpposites_map_word (h : ∀ l ∈ c, l.var < capacity) : hasOpposites (c.map word) = c.hasOpposites := by
  induction c with
  | nil => rfl
  | cons l rest ih =>
    cases rest with
    | nil => rfl
    | cons m rest =>
      obtain ⟨hl, hrest⟩ := List.forall_mem_cons.1 h
      have hm : m.word = l.word ^^^ 1 ↔ m = -l := by
        rw [← word_neg]
        exact word_inj (hrest m (.head _)) hl
      have ih : hasOpposites (m.word :: rest.map word) = Clause.hasOpposites (m :: rest) := ih hrest
      simp only [List.map_cons, hasOpposites, Clause.hasOpposites, ih, Bool.beq_eq_decide_eq, hm]

/-- Sorting and dropping repetitions comes to what insertion gives: both increase strictly and have the same members. -/
theorem dropRepeats_mergeSort (h : ∀ l ∈ lits, l.var < capacity) :
    dropRepeats ((lits.map word).mergeSort (· ≤ ·)) = (Clause.sorted lits).map word := by
  have hs : ∀ l ∈ Clause.sorted lits, l.var < capacity := fun l hl => h l (Clause.mem_sorted.1 hl)
  have hsorted : ((lits.map word).mergeSort (· ≤ ·)).Pairwise (· ≤ ·) := by
    have hle : ((lits.map word).mergeSort (· ≤ ·)).Pairwise fun v w => decide (v ≤ w) = true :=
      List.pairwise_mergeSort (by simpa using fun _ _ _ => UInt32.le_trans) (by simpa using UInt32.le_total) _
    simpa using hle
  refine List.Pairwise.eq_of_mem_iff (pairwise_dropRepeats hsorted)
    ((pairwise_map_word hs).2 (Clause.pairwise_sorted lits)) fun w => ?_
  simp only [mem_dropRepeats, List.mem_mergeSort, List.mem_map, Clause.mem_sorted]

theorem normalize_map_word (h : ∀ l ∈ lits, l.var < capacity) :
    normalize (lits.map word) = (Clause.normalize lits).map (·.map word) := by
  have hfilter : (lits.map word).filter (· != 1) = (lits.filter (· != .bottom)).map word := by
    rw [List.filter_map]
    refine congrArg (List.map word) (List.filter_congr fun l hl => ?_)
    rw [Bool.eq_iff_iff, Function.comp_apply, bne_iff_ne, bne_iff_ne, ← word_bottom,
      (word_inj (h l hl) (by decide)).ne]
  have hin : ∀ l ∈ lits.filter (· != .bottom), l.var < capacity := fun l hl => h l (List.mem_filter.1 hl).1
  have htop : 0 ∈ (lits.filter (· != .bottom)).map word ↔ .top ∈ lits.filter (· != .bottom) := by
    rw [← word_top]
    exact mem_map_word (by decide) hin
  have hs : ∀ l ∈ Clause.sorted (lits.filter (· != .bottom)), l.var < capacity := fun l hl =>
    hin l (Clause.mem_sorted.1 hl)
  simp only [normalize, Clause.normalize, hfilter, htop, dropRepeats_mergeSort hin, hasOpposites_map_word hs,
    List.isEmpty_map]
  split
  · rfl
  · split
    · rfl
    · split <;> rfl

/-- Words past the room of a formula are words of literals all the same, so nothing is asked of them. -/
theorem holds_normalize {ws : List UInt32} (h : a 0 = true) :
    (∀ c ∈ normalize ws, c.Holds a) ↔ ∃ w ∈ ws, (ofWord w).value a = true := by
  have hroom : ∀ l ∈ ws.map ofWord, l.var < capacity := by
    simpa using fun w _ => var_ofWord_lt w
  have hws : (ws.map ofWord).map word = ws := by
    rw [List.map_map]
    exact (List.map_congr_left fun w _ => word_ofWord w).trans (List.map_id ws)
  have hmap : (∃ l ∈ ws.map ofWord, l.value a = true) ↔ ∃ w ∈ ws, (ofWord w).value a = true := by
    simp only [List.mem_map, exists_exists_and_eq_and]
  rw [← hmap, ← Clause.holds_normalize h, ← hws, normalize_map_word hroom, hws]
  simp only [Option.mem_map, forall_exists_index, and_imp, forall_apply_eq_imp_iff₂]
  exact forall₂_congr fun c hc => holds_map_word fun l hl =>
    (Clause.mem_of_mem_normalize hc hl).elim (hroom l) fun he => he ▸ (by decide)

end WordClause

theorem WordFormula.holds_push {a : Assignment} {f : WordFormula} {ws : List UInt32} (h : a 0 = true) :
    (f.push ws).Holds a ↔ f.Holds a ∧ ∃ w ∈ ws, (Literal.ofWord w).value a = true := by
  rw [← WordClause.holds_normalize h, push]
  split <;> rename_i hn <;> simp [hn, Holds, or_imp, forall_and]

namespace Formula

open Literal Builder

variable {a : Assignment} {f : Formula} {c : Clause} {lits : List Literal}

theorem stored_fresh (f : Formula) : f.stored.fresh = ((result fresh f).word, (formula fresh f).stored) := by
  have hword : (⟨f.numVars, false⟩ : Literal).word = UInt32.ofNat f.numVars <<< 1 := by simp [word]
  have hcount : UInt32.ofNat (f.numVars + 1) = UInt32.ofNat f.numVars + 1 := by simp
  refine Prod.ext hword.symm ?_
  exact congrArg (WordFormula.mk · f.stored.clauses) hcount.symm

theorem stored_push (h : ∀ l ∈ lits, l.var < capacity) : (f.push lits).stored = f.stored.push (lits.map word) := by
  rw [push, WordFormula.push, WordClause.normalize_map_word h]
  cases Clause.normalize lits <;> simp [stored]

theorem IsProper.var_lt_capacity (hf : f.IsProper) (hc : f.numVars ≤ capacity) (h : c ∈ f.clauses) :
    ∀ l ∈ c, l.var < capacity := fun l hl =>
  Nat.lt_of_lt_of_le (hf.closed c (Array.mem_toList_iff.2 h) l hl) hc

/-- Memory holds what the formula says, as long as there is room for its variables. -/
theorem IsProper.holds_stored (hf : f.IsProper) (hc : f.numVars ≤ capacity) : f.stored.Holds a ↔ f.Holds a := by
  simp only [WordFormula.Holds, stored, List.mem_map, Array.mem_toList_iff, forall_exists_index, and_imp,
    forall_apply_eq_imp_iff₂, Holds]
  exact forall₂_congr fun c h => WordClause.holds_map_word (hf.var_lt_capacity hc h)

end Formula

end MinimalistGrammar.Sat
