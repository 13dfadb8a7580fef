import MinimalistGrammar.Proofs.Sat.Word

/-!
How clauses are stored. The constants are folded away and the literals increase strictly, so that a variable would stand
next to its negation and no variable comes twice. All clauses but that of the constant are stored so after any calls that
are given literals of variables handed out before, and what is stored means the disjunction that it comes from. In memory this
goes on as long as there is room for the variables.
-/

namespace MinimalistGrammar.Sat

namespace Literal

variable {l m : Literal}

theorem var_lt_of_lt (h : l < m) (hne : m ≠ -l) : l.var < m.var := by
  obtain ⟨v, b⟩ := l
  obtain ⟨w, c⟩ := m
  rcases lt_iff.1 h with hv | ⟨rfl, rfl, rfl⟩
  · exact hv
  · exact absurd rfl hne

theorem eq_top_or_eq_bottom (h : l.var = 0) : l = top ∨ l = bottom := by
  obtain ⟨v, b⟩ := l
  obtain rfl : v = 0 := h
  cases b with
  | false => exact .inl rfl
  | true => exact .inr rfl

end Literal

namespace Clause

variable {c : Clause} {l : Literal} {lits : List Literal}

/-- The form in which clauses are stored. -/
structure IsNormal (c : Clause) : Prop where
  increasing : c.Pairwise (· < ·)
  nodup_vars : (c.map (·.var)).Nodup
  /-- The only constant of a clause is the false one, standing alone. -/
  constant : c = [.bottom] ∨ ∀ l ∈ c, l.var ≠ 0

theorem pairwise_var_lt (h : c.Pairwise (· < ·)) (ho : hasOpposites c = false) : c.Pairwise (·.var < ·.var) := by
  induction c with
  | nil => exact .nil
  | cons l rest ih =>
    cases rest with
    | nil => exact List.pairwise_singleton _ _
    | cons m rest =>
      simp only [hasOpposites, Bool.or_eq_false_iff, beq_eq_false_iff_ne] at ho
      -- nothing comes between a variable and its negation, so neighbours are all that has to be looked at
      obtain ⟨hl, hrest⟩ := List.pairwise_cons.1 h
      have hlm : l.var < m.var := Literal.var_lt_of_lt (hl m (.head _)) ho.1
      have htail := ih hrest ho.2
      refine List.pairwise_cons.2 ⟨List.forall_mem_cons.2 ⟨hlm, fun k hk => ?_⟩, htail⟩
      exact Nat.lt_trans hlm ((List.pairwise_cons.1 htail).1 k hk)

theorem isNormal_bottom : IsNormal [.bottom] where
  increasing := List.pairwise_singleton _ _
  nodup_vars := List.nodup_singleton _
  constant := .inl rfl

theorem isNormal_of_mem_normalize (h : c ∈ normalize lits) : c.IsNormal := by
  rw [Option.mem_def, normalize] at h
  simp only at h
  split at h
  · cases h
  · rename_i htop
    split at h
    · cases h
    · rename_i ho
      split at h
      · cases h
        exact isNormal_bottom
      · cases h
        have hlt := pairwise_sorted (lits.filter (· != .bottom))
        refine ⟨hlt, ?_, .inr fun l hl hv => ?_⟩
        · rw [List.Nodup, List.pairwise_map]
          exact (pairwise_var_lt hlt (Bool.eq_false_iff.2 ho)).imp Nat.ne_of_lt
        · have hl := mem_sorted.1 hl
          rcases Literal.eq_top_or_eq_bottom hv with rfl | rfl
          · exact htop hl
          · simp at hl

end Clause

namespace WordClause

/-- The form of a clause in memory, with that many variables. -/
structure IsNormal (numVars : UInt32) (c : WordClause) : Prop where
  increasing : c.Pairwise (· < ·)
  nodup_vars : (c.map fun w : UInt32 => w >>> 1).Nodup
  constant : c = [1] ∨ ∀ w ∈ c, w >>> 1 ≠ 0
  in_scope : ∀ w ∈ c, w >>> 1 < numVars

theorem isNormal_map_word {c : Clause} {n : Nat} (h : c.IsNormal) (hn : n ≤ Literal.capacity) (hc : ∀ l ∈ c, l.var < n) :
    IsNormal (.ofNat n) (c.map Literal.word) := by
  have hroom : ∀ l ∈ c, l.var < Literal.capacity := fun l hl => Nat.lt_of_lt_of_le (hc l hl) hn
  -- variables that have room are told apart by the word they are counted in
  have hlt : n < 2 ^ 32 := Nat.lt_of_le_of_lt hn (by decide)
  have hvar : ∀ l ∈ c, (UInt32.ofNat l.var).toNat = l.var := fun l hl =>
    UInt32.toNat_ofNat_of_lt' (Nat.lt_trans (hc l hl) hlt)
  refine ⟨(pairwise_map_word hroom).2 h.increasing, ?_, ?_, ?_⟩
  · have hmap : ((c.map Literal.word).map fun w : UInt32 => w >>> 1) = c.map fun l => UInt32.ofNat l.var := by
      rw [List.map_map]
      exact List.map_congr_left fun l hl => Literal.word_shiftRight (hroom l hl)
    have hnodup := h.nodup_vars
    rw [List.Nodup, List.pairwise_map] at hnodup
    rw [hmap, List.Nodup, List.pairwise_map]
    exact hnodup.imp_of_mem fun hl hm hne he => hne (by rw [← hvar _ hl, he, hvar _ hm])
  · refine h.constant.imp (fun he => by rw [he]; rfl) fun hzero w hw => ?_
    obtain ⟨l, hl, rfl⟩ := List.mem_map.1 hw
    rw [Literal.word_shiftRight (hroom l hl), ne_eq, ← UInt32.toNat_inj, hvar l hl]
    exact hzero l hl
  · intro w hw
    obtain ⟨l, hl, rfl⟩ := List.mem_map.1 hw
    rw [Literal.word_shiftRight (hroom l hl), UInt32.lt_iff_toNat_lt, hvar l hl, UInt32.toNat_ofNat_of_lt' hlt]
    exact hc l hl

end WordClause

namespace Formula

variable {f : Formula} {lits : List Literal}

/-- The clause of the constant stands first, and all others are in normal form. -/
def IsNormal (f : Formula) : Prop :=
  ∃ rest : List Clause, f.clauses.toList = [.top] :: rest ∧ ∀ c ∈ rest, c.IsNormal

theorem isNormal_empty : IsNormal ∅ := ⟨[], rfl, fun _ hc => by cases hc⟩

theorem IsNormal.push (h : f.IsNormal) : (f.push lits).IsNormal := by
  obtain ⟨rest, he, hrest⟩ := h
  rw [Formula.push]
  split
  · rename_i c hc
    refine ⟨rest ++ [c], by rw [Array.toList_push, he, List.cons_append], fun d hd => ?_⟩
    rcases List.mem_append.1 hd with hd | hd
    · exact hrest d hd
    · obtain rfl := List.mem_singleton.1 hd
      exact Clause.isNormal_of_mem_normalize hc
  · exact ⟨rest, he, hrest⟩

end Formula

theorem Builder.Made.isNormal {α : Type} {b : Builder α} {f : Formula} (hb : Made b) (hf : f.IsNormal) :
    (formula b f).IsNormal := hb.keeps (fun _ h => h) (fun _ _ h => h.push) f hf

/-- A call on a formula under construction. -/
inductive Operation where
  | newVar
  | addClause (lits : List Literal)
  | implies (premises : List Literal) (conclusion : Literal)
  | impliesAny (premises conclusions : List Literal)
  | forbid (lits : List Literal)
  | and (lits : List Literal)
  | or (lits : List Literal)
  | defineOr (output : Literal) (lits : List Literal)
  | atMostOne (lits : List Literal)
  | exactlyOne (lits : List Literal)
  | atMost (lits : List Literal) (bound : Nat)

namespace Operation

open Builder

variable {n : Nat} {op : Operation}

def build : Operation → Builder Unit
  | newVar => fresh >>= fun _ => pure ()
  | addClause lits => Builder.addClause lits
  | implies premises conclusion => Builder.implies premises conclusion
  | impliesAny premises conclusions => Builder.impliesAny premises conclusions
  | forbid lits => Builder.forbid lits
  | and lits => Builder.and lits >>= fun _ => pure ()
  | or lits => Builder.or lits >>= fun _ => pure ()
  | defineOr output lits => Builder.defineOr output lits
  | atMostOne lits => Builder.atMostOne lits
  | exactlyOne lits => Builder.exactlyOne lits
  | atMost lits bound => Builder.atMost lits bound

/-- The literals that a call is given. -/
def given : Operation → List Literal
  | newVar => []
  | implies premises conclusion => conclusion :: premises
  | impliesAny premises conclusions => premises ++ conclusions
  | defineOr output lits => output :: lits
  | addClause lits | forbid lits | and lits | or lits | atMostOne lits | exactlyOne lits | atMost lits _ => lits

theorem made_build (op : Operation) : Made op.build := by
  cases op with
  | newVar => exact Made.fresh.bind fun _ => .pure _
  | addClause lits => exact .addClause lits
  | implies premises conclusion => exact made_implies premises conclusion
  | impliesAny premises conclusions => exact made_impliesAny premises conclusions
  | forbid lits => exact made_forbid lits
  | and lits => exact (made_and lits).bind fun _ => .pure _
  | or lits => exact (made_or lits).bind fun _ => .pure _
  | defineOr output lits => exact made_defineOr output lits
  | atMostOne lits => exact made_atMostOne lits
  | exactlyOne lits => exact made_exactlyOne lits
  | atMost lits bound => exact made_atMost lits bound

theorem staysInScope_build (hn : 0 < n) (h : ∀ l ∈ op.given, l.var < n) : StaysInScope n op.build := by
  cases op with
  | newVar => exact scoped_fresh.bind fun _ _ _ _ => staysInScope_pure
  | addClause lits => exact staysInScope_addClause h
  | implies premises conclusion =>
    obtain ⟨hc, hp⟩ := List.forall_mem_cons.1 h
    exact staysInScope_implies hp hc
  | impliesAny premises conclusions =>
    obtain ⟨hp, hc⟩ := List.forall_mem_append.1 h
    exact staysInScope_impliesAny hp hc
  | forbid lits => exact staysInScope_forbid h
  | and lits => exact (scoped_and hn h).bind fun _ _ _ _ => staysInScope_pure
  | or lits => exact (scoped_or hn h).bind fun _ _ _ _ => staysInScope_pure
  | defineOr output lits =>
    obtain ⟨ho, hl⟩ := List.forall_mem_cons.1 h
    exact staysInScope_defineOr ho hl
  | atMostOne lits => exact staysInScope_atMostOne hn h
  | exactlyOne lits => exact staysInScope_exactlyOne hn h
  | atMost lits bound => exact staysInScope_atMost hn h bound

end Operation

namespace Formula

open Builder

variable {f : Formula}

/-- Formulas that calls have come to, each call given only literals of variables handed out before it. -/
inductive IsConstructed : Formula → Prop
  | empty : IsConstructed ∅
  | call {f : Formula} (h : IsConstructed f) (op : Operation) (hl : ∀ l ∈ op.given, l.var < f.numVars) :
      IsConstructed (formula op.build f)

theorem IsConstructed.isProper (h : f.IsConstructed) : f.IsProper := by
  induction h with
  | empty => exact isProper_empty
  | call _ op hl ih => exact (Operation.staysInScope_build ih.pos hl _ ih (Nat.le_refl _)).1

theorem IsConstructed.isNormal (h : f.IsConstructed) : f.IsNormal := by
  induction h with
  | empty => exact isNormal_empty
  | call _ op _ ih => exact op.made_build.isNormal ih

/-- Whatever calls have come to the formula, as long as there is room its clauses are stored in normal form over its variables,
calls are stored as what they come to, and a clause that is stored adds its disjunction to what the formula says. -/
theorem isNormal_and_holds_addClause_iff (h : f.IsConstructed) (hc : f.numVars ≤ Literal.capacity) :
    (∃ rest : List WordClause, f.stored.clauses = [0] :: rest ∧ ∀ c ∈ rest, c.IsNormal f.stored.numVars) ∧
    f.stored.fresh = ((result fresh f).word, (formula fresh f).stored) ∧
    (∀ lits : List Literal, (∀ l ∈ lits, l.var < f.numVars) →
      (formula (addClause lits) f).stored = f.stored.push (lits.map Literal.word)) ∧
    ∀ (g : WordFormula) (a : Assignment) (ws : List UInt32), a 0 = true →
      ((g.push ws).Holds a ↔ g.Holds a ∧ ∃ w ∈ ws, (Literal.ofWord w).value a = true) := by
  refine ⟨?_, stored_fresh f, fun lits hl => stored_push fun l hm => Nat.lt_of_lt_of_le (hl l hm) hc,
    fun g a ws h0 => WordFormula.holds_push h0⟩
  obtain ⟨rest, he, hrest⟩ := h.isNormal
  refine ⟨rest.map (·.map Literal.word), by rw [stored, he]; rfl, fun w hw => ?_⟩
  obtain ⟨c, hm, rfl⟩ := List.mem_map.1 hw
  exact WordClause.isNormal_map_word (hrest c hm) hc (h.isProper.closed c (he ▸ .tail _ hm))

/-- A clause with the constant and with repetitions, one of nothing but the false constant, and a variable with its
negation. -/
theorem isNormal_clauses_oddCalls :
    ∃ f : Formula, f.IsConstructed ∧ f.numVars ≤ Literal.capacity ∧ f.stored = ⟨3, [[0], [3, 4], [1]]⟩ ∧
      (∀ c ∈ [[3, 4], [1]], WordClause.IsNormal 3 c) ∧ ¬(WordFormula.push {} [2, 1]).Holds (· = 0) := by
  have hvars : IsConstructed _ := (IsConstructed.empty.call .newVar (by decide)).call .newVar (by decide)
  have hadd := hvars.call (.implies [⟨1, false⟩, .top, ⟨1, false⟩] ⟨2, false⟩) (by decide)
  have hfalse := hadd.call (.addClause [.bottom]) (by decide)
  have hopposites := hfalse.call (.addClause [⟨2, false⟩, ⟨1, false⟩, ⟨2, true⟩]) (by decide)
  obtain ⟨⟨rest, he, hrest⟩, _, _, hholds⟩ := isNormal_and_holds_addClause_iff hopposites (by decide)
  obtain rfl : rest = [[3, 4], [1]] := (List.cons.inj he).2.symm
  refine ⟨_, hopposites, by decide, rfl, hrest, ?_⟩
  rw [hholds {} _ _ rfl]
  decide

end Formula

end MinimalistGrammar.Sat
