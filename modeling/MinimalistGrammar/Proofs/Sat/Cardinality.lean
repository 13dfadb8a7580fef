import MinimalistGrammar.Proofs.Sat.Counter
import Mathlib.Data.List.Pairwise

/-!
What the cardinality constraints say: short lists by their pairs, longer ones by the counter.
-/

namespace MinimalistGrammar.Sat

section Counting

variable {ι : Type} {x : Prop} {xs : List Prop} {items : List ι} {P : ι → Prop}

theorem anyOf_iff_trueCount : AnyOf xs ↔ 0 < trueCount xs := by
  induction xs with
  | nil => simp
  | cons x xs ih =>
    by_cases hx : x
    · rw [trueCount_cons_of_true hx, AnyOf]
      exact ⟨fun _ => by omega, fun _ => .inl hx⟩
    · rw [trueCount_cons_of_false hx, AnyOf, ← ih]
      exact ⟨fun h => h.resolve_left hx, .inr⟩

theorem trueCount_eq_zero_iff : trueCount xs = 0 ↔ ∀ x ∈ xs, ¬x := by
  induction xs with
  | nil => simp
  | cons x xs ih =>
    rw [List.forall_mem_cons, ← ih]
    by_cases hx : x
    · rw [trueCount_cons_of_true hx]
      exact ⟨fun h => by omega, fun h => absurd hx h.1⟩
    · rw [trueCount_cons_of_false hx]
      exact ⟨fun h => ⟨hx, h⟩, fun h => h.2⟩

theorem trueCount_le_length : trueCount xs ≤ xs.length := List.countP_le_length

theorem trueCount_le_one_iff : trueCount xs ≤ 1 ↔ xs.Pairwise fun p q => ¬(p ∧ q) := by
  induction xs with
  | nil => simp
  | cons x xs ih =>
    rw [List.pairwise_cons]
    by_cases hx : x
    · rw [trueCount_cons_of_true hx]
      constructor
      · intro h
        have hz : trueCount xs = 0 := by omega
        exact ⟨fun y hy hxy => trueCount_eq_zero_iff.1 hz y hy hxy.2, ih.1 (by omega)⟩
      · rintro ⟨h, _⟩
        have hz : trueCount xs = 0 := trueCount_eq_zero_iff.2 fun y hy hyt => h y hy ⟨hx, hyt⟩
        omega
    · rw [trueCount_cons_of_false hx, ih]
      exact ⟨fun h => ⟨fun _ _ hxy => hx hxy.1, h⟩, fun h => h.2⟩

open Classical in
theorem trueCount_map : trueCount (items.map P) = items.countP (P ·) := by
  rw [trueCount, List.countP_map]
  rfl

theorem trueCount_map_le_one_iff (h : items.Nodup) :
    trueCount (items.map P) ≤ 1 ↔ ∀ i ∈ items, ∀ j ∈ items, P i → P j → i = j := by
  rw [trueCount_le_one_iff, List.pairwise_map]
  constructor
  · intro hp i hi j hj hpi hpj
    have : Std.Symm fun i j => ¬(P i ∧ P j) := ⟨fun _ _ h hji => h ⟨hji.2, hji.1⟩⟩
    by_contra hne
    exact hp.forall hi hj hne ⟨hpi, hpj⟩
  · intro hu
    refine List.Pairwise.imp_of_mem ?_ h
    intro i j hi hj hne hij
    exact hne (hu i hi j hj hij.1 hij.2)

end Counting

namespace Builder

open MinimalistGrammar.Sat.Valuation

variable {v : Valuation} {lits : List Literal} {ps : List Prop} {l : Literal} {p : Prop}

section Made

theorem made_forbidPairs (lits : List Literal) : Made (forbidPairs lits) := by
  induction lits with
  | nil => exact .pure _
  | cons l rest ih => exact (made_forM (fun _ => made_forbid _) rest).bind fun _ => ih

theorem made_startCount (x : Literal) (row : List Literal) : Made (startCount x row) := by
  cases row with
  | nil => exact .pure _
  | cons r higher => exact (made_implies _ _).bind fun _ => made_forM (fun _ => .addClause _) higher

theorem made_carryCount (x below : Literal) (old new : List Literal) : Made (carryCount x below old new) := by
  induction old generalizing below new with
  | nil => exact .pure _
  | cons o olds ih =>
    cases new with
    | nil => exact .pure _
    | cons n news => exact (made_implies _ _).bind fun _ => (made_implies _ _).bind fun _ => ih o news

theorem made_forbidOverflow (x : Literal) (registers : List Literal) : Made (forbidOverflow x registers) :=
  made_option_forM (fun _ => made_forbid _) _

theorem made_continueCount (old lits : List Literal) (rows : List (List Literal)) :
    Made (continueCount old lits rows) := by
  induction lits generalizing old rows with
  | nil => exact .pure _
  | cons x xs ih =>
    cases rows with
    | nil => exact made_forbidOverflow x old
    | cons new rows =>
      exact (made_carryCount _ _ _ _).bind fun _ => (made_forbidOverflow _ _).bind fun _ => ih new rows

theorem made_count (lits : List Literal) (rows : List (List Literal)) : Made (count lits rows) := by
  unfold count
  split
  · exact (made_startCount _ _).bind fun _ => made_continueCount _ _ _
  · exact .pure _

theorem made_atMost (lits : List Literal) (bound : Nat) : Made (atMost lits bound) := by
  unfold atMost
  refine made_ite (.pure _) (made_ite (made_forM (fun _ => .addClause _) lits) ?_)
  exact (made_mapM made_freshList _).bind fun _ => made_count _ _

theorem made_atMostOne (lits : List Literal) : Made (atMostOne lits) :=
  made_ite (made_forbidPairs lits) (made_atMost lits 1)

theorem made_exactlyOne (lits : List Literal) : Made (exactlyOne lits) :=
  (Made.addClause _).bind fun _ => made_atMostOne _

theorem adds_forbidPairs (lits : List Literal) : Adds (forbidPairs lits) := (made_forbidPairs lits).adds

theorem adds_atMost (lits : List Literal) (bound : Nat) : Adds (atMost lits bound) := (made_atMost lits bound).adds

theorem adds_atMostOne (lits : List Literal) : Adds (atMostOne lits) := (made_atMostOne lits).adds

theorem adds_exactlyOne (lits : List Literal) : Adds (exactlyOne lits) := (made_exactlyOne lits).adds

end Made

theorem asserts_forM_denotes {g : Literal → Builder Unit} {C : Prop → Prop} (hg : ∀ l, Adds (g l))
    (h : List.Forall₂ v.Denotes lits ps)
    (hC : ∀ v' l p, v ≤ v' → v'.Denotes l p → Asserts v' (g l) (C p)) :
    Asserts v (lits.forM g) (∀ p ∈ ps, C p) := by
  induction lits generalizing v ps with
  | nil =>
    cases h
    exact asserts_pure.congr (by simp)
  | cons l rest ih =>
    cases h with
    | @cons _ p _ qs hd ht =>
      refine (Asserts.bind (k := fun _ => rest.forM g) (hC v l p (le_refl v) hd)
        (fun _ => adds_forM hg rest) fun v' _ hle _ => ?_).congr List.forall_mem_cons.symm
      exact ih (forall₂_denotes_mono ht hle) fun v'' l p hle' => hC v'' l p (le_trans hle hle')

theorem asserts_deny (h : List.Forall₂ v.Denotes lits ps) :
    Asserts v (lits.forM fun l => addClause [-l]) (∀ p ∈ ps, ¬p) :=
  asserts_forM_denotes (fun _ => adds_addClause _) h fun _ _ _ _ hd => asserts_unit hd.neg

theorem asserts_forbidPairs (h : List.Forall₂ v.Denotes lits ps) :
    Asserts v (forbidPairs lits) (trueCount ps ≤ 1) := by
  rw [trueCount_le_one_iff]
  induction lits generalizing v ps with
  | nil =>
    cases h
    exact asserts_pure.congr (by simp)
  | cons l rest ih =>
    cases h with
    | @cons _ p _ qs hd ht =>
      have first : Asserts v (rest.forM fun m => forbid [l, m]) (∀ q ∈ qs, ¬(p ∧ q)) :=
        asserts_forM_denotes (fun _ => adds_forbid _) ht fun _ _ _ hle hm =>
          asserts_forbid_two (hd.mono hle) hm
      rw [List.pairwise_cons]
      exact Asserts.bind first (fun _ => adds_forbidPairs rest) fun v' _ hle _ =>
        ih (forall₂_denotes_mono ht hle)

theorem asserts_startCount {row : List Literal} (hl : v.Denotes l p) (h : List.Forall₂ v.Denotes row ps) :
    Asserts v (startCount l row) (StartHolds p ps) := by
  cases h with
  | nil => exact asserts_pure
  | cons hd ht =>
    exact Asserts.bind (asserts_implies_one hl hd) (fun _ => adds_forM (fun _ => adds_addClause _) _)
      fun v' _ hle _ => asserts_deny (forall₂_denotes_mono ht hle)

theorem asserts_carryCount {m : Literal} {q : Prop} {old new : List Literal} {os ns : List Prop}
    (hl : v.Denotes l p) (hm : v.Denotes m q) (ho : List.Forall₂ v.Denotes old os)
    (hn : List.Forall₂ v.Denotes new ns) : Asserts v (carryCount l m old new) (CarryHolds p q os ns) := by
  induction old generalizing v m q os new ns with
  | nil =>
    cases ho
    exact asserts_pure
  | cons o olds ih =>
    cases ho with
    | cons hod hot =>
      cases hn with
      | nil => exact asserts_pure
      | cons hnd hnt =>
        refine (Asserts.bind (asserts_implies_two hl hm hnd) (fun _ => ?_) fun v₁ _ hle₁ _ =>
          Asserts.bind (asserts_implies_one (hod.mono hle₁) (hnd.mono hle₁)) (fun _ => ?_)
            fun v₂ _ hle₂ _ => ?_).congr and_assoc.symm
        · exact ((made_implies _ _).bind fun _ => made_carryCount _ _ _ _).adds
        · exact (made_carryCount _ _ _ _).adds
        · have hle := le_trans hle₁ hle₂
          exact ih (hl.mono hle) (hod.mono hle) (forall₂_denotes_mono hot hle)
            (forall₂_denotes_mono hnt hle)

theorem asserts_forbidOverflow {regs : List Literal} (hl : v.Denotes l p)
    (h : List.Forall₂ v.Denotes regs ps) : Asserts v (forbidOverflow l regs) (OverflowHolds p ps) := by
  induction h with
  | nil => exact asserts_pure.congr (by simp [OverflowHolds])
  | cons hd ht ih =>
    cases ht with
    | nil => exact (asserts_forbid_two hl hd).congr ⟨fun h _ hf => Option.some.inj hf ▸ h, fun h => h _ rfl⟩
    | cons hd' ht' =>
      rw [forbidOverflow, OverflowHolds, List.getLast?_cons_cons, List.getLast?_cons_cons]
      exact ih

theorem asserts_continueCount {old : List Literal} {rows : List (List Literal)} {os : List Prop}
    {rs : List (List Prop)} (ho : List.Forall₂ v.Denotes old os) (hl : List.Forall₂ v.Denotes lits ps)
    (hr : List.Forall₂ (List.Forall₂ v.Denotes) rows rs) :
    Asserts v (continueCount old lits rows) (ContinueHolds os ps rs) := by
  induction lits generalizing v old rows os ps rs with
  | nil =>
    cases hl
    exact asserts_pure
  | cons x xs ih =>
    cases hl with
    | cons hx hxs =>
      cases hr with
      | nil => exact asserts_forbidOverflow hx ho
      | cons hnew hrows =>
        refine Asserts.bind (asserts_carryCount hx denotes_top ho hnew) (fun _ => ?_) fun v₁ _ hle₁ _ =>
          Asserts.bind (asserts_forbidOverflow (hx.mono hle₁) (forall₂_denotes_mono ho hle₁))
            (fun _ => ?_) fun v₂ _ hle₂ _ => ?_
        · exact ((made_forbidOverflow _ _).bind fun _ => made_continueCount _ _ _).adds
        · exact (made_continueCount _ _ _).adds
        · have hle := le_trans hle₁ hle₂
          exact ih (forall₂_denotes_mono hnew hle) (forall₂_denotes_mono hxs hle)
            (hrows.imp fun _ _ h => forall₂_denotes_mono h hle)

theorem asserts_count {rows : List (List Literal)} {rs : List (List Prop)}
    (hl : List.Forall₂ v.Denotes lits ps) (hr : List.Forall₂ (List.Forall₂ v.Denotes) rows rs) :
    Asserts v (count lits rows) (CountHolds ps rs) := by
  cases hl with
  | nil => exact asserts_pure
  | cons hx hxs =>
    cases hr with
    | nil => exact asserts_pure
    | cons hrow hrows =>
      exact Asserts.bind (asserts_startCount hx hrow) (fun _ => (made_continueCount _ _ _).adds)
        fun v' _ hle _ => asserts_continueCount (forall₂_denotes_mono hrow hle)
          (forall₂_denotes_mono hxs hle) (hrows.imp fun _ _ h => forall₂_denotes_mono h hle)

theorem offers_freshRows (m k : Nat) :
    Offers v ((List.replicate m k).mapM freshList)
      (fun rs : List (List Prop) => rs.length = m ∧ ∀ r ∈ rs, r.length = k)
      fun rs v' rows => List.Forall₂ (List.Forall₂ v'.Denotes) rows rs := by
  induction m generalizing v with
  | zero =>
    refine offers_pure (fun rs h => ?_) ⟨[], by simp⟩
    rw [List.length_eq_zero_iff.1 h.1]
    exact .nil
  | succ m ih =>
    rw [List.replicate_succ, List.mapM_cons]
    have tail : ∀ r v' row, v ≤ v' → r.length = k → List.Forall₂ v'.Denotes row r →
        Offers v' ((List.replicate m k).mapM freshList >>= fun rows => pure (row :: rows))
          (fun rs : List (List Prop) => rs.length = m ∧ ∀ r ∈ rs, r.length = k)
          fun rs v'' rows => List.Forall₂ (List.Forall₂ v''.Denotes) rows (r :: rs) := by
      intro r v' row _ _ hrow
      exact ih.bind_pure fun rs v'' rows hle _ hrows => .cons (forall₂_denotes_mono hrow hle) hrows
    refine (Offers.bind (offers_freshList k)
      (fun _ => adds_bind (adds_mapM adds_freshList _) fun _ => adds_pure _) tail).imp ?_ ?_
    · rintro ⟨r, rs⟩ rows ⟨hr, hm, hrs⟩ h
      exact ⟨r :: rs, ⟨by simp [hm], List.forall_mem_cons.2 ⟨hr, hrs⟩⟩, h⟩
    · rintro rs ⟨hm, hrs⟩
      obtain ⟨r, rs, rfl⟩ := List.exists_cons_of_length_eq_add_one hm
      obtain ⟨hr, hrs⟩ := List.forall_mem_cons.1 hrs
      exact ⟨(r, rs), ⟨hr, by simpa using hm, hrs⟩, fun _ _ _ h => h⟩

theorem asserts_atMost (h : List.Forall₂ v.Denotes lits ps) (k : Nat) :
    Asserts v (atMost lits k) (trueCount ps ≤ k) := by
  have hlen : lits.length = ps.length := h.length_eq
  unfold atMost
  split
  · rename_i hk
    have : trueCount ps ≤ ps.length := trueCount_le_length
    exact asserts_pure.congr (by simp; omega)
  · split
    · rename_i hk
      subst hk
      exact (asserts_deny h).congr (by rw [Nat.le_zero, trueCount_eq_zero_iff])
    · rename_i hk hk'
      have counted : ∀ rs v' rows, v ≤ v' → (rs.length = lits.length - 1 ∧ ∀ r ∈ rs, r.length = k) →
          List.Forall₂ (List.Forall₂ v'.Denotes) rows rs →
          Offers v' (count lits rows) (fun _ : Unit => CountHolds ps rs) fun _ _ _ => True :=
        fun _ _ _ hle _ hrows => asserts_count (forall₂_denotes_mono h hle) hrows
      refine Spec.asserts (((offers_freshRows (lits.length - 1) k).bind (fun _ => (made_count _ _).adds)
        counted).exists.congr ?_)
      rw [← exists_countHolds_iff (by omega) (by omega), hlen]
      exact ⟨fun ⟨⟨rs, _⟩, h⟩ => ⟨rs, h⟩, fun ⟨rs, h⟩ => ⟨⟨rs, ()⟩, h⟩⟩

theorem asserts_atMostOne (h : List.Forall₂ v.Denotes lits ps) :
    Asserts v (atMostOne lits) (trueCount ps ≤ 1) := by
  unfold atMostOne
  split
  · exact asserts_forbidPairs h
  · exact asserts_atMost h 1

theorem asserts_exactlyOne (h : List.Forall₂ v.Denotes lits ps) :
    Asserts v (exactlyOne lits) (trueCount ps = 1) := by
  refine (Asserts.bind (asserts_clause h) (fun _ => adds_atMostOne _) fun v' _ hle _ =>
    asserts_atMostOne (forall₂_denotes_mono h hle)).congr ?_
  rw [anyOf_iff_trueCount]
  omega

end Builder

end MinimalistGrammar.Sat
