import MinimalistGrammar.Proofs.Sat.Gate

/-!
Lists whose entries stand for something each, and clauses for each entry.
-/

namespace MinimalistGrammar.Sat

open MinimalistGrammar.Sat.Valuation

variable {α κ : Type} {v v' : Valuation} {key : α → κ} {lit : α → Literal} {xs : List α} {r r' : κ → Prop}

/-- The entries with true literals name those things for which `r` holds. -/
structure Indicates (v : Valuation) (key : α → κ) (lit : α → Literal) (xs : List α) (r : κ → Prop) : Prop where
  sound : ∀ x ∈ xs, ∃ P, v.Denotes (lit x) P ∧ (P → r (key x))
  complete : ∀ k, r k → ∃ x ∈ xs, key x = k ∧ v.Denotes (lit x) True

namespace Indicates

theorem mono (h : Indicates v key lit xs r) (hv : v ≤ v') : Indicates v' key lit xs r where
  sound x hx := by
    obtain ⟨P, hP, hr⟩ := h.sound x hx
    exact ⟨P, hP.mono hv, hr⟩
  complete k hk := by
    obtain ⟨x, hx, he, ht⟩ := h.complete k hk
    exact ⟨x, hx, he, ht.mono hv⟩

theorem congr (h : Indicates v key lit xs r) (hr : ∀ k, r k ↔ r' k) : Indicates v key lit xs r' where
  sound x hx := by
    obtain ⟨P, hP, hk⟩ := h.sound x hx
    exact ⟨P, hP, fun p => (hr _).1 (hk p)⟩
  complete k hk := h.complete k ((hr k).2 hk)

theorem append {ys : List α} (h : Indicates v key lit xs r) (h' : Indicates v key lit ys r') :
    Indicates v key lit (xs ++ ys) fun k => r k ∨ r' k where
  sound x hx := by
    rcases List.mem_append.1 hx with hx | hx
    · obtain ⟨P, hP, hr⟩ := h.sound x hx
      exact ⟨P, hP, fun p => .inl (hr p)⟩
    · obtain ⟨P, hP, hr⟩ := h'.sound x hx
      exact ⟨P, hP, fun p => .inr (hr p)⟩
  complete k hk := by
    rcases hk with hk | hk
    · obtain ⟨x, hx, he, ht⟩ := h.complete k hk
      exact ⟨x, List.mem_append_left _ hx, he, ht⟩
    · obtain ⟨x, hx, he, ht⟩ := h'.complete k hk
      exact ⟨x, List.mem_append_right _ hx, he, ht⟩

theorem denotes (h : Indicates v key lit xs r) {x : α} (hx : x ∈ xs) :
    v.Denotes (lit x) ((lit x).value v.value = true) ∧ ((lit x).value v.value = true → r (key x)) := by
  obtain ⟨P, hP, hr⟩ := h.sound x hx
  exact ⟨denotes_self hP.1, fun ht => hr (hP.2.1 ht)⟩

/-- With one entry for each key the literals say exactly what is so. -/
theorem denotes_key (h : Indicates v key lit xs r) (hn : (xs.map key).Nodup) {x : α} (hx : x ∈ xs) :
    v.Denotes (lit x) (r (key x)) := by
  refine (h.denotes hx).1.congr ⟨(h.denotes hx).2, fun hr => ?_⟩
  obtain ⟨y, hy, he, ht⟩ := h.complete _ hr
  rw [← List.inj_on_of_nodup_map hn hy hx he]
  exact ht.2.2 trivial

theorem exists_iff (h : Indicates v key lit xs r) : (∃ x ∈ xs, (lit x).value v.value = true) ↔ ∃ k, r k := by
  constructor
  · rintro ⟨x, hx, ht⟩
    exact ⟨_, (h.denotes hx).2 ht⟩
  · rintro ⟨k, hk⟩
    obtain ⟨x, hx, _, ht⟩ := h.complete k hk
    exact ⟨x, hx, ht.2.2 trivial⟩

theorem exists_and_iff (h : Indicates v key lit xs r) {C : κ → Prop} :
    (∃ x ∈ xs, (lit x).value v.value = true ∧ C (key x)) ↔ ∃ k, r k ∧ C k := by
  constructor
  · rintro ⟨x, hx, ht, hc⟩
    exact ⟨_, (h.denotes hx).2 ht, hc⟩
  · rintro ⟨k, hk, hc⟩
    obtain ⟨x, hx, rfl, ht⟩ := h.complete k hk
    exact ⟨x, hx, ht.2.2 trivial, hc⟩

theorem forall_iff (h : Indicates v key lit xs r) {C : κ → Prop} :
    (∀ x ∈ xs, (lit x).value v.value = true → C (key x)) ↔ ∀ k, r k → C k := by
  constructor
  · intro hall k hk
    obtain ⟨x, hx, rfl, ht⟩ := h.complete k hk
    exact hall x hx (ht.2.2 trivial)
  · exact fun hall x hx ht => hall _ ((h.denotes hx).2 ht)

theorem forall₂_denotes (h : Indicates v key lit xs r) :
    List.Forall₂ v.Denotes (xs.map lit) (xs.map fun x => (lit x).value v.value = true) :=
  forall₂_denotes_map fun _ hx => (h.denotes hx).1

end Indicates

/-- Some literal of the list is true exactly when `P` holds. -/
def Expresses (v : Valuation) (lits : List Literal) (P : Prop) : Prop :=
  (∀ l ∈ lits, v.knows l.var) ∧ ((∃ l ∈ lits, l.value v.value = true) ↔ P)

section Expresses

variable {lits : List Literal} {P Q : Prop} {l : Literal}

theorem Expresses.mono (h : Expresses v lits P) (hv : v ≤ v') : Expresses v' lits P := by
  refine ⟨fun l hl => (hv _ (h.1 l hl)).1, Iff.trans (exists_congr fun l => and_congr_right fun hl => ?_) h.2⟩
  exact ((denotes_self (h.1 l hl)).mono hv).2

theorem Expresses.congr (h : Expresses v lits P) (hP : P ↔ Q) : Expresses v lits Q := ⟨h.1, h.2.trans hP⟩

theorem expresses_nil : Expresses v [] False := by simp [Expresses]

theorem expresses_singleton (h : v.Denotes l P) : Expresses v [l] P := by
  refine ⟨by simpa using h.1, ?_⟩
  simpa using h.2

theorem expresses_flatten {found : List (List Literal)} {C : α → Prop}
    (h : List.Forall₂ (fun x ls => Expresses v ls (C x)) xs found) : Expresses v found.flatten (∃ x ∈ xs, C x) := by
  induction h with
  | nil => exact expresses_nil.congr (by simp)
  | cons hx _ ih =>
    refine ⟨fun l hl => ?_, ?_⟩
    · rcases List.mem_append.1 hl with hl | hl
      · exact hx.1 l hl
      · exact ih.1 l hl
    · simp only [List.flatten_cons, List.mem_append, or_and_right, exists_or, hx.2, ih.2, List.exists_mem_cons_iff]

end Expresses

namespace Builder

theorem asserts_clause_of_expresses {lits : List Literal} {P : Prop} (h : Expresses v lits P) :
    Asserts v (addClause lits) P := (asserts_addClause h.1).congr h.2

theorem spec_flatten {g : α → Builder (List Literal)} {C : α → Prop} (hg : ∀ x, Adds (g x))
    (h : ∀ x ∈ xs, ∀ v', v ≤ v' → Spec v' (g x) True fun v'' ls => Expresses v'' ls (C x)) :
    Spec v (xs.mapM g >>= fun found => pure found.flatten) True fun v' ls => Expresses v' ls (∃ x ∈ xs, C x) := by
  have found := Spec.mapM (C := fun _ => True) (Q := fun x v' ls => Expresses v' ls (C x))
    (fun _ _ _ _ hle h => h.mono hle) hg h
  refine Spec.congr (Spec.bind_pure found fun v' ls _ _ hfound => ?_) (by simp)
  exact expresses_flatten hfound

theorem spec_or_of_indicates (h : Indicates v key lit xs r) :
    Spec v (or (xs.map lit)) True fun v' l => v'.Denotes l (∃ k, r k) :=
  (spec_or h.forall₂_denotes).post fun _ _ _ _ hd => hd.congr (anyOf_map.trans h.exists_iff)

/-- Clauses for each entry on condition of its literal speak of the things that are so. -/
theorem asserts_forM_of_indicates {g : α → Builder Unit} {C : κ → Prop} (hg : ∀ x, Adds (g x))
    (h : Indicates v key lit xs r)
    (hC : ∀ x ∈ xs, ∀ v' P, v ≤ v' → v'.Denotes (lit x) P → (P → r (key x)) → Asserts v' (g x) (P → C (key x))) :
    Asserts v (xs.forM g) (∀ k, r k → C k) :=
  (Asserts.forM hg fun x hx v' hle =>
    hC x hx v' _ hle ((h.denotes hx).1.mono hle) (h.denotes hx).2).congr h.forall_iff

end Builder

end MinimalistGrammar.Sat
