import MinimalistGrammar.Proofs.Sat.Gate
import MinimalistGrammar.Sat.Cardinality

/-!
The counter is a cardinality constraint: its registers can be set exactly when no more than the bound of the
counted literals hold.
-/

namespace MinimalistGrammar.Sat

open Classical in
noncomputable def trueCount (ps : List Prop) : Nat := ps.countP (decide ·)

section Registers

variable {x : Prop} {xs regs old new : List Prop} {rows : List (List Prop)} {c k : Nat}

@[simp] theorem trueCount_nil : trueCount [] = 0 := rfl

open Classical in
theorem trueCount_cons : trueCount (x :: xs) = (if x then 1 else 0) + trueCount xs := by
  rw [trueCount, List.countP_cons, Nat.add_comm]
  simp [trueCount]

theorem trueCount_cons_of_true (h : x) : trueCount (x :: xs) = 1 + trueCount xs := by
  rw [trueCount_cons, if_pos h]

theorem trueCount_cons_of_false (h : ¬x) : trueCount (x :: xs) = trueCount xs := by
  rw [trueCount_cons, if_neg h, Nat.zero_add]

/-- What the clauses of `startCount` say. -/
def StartHolds (x : Prop) : List Prop → Prop
  | [] => True
  | register :: higher => (x → register) ∧ ∀ r ∈ higher, ¬r

def CarryHolds (x below : Prop) : List Prop → List Prop → Prop
  | old :: olds, new :: news => ((x → below → new) ∧ (old → new)) ∧ CarryHolds x old olds news
  | _, _ => True

def OverflowHolds (x : Prop) (regs : List Prop) : Prop := ∀ full ∈ regs.getLast?, ¬(x ∧ full)

def ContinueHolds (old : List Prop) : List Prop → List (List Prop) → Prop
  | x :: xs, new :: rows => CarryHolds x True old new ∧ OverflowHolds x old ∧ ContinueHolds new xs rows
  | x :: _, [] => OverflowHolds x old
  | [], _ => True

def CountHolds : List Prop → List (List Prop) → Prop
  | x :: xs, row :: rows => StartHolds x row ∧ ContinueHolds row xs rows
  | _, _ => True

/-- The lowest `c` registers are on. -/
def AtLeast (regs : List Prop) (c : Nat) : Prop := ∀ j p, regs[j]? = some p → j < c → p

/-- The registers that are on exactly up to `c`. -/
def exactly (k c : Nat) : List Prop := (List.range k).map (· < c)

theorem exactly_getElem? {j : Nat} {p : Prop} (h : (exactly k c)[j]? = some p) : j < k ∧ (p ↔ j < c) := by
  have hj : j < k := by
    have := (List.getElem?_eq_some_iff.1 h).1
    simpa [exactly] using this
  rw [exactly, List.getElem?_map, List.getElem?_range hj, Option.map_some, Option.some.injEq] at h
  exact ⟨hj, by rw [← h]⟩

theorem lt_of_overflowHolds (h : OverflowHolds x regs) (hr : AtLeast regs c) (hl : regs.length = k)
    (hk : 0 < k) (hc : c ≤ k) (hx : x) : c < k := by
  refine Nat.lt_of_le_of_ne hc fun e => ?_
  have hlast : k - 1 < regs.length := by omega
  have hget : regs[k - 1]? = some regs[k - 1] := List.getElem?_eq_getElem hlast
  refine h regs[k - 1] ?_ ⟨hx, hr (k - 1) _ hget (by omega)⟩
  rw [List.getLast?_eq_getElem?, hl]
  exact hget

theorem atLeast_of_carryHolds {below : Prop} (h : CarryHolds x below old new) (hb : 0 < c → below)
    (hl : old.length = new.length) (ho : AtLeast old (c - 1)) :
    AtLeast new (c - 1) ∧ (x → AtLeast new c) := by
  -- by the old row; for the rest of it, its first place is the one below
  induction old generalizing new below c with
  | nil =>
    rw [List.length_nil, eq_comm, List.length_eq_zero_iff] at hl
    subst hl
    exact ⟨fun _ _ hj => by simp at hj, fun _ _ _ hj => by simp at hj⟩
  | cons o olds ih =>
    obtain ⟨n, news, rfl⟩ := List.exists_cons_of_length_eq_add_one hl.symm
    obtain ⟨⟨hx, hon⟩, hrest⟩ := h
    have hstep := ih (c := c - 1) hrest (fun hc => ho 0 o rfl hc) (by simpa using hl)
      fun j p hj hlt => ho (j + 1) p hj (by omega)
    constructor
    · rintro (_ | j) p hj hlt
      · cases hj
        exact hon (ho 0 o rfl hlt)
      · exact hstep.1 j p hj (by omega)
    · rintro hx' (_ | j) p hj hlt
      · cases hj
        exact hx hx' (hb hlt)
      · exact hstep.2 hx' j p hj (by omega)

theorem carryHolds_exactly (x : Prop) (d : Nat) (hd : x → c < d) (hc : c ≤ d) :
    CarryHolds x True (exactly k c) (exactly k d) := by
  -- from place `i` on, with the literal of the place before it
  have shifted : ∀ (l : List Nat) (below : Prop) (i : Nat), l = List.range' i l.length →
      (below → i ≤ c) → CarryHolds x below (l.map (· < c)) (l.map (· < d)) := by
    intro l
    induction l with
    | nil => exact fun _ _ _ _ => trivial
    | cons j rest ih =>
      intro below i hl hb
      rw [List.length_cons, List.range'_succ, List.cons.injEq] at hl
      obtain ⟨rfl, hrest⟩ := hl
      refine ⟨⟨fun hx hbelow => ?_, fun h => by omega⟩, ih (j < c) (j + 1) hrest id⟩
      have := hb hbelow
      have := hd hx
      omega
  exact shifted (List.range k) True 0 (by rw [List.length_range, List.range_eq_range']) fun _ =>
    Nat.zero_le c

theorem overflowHolds_exactly (hx : x → c < k) : OverflowHolds x (exactly k c) := by
  rintro full hfull ⟨h, hf⟩
  rw [Option.mem_def, List.getLast?_eq_getElem?] at hfull
  obtain ⟨hlt, hiff⟩ := exactly_getElem? hfull
  have := hiff.1 hf
  have := hx h
  simp only [exactly, List.length_map, List.length_range] at *
  omega

theorem continueHolds_le (h : ContinueHolds old xs rows) (hrows : ∀ row ∈ rows, row.length = k)
    (hl : xs.length = rows.length + 1) (ho : old.length = k) (hk : 0 < k) (hc : c ≤ k)
    (hold : AtLeast old c) : c + trueCount xs ≤ k := by
  -- `c` have been counted so far, and the old row holds that many at least
  induction xs generalizing old rows c with
  | nil => simp at hl
  | cons x xs ih =>
    cases rows with
    | nil =>
      have hxs : xs = [] := List.length_eq_zero_iff.1 (by simpa using hl)
      subst hxs
      by_cases hx : x
      · have := lt_of_overflowHolds h hold ho hk hc hx
        rw [trueCount_cons_of_true hx, trueCount_nil]
        omega
      · rw [trueCount_cons_of_false hx, trueCount_nil]
        omega
    | cons new rows =>
      obtain ⟨hcarry, hover, hrest⟩ := h
      have hnew : new.length = k := hrows new (.head _)
      have hrec := fun d => ih (c := d) hrest (fun row hr => hrows row (.tail _ hr)) (by simpa using hl) hnew
      have hstep := atLeast_of_carryHolds (c := c + 1) hcarry (fun _ => trivial) (ho.trans hnew.symm) hold
      by_cases hx : x
      · have hlt := lt_of_overflowHolds hover hold ho hk hc hx
        rw [trueCount_cons_of_true hx, ← Nat.add_assoc]
        exact hrec (c + 1) hlt (hstep.2 hx)
      · rw [trueCount_cons_of_false hx]
        exact hrec c hc hstep.1

theorem exists_continueHolds (hc : c + trueCount xs ≤ k) :
    ∃ rows : List (List Prop), rows.length = xs.length - 1 ∧ (∀ row ∈ rows, row.length = k) ∧
      ContinueHolds (exactly k c) xs rows := by
  induction xs generalizing c with
  | nil => exact ⟨[], rfl, by simp, trivial⟩
  | cons x xs ih =>
    have hover : OverflowHolds x (exactly k c) := overflowHolds_exactly fun hx => by
      rw [trueCount_cons_of_true hx] at hc
      omega
    cases xs with
    | nil => exact ⟨[], rfl, by simp, hover⟩
    | cons y ys =>
      have next : ∃ d, (x → c < d) ∧ c ≤ d ∧ d + trueCount (y :: ys) ≤ k := by
        by_cases hx : x
        · rw [trueCount_cons_of_true hx] at hc
          exact ⟨c + 1, fun _ => by omega, by omega, by omega⟩
        · rw [trueCount_cons_of_false hx] at hc
          exact ⟨c, fun h => absurd h hx, Nat.le_refl c, hc⟩
      obtain ⟨d, hd, hcd, hk⟩ := next
      obtain ⟨rows, hl, hrows, h⟩ := ih hk
      refine ⟨exactly k d :: rows, by simpa using hl, ?_, carryHolds_exactly x d hd hcd, hover, h⟩
      intro row hr
      rcases List.mem_cons.1 hr with rfl | hr
      · simp [exactly]
      · exact hrows row hr

theorem atLeast_of_startHolds (h : StartHolds x regs) (hr : 0 < regs.length) (hx : x) : AtLeast regs 1 := by
  obtain ⟨r, higher, rfl⟩ := List.exists_cons_of_length_pos hr
  intro j p hj hlt
  obtain rfl : j = 0 := by omega
  cases hj
  exact h.1 hx

theorem startHolds_exactly (hk : 0 < k) (hc : c ≤ 1) (hx : x → 0 < c) : StartHolds x (exactly k c) := by
  obtain ⟨n, rfl⟩ := Nat.exists_eq_add_of_lt hk
  have shape : exactly (0 + n + 1) c = (0 < c) :: (List.range (0 + n)).map fun j => j + 1 < c := by
    rw [exactly, List.range_succ_eq_map, List.map_cons, List.map_map]
    rfl
  rw [shape]
  refine ⟨hx, fun r hr => ?_⟩
  obtain ⟨j, _, rfl⟩ := List.mem_map.1 hr
  omega

/-- Registers for a list longer than the bound exist exactly if no more than the bound of it holds. -/
theorem exists_countHolds_iff (hk : 0 < k) (hl : k < xs.length) :
    (∃ rows : List (List Prop), (rows.length = xs.length - 1 ∧ ∀ row ∈ rows, row.length = k) ∧
      CountHolds xs rows) ↔ trueCount xs ≤ k := by
  obtain ⟨x, y, xs, rfl⟩ : ∃ x y ys, xs = x :: y :: ys := by
    match xs, hl with
    | [], h => simp at h
    | [_], h => simp at h; omega
    | x :: y :: ys, _ => exact ⟨x, y, ys, rfl⟩
  constructor
  · rintro ⟨rows, ⟨hrows, hlen⟩, h⟩
    obtain ⟨row, rows, rfl⟩ := List.exists_cons_of_length_eq_add_one (by simpa using hrows)
    obtain ⟨hstart, hcont⟩ := h
    have hrow : row.length = k := hlen row (.head _)
    have hrec := fun c => continueHolds_le (c := c) hcont (fun r hr => hlen r (.tail _ hr))
      (by simpa using hrows.symm) hrow hk
    by_cases hx : x
    · rw [trueCount_cons_of_true hx]
      exact hrec 1 hk (atLeast_of_startHolds hstart (hrow ▸ hk) hx)
    · rw [trueCount_cons_of_false hx, ← Nat.zero_add (trueCount _)]
      exact hrec 0 (Nat.zero_le k) fun j p _ hlt => absurd hlt (Nat.not_lt_zero j)
  · intro h
    -- set each row to exactly what has been counted so far
    obtain ⟨c, hc, hs⟩ : ∃ c, c + trueCount (y :: xs) ≤ k ∧ StartHolds x (exactly k c) := by
      by_cases hx : x
      · rw [trueCount_cons_of_true hx] at h
        exact ⟨1, h, startHolds_exactly hk (Nat.le_refl 1) fun _ => Nat.one_pos⟩
      · rw [trueCount_cons_of_false hx] at h
        exact ⟨0, by omega, startHolds_exactly hk (Nat.zero_le 1) fun h => absurd h hx⟩
    obtain ⟨rows, hrows, hlen, hcont⟩ := exists_continueHolds hc
    refine ⟨exactly k c :: rows, ⟨by simpa using hrows, ?_⟩, hs, hcont⟩
    intro row hr
    rcases List.mem_cons.1 hr with rfl | hr
    · simp [exactly]
    · exact hlen row hr

end Registers

end MinimalistGrammar.Sat
