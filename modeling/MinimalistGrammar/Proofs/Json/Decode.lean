import MinimalistGrammar.Json.Decode
import MinimalistGrammar.Proofs.Fallible

/-!
Reading data out of the values it is put into, and how deep such values are.
-/

namespace MinimalistGrammar.Json

variable {α : Type} {f : α → Json} {read : Json → Option α} {members : List (String × Json)} {n depth : Nat}

section Reading

theorem list?_map {l : List α} (h : ∀ a ∈ l, read (f a) = some a) : (array (l.map f)).list? read = some l := by
  have h := mapM_map_eq_some (h := id) h
  rwa [List.map_id] at h

theorem list?_ofStrings (l : List String) : (ofStrings l).list? string? = some l := list?_map fun _ _ => rfl

theorem nullable?_of_ne_null {v : Json} (h : v ≠ null) : v.nullable? read = (read v).map some := by
  cases v <;> first | rfl | exact absurd rfl h

theorem nullable?_ofOption {o : Option α} (h : ∀ a, o = some a → read (f a) = some a) (hnull : ∀ a, f a ≠ null) :
    (ofOption f o).nullable? read = some o := by
  cases o with
  | none => rfl
  | some a => rw [ofOption, nullable?_of_ne_null (hnull a), h a rfl, Option.map_some]

theorem valueOfDigits_decimalDigits (n : Nat) : valueOfDigits (decimalDigits n) = n := by
  rw [valueOfDigits, decimalDigits, List.foldl_map]
  exact Nat.ofDigitChars_ten_toDigits

theorem word64?_ofNat (n : Nat) : (ofNat n).word64? = if n < wordBound then some n else none := by
  rw [ofNat, word64?]
  simp [Number.toNat?, valueOfDigits_decimalDigits, Option.filter]

theorem members?_mkObject (members : List (String × Json)) : (mkObject members).members? = some members := by
  have h := mapM_map_eq_some (l := members) (e := fun m => (some m.1, m.2)) (h := id)
    (g := fun m => m.1.map fun k => (k, m.2)) fun _ _ => rfl
  rwa [List.map_id] at h

theorem fields?_mkObject (names : List (List String)) :
    (mkObject members).fields? names = names.mapM fun ns => member? ns members := by
  have h : (mkObject members).fields? names =
      (mkObject members).members? >>= fun members => names.mapM fun ns => member? ns members := rfl
  rw [h, members?_mkObject]
  rfl

theorem tagged?_mkObject {key tag : String} (h : ∀ m ∈ members, m.1 ≠ key) :
    (mkObject ((key, ofString tag) :: members)).tagged? key = some (tag, mkObject members) := by
  have hrest : members.filter (fun m => m.1 ∈ [key]) = [] := List.filter_eq_nil_iff.2 fun m hm => by simpa using h m hm
  have hmember : member? [key] ((key, ofString tag) :: members) = some (some (ofString tag)) := by
    rw [member?, List.filter_cons_of_pos (by simp), hrest]
  have hkeep : ((key, ofString tag) :: members).filter (·.1 ≠ key) = members := by
    rw [List.filter_cons_of_neg (by simp)]
    exact List.filter_eq_self.2 fun m hm => by simpa using h m hm
  have hobject : (mkObject ((key, ofString tag) :: members)).tagged? key = (do
      let members ← (mkObject ((key, ofString tag) :: members)).members?
      let tag ← (← member? [key] members) >>= string?
      return (tag, mkObject (members.filter (·.1 ≠ key)))) := rfl
  simp only [hobject, members?_mkObject, Option.bind_eq_bind, Option.bind_some, hmember, hkeep]
  rfl

end Reading

section Depth

@[simp]
theorem isSound_ofString (s : String) : (ofString s).isSound depth = true := rfl

@[simp]
theorem isSound_ofBool (b : Bool) : (ofBool b).isSound depth = true := rfl

theorem areSound_iff {items : List Json} : areSound depth items = true ↔ ∀ v ∈ items, v.isSound depth = true := by
  induction items with
  | nil => simp [areSound]
  | cons v items ih => simp [areSound, ih]

theorem isSound_map_iff {l : List α} :
    (array (l.map f)).isSound (depth + 1) = true ↔ ∀ a ∈ l, (f a).isSound depth = true :=
  areSound_iff.trans List.forall_mem_map

@[simp]
theorem isSound_ofStrings (l : List String) : (ofStrings l).isSound (depth + 1) = true :=
  isSound_map_iff.2 fun s _ => isSound_ofString s

theorem isSound_mkObject_iff : (mkObject members).isSound (depth + 1) = true ↔ ∀ m ∈ members, m.2.isSound depth = true := by
  have hmembers : areSoundMembers depth (members.map fun m => (some m.1, m.2)) = true ↔
      ∀ m ∈ members, m.2.isSound depth = true := by
    induction members with
    | nil => simp [areSoundMembers]
    | cons m members ih => simp [areSoundMembers, ih]
  exact hmembers

end Depth

end MinimalistGrammar.Json
