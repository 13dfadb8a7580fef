import MinimalistGrammar.Json.Writer
import Mathlib.Tactic.Common

/-!
The characters of a written value, part by part.
-/

namespace MinimalistGrammar.Json

variable {n : Nat} {s acc : String} {v : Json} {items : List Json} {members : List (Option String × Json)}

section Number

theorem toList_foldl_digits {ds : List Nat} : (ds.foldl (fun acc d => acc ++ toString d) acc).toList =
    acc.toList ++ ds.flatMap (Nat.toDigits 10) := by
  induction ds generalizing acc with
  | nil => simp
  | cons d ds ih =>
    rw [List.foldl_cons, ih, String.toList_append, Nat.toString_eq_ofList_toDigits, String.toList_ofList, List.flatMap_cons,
      List.append_assoc]

theorem digitChar_toNat_sub {c : Char} (h : c.isDigit = true) : Nat.digitChar (c.toNat - '0'.toNat) = c := by
  obtain ⟨hle, hge⟩ := Char.isDigit_iff_toNat.1 h
  have h0 : '0'.toNat = 48 := rfl
  have h9 : '9'.toNat = 57 := rfl
  apply Char.toNat_inj.1
  rw [Nat.toNat_digitChar_of_lt_ten (by omega)]
  omega

theorem flatMap_toDigits_map {cs : List Char} (h : ∀ c ∈ cs, c.isDigit = true) :
    (cs.map fun c => c.toNat - '0'.toNat).flatMap (Nat.toDigits 10) = cs := by
  induction cs with
  | nil => rfl
  | cons c cs ih =>
    have hc := h c (by simp)
    have hlt : c.toNat - '0'.toNat < 10 := by
      have h9 : '9'.toNat = 57 := rfl
      have := (Char.isDigit_iff_toNat.1 hc).2
      simp only [Char.reduceToNat]
      omega
    rw [List.map_cons, List.flatMap_cons, ih fun d hd => h d (by simp [hd]), Nat.toDigits_of_lt_base hlt,
      digitChar_toNat_sub hc, List.singleton_append]

theorem toList_write_ofNat (n : Nat) : (ofNat n).write.toList = Nat.toDigits 10 n := by
  have hdigits : (decimalDigits n).flatMap (Nat.toDigits 10) = Nat.toDigits 10 n :=
    flatMap_toDigits_map fun c hc => Nat.isDigit_of_mem_toDigits (by decide) (by decide) hc
  simpa only [ofNat, write, writeTo, Number.text, Bool.false_eq_true, if_false, Option.elim_none, String.toList_append,
    toList_foldl_digits, String.toList_empty, List.nil_append, List.append_nil] using hdigits

end Number

section Quote

theorem toList_foldl_push {cs : List Char} : (cs.foldl String.push acc).toList = acc.toList ++ cs := by
  induction cs generalizing acc with
  | nil => simp
  | cons c cs ih => rw [List.foldl_cons, ih, String.toList_push, List.append_assoc, List.singleton_append]

theorem toList_quote (s : String) : (quote s).toList = '"' :: s.toList.flatMap escape ++ ['"'] := by
  have hfold : ∀ cs : List Char, ∀ acc : String, (cs.foldl (fun acc c => (escape c).foldl String.push acc) acc).toList =
      acc.toList ++ cs.flatMap escape := by
    intro cs
    induction cs with
    | nil => simp
    | cons c cs ih =>
      intro acc
      rw [List.foldl_cons, ih, toList_foldl_push, List.flatMap_cons, List.append_assoc]
  rw [quote, String.toList_push, String.foldl_eq_foldl_toList, hfold]
  rfl

end Quote

section Value

mutual

theorem toList_writeTo (acc : String) : ∀ v, (writeTo acc v).toList = acc.toList ++ v.write.toList
  | null => by simp [write, writeTo]
  | bool b => by simp [write, writeTo]
  | number n => by simp [write, writeTo]
  | string s => by simp [write, writeTo]
  | array [] => by simp [write, writeTo]
  | array (v :: rest) => by
    rw [write, writeTo, writeTo]
    simp [toList_writeItemsTo _ rest, toList_writeTo _ v]
  | object [] => by simp [write, writeTo]
  | object ((k, v) :: rest) => by
    rw [write, writeTo, writeTo]
    simp [toList_writeMembersTo _ rest, toList_writeTo _ v]

theorem toList_writeItemsTo (acc : String) : ∀ items, (writeItemsTo acc items).toList =
    acc.toList ++ items.flatMap fun v => ',' :: v.write.toList
  | [] => by simp [writeItemsTo]
  | v :: rest => by simp [writeItemsTo, toList_writeItemsTo _ rest, toList_writeTo _ v]

theorem toList_writeMembersTo (acc : String) : ∀ members, (writeMembersTo acc members).toList =
    acc.toList ++ members.flatMap fun m => ',' :: (quote (m.1.getD "")).toList ++ ':' :: m.2.write.toList
  | [] => by simp [writeMembersTo]
  | (k, v) :: rest => by simp [writeMembersTo, toList_writeMembersTo _ rest, toList_writeTo _ v]

end

theorem toList_write_array (v : Json) (rest : List Json) : (array (v :: rest)).write.toList =
    '[' :: (v.write.toList ++ ((rest.flatMap fun v => ',' :: v.write.toList) ++ [']'])) := by
  rw [write, writeTo]
  simp [toList_writeItemsTo, toList_writeTo]

theorem toList_write_object (k : Option String) (v : Json) (rest : List (Option String × Json)) :
    (object ((k, v) :: rest)).write.toList = '{' :: ((quote (k.getD "")).toList ++ ':' :: v.write.toList ++
      ((rest.flatMap fun m => ',' :: (quote (m.1.getD "")).toList ++ ':' :: m.2.write.toList) ++ ['}'])) := by
  rw [write, writeTo]
  simp [toList_writeMembersTo, toList_writeTo]

end Value

end MinimalistGrammar.Json
