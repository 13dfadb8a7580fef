import MinimalistGrammar.Proofs.Json.Tokens

/-!
Reading back what was written. The tokens of a value are read as the value wherever a value may stand, and its
text has these tokens if its strings consist of characters and its numbers are natural numbers.
-/

namespace MinimalistGrammar.Json

mutual

/-- The tokens a value is written with. -/
def tokens : Json → List Token
  | array [] => [.openArray, .closeArray]
  | array (v :: rest) => .openArray :: (v.tokens ++ (itemTokens rest ++ [.closeArray]))
  | object [] => [.openObject, .closeObject]
  | object ((k, v) :: rest) =>
    .openObject :: .scalar (string k) :: .colon :: (v.tokens ++ (memberTokens rest ++ [.closeObject]))
  | v => [.scalar v]

def itemTokens : List Json → List Token
  | [] => []
  | v :: rest => .comma :: v.tokens ++ itemTokens rest

def memberTokens : List (Option String × Json) → List Token
  | [] => []
  | (k, v) :: rest => .comma :: .scalar (string k) :: .colon :: v.tokens ++ memberTokens rest

end

section Reading

variable {v : Json} {outer : List Place}

/-- At the beginning of an array the first token of a value is read as anywhere else. -/
theorem foldlM_step_firstElement :
    v.tokens.foldlM Reader.step (.firstElement outer) =
      v.tokens.foldlM Reader.step (.value (.element [] :: outer)) := by
  cases v with
  | array items => cases items <;> rfl
  | object members => rcases members with - | ⟨⟨k, v⟩, rest⟩ <;> rfl
  | _ => rfl

mutual

theorem foldlM_step_tokens (outer : List Place) : ∀ v : Json,
    v.tokens.foldlM Reader.step (.value outer) = some (Reader.place v outer)
  | null => rfl
  | bool _ => rfl
  | number _ => rfl
  | string _ => rfl
  | array [] => rfl
  | array (v :: rest) => by
    have hv := foldlM_step_tokens (.element [] :: outer) v
    have hrest := foldlM_step_itemTokens [v] outer rest
    simp [tokens, Reader.step, Reader.start, foldlM_step_firstElement, hv, Reader.place, hrest]
  | object [] => rfl
  | object ((k, v) :: rest) => by
    have hv := foldlM_step_tokens (.member [] k :: outer) v
    have hrest := foldlM_step_memberTokens [(k, v)] outer rest
    simp [tokens, Reader.step, Reader.start, hv, Reader.place, hrest]

theorem foldlM_step_itemTokens (before : List Json) (outer : List Place) : ∀ items : List Json,
    (itemTokens items).foldlM Reader.step (.afterElement before outer) =
      some (.afterElement (items.reverse ++ before) outer)
  | [] => rfl
  | v :: rest => by
    have hv := foldlM_step_tokens (.element before :: outer) v
    have hrest := foldlM_step_itemTokens (v :: before) outer rest
    simp [itemTokens, Reader.step, hv, Reader.place, hrest]

theorem foldlM_step_memberTokens (before : List (Option String × Json)) (outer : List Place) :
    ∀ members : List (Option String × Json), (memberTokens members).foldlM Reader.step (.afterMember before outer) =
      some (.afterMember (members.reverse ++ before) outer)
  | [] => rfl
  | (k, v) :: rest => by
    have hv := foldlM_step_tokens (.member before k :: outer) v
    have hrest := foldlM_step_memberTokens ((k, v) :: before) outer rest
    simp [memberTokens, Reader.step, hv, Reader.place, hrest]

end

end Reading

section Writing

/-- The values that are written exactly as they are. -/
inductive IsWritable : Json → Prop
  | null : IsWritable null
  | ofBool (b : Bool) : IsWritable (ofBool b)
  | ofNat (n : Nat) : IsWritable (ofNat n)
  | ofString (s : String) : IsWritable (ofString s)
  | array {items : List Json} (h : ∀ v ∈ items, IsWritable v) : IsWritable (array items)
  | mkObject {members : List (String × Json)} (h : ∀ m ∈ members, IsWritable m.2) : IsWritable (mkObject members)

attribute [simp] IsWritable.null IsWritable.ofBool IsWritable.ofNat IsWritable.ofString

theorem IsWritable.map {α : Type} {f : α → Json} {l : List α} (h : ∀ a ∈ l, (f a).IsWritable) :
    (Json.array (l.map f)).IsWritable := .array (List.forall_mem_map.2 h)

theorem IsWritable.mapMembers {α : Type} {f : α → String × Json} {l : List α} (h : ∀ a ∈ l, (f a).2.IsWritable) :
    (Json.mkObject (l.map f)).IsWritable := .mkObject (List.forall_mem_map.2 h)

@[simp]
theorem IsWritable.ofStrings (l : List String) : (Json.ofStrings l).IsWritable := .map fun s _ => .ofString s

theorem IsWritable.ofOption {α : Type} {f : α → Json} {o : Option α} (h : ∀ a ∈ o, (f a).IsWritable) :
    (Json.ofOption f o).IsWritable := by
  cases o with
  | none => exact .null
  | some a => exact h a rfl

theorem itemTokens_eq_flatMap (items : List Json) : itemTokens items = items.flatMap fun v => .comma :: v.tokens := by
  induction items with
  | nil => rfl
  | cons v rest ih => rw [itemTokens, ih, List.flatMap_cons]

theorem memberTokens_eq_flatMap (members : List (Option String × Json)) :
    memberTokens members = members.flatMap fun m => .comma :: .scalar (string m.1) :: .colon :: m.2.tokens := by
  induction members with
  | nil => rfl
  | cons m rest ih => rw [memberTokens, ih, List.flatMap_cons]

theorem lexes_member {k : String} {v : Json} (hv : Lexes v.write.toList v.tokens) :
    Lexes ((quote k).toList ++ ':' :: v.write.toList) (.scalar (ofString k) :: .colon :: v.tokens) :=
  (lexes_quote k).append (.cons stands_colon hv)

theorem lexes_write {v : Json} (h : v.IsWritable) : Lexes v.write.toList v.tokens := by
  induction h with
  | null => exact lexes_null
  | ofBool b => exact lexes_bool b
  | ofNat n => exact lexes_ofNat n
  | ofString s =>
    have htext : (ofString s).write = quote s := by simp [ofString, write, writeTo]
    rw [htext]
    exact lexes_quote s
  | @array items h ih =>
    cases items with
    | nil => exact (Follows.cons stands_openArray (Follows.cons stands_closeArray Follows.nil.lexes).lexes).lexes
    | cons v rest =>
      have hrest : Follows (rest.flatMap fun v => ',' :: v.write.toList) (itemTokens rest) := by
        rw [itemTokens_eq_flatMap]
        exact .flatMap fun w hw => .cons stands_comma (ih w (by simp [hw]))
      have hend : Follows [']'] [.closeArray] := .cons stands_closeArray Follows.nil.lexes
      rw [toList_write_array, tokens]
      exact (Follows.cons stands_openArray ((ih v (by simp)).append (hrest.append hend))).lexes
  | @mkObject members h ih =>
    rcases members with - | ⟨⟨k, v⟩, rest⟩
    · exact (Follows.cons stands_openObject (Follows.cons stands_closeObject Follows.nil.lexes).lexes).lexes
    · have hrest : Follows
          ((rest.map fun m => (some m.1, m.2)).flatMap fun m => ',' :: (quote (m.1.getD "")).toList ++ ':' :: m.2.write.toList)
          (memberTokens (rest.map fun m => (some m.1, m.2))) := by
        rw [memberTokens_eq_flatMap, List.flatMap_map, List.flatMap_map]
        exact .flatMap fun m hm => .cons stands_comma (lexes_member (ih m (by simp [hm])))
      have hend : Follows ['}'] [.closeObject] := .cons stands_closeObject Follows.nil.lexes
      have hfirst := lexes_member (k := k) (ih (k, v) (by simp))
      rw [mkObject, List.map_cons, toList_write_object, tokens]
      exact (Follows.cons stands_openObject (hfirst.append (hrest.append hend))).lexes

end Writing

theorem parse?_write {v : Json} (h : v.IsWritable) : parse? v.write = some v := by
  rw [parse?, tokens?_of_lexes (lexes_write h)]
  simp [foldlM_step_tokens, Reader.place, Reader.result?]

end MinimalistGrammar.Json
