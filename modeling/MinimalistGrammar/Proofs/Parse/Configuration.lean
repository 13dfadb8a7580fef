import MinimalistGrammar.Interface.Format
import MinimalistGrammar.Parse.Format
import MinimalistGrammar.Proofs.Json.Decode
import MinimalistGrammar.Proofs.Json.Text

/-!
Options and interface conditions are read back as they were written.
-/

namespace MinimalistGrammar

open Json

section Options

/-- The numbers fit into machine words. -/
def Bounds.FitsWords (b : Bounds) : Prop :=
  b.emptyItems < wordBound ∧ b.movements < wordBound ∧ b.headMovements < wordBound

instance (b : Bounds) : Decidable b.FitsWords := inferInstanceAs (Decidable (_ ∧ _ ∧ _))

def ParseOptions.FitsWords (o : ParseOptions) : Prop :=
  o.maxParses < wordBound ∧ o.bounds.FitsWords ∧ o.timeout.all (· < wordBound)

instance (o : ParseOptions) : Decidable o.FitsWords := inferInstanceAs (Decidable (_ ∧ _ ∧ _))

theorem Bounds.isWritable_toJson (b : Bounds) : b.toJson.IsWritable := .mkObject (by simp)

theorem Locality.isWritable_toJson : ∀ l : Locality, l.toJson.IsWritable
  | shortestMove => .mkObject (by simp)
  | phaseBounded phases => .mkObject (by simp)

theorem ParseOptions.isWritable_toJson (o : ParseOptions) : o.toJson.IsWritable := by
  have htimeout : (ofOption ofNat o.timeout).IsWritable := .ofOption fun t _ => .ofNat t
  exact .mkObject (by simp [htimeout, o.bounds.isWritable_toJson, o.locality.isWritable_toJson])

theorem Bounds.ofJson?_toJson (b : Bounds) : ofJson? b.toJson = if b.FitsWords then some b else none := by
  have hfields : b.toJson.fields? [["max_num_empty_lexical_items"], ["max_num_movements"], ["max_num_head_movements"]] =
      some [some (.ofNat b.emptyItems), some (.ofNat b.movements), some (.ofNat b.headMovements)] := by
    rw [toJson, fields?_mkObject]
    rfl
  rw [ofJson?, hfields]
  simp only [Option.bind_eq_bind, Option.bind_some, optional?, word64?_ofNat, FitsWords]
  by_cases hitems : b.emptyItems < wordBound <;> by_cases hmovements : b.movements < wordBound <;>
    by_cases hheads : b.headMovements < wordBound <;> simp [hitems, hmovements, hheads]

theorem Locality.ofJson?_toJson (depth : Nat) (l : Locality) : ofJson? (depth + 2) l.toJson = some l := by
  have hsound : l.toJson.isSound (depth + 2) = true := by cases l <;> exact isSound_mkObject_iff.2 (by simp)
  rw [ofJson?, hsound]
  cases l with
  | shortestMove =>
    have htag : shortestMove.toJson.tagged? "policy" = some ("shortest_move", .mkObject []) := tagged?_mkObject (by simp)
    rw [htag]
    rfl
  | phaseBounded phases =>
    have htag : (phaseBounded phases).toJson.tagged? "policy" =
        some ("phase_bounded", .mkObject [("phases", .ofStrings phases)]) := tagged?_mkObject (by simp)
    have hfields : (mkObject [("phases", .ofStrings phases)]).fields? [["phases"]] = some [some (.ofStrings phases)] := by
      rw [fields?_mkObject]
      rfl
    simp [htag, hfields, required?, list?_ofStrings]

theorem nullable?_word64? (t : Option Nat) :
    (ofOption ofNat t).nullable? word64? = if t.all (· < wordBound) then some t else none := by
  cases t with
  | none => simp [ofOption, nullable?]
  | some n =>
    rw [ofOption, nullable?_of_ne_null (by simp [ofNat]), word64?_ofNat]
    by_cases hn : n < wordBound <;> simp [hn]

theorem ParseOptions.ofJson?_toJson (depth : Nat) (o : ParseOptions) :
    ofJson? (depth + 3) o.toJson = if o.FitsWords then some o else none := by
  have hfields : o.toJson.fields? [["include_pf_constraints"], ["include_lf_constraints"], ["extract_all_parses"],
      ["max_parses"], ["bounds"], ["timeout_ms"], ["locality"]] =
      some [some (.ofBool o.constrainsSentence), some (.ofBool o.constrainsLogicalForm), some (.ofBool o.allParses),
        some (.ofNat o.maxParses), some o.bounds.toJson, some (.ofOption .ofNat o.timeout), some o.locality.toJson] := by
    rw [toJson, fields?_mkObject]
    rfl
  have hlocality : Locality.ofJson? (depth + 2) o.locality.toJson = some o.locality :=
    Locality.ofJson?_toJson depth o.locality
  rw [ofJson?, hfields]
  simp only [Option.bind_eq_bind, Option.bind_some, optional?, ofBool, bool?, word64?_ofNat, Bounds.ofJson?_toJson,
    nullable?_word64?, FitsWords]
  by_cases hparses : o.maxParses < wordBound <;> by_cases hbounds : o.bounds.FitsWords <;>
    by_cases htimeout : o.timeout.all (· < wordBound) = true <;> simp [hlocality, hparses, hbounds, htimeout]

theorem ParseOptions.ofText_write_eq_ok_iff (o : ParseOptions) : ofText o.toJson.write = .ok o ↔ o.FitsWords := by
  have hread : (parse? o.toJson.write >>= ofJson? maxDepth) = if o.FitsWords then some o else none := by
    rw [parse?_write o.isWritable_toJson]
    -- options need three of the levels there are
    exact ofJson?_toJson (maxDepth - 3) o
  rw [ofText, hread]
  by_cases h : o.FitsWords <;> simp [h]

end Options

section Conditions

theorem Categories.isWritable_toJson (c : Categories) : c.toJson.IsWritable := .mapMembers fun p _ => .ofString p.2

theorem Relation.isWritable_toJson : ∀ r : Relation, r.toJson.IsWritable
  | theta predicate role argument => .mkObject (by simp [Role.toJson])
  | agree predicate argument => .mkObject (by simp)

theorem LogicalForm.isWritable_toJson (f : LogicalForm) : f.toJson.IsWritable := by
  have hroot : (ofOption ofString f.root).IsWritable := .ofOption fun s _ => .ofString s
  have hrelations : (array (f.relations.map Relation.toJson)).IsWritable := .map fun r _ => r.isWritable_toJson
  have hwords : (ofOption ofStrings f.words).IsWritable := .ofOption fun l _ => .ofStrings l
  exact .mkObject (by simp [hroot, hrelations, hwords, f.categories.isWritable_toJson])

theorem Condition.isWritable_toJson (c : Condition) : c.toJson.IsWritable := by
  have hform : ∀ f : LogicalForm, f.toJson.IsWritable := LogicalForm.isWritable_toJson
  exact .mkObject (by cases c.sentence <;> cases c.logicalForm <;> simp [hform])

theorem Corpus.isWritable_toJson (c : Corpus) : c.toJson.IsWritable := by
  have hconditions : (array (c.conditions.map Condition.toJson)).IsWritable := .map fun c _ => c.isWritable_toJson
  exact .mkObject (by simp [hconditions])

theorem insertCategory_of_lt {word category : String} {l : List (String × String)} (h : ∀ p ∈ l, p.1 < word) :
    insertCategory word category l = l ++ [(word, category)] := by
  induction l with
  | nil => rfl
  | cons p l ih =>
    have hp : p.1 < word := h p (by simp)
    have hnlt : ¬ word < p.1 := fun hlt => String.lt_irrefl _ (String.lt_trans hp hlt)
    have hne : word ≠ p.1 := fun heq => String.lt_irrefl _ (heq ▸ hp)
    rw [insertCategory, if_neg hnlt, if_neg hne, ih fun q hq => h q (by simp [hq]), List.cons_append]

theorem Categories.toList_foldl_insert {c : Categories} {l : List (String × String)}
    (h : (c.toList ++ l).Pairwise (·.1 < ·.1)) : (l.foldl (fun c p => c.insert p.1 p.2) c).toList = c.toList ++ l := by
  induction l generalizing c with
  | nil => simp
  | cons p l ih =>
    have hinsert : (c.insert p.1 p.2).toList = c.toList ++ [p] :=
      insertCategory_of_lt fun q hq => (List.pairwise_append.1 h).2.2 q hq p (by simp)
    have hrest := ih (c := c.insert p.1 p.2) (by rw [hinsert]; simpa using h)
    rw [List.foldl_cons, hrest, hinsert, List.append_assoc, List.singleton_append]

theorem Categories.ofList_toList (c : Categories) : ofList c.toList = c := by
  have h : (ofList c.toList).toList = c.toList := toList_foldl_insert (c := ∅) c.sorted
  cases hc : ofList c.toList
  cases c
  simp_all

theorem Categories.ofJson?_toJson (c : Categories) : ofJson? c.toJson = some c := by
  have hmembers := mapM_map_eq_some (l := c.toList) (e := fun p => (p.1, ofString p.2)) (h := id)
    (g := fun m => m.2.string?.map fun k => (m.1, k)) fun _ _ => rfl
  have hread : ofJson? c.toJson = c.toJson.members? >>= fun members =>
      (members.mapM fun m => m.2.string?.map fun k => (m.1, k)) >>= fun l => some (ofList l) := rfl
  rw [hread, toJson, members?_mkObject, Option.bind_eq_bind, Option.bind_some, hmembers, List.map_id, Option.bind_eq_bind,
    Option.bind_some, ofList_toList]

theorem Role.ofJson?_toJson (r : Role) : ofJson? r.toJson = some r := by cases r <;> rfl

theorem Phrase.ofJson?_ofStrings (p : Phrase) : ofJson? (ofStrings p) = some p := list?_ofStrings p

theorem Relation.isSound_toJson (depth : Nat) : ∀ r : Relation, r.toJson.isSound (depth + 2) = true
  | theta predicate role argument => isSound_mkObject_iff.2 (by simp [Role.toJson])
  | agree predicate argument => isSound_mkObject_iff.2 (by simp)

theorem Relation.ofJson?_toJson (depth : Nat) (r : Relation) : ofJson? (depth + 2) r.toJson = some r := by
  have hsound := r.isSound_toJson depth
  cases r with
  | theta predicate role argument =>
    let parts := [("pred", ofString predicate), ("role", role.toJson), ("arg", ofStrings argument)]
    have htag : (theta predicate role argument).toJson.tagged? "relation" = some ("theta", mkObject parts) :=
      tagged?_mkObject (by simp)
    have hfields : (mkObject parts).fields? [["pred"], ["role"], ["arg"]] =
        some [some (.ofString predicate), some role.toJson, some (.ofStrings argument)] := by
      rw [fields?_mkObject]
      rfl
    rw [ofJson?, hsound, htag]
    simp [hfields, required?, ofString, string?, Role.ofJson?_toJson, Phrase.ofJson?_ofStrings]
  | agree predicate argument =>
    let parts := [("pred", ofString predicate), ("arg", ofStrings argument)]
    have htag : (agree predicate argument).toJson.tagged? "relation" = some ("agree", mkObject parts) :=
      tagged?_mkObject (by simp)
    have hfields : (mkObject parts).fields? [["pred"], ["arg"]] =
        some [some (.ofString predicate), some (.ofStrings argument)] := by
      rw [fields?_mkObject]
      rfl
    rw [ofJson?, hsound, htag]
    simp [hfields, required?, ofString, string?, Phrase.ofJson?_ofStrings]

theorem LogicalForm.ofJson?_toJson (depth : Nat) (f : LogicalForm) : ofJson? (depth + 4) f.toJson = some f := by
  have hfields : f.toJson.fields? [["root"], ["relations"], ["categories"], ["words"]] =
      some [some (.ofOption .ofString f.root), some (.array (f.relations.map Relation.toJson)),
        some f.categories.toJson, some (.ofOption .ofStrings f.words)] := by
    rw [toJson, fields?_mkObject]
    rfl
  have hroot : (ofOption ofString f.root).nullable? string? = some f.root :=
    nullable?_ofOption (fun _ _ => rfl) (by simp [ofString])
  have hrelations : (array (f.relations.map Relation.toJson)).list? (Relation.ofJson? (depth + 2)) = some f.relations :=
    list?_map fun r _ => r.ofJson?_toJson depth
  have hwords : (ofOption ofStrings f.words).nullable? (list? string?) = some f.words :=
    nullable?_ofOption (fun l _ => list?_ofStrings l) (by simp [ofStrings])
  rw [ofJson?, hfields]
  simp [optional?, hroot, hrelations, hwords, Categories.ofJson?_toJson]

theorem Condition.ofJson?_toJson (depth : Nat) (c : Condition) : ofJson? (depth + 5) c.toJson = some c := by
  have hform : ∀ f : LogicalForm, f.toJson.nullable? (LogicalForm.ofJson? (depth + 4)) = some (some f) := by
    intro f
    rw [nullable?_of_ne_null (by simp [LogicalForm.toJson, mkObject])]
    exact congrArg (Option.map some) (f.ofJson?_toJson depth)
  have hsentence : ∀ l, (ofStrings l).nullable? (list? string?) = some (some l) := by
    intro l
    rw [nullable?_of_ne_null (by simp [ofStrings]), list?_ofStrings, Option.map_some]
  obtain ⟨sentence, logicalForm⟩ := c
  have hfields : (toJson ⟨sentence, logicalForm⟩).fields? [["pf", "PF"], ["lf", "LF"]] =
      some [sentence.map ofStrings, logicalForm.map LogicalForm.toJson] := by
    rw [toJson, fields?_mkObject]
    cases sentence <;> cases logicalForm <;> rfl
  rw [ofJson?, hfields]
  cases sentence <;> cases logicalForm <;> simp [optional?, hform, hsentence]

theorem Corpus.ofJson?_toJson (depth : Nat) (c : Corpus) : ofJson? (depth + 7) c.toJson = some c := by
  have hfields : c.toJson.fields? [["input_sequence"]] = some [some (.array (c.conditions.map Condition.toJson))] := by
    rw [toJson, fields?_mkObject]
    rfl
  have hconditions : (array (c.conditions.map Condition.toJson)).list? (Condition.ofJson? (depth + 5)) =
      some c.conditions := list?_map fun c _ => c.ofJson?_toJson depth
  rw [ofJson?, hfields]
  simp [required?, hconditions]

theorem Corpus.ofText_write (c : Corpus) : ofText c.toJson.write = .ok c := by
  have hread : (parse? c.toJson.write >>= ofJson? maxDepth) = some c := by
    rw [parse?_write c.isWritable_toJson]
    exact c.ofJson?_toJson (maxDepth - 7)
  rw [ofText, hread]

/-- Words may hold blanks or nothing, and a target that is absent is not written. -/
example : (Corpus.toJson ⟨[{ sentence := some ["a\tb", ""] }]⟩).write =
    "\x7b\"input_sequence\":[\x7b\"pf\":[\"a\\tb\",\"\"]\x7d]\x7d" := by cbv

end Conditions

/-- Options are read back if and only if their numbers fit into machine words, and conditions always are. -/
theorem ofText_write_options_and_corpus (o : ParseOptions) (c : Corpus) :
    (ParseOptions.ofText o.toJson.write = .ok o ↔ o.FitsWords) ∧ Corpus.ofText c.toJson.write = .ok c :=
  ⟨o.ofText_write_eq_ok_iff, c.ofText_write⟩

end MinimalistGrammar
