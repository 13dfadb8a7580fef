import MinimalistGrammar.Proofs.Parse.Validity
import MinimalistGrammar.Proofs.Selection.Licensing

/-!
When the text of a derivation tells it from the others of its parse. Labels have to be plain, what moves has to be told
from all else by its word, and the places of the leaves have to be clear: no word comes twice, or the sentence is to be
pronounced, so that places follow from the tree.
-/

namespace MinimalistGrammar

open MinimalistGrammar.Sat

theorem index_unique {α : Type} {P : α → Prop} {l : List α} {i j : Nat} {x y : α}
    (h : l.Pairwise fun x y => P x → ¬P y) (hi : l[i]? = some x) (hj : l[j]? = some y) (hx : P x) (hy : P y) :
    i = j := by
  obtain ⟨hli, rfl⟩ := List.getElem?_eq_some_iff.1 hi
  obtain ⟨hlj, rfl⟩ := List.getElem?_eq_some_iff.1 hj
  rcases Nat.lt_trichotomy i j with hij | hij | hij
  · exact absurd hy (List.pairwise_iff_getElem.1 h i j hli hlj hij hx)
  · exact hij
  · exact absurd hx (List.pairwise_iff_getElem.1 h j i hlj hli hij hy)

theorem eq_of_count_le_one {α : Type} [DecidableEq α] {l : List α} {x : α} {i j : Nat} (h : l.count x ≤ 1)
    (hi : l[i]? = some x) (hj : l[j]? = some x) : i = j := by
  refine index_unique (P := (· = x)) ?_ hi hj rfl rfl
  have hnodup : (l.filter (· == x)).Nodup := by
    rw [List.filter_beq]
    exact List.nodup_replicate.2 h
  exact (List.pairwise_filter.1 hnodup).imp fun hne hy hz => hne (beq_iff_eq.2 hy) (beq_iff_eq.2 hz) (hy.trans hz.symm)

theorem eq_of_filterMap_eq {α β : Type} {f g : α → Option β} {l : List α} (h : l.filterMap f = l.filterMap g)
    (hs : ∀ x ∈ l, (f x).isSome = (g x).isSome) : ∀ x ∈ l, f x = g x := by
  induction l with
  | nil => exact fun _ hx => by cases hx
  | cons y l ih =>
    have hy := hs y (.head _)
    rw [List.filterMap_cons, List.filterMap_cons] at h
    cases hf : f y <;> cases hg : g y <;> simp only [hf, hg, List.cons.injEq] at h hy
    · exact List.forall_mem_cons.2 ⟨hf.trans hg.symm, ih h fun x hx => hs x (.tail _ hx)⟩
    · cases hy
    · cases hy
    · exact List.forall_mem_cons.2 ⟨by rw [hf, hg, h.1], ih h.2 fun x hx => hs x (.tail _ hx)⟩

namespace Lexicon

/-- Labels hold no blanks and brackets, and names of features no blanks. -/
def IsPlain (lex : Lexicon) : Prop :=
  ∀ item ∈ lex.items, Bracketing.IsPlain item.label ∧ ∀ f ∈ item.features, ' ' ∉ f.name.toList

instance (lex : Lexicon) : Decidable lex.IsPlain := inferInstanceAs (Decidable (∀ item ∈ lex.items, _))

/-- What moves has a word, and the word comes once. -/
def MovesApart (lex : Lexicon) (words : List String) : Prop :=
  ∀ item ∈ lex.items, item.licenseeCount ≠ 0 → item.form.any (words.count · ≤ 1) = true

instance (lex : Lexicon) (words : List String) : Decidable (lex.MovesApart words) :=
  inferInstanceAs (Decidable (∀ item ∈ lex.items, _))

end Lexicon

namespace Derivation

variable {lex : Lexicon} {words : List String} {bounds : Bounds} {d d₁ d₂ : Derivation} {l l' : LeafId} {x y : Leaf}
  {i : Nat} {f : Feature}

theorem feature?_eq_some : d.feature? ⟨l, i⟩ = some f ↔ ∃ x, d.leaf? l = some x ∧ x.features[i]? = some f :=
  Option.bind_eq_some_iff

theorem label_eq (h : d.leaf? l = some x) : d.label l = x.item := by
  rw [label, h]
  rfl

namespace IsOver

theorem leaf_eq (h₁ : d₁.IsOver lex) (h₂ : d₂.IsOver lex) (hx : x ∈ d₁.leaves) (hy : y ∈ d₂.leaves)
    (he : x.item = y.item) : x = { y with position := x.position } := by
  obtain ⟨item, hi, hx⟩ := h₁.item x hx
  obtain ⟨item', hi', hy⟩ := h₂.item y hy
  have hlabel : item.label = item'.label := by rwa [hx, hy] at he
  obtain rfl := List.inj_on_of_nodup_map lex.labels_nodup hi hi' hlabel
  rw [hx, hy]

theorem isReadable (h : d.IsOver lex) (hp : lex.IsPlain) : (d.bracketing d.tree).IsReadable := by
  refine h.licenses.isReadable (fun l => ?_) fun r f hf => ?_
  · cases hx : d.leaf? l with
    | none =>
      rw [label, hx]
      exact fun c hc => by cases hc
    | some x =>
      obtain ⟨item, hi, hx'⟩ := h.item x (List.mem_of_getElem? hx)
      rw [label_eq hx, hx']
      exact (hp item hi).1
  · obtain ⟨x, hx, hf⟩ := feature?_eq_some.1 hf
    obtain ⟨item, hi, hx'⟩ := h.item x (List.mem_of_getElem? hx)
    rw [hx'] at hf
    exact (hp item hi).2 f (List.mem_of_getElem? hf)

end IsOver

theorem IsValid.eq_of_position (h : d.IsValid words bounds) (hx : d.leaf? l = some x) (hy : d.leaf? l' = some y)
    (hs : x.position.isSome = true) (he : x.position = y.position) : l = l' := by
  obtain ⟨i, hi⟩ := Option.isSome_iff_exists.1 hs
  have hnodup : (d.leaves.filterMap (·.position)).Nodup := h.positions.nodup_iff.2 List.nodup_range
  refine index_unique (P := (·.position = some i)) ?_ hx hy hi (he ▸ hi)
  exact (List.pairwise_filterMap.1 hnodup).imp fun hxy hx hy => hxy i hx i hy rfl

theorem IsValid.exists_position (h : d.IsValid words bounds) (hx : x ∈ d.leaves) {word : String}
    (hw : x.form = some word) : ∃ i, x.position = some i ∧ words[i]? = some word := by
  rw [h.form x hx] at hw
  exact Option.bind_eq_some_iff.1 hw

theorem IsValid.isSome_position (h : d.IsValid words bounds) (hx : x ∈ d.leaves) :
    x.position.isSome = x.form.isSome := by
  have := h.covert x hx
  rw [Leaf.isCovert] at this
  cases hp : x.position <;> cases hf : x.form <;> simp [hp, hf] at this ⊢

namespace IsOver

theorem eq_of_mover (h : d.IsOver lex) (hv : d.IsValid words bounds) (hm : lex.MovesApart words) {j : Nat} {g : Feature}
    (hf : d.feature? ⟨l, i⟩ = some f) (hg : d.feature? ⟨l', j⟩ = some g) (hlic : f.polarity = .licensee)
    (he : d.label l = d.label l') : l = l' := by
  obtain ⟨x, hx, hf⟩ := feature?_eq_some.1 hf
  obtain ⟨y, hy, _⟩ := feature?_eq_some.1 hg
  rw [label_eq hx, label_eq hy] at he
  have hxd := List.mem_of_getElem? hx
  have hyd := List.mem_of_getElem? hy
  obtain ⟨item, hi, hitem⟩ := h.item x hxd
  have hcount : item.licenseeCount ≠ 0 := by
    rw [hitem] at hf
    exact Nat.ne_of_gt (List.countP_pos_iff.2 ⟨f, List.mem_of_getElem? hf, decide_eq_true hlic⟩)
  obtain ⟨word, hword, hone⟩ := (Option.any_eq_true _ _).1 (hm item hi hcount)
  have hone : words.count word ≤ 1 := of_decide_eq_true hone
  have hxw : x.form = some word := by rw [hitem]; exact hword
  have hyw : y.form = some word := by rw [← hxw, h.leaf_eq h hxd hyd he]
  obtain ⟨i, hxi, hi⟩ := hv.exists_position hxd hxw
  obtain ⟨j, hyj, hj⟩ := hv.exists_position hyd hyw
  obtain rfl := eq_of_count_le_one hone hi hj
  exact hv.eq_of_position hx hy (by rw [hxi]; rfl) (hxi.trans hyj.symm)

variable (h₁ : d₁.IsOver lex) (h₂ : d₂.IsOver lex) (hv₁ : d₁.IsValid words bounds) (hv₂ : d₂.IsValid words bounds)
include h₁ h₂ hv₁

theorem tree_eq_of_toString_eq (hp : lex.IsPlain) (hm : lex.MovesApart words) (he : toString d₁ = toString d₂) :
    d₁.tree = d₂.tree ∧ ∀ l ∈ d₁.tree.leaves, d₁.label l = d₂.label l := by
  have hb := (toString_eq_iff_bracketing h₁.preorder.nodes_ne_nil h₂.preorder.nodes_ne_nil (h₁.isReadable hp) (h₂.isReadable hp)).1 he
  have hl : ∀ {d : Derivation}, d.IsOver lex → ∀ l, l ∈ d.tree.leaves → ∃ x, d.leaf? l = some x := by
    intro d h l hl
    rw [h.leaves, List.mem_range] at hl
    exact ⟨_, List.getElem?_eq_getElem hl⟩
  refine h₁.licenses.eq_of_bracketing_eq h₂.licenses (h₁.leaves.trans List.range_eq_range')
    (h₂.leaves.trans List.range_eq_range') (fun l i hl₁ hl₂ hlabel => ?_)
    (fun l l' i i' g g' hg hg' hlic _ => h₁.eq_of_mover hv₁ hm hg hg' hlic) hb
  obtain ⟨x, hx⟩ := hl h₁ l hl₁
  obtain ⟨y, hy⟩ := hl h₂ l hl₂
  rw [label_eq hx, label_eq hy] at hlabel
  have := h₁.leaf_eq h₂ (List.mem_of_getElem? hx) (List.mem_of_getElem? hy) hlabel
  rw [feature?, feature?, hx, hy, this]
  rfl

omit hv₁ in
theorem length_leaves_eq (ht : d₁.tree = d₂.tree) : d₁.leaves.length = d₂.leaves.length := by
  simpa [h₁.leaves, h₂.leaves] using congrArg (List.length ∘ Tree.leaves) ht

omit hv₁ in
theorem form_eq (hlabel : ∀ l ∈ d₁.tree.leaves, d₁.label l = d₂.label l) (hx : d₁.leaf? l = some x)
    (hy : d₂.leaf? l = some y) : x.form = y.form := by
  have hl : l ∈ d₁.tree.leaves := by
    rw [h₁.leaves, List.mem_range]
    exact (List.getElem?_eq_some_iff.1 hx).1
  have he := hlabel l hl
  rw [label_eq hx, label_eq hy] at he
  rw [h₁.leaf_eq h₂ (List.mem_of_getElem? hx) (List.mem_of_getElem? hy) he]

include hv₂

theorem isSome_position_eq (hlabel : ∀ l ∈ d₁.tree.leaves, d₁.label l = d₂.label l) (hx : d₁.leaf? l = some x)
    (hy : d₂.leaf? l = some y) : x.position.isSome = y.position.isSome := by
  rw [hv₁.isSome_position (List.mem_of_getElem? hx), hv₂.isSome_position (List.mem_of_getElem? hy),
    h₁.form_eq h₂ hlabel hx hy]

theorem position_eq_of_nodup (hlabel : ∀ l ∈ d₁.tree.leaves, d₁.label l = d₂.label l) (hwords : words.Nodup)
    (hx : d₁.leaf? l = some x) (hy : d₂.leaf? l = some y) (hpos : x.position = some i) : y.position = some i := by
  have hxd := List.mem_of_getElem? hx
  obtain ⟨word, hword⟩ := Option.isSome_iff_exists.1 ((hv₁.isSome_position hxd).symm.trans (by rw [hpos]; rfl))
  obtain ⟨i', hi, hwi⟩ := hv₁.exists_position hxd hword
  obtain ⟨j, hj, hwj⟩ := hv₂.exists_position (List.mem_of_getElem? hy) ((h₁.form_eq h₂ hlabel hx hy).symm.trans hword)
  rw [hj, ← eq_of_count_le_one (List.nodup_iff_count_le_one.1 hwords word) hwi hwj, ← hi, hpos]

theorem position_eq_of_order (ht : d₁.tree = d₂.tree) (hlabel : ∀ l ∈ d₁.tree.leaves, d₁.label l = d₂.label l)
    (ho₁ : d₁.positions = List.range words.length) (ho₂ : d₂.positions = List.range words.length)
    (hx : d₁.leaf? l = some x) (hy : d₂.leaf? l = some y) (hpos : x.position = some i) : y.position = some i := by
  have hmem : i ∈ d₁.positions := by
    rw [ho₁, ← hv₁.positions.mem_iff]
    exact List.mem_filterMap.2 ⟨x, List.mem_of_getElem? hx, hpos⟩
  obtain ⟨l', hl', hi⟩ := List.mem_filterMap.1 hmem
  obtain ⟨z, hz, hi⟩ := Option.bind_eq_some_iff.1 hi
  obtain rfl := hv₁.eq_of_position hx hz (by rw [hpos]; rfl) (hpos.trans hi.symm)
  have horder := ho₁.trans ho₂.symm
  rw [positions, positions, ← order_congr (h₁.preorder.nodes_eq h₂.preorder ht)] at horder
  have hsome : ∀ l, ((d₁.leaf? l).bind (·.position)).isSome = ((d₂.leaf? l).bind (·.position)).isSome := by
    intro l
    have hlength := h₁.length_leaves_eq h₂ ht
    cases hl : d₁.leaf? l with
    | none =>
      rw [leaf?, List.getElem?_eq_none_iff, hlength, ← List.getElem?_eq_none_iff] at hl
      rw [leaf?, hl]
    | some z =>
      have hlt := (List.getElem?_eq_some_iff.1 hl).1
      have hw : d₂.leaf? l = some d₂.leaves[l] := List.getElem?_eq_getElem (hlength ▸ hlt)
      rw [hw]
      exact h₁.isSome_position_eq h₂ hv₁ hv₂ hlabel hl hw
  have hagree := eq_of_filterMap_eq horder (fun l _ => hsome l) l hl'
  rw [hx, hy] at hagree
  exact hagree.symm.trans hpos

theorem position_eq (ht : d₁.tree = d₂.tree) (hlabel : ∀ l ∈ d₁.tree.leaves, d₁.label l = d₂.label l)
    (hplace : words.Nodup ∨ d₁.positions = List.range words.length ∧ d₂.positions = List.range words.length)
    (hx : d₁.leaf? l = some x) (hy : d₂.leaf? l = some y) : x.position = y.position := by
  cases hpos : x.position with
  | none =>
    have := h₁.isSome_position_eq h₂ hv₁ hv₂ hlabel hx hy
    rw [hpos] at this
    exact (Option.isNone_iff_eq_none.1 (by simpa using this.symm)).symm
  | some i =>
    rcases hplace with hwords | ⟨ho₁, ho₂⟩
    · exact (h₁.position_eq_of_nodup h₂ hv₁ hv₂ hlabel hwords hx hy hpos).symm
    · exact (h₁.position_eq_of_order h₂ hv₁ hv₂ ht hlabel ho₁ ho₂ hx hy hpos).symm

theorem toString_inj (hp : lex.IsPlain) (hm : lex.MovesApart words)
    (hplace : words.Nodup ∨ d₁.positions = List.range words.length ∧ d₂.positions = List.range words.length) :
    toString d₁ = toString d₂ ↔ d₁ = d₂ := by
  refine ⟨fun he => ?_, congrArg toString⟩
  obtain ⟨ht, hlabel⟩ := h₁.tree_eq_of_toString_eq h₂ hv₁ hp hm he
  have hleaves : d₁.leaves = d₂.leaves := by
    refine List.ext_getElem (h₁.length_leaves_eq h₂ ht) fun l hl₁ hl₂ => ?_
    have hx : d₁.leaf? l = some d₁.leaves[l] := List.getElem?_eq_getElem hl₁
    have hy : d₂.leaf? l = some d₂.leaves[l] := List.getElem?_eq_getElem hl₂
    have hitem := hlabel l (by rwa [h₁.leaves, List.mem_range])
    rw [label_eq hx, label_eq hy] at hitem
    have hposition := h₁.position_eq h₂ hv₁ hv₂ ht hlabel hplace hx hy
    rw [h₁.leaf_eq h₂ (List.getElem_mem hl₁) (List.getElem_mem hl₂) hitem, hposition]
  have hnodes := h₁.preorder.nodes_eq h₂.preorder ht
  cases d₁
  cases d₂
  cases hleaves
  cases hnodes
  rfl

end IsOver

end Derivation

/-- Some assignment that makes the formula true says that this is the derivation. -/
def Problem.Describes (p : Problem) (d : Derivation) : Prop := ∃ a, p.formula.Holds a ∧ p.extract a = .ok d

namespace Grammar

variable {g : Grammar} {c : Condition} {p : Problem} {d : Derivation}

theorem IsPrepared.of_describes (hg : g.locality.OnlyAdds) (hp : g.IsPrepared c p) (h : p.Describes d) :
    d.IsOver g.lexicon ∧ d.IsValid p.schema.words p.schema.bounds ∧
      (g.linearizes c = true → d.positions = List.range p.schema.words.length) := by
  obtain ⟨a, ha, hd⟩ := h
  obtain ⟨sel, h, hsel⟩ := exists_selects hg hp ha
  obtain ⟨sel', hsel', _, hder, _⟩ := Problem.extract_eq_ok.1 hd
  obtain rfl : sel = sel' := Except.ok.inj (hsel.symm.trans hsel')
  have hf := h.isFilled hp
  have hschema := h.isOffered.schema
  have hlex : p.schema.lexicon = g.lexicon := (Schema.build_eq_ok_iff.1 hp.schema).2.1.1
  rw [← hlex, ← hschema]
  exact ⟨h.isDerivation.isOver hf hder, h.isDerivation.isValid hf hder, fun hlin =>
    (Selection.isInOrder_iff_positions hf h.isDerivation hder).1 (h.isInOrder hlin)⟩

/-- Derivations of a parse print alike only if they are the same, so what is passed over has been found before. -/
theorem toString_eq_iff (hg : g.locality.OnlyAdds) (hp : g.prepare c = .ok p) (hplain : g.lexicon.IsPlain)
    (hmoves : g.lexicon.MovesApart p.schema.words) (hplace : p.schema.words.Nodup ∨ g.linearizes c = true) :
    (∀ a₁ a₂, p.formula.Holds a₁ → p.formula.Holds a₂ → ∃ d₁ d₂, (p.extract a₁ = .ok d₁ ∧ p.extract a₂ = .ok d₂) ∧
      (toString d₁ = toString d₂ ↔ d₁ = d₂)) ∧
    ∀ (ε : Type) [Engine ε] (ps : Parses ε) (d : Derivation), p.Describes d → (∀ d' ∈ ps.found, p.Describes d') →
      (ps.add d).found = if d ∈ ps.found then ps.found else ps.found ++ [d] := by
  have hprep := isPrepared_of_prepare hp
  have inj : ∀ {d₁ d₂}, p.Describes d₁ → p.Describes d₂ → (toString d₁ = toString d₂ ↔ d₁ = d₂) := by
    intro d₁ d₂ h₁ h₂
    obtain ⟨hover₁, hvalid₁, hpos₁⟩ := hprep.of_describes hg h₁
    obtain ⟨hover₂, hvalid₂, hpos₂⟩ := hprep.of_describes hg h₂
    refine hover₁.toString_inj hover₂ hvalid₁ hvalid₂ hplain hmoves (hplace.imp_right fun hlin => ?_)
    exact ⟨hpos₁ hlin, hpos₂ hlin⟩
  refine ⟨fun a₁ a₂ ha₁ ha₂ => ?_, fun ε _ ps d hd hfound => ?_⟩
  · have extracted : ∀ {a}, p.formula.Holds a → ∃ d, p.extract a = .ok d := by
      intro a ha
      obtain ⟨sel, hsel, ha⟩ := exists_selects hg hprep ha
      obtain ⟨d, _, hd⟩ := hsel.extract hprep ha
      exact ⟨d, hd⟩
    obtain ⟨d₁, h₁⟩ := extracted ha₁
    obtain ⟨d₂, h₂⟩ := extracted ha₂
    exact ⟨d₁, d₂, ⟨h₁, h₂⟩, inj ⟨a₁, ha₁, h₁⟩ ⟨a₂, ha₂, h₂⟩⟩
  · have hmem : toString d ∈ ps.found.map toString ↔ d ∈ ps.found := by
      rw [List.mem_map]
      constructor
      · rintro ⟨d', hd', he⟩
        exact (inj (hfound d' hd') hd).1 he ▸ hd'
      · exact fun h => ⟨d, h, rfl⟩
    rw [Parses.add]
    by_cases h : d ∈ ps.found
    · rw [if_pos (hmem.2 h), if_pos h]
    · rw [if_neg (hmem.not.2 h), if_neg h]

/-- Two verbs that are pronounced alike, and a name. -/
def homonyms : Grammar where
  lexicon := ⟨[
    ⟨"see", [⟨"N", .selector, false⟩, ⟨"N", .selector, false⟩, ⟨"C", .category, false⟩], some "saw", none, by decide,
      by decide +kernel⟩,
    ⟨"cut", [⟨"N", .selector, false⟩, ⟨"N", .selector, false⟩, ⟨"C", .category, false⟩], some "saw", none, by decide,
      by decide +kernel⟩,
    ⟨"John", [⟨"N", .selectee, false⟩], some "John", none, by decide, by decide +kernel⟩], by decide, by decide⟩
  options := { bounds := ⟨0, 0, 0⟩ }

/-- A sentence in which the name comes twice. -/
def nameVerbName : Condition := { sentence := some ["John", "saw", "John"] }

/-- There is one derivation for each verb. -/
theorem toString_ne_nameVerbName : ∃ p, homonyms.prepare nameVerbName = .ok p ∧ ¬p.schema.words.Nodup ∧
    (homonyms.locality.OnlyAdds ∧ homonyms.lexicon.IsPlain ∧ homonyms.lexicon.MovesApart p.schema.words ∧
      homonyms.linearizes nameVerbName = true) ∧
    ∃ d₁ d₂, (p.extract (· ∉ [2, 8, 11, 12, 19]) = .ok d₁ ∧ p.extract (· ∉ [3, 8, 11, 12, 19]) = .ok d₂) ∧
      toString d₁ ≠ toString d₂ ∧
        ∀ (ε : Type) [Engine ε] (ps : Parses ε), ps.found = [d₁] → (ps.add d₂).found = [d₁, d₂] := by
  have hall : (homonyms.prepare nameVerbName).toOption.any (fun p =>
      (!decide p.schema.words.Nodup && decide (homonyms.lexicon.MovesApart p.schema.words)) &&
        (decide (p.formula.Holds (· ∉ [2, 8, 11, 12, 19])) && decide (p.formula.Holds (· ∉ [3, 8, 11, 12, 19]))) &&
          (p.extract (· ∉ [2, 8, 11, 12, 19])).toOption.any fun d₁ =>
            (p.extract (· ∉ [3, 8, 11, 12, 19])).toOption.any fun d₂ => !decide (d₁ = d₂)) = true := by decide +kernel
  obtain ⟨p, hp, h⟩ := Fallible.exists_of_any hall
  simp only [Bool.and_eq_true, decide_eq_true_iff, Bool.not_eq_true', decide_eq_false_iff_not] at h
  obtain ⟨⟨⟨hwords, hmoves⟩, ha₁, ha₂⟩, h⟩ := h
  obtain ⟨d₁, h₁, h⟩ := Fallible.exists_of_any h
  obtain ⟨d₂, h₂, hne⟩ := Fallible.exists_of_any h
  have hne : d₁ ≠ d₂ := by simpa using hne
  have hg := LocalityPolicy.onlyAdds_shortestMove
  have hplain : homonyms.lexicon.IsPlain := by simp [Lexicon.IsPlain, Bracketing.IsPlain, homonyms]
  obtain ⟨htext, hadd⟩ := toString_eq_iff hg hp hplain hmoves (.inr rfl)
  obtain ⟨d₁', d₂', ⟨h₁', h₂'⟩, hiff⟩ := htext _ _ ha₁ ha₂
  obtain rfl : d₁ = d₁' := Except.ok.inj (h₁.symm.trans h₁')
  obtain rfl : d₂ = d₂' := Except.ok.inj (h₂.symm.trans h₂')
  refine ⟨p, hp, hwords, ⟨hg, hplain, hmoves, rfl⟩, d₁, d₂, ⟨h₁, h₂⟩, hiff.not.2 hne, fun ε _ ps hps => ?_⟩
  rw [hadd ε ps d₂ ⟨_, ha₂, h₂⟩ (by simpa [hps] using ⟨_, ha₁, h₁⟩), hps, if_neg (by simpa using hne.symm)]
  rfl

/-- A verb that selects two names. -/
def verbOfTwo : Grammar where
  lexicon := ⟨[
    ⟨"sees", [⟨"N", .selector, false⟩, ⟨"N", .selector, false⟩, ⟨"C", .category, false⟩], some "sees", none, by decide,
      by decide +kernel⟩,
    ⟨"John", [⟨"N", .selectee, false⟩], some "John", none, by decide, by decide +kernel⟩], by decide, by decide⟩
  options := { bounds := ⟨0, 0, 0⟩, constrainsSentence := false }

/-- Some words in any order, where a name comes twice. -/
def nameTwice : Condition :=
  { logicalForm := some { root := some "C", words := some ["sees", "John", "John"] } }

/-- Which name is selected first makes two derivations, which read alike. -/
theorem exists_ne_toString_eq : ∃ p, verbOfTwo.prepare nameTwice = .ok p ∧ ∃ a₁ a₂ d₁ d₂,
    (p.formula.Holds a₁ ∧ p.formula.Holds a₂) ∧ (p.extract a₁ = .ok d₁ ∧ p.extract a₂ = .ok d₂) ∧
      d₁ ≠ d₂ ∧ toString d₁ = toString d₂ := by
  have hall : (verbOfTwo.prepare nameTwice).toOption.any (fun p =>
      (decide (p.formula.Holds (· ∉ [4, 7, 11])) && decide (p.formula.Holds (· ∉ [5, 6, 13]))) &&
        (p.extract (· ∉ [4, 7, 11])).toOption.any fun d₁ => (p.extract (· ∉ [5, 6, 13])).toOption.any fun d₂ =>
          !decide (d₁ = d₂) && decide (toString d₁ = toString d₂)) = true := by decide +kernel
  obtain ⟨p, hp, h⟩ := Fallible.exists_of_any hall
  simp only [Bool.and_eq_true, decide_eq_true_iff] at h
  obtain ⟨⟨ha₁, ha₂⟩, h⟩ := h
  obtain ⟨d₁, h₁, h⟩ := Fallible.exists_of_any h
  obtain ⟨d₂, h₂, h⟩ := Fallible.exists_of_any h
  simp only [Bool.and_eq_true, decide_eq_true_iff, Bool.not_eq_true', decide_eq_false_iff_not] at h
  exact ⟨p, hp, _, _, d₁, d₂, ⟨ha₁, ha₂⟩, ⟨h₁, h₂⟩, h⟩

end Grammar

end MinimalistGrammar
