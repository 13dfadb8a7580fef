import MinimalistGrammar.Proofs.Parse.Completeness
import MinimalistGrammar.Proofs.Selection.Validity

/-!
Whatever is true, the extraction looks up nothing that is not there, and what it returns is a derivation. This does not
depend on the formula: the checks of the extraction are enough.
-/

namespace MinimalistGrammar

open MinimalistGrammar.Sat
open MinimalistGrammar.Sat.Builder

open Fallible

/-- The error does not say that some part of the derivation has no place. -/
def Inconsistency.IsPlaced (e : Inconsistency) : Prop := ∀ label, e ≠ .unplaced label

namespace Selection

variable {sel : Selection} {s : Schema} {enc : Encoding} {a : Assignment} {d : Derivation}

theorem raises_unless {e : Inconsistency} (he : e.IsPlaced) (b : Bool) : Raises Inconsistency.IsPlaced (e.unless b) := by
  rw [Inconsistency.unless]
  split
  · exact raises_ok _
  · exact raises_error he

theorem raises_ofAssignment (s : Schema) (enc : Encoding) (a : Assignment) :
    Raises Inconsistency.IsPlaced (ofAssignment s enc a) := by
  refine Raises.bind (raises_mapM fun slot _ => ?_) fun _ _ => raises_ok _
  rw [chooseItem]
  split
  · split
    · exact raises_error fun _ h => by cases h
    · exact raises_ok _
  · exact raises_ok _
  · exact raises_error fun _ h => by cases h

theorem raises_check (sel : Selection) : Raises Inconsistency.IsPlaced sel.check := by
  have bound : ∀ b limit used, Raises Inconsistency.IsPlaced (Inconsistency.withinBound b limit used) := fun _ _ _ =>
    raises_unless (fun _ h => by cases h) _
  have links : Raises Inconsistency.IsPlaced sel.checkLinks := raises_forM fun _ _ =>
    raises_unless (fun _ h => by cases h) _
  have features : Raises Inconsistency.IsPlaced sel.checkFeatures := raises_forM fun _ _ =>
    (raises_unless (fun _ h => by cases h) _).bind fun _ _ => raises_unless (fun _ h => by cases h) _
  have connected : Raises Inconsistency.IsPlaced sel.checkConnected := raises_forM fun _ _ =>
    raises_unless (fun _ h => by cases h) _
  have movement : Raises Inconsistency.IsPlaced sel.checkMovement :=
    (raises_forM fun _ _ => raises_unless (fun _ h => by cases h) _).bind fun _ _ => bound _ _ _
  have headMovement : Raises Inconsistency.IsPlaced sel.checkHeadMovement :=
    (raises_forM fun _ _ => raises_unless (fun _ h => by cases h) _).bind fun _ _ => bound _ _ _
  exact (bound _ _ _).bind fun _ _ => links.bind fun _ _ => features.bind fun _ _ =>
    (raises_unless (fun _ h => by cases h) _).bind fun _ _ => connected.bind fun _ _ => movement.bind fun _ _ =>
      headMovement

theorem raises_checkLogicalForm (sel : Selection) (requirements : List Requirement) :
    Raises Inconsistency.IsPlaced (sel.checkLogicalForm requirements) := by
  refine raises_forM fun r _ => ?_
  split
  · exact raises_ok _
  · exact raises_error fun _ h => by cases h

/-- Whatever is looked up from a slot or point of the schema is there again. -/
structure StaysInRange (sel : Selection) : Prop where
  items : sel.items.length = sel.schema.slotCount
  slotOf : ∀ p < sel.schema.pointCount, sel.schema.slotOf p < sel.schema.slotCount
  lexicalPoint : ∀ slot < sel.schema.slotCount, sel.schema.lexicalPoint slot < sel.schema.pointCount
  pointAt? : ∀ slot i p, sel.schema.pointAt? slot i = some p → p < sel.schema.pointCount
  links : ∀ x y, (x, y) ∈ sel.links → x < sel.schema.pointCount ∧ y < sel.schema.pointCount
  next : ∀ p < sel.schema.pointCount, ∀ q, some q ∈ [sel.schema.successor p, sel.schema.predecessor p, sel.partner p,
    sel.checker p, sel.parent p] → q < sel.schema.pointCount
  root : sel.check = .ok () → sel.root < sel.schema.pointCount
  /-- The points below the root are numbered by a walk that ends by itself. -/
  number : sel.check = .ok () → ∀ n, sel.schema.pointCount ≤ n →
    sel.number n sel.root {} = sel.number sel.schema.pointCount sel.root {}
  /-- So does the walk that pronounces the leaves, and all nodes that it comes to are there. -/
  linearize : sel.check = .ok () → ∀ d, sel.derivation = .ok d → ∀ n, d.nodes.length ≤ n → d.linearize n = some d.order

theorem IsFilled.staysInRange (hf : sel.IsFilled) : sel.StaysInRange where
  items := hf.length_items
  slotOf := fun _ => hf.built.slotOf_lt
  lexicalPoint := fun _ => hf.built.lexicalPoint_lt
  pointAt? := fun _ _ _ h => (hf.built.pointAt?_eq_some.1 h).1
  links := hf.links_lt
  next := by
    intro p hp q hq
    simp only [List.mem_cons, List.not_mem_nil, or_false] at hq
    rcases hq with hq | hq | hq | hq | hq
    · exact (hf.slotOf_successor hq.symm).1
    · exact ((hf.built.predecessor_eq_some hp).1 hq.symm).1
    · obtain ⟨l, hl, rfl⟩ := Option.map_eq_some_iff.1 hq.symm
      exact (hf.links_lt l.1 l.2 (List.mem_of_find?_eq_some hl)).2
    · obtain ⟨l, hl, rfl⟩ := Option.map_eq_some_iff.1 hq.symm
      exact (hf.links_lt l.1 l.2 (List.mem_of_find?_eq_some hl)).1
    · exact step_lt hf hq.symm
  root := fun h => by
    obtain ⟨_, hg, _⟩ := ((check_eq_ok_iff hf).1 h).hasRoot.isTop_root
    exact hg.1
  number := fun h n hn => by
    have hd := (check_eq_ok_iff hf).1 h
    obtain ⟨t, _, hb⟩ := hd.exists_tree hf
    obtain ⟨points, _, _, hnumber⟩ := hd.exists_number_eq hf hb
    rw [hnumber n hn, hnumber _ (Nat.le_refl _)]
  linearize := fun h _ hder _ hn => linearize_eq_order hf ((check_eq_ok_iff hf).1 h) hder hn

end Selection

namespace Problem

variable {p : Problem} {a : Assignment} {d : Derivation} {sel : Selection}

/-- A parse over any schema, whatever else its formula says and whatever is to be checked. -/
structure IsAssembled (p : Problem) : Prop where
  schema : ∃ lex words bounds, Schema.build lex words bounds = .ok p.schema
  encoding : ∃ locality linearize requirements,
    p.encoding = (((Assembly.assemble p.schema locality linearize requirements).run []).run ∅).1.1
  requirements : p.requirements = [] ∨ ∃ form, Requirement.ofLogicalForm p.schema form = .ok p.requirements

/-- No lookup of the extraction goes out of range. -/
structure StaysInRange (p : Problem) (a : Assignment) : Prop where
  choices : ∀ slot < p.schema.slotCount, slot < p.encoding.lexical.choices.size ∧
    (p.encoding.lexical.choicesAt slot).length = (p.schema.candidates slot).length
  links : ∀ l ∈ p.encoding.checking.links, l.trigger < p.schema.pointCount ∧ l.target < p.schema.pointCount
  demands : ∀ r ∈ p.requirements, r.demand.Within p.schema.slotCount
  selection : ∀ sel, Selection.ofAssignment p.schema p.encoding a = .ok sel → sel.schema = p.schema ∧ sel.StaysInRange

theorem isAssembled_of_prepare {g : Grammar} {c : Condition} (hp : g.prepare c = .ok p) : p.IsAssembled := by
  have hp := Grammar.isPrepared_of_prepare hp
  refine ⟨⟨_, _, _, hp.schema⟩, ⟨g.locality, g.linearizes c, p.requirements, ?_⟩, ?_⟩
  · rw [hp.encoding]
    exact (Assembly.tracks_assemble p.schema g.locality (g.linearizes c) p.requirements [] ∅).1.symm
  · have hr := hp.requirements
    rw [Grammar.requirementsOf] at hr
    split at hr
    · exact .inr ⟨_, Fallible.mapError_ok_iff.1 hr⟩
    · exact .inl (Except.ok.inj hr).symm

namespace IsAssembled

variable (hp : p.IsAssembled)
include hp

theorem isBuilt : p.schema.IsBuilt := by
  obtain ⟨_, _, _, h⟩ := hp.schema
  exact (Schema.build_eq_ok_iff.1 h).2.2

theorem aligns : p.encoding.Aligns p.schema := by
  obtain ⟨locality, linearize, requirements, henc⟩ := hp.encoding
  have htracks := (Assembly.tracks_assemble p.schema locality linearize requirements [] ∅).1
  rw [result_bind, Assembly.constrain_eq, result_bind, Assembly.result_close] at htracks
  rw [henc]
  exact (show (((Assembly.assemble p.schema locality linearize requirements).run []).run ∅).1.1 = _ from htracks) ▸
    Encoding.aligns_build hp.isBuilt

theorem isFilled (hsel : Selection.ofAssignment p.schema p.encoding a = .ok sel) : sel.IsFilled :=
  (Encoding.isOffered_of_ofAssignment hp.aligns hsel).isFilled hp.isBuilt

theorem isDerivation (hsel : Selection.ofAssignment p.schema p.encoding a = .ok sel) (hcheck : sel.check = .ok ()) :
    sel.IsDerivation := (Selection.check_eq_ok_iff (hp.isFilled hsel)).1 hcheck

theorem staysInRange (a : Assignment) : p.StaysInRange a where
  choices := by
    intro slot hslot
    have haligned := hp.aligns.choices slot hslot
    refine ⟨Nat.lt_of_not_le fun hle => ?_, haligned.length_eq.symm⟩
    rw [Lexical.choicesAt, Array.getD_eq_getD_getElem?, Array.getElem?_eq_none hle, Option.getD_none,
      List.forall₂_nil_right_iff] at haligned
    exact hp.isBuilt.candidates_ne_nil hslot haligned
  links := fun l hl => by
    have hpair : (l.trigger, l.target) ∈ p.schema.linkPairs := by
      rw [← hp.aligns.links]
      exact List.mem_map_of_mem hl
    exact (Schema.mem_linkPairs.1 hpair).1
  demands := by
    have hle := hp.isBuilt.words_le_slotCount
    intro r hr
    rcases hp.requirements with hnil | ⟨form, hform⟩
    · rw [hnil] at hr
      cases hr
    · have hwithin := Requirement.within_of_ofLogicalForm hform r hr
      revert hwithin
      cases r.demand with
      | root _ => exact id
      | category slot _ => exact fun h => Nat.lt_of_lt_of_le h hle
      | theta predicate _ argument =>
        exact fun h => ⟨Nat.lt_of_lt_of_le h.1 hle, fun slot hs => Nat.lt_of_lt_of_le (h.2 slot hs) hle⟩
      | agree predicate argument =>
        exact fun h => ⟨Nat.lt_of_lt_of_le h.1 hle, fun slot hs => Nat.lt_of_lt_of_le (h.2 slot hs) hle⟩
  selection := fun sel hsel =>
    ⟨(Encoding.ofAssignment_eq_ok hsel).1, (hp.isFilled hsel).staysInRange⟩

/-- Everything in a derivation has its place. -/
theorem raises_extract (a : Assignment) : Raises Inconsistency.IsPlaced (p.extract a) := by
  refine (Selection.raises_ofAssignment _ _ _).bind fun sel hsel => (Selection.raises_check sel).bind fun _ hcheck => ?_
  obtain ⟨d, hd⟩ := (hp.isDerivation hsel hcheck).exists_derivation (hp.isFilled hsel)
  rw [hd]
  refine (raises_ok d).bind fun d _ => Raises.bind ?_ fun _ _ =>
    (Selection.raises_checkLogicalForm sel _).bind fun _ _ => raises_ok _
  rw [checkSentence]
  split
  · split
    · exact raises_ok _
    · exact raises_error fun _ h => by cases h
  · exact raises_ok _

theorem isValid (hd : p.extract a = .ok d) : d.IsValid p.schema.words p.schema.bounds := by
  obtain ⟨sel, hsel, hcheck, hder, _⟩ := extract_eq_ok.1 hd
  rw [← (Encoding.ofAssignment_eq_ok hsel).1]
  exact (hp.isDerivation hsel hcheck).isValid (hp.isFilled hsel) hder

end IsAssembled

/-- Every assignment can be looked at, satisfying or not, and what is extracted from it is a derivation. -/
theorem extract_staysInRange_and_isValid (hp : p.IsAssembled) (a : Assignment) : p.StaysInRange a ∧
    (∀ label, p.extract a ≠ .error (.unplaced label)) ∧
      ∀ d, p.extract a = .ok d → d.IsValid p.schema.words p.schema.bounds :=
  ⟨hp.staysInRange a, fun label h => hp.raises_extract a _ h label rfl, fun _ hd => hp.isValid hd⟩

/-- An assignment that does not make the formula true, as it has the covert head in the second slot. -/
theorem isValid_extract_verbAlone : ∃ (p : Problem) (d : Derivation), p.IsAssembled ∧ ¬p.formula.Holds (· ∈ [0, 1, 3, 5]) ∧
    p.extract (· ∈ [0, 1, 3, 5]) = .ok d ∧ d.IsValid p.schema.words p.schema.bounds := by
  have hall : (Grammar.clauseAndVerb.prepare Grammar.verbAlone).toOption.any (fun p =>
      !decide (p.formula.Holds (· ∈ [0, 1, 3, 5])) && (p.extract (· ∈ [0, 1, 3, 5])).toOption.any fun _ => true) = true := by
    decide +kernel
  obtain ⟨p, hp, h⟩ := exists_of_any hall
  obtain ⟨hno, hsome⟩ := Bool.and_eq_true_iff.1 h
  obtain ⟨d, hd, _⟩ := exists_of_any hsome
  have hassembled := isAssembled_of_prepare hp
  exact ⟨p, d, hassembled, by simpa using hno, hd, (extract_staysInRange_and_isValid hassembled _).2.2 d hd⟩

end Problem

end MinimalistGrammar
