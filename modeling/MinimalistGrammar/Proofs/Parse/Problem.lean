import MinimalistGrammar.Parse.Problem
import MinimalistGrammar.Proofs.Encoding.Basic

/-!
What it takes to set up a parse, and what the formula of a parse is made of.
-/

namespace MinimalistGrammar

open MinimalistGrammar.Sat
open MinimalistGrammar.Sat.Builder

namespace Assembly

variable {α β : Type} {M : Assembly α} {b : Builder α} {fams fams' : List Family}

/-- The account of families apart, the assembly constructs the same. -/
def Tracks (M : Assembly α) (b : Builder α) : Prop :=
  ∀ sizes f, (result (M.run sizes) f).1 = result b f ∧ formula (M.run sizes) f = formula b f

theorem tracks_pure (x : α) : Tracks (pure x) (pure x) := fun _ _ => ⟨rfl, rfl⟩

theorem tracks_family (fam : Family) (b : Builder α) : Tracks (family fam b) b := fun _ _ => ⟨rfl, rfl⟩

theorem tracks_bind {K : α → Assembly β} {k : α → Builder β} (hM : Tracks M b) (hK : ∀ x, Tracks (K x) (k x)) :
    Tracks (M >>= K) (b >>= k) := by
  intro sizes f
  obtain ⟨hr, hf⟩ := hM sizes f
  rw [StateT.run_bind, result_bind, formula_bind, result_bind, formula_bind, hf, hr]
  exact hK _ _ _

theorem tracks_ite {c : Prop} [Decidable c] {M' : Assembly α} {b' : Builder α} (hM : Tracks M b)
    (hM' : Tracks M' b') : Tracks (if c then M else M') (if c then b else b') := by
  split
  · exact hM
  · exact hM'

theorem tracks_describe (s : Schema) : Tracks (describe s) (Encoding.build s) :=
  tracks_bind (tracks_family _ _) fun _ => tracks_bind (tracks_family _ _) fun _ =>
    tracks_bind (tracks_family _ _) fun _ => tracks_bind (tracks_family _ _) fun _ =>
      tracks_bind (tracks_family _ _) fun _ => tracks_bind (tracks_family _ _) fun _ =>
        tracks_bind (tracks_family _ _) fun _ => tracks_pure _

def constrain (s : Schema) (locality : LocalityPolicy) (linearize : Bool) (requirements : List Requirement)
    (enc : Encoding) : Builder Encoding := do
  locality.constrain s enc
  if linearize then enc.requireWordOrder s
  if !requirements.isEmpty then enc.require s requirements
  return enc

theorem tracks_assemble (s : Schema) (locality : LocalityPolicy) (linearize : Bool)
    (requirements : List Requirement) : Tracks (assemble s locality linearize requirements)
      (Encoding.build s >>= constrain s locality linearize requirements) := by
  refine tracks_bind (tracks_describe s) fun enc => tracks_bind (tracks_family _ _) fun _ => ?_
  have last : Tracks (α := Encoding) (do
      if !requirements.isEmpty then family .logicalForm (enc.require s requirements)
      return enc) (do
      if !requirements.isEmpty then enc.require s requirements
      return enc) :=
    tracks_ite (tracks_bind (tracks_family _ _) fun _ => tracks_pure _) (tracks_pure _)
  exact tracks_ite (tracks_bind (tracks_family _ _) fun _ => last) last

/-- The families that the assembly adds to the account. -/
def Records (M : Assembly α) (fams : List Family) : Prop :=
  ∀ sizes f, (result (M.run sizes) f).2.map (·.family) = sizes.map (·.family) ++ fams

theorem records_pure (x : α) : Records (pure x) [] := fun _ _ => (List.append_nil _).symm

theorem records_family (fam : Family) (b : Builder α) : Records (family fam b) [fam] := fun _ _ => List.map_append

theorem records_bind {K : α → Assembly β} (hM : Records M fams) (hK : ∀ x, Records (K x) fams') :
    Records (M >>= K) (fams ++ fams') := by
  intro sizes f
  rw [StateT.run_bind, result_bind, hK, hM, List.append_assoc]

/-- The families that describe a derivation. -/
def descriptive : List Family := [.lexical, .checking, .root, .tree, .movement, .headMovement, .symmetry]

/-- The families of a formula, with those of the interfaces that constrain it. -/
def familiesOf (linearize interpret : Bool) : List Family :=
  descriptive ++ ([.locality] ++ ((if linearize then [.linearization] else []) ++ if interpret then [.logicalForm] else []))

theorem records_describe (s : Schema) : Records (describe s) descriptive :=
  records_bind (records_family _ _) fun _ => records_bind (records_family _ _) fun _ =>
    records_bind (records_family _ _) fun _ => records_bind (records_family _ _) fun _ =>
      records_bind (records_family _ _) fun _ => records_bind (records_family _ _) fun _ =>
        records_bind (records_family _ _) fun _ => records_pure _

theorem records_assemble (s : Schema) (locality : LocalityPolicy) (linearize : Bool) (requirements : List Requirement) :
    Records (assemble s locality linearize requirements) (familiesOf linearize !requirements.isEmpty) := by
  refine records_bind (records_describe s) fun enc => records_bind (records_family _ _) fun _ => ?_
  have last : Records (α := Encoding) (do
      if !requirements.isEmpty then family .logicalForm (enc.require s requirements)
      return enc) (if !requirements.isEmpty then [.logicalForm] else []) := by
    split
    · exact records_bind (records_family _ _) fun _ => records_pure _
    · exact records_pure _
  cases linearize with
  | true => exact records_bind (records_family _ _) fun _ => last
  | false => exact last

end Assembly

namespace Grammar

/-- Whether the words have to come in the order of the sentence. -/
def linearizes (g : Grammar) (c : Condition) : Bool := g.options.constrainsSentence && c.sentence.isSome

/-- The logical form that a derivation has to have. -/
def form? (g : Grammar) (c : Condition) : Option LogicalForm :=
  if g.options.constrainsLogicalForm && c.logicalForm.isSome then c.logicalForm else none

/-- What a condition requires of the slots of a schema. -/
def requirementsOf (g : Grammar) (c : Condition) (s : Schema) : Except ParseError (List Requirement) :=
  match g.form? c with
  | some form => (Requirement.ofLogicalForm s form).mapError .configuration
  | none => .ok []

/-- The construction of the formula over a schema. -/
def assemble (g : Grammar) (c : Condition) (s : Schema) (requirements : List Requirement) : Builder Encoding :=
  Encoding.build s >>= Assembly.constrain s g.locality (g.linearizes c) requirements

/-- The parts of a parse that has been set up. -/
structure IsPrepared (g : Grammar) (c : Condition) (p : Problem) : Prop where
  valid : g.options.validate = .ok ()
  isConstrained : g.linearizes c = true ∨ (g.form? c).isSome = true
  words : c.words = .ok p.schema.words
  schema : Schema.build g.lexicon p.schema.words g.options.bounds = .ok p.schema
  requirements : g.requirementsOf c p.schema = .ok p.requirements
  encoding : p.encoding = result (g.assemble c p.schema p.requirements) ∅
  formula : p.formula = Builder.formula (g.assemble c p.schema p.requirements) ∅
  sentence : p.sentence = if g.linearizes c then c.sentence else none
  families : p.families.map (·.family) = Assembly.familiesOf (g.linearizes c) !p.requirements.isEmpty

variable {g : Grammar} {c : Condition} {p : Problem}

theorem unconstrained_iff : (!g.linearizes c && !(g.options.constrainsLogicalForm && c.logicalForm.isSome)) = false ↔
    g.linearizes c = true ∨ (g.form? c).isSome = true := by
  rw [form?]
  cases g.linearizes c <;> cases g.options.constrainsLogicalForm <;> cases c.logicalForm <;> simp

theorem isPrepared_of_prepare (h : g.prepare c = .ok p) : g.IsPrepared c p := by
  obtain ⟨_, hvalid, h⟩ := Fallible.bind_eq_ok.1 h
  dsimp only at h
  split at h
  · cases h
  · rename_i hc
    obtain ⟨words, hw, h⟩ := Fallible.bind_eq_ok.1 h
    obtain ⟨s, hs, h⟩ := Fallible.bind_eq_ok.1 h
    obtain ⟨requirements, hr, h⟩ := Fallible.bind_eq_ok.1 h
    have htracks := Assembly.tracks_assemble s g.locality (g.linearizes c) requirements [] ∅
    have hrecords := Assembly.records_assemble s g.locality (g.linearizes c) requirements [] ∅
    rw [result] at hrecords
    rw [result, formula] at htracks
    rw [← linearizes] at h
    generalize ((Assembly.assemble s g.locality (g.linearizes c) requirements).run []).run ∅ = r at h htracks hrecords
    obtain ⟨⟨enc, families⟩, form⟩ := r
    cases h
    obtain ⟨_, ⟨_, rfl, _⟩, _⟩ := Schema.build_eq_ok_iff.1 hs
    exact {
      valid := Fallible.mapError_ok_iff.1 hvalid
      isConstrained := unconstrained_iff.1 (Bool.not_eq_true _ ▸ hc)
      words := Fallible.mapError_ok_iff.1 hw
      schema := hs
      requirements := hr
      encoding := htracks.1
      formula := htracks.2
      sentence := rfl
      families := hrecords }

theorem exists_prepare {words : List String} {s : Schema} {requirements : List Requirement}
    (hvalid : g.options.validate = .ok ()) (hc : g.linearizes c = true ∨ (g.form? c).isSome = true)
    (hwords : c.words = .ok words) (hs : Schema.build g.lexicon words g.options.bounds = .ok s)
    (hr : g.requirementsOf c s = .ok requirements) :
    ∃ p, g.prepare c = .ok p ∧ p.schema = s ∧ p.requirements = requirements := by
  have hv : g.options.validate.mapError ParseError.configuration = .ok () := Fallible.mapError_ok_iff.2 hvalid
  have hw : c.words.mapError ParseError.configuration = .ok words := Fallible.mapError_ok_iff.2 hwords
  rw [requirementsOf, form?] at hr
  rw [prepare, hv, hw]
  simp only [bind, Except.bind]
  rw [if_neg (by rw [← linearizes, unconstrained_iff.2 hc]; exact Bool.false_ne_true), hs]
  exact ⟨_, Fallible.bind_eq_ok.2 ⟨requirements, hr, rfl⟩, rfl, rfl⟩

end Grammar

end MinimalistGrammar
