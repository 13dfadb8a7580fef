import MinimalistGrammar.Proofs.Encoding.Alignment
import MinimalistGrammar.Proofs.Encoding.Scope
import MinimalistGrammar.Proofs.Sat.Extension

/-!
The first families of clauses, for items, links, the root and dominance. They come before all others, and by themselves
they say that the features match one to one and form one tree.
-/

namespace MinimalistGrammar

open MinimalistGrammar.Sat
open MinimalistGrammar.Sat.Builder

variable {v : Valuation} {s : Schema} {sel : Selection} {enc : Encoding} {a : Assignment} {n : Nat}

namespace Encoding

def linked (s : Schema) : Builder (Lexical × Checking) := do
  let lexical ← Lexical.build s
  let checking ← Checking.build s lexical
  lexical.requireRoot
  return (lexical, checking)

def skeleton (s : Schema) : Builder (Lexical × Checking × Dominance) := do
  let (lexical, checking) ← linked s
  let dominance ← Dominance.build s lexical checking
  return (lexical, checking, dominance)

/-- What is said of a derivation once it is a tree. -/
def complete (s : Schema) (lexical : Lexical) (checking : Checking) (dominance : Dominance) : Builder Encoding := do
  Movement.constrain s lexical checking dominance
  let headMoves ← HeadMove.build s lexical checking
  lexical.orderCovertSlots s
  return { lexical, checking, dominance, movements := Movement.all s lexical checking, headMoves }

section Parts

theorem adds_complete (s : Schema) (lex : Lexical) (c : Checking) (d : Dominance) : Adds (complete s lex c d) :=
  adds_bind (Movement.adds_constrain _ _ _ _) fun _ => adds_bind (HeadMove.adds_build _ _ _) fun _ =>
    adds_bind (Lexical.adds_orderCovertSlots _ _) fun _ => adds_pure _

theorem build_eq (s : Schema) : build s = skeleton s >>= fun x => complete s x.1 x.2.1 x.2.2 := rfl

theorem skeleton_eq (s : Schema) : skeleton s = Lexical.build s >>= fun lex => Checking.build s lex >>= fun c =>
    lex.requireRoot >>= fun _ => Dominance.build s lex c >>= fun d => pure (lex, c, d) := rfl

theorem result_linked (s : Schema) :
    result (linked s) ∅ = ((result (build s) ∅).lexical, (result (build s) ∅).checking) := rfl

theorem result_skeleton (s : Schema) : result (skeleton s) ∅ =
    ((result (build s) ∅).lexical, (result (build s) ∅).checking, (result (build s) ∅).dominance) := rfl

theorem scoped_linked (hn : 0 < n) (s : Schema) :
    Scoped n (linked s) fun x l => x.1.Mentions l ∨ x.2.Mentions l := by
  refine (Lexical.scoped_build hn s).bind fun n₁ lex h₁ hlex => ?_
  refine (Checking.scoped_build (by omega) hlex s).bind fun n₂ c h₂ hc => ?_
  have hlex := hlex.mono h₂
  refine Scoped.seq (Lexical.staysInScope_requireRoot (by omega) hlex) (scoped_pure fun l hl => ?_)
  exact hl.elim (hlex l) (hc l)

theorem scoped_skeleton (hn : 0 < n) (s : Schema) :
    Scoped n (skeleton s) fun x l => x.1.Mentions l ∨ x.2.1.Mentions l ∨ x.2.2.Mentions l := by
  refine (scoped_linked hn s).bind fun n₁ x h₁ hx => ?_
  have hlex : InScope n₁ x.1.Mentions := fun l hl => hx l (.inl hl)
  have hc : InScope n₁ x.2.Mentions := fun l hl => hx l (.inr hl)
  refine (Dominance.scoped_build (by omega) hlex hc s).bind fun n₂ d h₂ hd => scoped_pure fun l hl => ?_
  rcases hl with hl | hl | hl
  · exact hlex.mono h₂ l hl
  · exact hc.mono h₂ l hl
  · exact hd l hl

end Parts

section Trees

variable {lex : Lexical} {c : Checking}

theorem spec_arrange (hf : sel.IsFilled) (hm : sel.IsMatching) (hsub : ∀ l ∈ sel.links, l ∈ sel.schema.linkPairs)
    (hlex : lex.Describes v sel) (hc : c.Describes v sel) :
    Spec v (lex.requireRoot >>= fun _ => Dominance.build sel.schema lex c >>= fun d => pure (lex, c, d)) sel.IsTree
      fun v' x => x.1.Describes v' sel ∧ x.2.1.Describes v' sel ∧ x.2.2.Describes v' sel := by
  refine (Asserts.bind (Lexical.asserts_requireRoot hlex) (fun _ => adds_bind (Dominance.adds_build _ _ _) fun _ =>
    adds_pure _) fun v₁ _ hle₁ _ => ?_).congr ⟨fun h => ⟨hm, h.1, h.2⟩, fun h => ⟨h.hasRoot, h.isAcyclic⟩⟩
  refine (Dominance.spec_build hf hm (hlex.mono hle₁) (hc.mono hle₁) hsub).bind_pure fun v₂ d hle₂ _ hd => ?_
  have hle := Valuation.le_trans hle₁ hle₂
  exact ⟨hlex.mono hle, hc.mono hle, hd⟩

/-- The first families offer all trees. -/
theorem offers_skeleton (hs : s.IsBuilt) : Offers v (skeleton s) (fun sel => sel.IsOffered s ∧ sel.IsTree)
    fun sel v' x => x.1.Describes v' sel ∧ x.2.1.Describes v' sel ∧ x.2.2.Describes v' sel := by
  rw [skeleton_eq]
  refine offers_linked hs (fun _ _ => ?_) (fun _ h => h.toIsMatching) fun hsel hf hm hsub hlex hc =>
    hsel ▸ spec_arrange hf hm hsub hlex hc
  exact adds_bind (Lexical.adds_requireRoot _) fun _ => adds_bind (Dominance.adds_build _ _ _) fun _ => adds_pure _

/-- An assignment that makes the clauses of the first families true selects a tree, and its literals say which. -/
theorem exists_isTree_of_holds (hs : s.IsBuilt) (ha : (formula (skeleton s) ∅).Holds a) :
    ∃ sel, Selection.ofAssignment s (result (build s) ∅) a = .ok sel ∧ (sel.IsOffered s ∧ sel.IsTree) ∧
      ∀ f : Formula, (formula (skeleton s) ∅).numVars ≤ f.numVars →
        ∃ v : Valuation, v.value = a ∧ v.Settles f ∧ (result (build s) ∅).Outlines v sel := by
  obtain ⟨hproper, _, hscope⟩ := scoped_skeleton Nat.one_pos s ∅ Formula.isProper_empty (Nat.le_refl _)
  have h0 := hproper.value_zero ha
  obtain ⟨sel, hsel, hlex, hc, hd⟩ :=
    (offers_skeleton (v := .ofAssignment a h0) hs).1 ∅ (Valuation.isTotal_ofAssignment h0) ha
  rw [result_skeleton] at hlex hc hd hscope
  refine ⟨sel, ofAssignment_eq_of_outlines hs hsel.1 ⟨hlex, hc, hd⟩, hsel, fun f hle => ?_⟩
  have hscope := hscope.mono hle
  refine ⟨(Valuation.ofAssignment a h0).restrict f.numVars (Nat.lt_of_lt_of_le hproper.pos hle), rfl,
    fun _ => Iff.rfl, ?_⟩
  exact ⟨hlex.restrict fun l hl => hscope l (.inl hl), hc.restrict fun l hl => hscope l (.inr (.inl hl)),
    hd.restrict fun l hl => hscope l (.inr (.inr hl))⟩

/-- An assignment that fills the slots selects items, and what its links say are checks, matching or not. -/
theorem exists_isOffered_of_holds (hs : s.IsBuilt) (ha : (formula (Lexical.build s) ∅).Holds a) :
    ∃ sel : Selection, sel.IsOffered s ∧ ∀ f : Formula, (formula (linked s) ∅).numVars ≤ f.numVars →
      ∃ v : Valuation, v.value = a ∧ v.Settles f ∧ (result (build s) ∅).lexical.Describes v sel ∧
        (result (build s) ∅).checking.Describes v sel := by
  have h0 := (Lexical.scoped_build Nat.one_pos s ∅ Formula.isProper_empty (Nat.le_refl _)).1.value_zero ha
  obtain ⟨t, ht, hlex⟩ := (Lexical.offers_build (v := .ofAssignment a h0) hs).1 ∅ (Valuation.isTotal_ofAssignment h0) ha
  have hpairs := (aligns_build hs).links
  obtain ⟨L, hL⟩ : ∃ L : PointId × PointId → Prop, ∀ k ∈ (result (build s) ∅).checking.links,
      k.literal.value a = true ↔ L (k.trigger, k.target) := by
    refine ⟨fun xy => ∃ k ∈ (result (build s) ∅).checking.links, (k.trigger, k.target) = xy ∧ k.literal.value a = true,
      fun k hk => ⟨fun hv => ⟨k, hk, rfl, hv⟩, ?_⟩⟩
    rintro ⟨k', hk', he, hv⟩
    rwa [List.inj_on_of_nodup_map (hpairs ▸ s.nodup_linkPairs) hk' hk he] at hv
  have hlinks : (result (build s) ∅).checking = Checking.ofLinks s (result (build s) ∅).checking.links := rfl
  have hc : (result (build s) ∅).checking.Describes (.ofAssignment a h0) ((s.fill t).withLinks L) := by
    rw [hlinks]
    change Checking.Describes _ _ (Checking.ofLinks ((s.fill t).withLinks L).schema _)
    refine Checking.describes_of_map_eq hpairs fun k hk => ⟨trivial, ?_⟩
    rw [Selection.mem_links_withLinks, ← hL k hk]
    exact (and_iff_right (hpairs ▸ List.mem_map_of_mem hk)).symm
  obtain ⟨hproper, _, hscope⟩ := scoped_linked Nat.one_pos s ∅ Formula.isProper_empty (Nat.le_refl _)
  rw [result_linked] at hscope
  refine ⟨_, Selection.isOffered_fill L ht, fun f hle => ?_⟩
  have hscope := hscope.mono hle
  refine ⟨(Valuation.ofAssignment a h0).restrict f.numVars (Nat.lt_of_lt_of_le hproper.pos hle), rfl,
    fun _ => Iff.rfl, ?_⟩
  exact ⟨(hlex.of_links _).restrict fun l hl => hscope l (.inl hl), hc.restrict fun l hl => hscope l (.inr hl)⟩

end Trees

end Encoding

end MinimalistGrammar
