import MinimalistGrammar.Locality
import MinimalistGrammar.Proofs.Encoding.Dominance
import MinimalistGrammar.Proofs.Encoding.HeadMovement
import MinimalistGrammar.Proofs.Sat.Scope

/-!
The description of derivations over a schema has no variables but its own: neither its clauses nor its literals.
-/

namespace MinimalistGrammar

open MinimalistGrammar.Sat
open MinimalistGrammar.Sat.Builder

section Tables

variable {α : Type} {rows : Array (List α)} {i : Nat} {x : α}

theorem exists_mem_of_mem_getD (h : x ∈ rows.getD i []) : ∃ row ∈ rows.toList, x ∈ row := by
  rw [Array.getD_eq_getD_getElem?] at h
  cases hr : rows[i]? with
  | none => simp [hr] at h
  | some row => exact ⟨row, Array.mem_toList_iff.2 (Array.mem_of_getElem? hr), by simpa [hr] using h⟩

theorem getD_eq_or_mem (xs : Array α) (i : Nat) (d : α) : xs.getD i d = d ∨ xs.getD i d ∈ xs.toList := by
  rw [Array.getD_eq_getD_getElem?]
  cases hx : xs[i]? with
  | none => exact .inl rfl
  | some x => exact .inr (Array.mem_toList_iff.2 (Array.mem_of_getElem? hx))

end Tables

namespace Lexical

inductive Mentions (lex : Lexical) : Literal → Prop
  | choice {row : List (ItemId × Literal)} {c : ItemId × Literal} (hr : row ∈ lex.choices.toList) (hc : c ∈ row) :
    Mentions lex c.2
  | used {l : Literal} (h : l ∈ lex.used.toList) : Mentions lex l
  | feature {row : List (Feature × Literal)} {f : Feature × Literal} (hr : row ∈ lex.features.toList) (hf : f ∈ row) :
    Mentions lex f.2
  | trigger {l : Literal} (h : l ∈ lex.triggers.toList) : Mentions lex l
  | target {l : Literal} (h : l ∈ lex.targets.toList) : Mentions lex l
  | category {l : Literal} (h : l ∈ lex.categories.toList) : Mentions lex l
  | licensee {l : Literal} (h : l ∈ lex.licensees.toList) : Mentions lex l

variable {n : Nat} {lex : Lexical} {s : Schema} {p : PointId} {slot : SlotId} {f : Feature} {l : Literal}

section Reading

variable (hn : 0 < n) (h : InScope n lex.Mentions)
include h

theorem choicesAt_lt {c : ItemId × Literal} (hc : c ∈ lex.choicesAt slot) : c.2.var < n := by
  obtain ⟨row, hr, hc⟩ := exists_mem_of_mem_getD hc
  exact h _ (.choice hr hc)

theorem featuresAt_lt {x : Feature × Literal} (hx : x ∈ lex.featuresAt p) : x.2.var < n := by
  obtain ⟨row, hr, hx⟩ := exists_mem_of_mem_getD hx
  exact h _ (.feature hr hx)

theorem feature?_lt (hl : lex.feature? p f = some l) : l.var < n := featuresAt_lt h (mem_of_lookup hl)

theorem literalsAt_lt {test : Feature → Bool} (hl : l ∈ lex.literalsAt p test) : l.var < n := by
  obtain ⟨f, hf, _⟩ := Checking.mem_literalsAt.1 hl
  exact featuresAt_lt h hf

include hn

theorem usedAt_lt (slot : SlotId) : (lex.usedAt slot).var < n :=
  (getD_eq_or_mem _ _ _).elim (fun he => by rw [usedAt, he]; exact hn) fun hm => h _ (.used hm)

theorem trigger_lt (p : PointId) : (lex.trigger p).var < n :=
  (getD_eq_or_mem _ _ _).elim (fun he => by rw [Lexical.trigger, he]; exact hn) fun hm => h _ (.trigger hm)

theorem target_lt (p : PointId) : (lex.target p).var < n :=
  (getD_eq_or_mem _ _ _).elim (fun he => by rw [Lexical.target, he]; exact hn) fun hm => h _ (.target hm)

theorem licensee_lt (p : PointId) : (lex.licensee p).var < n :=
  (getD_eq_or_mem _ _ _).elim (fun he => by rw [Lexical.licensee, he]; exact hn) fun hm => h _ (.licensee hm)

end Reading

section Restriction

variable {v : Valuation} {sel : Selection} {hn : 0 < n}

theorem Marks.restrict {test : Polarity → Bool} {lits : Array Literal} (h : Marks v sel test lits)
    (hl : ∀ l ∈ lits.toList, l.var < n) : Marks (v.restrict n hn) sel test lits where
  size := h.size
  denotes p hp := (h.denotes p hp).restrict
    ((getD_eq_or_mem lits p .bottom).elim (fun he => by rw [he]; exact hn) (hl _))
  mayCarry := h.mayCarry

theorem Describes.restrict (h : Describes v sel lex) (hl : InScope n lex.Mentions) :
    Describes (v.restrict n hn) sel lex where
  choices slot hs := by
    have hc := h.choices slot hs
    refine List.forall₂_iff_get.2 ⟨hc.length_eq, fun i h₁ h₂ => ?_⟩
    obtain ⟨hid, hd⟩ := hc.get h₁ h₂
    exact ⟨hid, hd.restrict (choicesAt_lt hl (List.get_mem _ _))⟩
  used slot hs := (h.used slot hs).restrict (usedAt_lt hn hl slot)
  features p hp :=
    ⟨(h.features p hp).nodup, (h.features p hp).mem_keys, fun f l hm =>
      ((h.features p hp).denotes f l hm).restrict (featuresAt_lt hl hm)⟩
  triggers := h.triggers.restrict fun _ hm => hl _ (.trigger hm)
  targets := h.targets.restrict fun _ hm => hl _ (.target hm)
  categories := h.categories.restrict fun _ hm => hl _ (.category hm)
  licensees := h.licensees.restrict fun _ hm => hl _ (.licensee hm)

end Restriction

theorem scoped_choose (hn : 0 < n) (s : Schema) (slot : SlotId) :
    Scoped n (choose s slot) fun r l => (∃ c ∈ r.1, c.2 = l) ∨ r.2 = l := by
  refine (scoped_freshList _).bind fun m lits hle hlits => ?_
  have hchoices : ∀ l, (∃ c ∈ ((s.candidates slot).map (·.1)).zip lits, c.2 = l) → l.var < m := by
    rintro _ ⟨c, hc, rfl⟩
    exact hlits _ (List.of_mem_zip hc).2
  dsimp only
  split
  · refine Scoped.seq (staysInScope_exactlyOne (by omega) hlits) (scoped_pure fun l hl => ?_)
    rcases hl with hl | rfl
    · exact hchoices l hl
    · exact Nat.lt_of_lt_of_le hn hle
  · refine Scoped.seq (staysInScope_atMostOne (by omega) hlits) ?_
    refine (scoped_or (by omega) hlits).bind fun m' x hle' hx => scoped_pure fun l hl => ?_
    rcases hl with hl | rfl
    · exact Nat.lt_of_lt_of_le (hchoices l hl) hle'
    · exact hx _ rfl

theorem scoped_carry (hn : 0 < n) {sources : List (Feature × List Literal)}
    (h : ∀ x ∈ sources, ∀ l ∈ x.2, l.var < n) :
    Scoped n (carry sources) fun r l => (∃ f ∈ r.1, f.2 = l) ∨ r.2 = l := by
  have each : ∀ x ∈ sources, Scoped n (do return (x.1, ← or x.2)) fun (y : Feature × Literal) l => y.2 = l := fun x hx =>
    (scoped_or hn (h x hx)).bind fun m y _ hy => scoped_pure fun l hl => hy l hl
  refine (Scoped.mapM each).bind fun m features hle hf => ?_
  have hlits : ∀ l ∈ features.map (·.2), l.var < m := by
    intro l hl
    obtain ⟨f, hm, rfl⟩ := List.mem_map.1 hl
    exact hf _ ⟨f, hm, rfl⟩
  refine (scoped_or (by omega) hlits).bind fun m' x hle' hx => scoped_pure fun l hl => ?_
  rcases hl with hl | rfl
  · exact Nat.lt_of_lt_of_le (hf l hl) hle'
  · exact hx _ rfl

theorem scoped_carrying (hn : 0 < n) {features : List (List (Feature × Literal))}
    (h : ∀ fs ∈ features, ∀ f ∈ fs, f.2.var < n) (test : Polarity → Bool) :
    Scoped n (carrying features test) fun ls l => l ∈ ls.toList := by
  refine (Scoped.mapM (N := Eq) fun fs hfs => scoped_or hn fun l hl => ?_).bind fun m lits hle hlits =>
    scoped_pure fun l hl => hlits l ⟨l, by simpa using hl, rfl⟩
  obtain ⟨f, hf, rfl⟩ := List.mem_map.1 hl
  exact h fs hfs f (List.mem_filter.1 hf).1

theorem sources_lt {choices : List (List (ItemId × Literal))} (h : ∀ row ∈ choices, ∀ c ∈ row, c.2.var < n) :
    ∀ x ∈ sources s choices p, ∀ l ∈ x.2, l.var < n := by
  rintro ⟨f, lits⟩ hx l hl
  rw [(mem_groupByKey.1 hx).2] at hl
  obtain ⟨⟨k, l⟩, hm, rfl⟩ := List.mem_map.1 hl
  obtain ⟨⟨candidate, choice⟩, hz, he⟩ := List.mem_filterMap.1 (List.mem_filter.1 hm).1
  obtain ⟨_, _, he⟩ := Option.map_eq_some_iff.1 he
  cases he
  have hchoice := (List.of_mem_zip hz).2
  rw [List.getD_eq_getElem?_getD] at hchoice
  cases hrow : choices[s.slotOf p]? with
  | none => simp [hrow] at hchoice
  | some row => exact h row (List.mem_of_getElem? hrow) choice (by simpa [hrow] using hchoice)

theorem scoped_build (hn : 0 < n) (s : Schema) : Scoped n (build s) Mentions := by
  refine (Scoped.mapM fun slot _ => scoped_choose hn s slot).bind fun m chosen hle hchosen => ?_
  have hm : 0 < m := by omega
  have hchoices : ∀ row ∈ chosen.map (·.1), ∀ c ∈ row, c.2.var < m := by
    intro row hr c hc
    obtain ⟨r, hm, rfl⟩ := List.mem_map.1 hr
    exact hchosen _ ⟨r, hm, .inl ⟨c, hc, rfl⟩⟩
  refine (Scoped.mapM fun p _ => scoped_carry hm (sources_lt (s := s) (p := p) hchoices)).bind
    fun m₁ carried hle₁ hcarried => ?_
  have hfeatures : ∀ fs ∈ carried.map (·.1), ∀ f ∈ fs, f.2.var < m₁ := by
    intro fs hfs f hf
    obtain ⟨r, hr, rfl⟩ := List.mem_map.1 hfs
    exact hcarried _ ⟨r, hr, .inl ⟨f, hf, rfl⟩⟩
  refine (scoped_carrying (by omega) hfeatures _).bind fun m₂ triggers hle₂ htriggers => ?_
  have hfeatures₂ := fun fs hfs f hf => Nat.lt_of_lt_of_le (hfeatures fs hfs f hf) hle₂
  refine (scoped_carrying (by omega) hfeatures₂ _).bind fun m₃ targets hle₃ htargets => ?_
  have hfeatures₃ := fun fs hfs f hf => Nat.lt_of_lt_of_le (hfeatures₂ fs hfs f hf) hle₃
  refine (scoped_carrying (by omega) hfeatures₃ _).bind fun m₄ categories hle₄ hcategories => ?_
  have hfeatures₄ := fun fs hfs f hf => Nat.lt_of_lt_of_le (hfeatures₃ fs hfs f hf) hle₄
  refine (scoped_carrying (by omega) hfeatures₄ _).bind fun m₅ licensees hle₅ hlicensees => ?_
  refine scoped_pure fun l hl => ?_
  cases hl with
  | choice hr hc =>
    have := hchoices _ (by simpa using hr) _ hc
    omega
  | used h =>
    obtain ⟨r, hr, rfl⟩ := List.mem_map.1 (show l ∈ chosen.map (·.2) by simpa using h)
    have := hchosen _ ⟨r, hr, .inr rfl⟩
    omega
  | feature hr hf =>
    have := hfeatures₄ _ (by simpa using hr) _ hf
    omega
  | trigger h =>
    have := htriggers _ h
    omega
  | target h =>
    have := htargets _ h
    omega
  | category h =>
    have := hcategories _ h
    omega
  | licensee h => exact hlicensees _ h

theorem staysInScope_requireRoot (hn : 0 < n) (h : InScope n lex.Mentions) : StaysInScope n lex.requireRoot :=
  staysInScope_exactlyOne hn fun l hl => h l (.category (List.mem_filter.1 hl).1)

theorem staysInScope_orderCovertSlots (hn : 0 < n) (h : InScope n lex.Mentions) (s : Schema) :
    StaysInScope n (lex.orderCovertSlots s) := by
  refine StaysInScope.forM fun x _ => Scoped.seq ?_ (StaysInScope.forM fun c hc => ?_)
  · exact staysInScope_implies (by simpa using usedAt_lt hn h x.2) (usedAt_lt hn h x.1)
  · refine staysInScope_impliesAny (by simpa using choicesAt_lt h (List.fst_mem_of_mem_zipIdx hc)) fun l hl => ?_
    obtain ⟨c, hm, rfl⟩ := List.mem_map.1 hl
    exact choicesAt_lt h (List.mem_of_mem_take hm)

end Lexical

namespace Checking

inductive Mentions (c : Checking) : Literal → Prop
  | link {k : Link} (h : k ∈ c.links) : Mentions c k.literal
  | partner {row : List (PointId × Literal)} {x : PointId × Literal} (hr : row ∈ c.partners.toList) (hx : x ∈ row) :
    Mentions c x.2
  | checker {row : List (PointId × Literal)} {x : PointId × Literal} (hr : row ∈ c.checkers.toList) (hx : x ∈ row) :
    Mentions c x.2

variable {n : Nat} {lex : Lexical} {c : Checking} {s : Schema} {p : PointId} {x : PointId × Literal}

theorem partnersOf_lt (h : InScope n c.Mentions) (hx : x ∈ c.partnersOf p) : x.2.var < n := by
  obtain ⟨row, hr, hx⟩ := exists_mem_of_mem_getD hx
  exact h _ (.partner hr hx)

theorem checkersOf_lt (h : InScope n c.Mentions) (hx : x ∈ c.checkersOf p) : x.2.var < n := by
  obtain ⟨row, hr, hx⟩ := exists_mem_of_mem_getD hx
  exact h _ (.checker hr hx)

theorem Describes.restrict {v : Valuation} {sel : Selection} {hn : 0 < n} (h : Describes v sel c)
    (hl : InScope n c.Mentions) : Describes (v.restrict n hn) sel c where
  links := by
    refine List.forall₂_iff_get.2 ⟨h.links.length_eq, fun i h₁ h₂ => ?_⟩
    obtain ⟨he, hd⟩ := h.links.get h₁ h₂
    exact ⟨he, hd.restrict (hl _ (.link (List.get_mem _ _)))⟩
  partners := h.partners
  checkers := h.checkers

theorem inScope_ofLinks {links : List Link} (h : ∀ k ∈ links, k.literal.var < n) :
    InScope n (ofLinks s links).Mentions := by
  intro l hl
  cases hl with
  | link hk => exact h _ hk
  | partner hr hx =>
    obtain ⟨p, _, rfl⟩ := List.mem_map.1 hr
    obtain ⟨k, hk, rfl⟩ := List.mem_map.1 hx
    exact h k (List.mem_filter.1 hk).1
  | checker hr hx =>
    obtain ⟨p, _, rfl⟩ := List.mem_map.1 hr
    obtain ⟨k, hk, rfl⟩ := List.mem_map.1 hx
    exact h k (List.mem_filter.1 hk).1

theorem scoped_link {x y : PointId} {ms : List (Literal × List Literal)}
    (h : ∀ m ∈ ms, m.1.var < n ∧ ∀ l ∈ m.2, l.var < n) : Scoped n (link x y ms) fun k l => k.literal = l := by
  refine scoped_fresh.bind fun m k hle hk => ?_
  have hk : k.var < m := hk k rfl
  have hms : ∀ x ∈ ms, x.1.var < m ∧ ∀ l ∈ x.2, l.var < m := fun x hx =>
    ⟨Nat.lt_of_lt_of_le (h x hx).1 hle, fun l hl => Nat.lt_of_lt_of_le ((h x hx).2 l hl) hle⟩
  refine Scoped.seq (staysInScope_impliesAny (by simpa using hk) fun l hl => ?_)
    (Scoped.seq (StaysInScope.forM fun x hx => ?_) (scoped_pure fun l hl => hl ▸ hk))
  · obtain ⟨x, hx, rfl⟩ := List.mem_map.1 hl
    exact (hms x hx).1
  · exact staysInScope_impliesAny (by simpa using ⟨hk, (hms x hx).1⟩) (hms x hx).2

theorem staysInScope_checkOnce (hn : 0 < n) {feature : Literal} {links : List (PointId × Literal)}
    (hf : feature.var < n) (h : ∀ x ∈ links, x.2.var < n) : StaysInScope n (checkOnce feature links) := by
  have hlits : ∀ l ∈ links.map (·.2), l.var < n := by
    intro l hl
    obtain ⟨x, hx, rfl⟩ := List.mem_map.1 hl
    exact h x hx
  exact Scoped.seq (staysInScope_impliesAny (by simpa using hf) hlits) (staysInScope_atMostOne hn hlits)

theorem scoped_build (hn : 0 < n) (h : InScope n lex.Mentions) (s : Schema) : Scoped n (build s lex) Mentions := by
  refine (Scoped.mapM (N := fun (k : Link) l => k.literal = l) fun x hx => scoped_link fun m hm => ?_).bind
    fun m links hle hlinks => ?_
  · obtain ⟨x, y, ms⟩ := x
    obtain ⟨_, _, rfl, _⟩ := mem_candidates.1 hx
    obtain ⟨f, hf, he, _⟩ := mem_matching.1 hm
    exact ⟨Lexical.featuresAt_lt h hf, fun l hl => Lexical.literalsAt_lt h (he ▸ hl)⟩
  · have hc : InScope m (ofLinks s links).Mentions := inScope_ofLinks fun k hk => hlinks _ ⟨k, hk, rfl⟩
    have hlex := h.mono hle
    have hm : 0 < m := by omega
    refine Scoped.seq (StaysInScope.forM fun p _ => Scoped.seq ?_ ?_) (scoped_pure hc)
    · exact staysInScope_checkOnce hm (Lexical.trigger_lt hm hlex p) fun x hx => partnersOf_lt hc hx
    · exact staysInScope_checkOnce hm (Lexical.target_lt hm hlex p) fun x hx => checkersOf_lt hc hx

end Checking

namespace Dominance

inductive Mentions (d : Dominance) : Literal → Prop
  | parent {row : List (PointId × Literal)} {x : PointId × Literal} (hr : row ∈ d.parents.toList) (hx : x ∈ row) :
    Mentions d x.2
  | ancestor {row : List (PointId × Literal)} {x : PointId × Literal} (hr : row ∈ d.ancestors.toList) (hx : x ∈ row) :
    Mentions d x.2

variable {n : Nat} {lex : Lexical} {c : Checking} {d : Dominance} {s : Schema} {p above below : PointId} {l : Literal}

theorem parentsOf_lt (h : InScope n d.Mentions) {x : PointId × Literal} (hx : x ∈ d.parentsOf p) : x.2.var < n := by
  obtain ⟨row, hr, hx⟩ := exists_mem_of_mem_getD hx
  exact h _ (.parent hr hx)

theorem ancestorsOf_lt (h : InScope n d.Mentions) {x : PointId × Literal} (hx : x ∈ d.ancestorsOf p) : x.2.var < n := by
  obtain ⟨row, hr, hx⟩ := exists_mem_of_mem_getD hx
  exact h _ (.ancestor hr hx)

theorem literal?_lt (h : InScope n d.Mentions) (hl : d.literal? above below = some l) : l.var < n :=
  ancestorsOf_lt h (mem_of_lookup hl)

theorem Describes.restrict {v : Valuation} {sel : Selection} {hn : 0 < n} (h : Describes v sel d)
    (hl : InScope n d.Mentions) : Describes (v.restrict n hn) sel d where
  denotes a b l hb hm := (h.denotes a b l hb hm).restrict (literal?_lt hl hm)
  exists_literal := h.exists_literal

theorem upward_lt (hn : 0 < n) (hlex : InScope n lex.Mentions) (hc : InScope n c.Mentions) :
    ∀ x ∈ upward s lex c p, x.2.var < n := by
  intro x hx
  rcases List.mem_append.1 hx with hx | hx
  · split at hx
    · cases hx
    · rw [List.mem_singleton.1 hx]
      exact Lexical.trigger_lt hn hlex p
  · obtain ⟨y, hy, rfl⟩ := List.mem_map.1 hx
    exact Checking.checkersOf_lt hc hy

theorem staysInScope_includeParents (h : InScope n d.Mentions) (p : PointId) : StaysInScope n (d.includeParents p) := by
  refine StaysInScope.forM fun x hx => ?_
  have hl := parentsOf_lt h hx
  refine Scoped.seq (StaysInScope.option_forM fun direct hd => ?_) (StaysInScope.forM fun y hy => ?_)
  · exact staysInScope_implies (by simpa using hl) (literal?_lt h hd)
  · have hy := ancestorsOf_lt h hy
    refine scoped_ite (staysInScope_forbid (by simpa using ⟨hl, hy⟩)) (StaysInScope.option_forM fun through ht => ?_)
    exact staysInScope_implies (by simpa using ⟨hl, hy⟩) (literal?_lt h ht)

theorem staysInScope_requireParents (h : InScope n d.Mentions) (hl : l.var < n) (above below : PointId) :
    StaysInScope n (d.requireParents above below l) := by
  refine Scoped.seq (staysInScope_impliesAny (by simpa using hl) fun k hk => ?_) (StaysInScope.forM fun x hx => ?_)
  · obtain ⟨x, hx, rfl⟩ := List.mem_map.1 hk
    exact parentsOf_lt h hx
  · have hx := parentsOf_lt h hx
    refine scoped_ite staysInScope_pure ?_
    split
    · rename_i upper hu
      exact staysInScope_implies (by simpa using ⟨hl, hx⟩) (literal?_lt h hu)
    · exact staysInScope_forbid (by simpa using ⟨hl, hx⟩)

theorem scoped_build (hn : 0 < n) (hlex : InScope n lex.Mentions) (hc : InScope n c.Mentions) (s : Schema) :
    Scoped n (build s lex c) Mentions := by
  have hup : ∀ x ∈ s.pointIds.map (upward s lex c), ∀ y ∈ x, y.2.var < n := by
    intro x hx
    obtain ⟨p, _, rfl⟩ := List.mem_map.1 hx
    exact upward_lt hn hlex hc
  refine Scoped.seq (StaysInScope.forM fun x hx => StaysInScope.forM fun y hy => scoped_ite ?_ staysInScope_pure) ?_
  · exact staysInScope_addClause (by simpa using hup x hx y hy)
  · refine (Scoped.mapM (N := fun (r : List (PointId × Literal)) l => ∃ x ∈ r, x.2 = l) fun p _ => ?_).bind
      fun m ancestors hle hanc => ?_
    · refine (scoped_freshList _).bind fun m lits _ hlits => scoped_pure ?_
      rintro _ ⟨x, hx, rfl⟩
      exact hlits _ (List.of_mem_zip hx).2
    · have hd : InScope m (Dominance.mk ((s.pointIds.map (upward s lex c)).map steps).toArray
          ancestors.toArray).Mentions := by
        intro l hl
        cases hl with
        | parent hr hx =>
          obtain ⟨up, hm, rfl⟩ := List.mem_map.1 hr
          obtain ⟨y, hy, he⟩ := List.mem_filterMap.1 hx
          obtain ⟨q, _, rfl⟩ := Option.map_eq_some_iff.1 he
          exact Nat.lt_of_lt_of_le (hup up hm y hy) hle
        | ancestor hr hx => exact hanc _ ⟨_, hr, _, hx, rfl⟩
      refine Scoped.seq (StaysInScope.forM fun p _ => staysInScope_includeParents hd p) (Scoped.seq ?_ (scoped_pure hd))
      refine StaysInScope.forM fun above _ => StaysInScope.forM fun below _ => StaysInScope.option_forM fun l hl => ?_
      exact staysInScope_requireParents hd (literal?_lt hd hl) above below

end Dominance

namespace Movement

variable {n : Nat} {lex : Lexical} {c : Checking} {d : Dominance} {s : Schema} {m : Movement} {landing : PointId}

theorem link_lt (hc : InScope n c.Mentions) (hm : m ∈ Movement.endingAt s lex c landing) : m.link.var < n := by
  rw [Movement.endingAt] at hm
  split at hm
  · cases hm
  · obtain ⟨x, hx, he⟩ := List.mem_filterMap.1 hm
    dsimp only at he
    split at he
    · obtain ⟨q, _, rfl⟩ := Option.map_eq_some_iff.1 he
      exact Checking.checkersOf_lt hc hx
    · cases he

theorem staysInScope_constrain (hn : 0 < n) (hlex : InScope n lex.Mentions) (hc : InScope n c.Mentions)
    (hd : InScope n d.Mentions) (s : Schema) : StaysInScope n (constrain s lex c d) := by
  refine Scoped.seq (StaysInScope.forM fun landing _ => ?_) (staysInScope_atMost hn (fun l hl => ?_) _)
  · have hl := Lexical.licensee_lt hn hlex
    refine scoped_ite (staysInScope_addClause (by simpa using hl landing)) (StaysInScope.forM fun m hm => ?_)
    rw [goUp]
    split
    · rename_i upper hu
      exact staysInScope_implies (by simpa using ⟨link_lt hc hm, hl m.landing⟩) (Dominance.literal?_lt hd hu)
    · exact staysInScope_forbid (by simpa using ⟨link_lt hc hm, hl m.landing⟩)
  · obtain ⟨p, _, rfl⟩ := List.mem_map.1 hl
    exact Lexical.licensee_lt hn hlex p

end Movement

namespace HeadMove

variable {n : Nat} {lex : Lexical} {c : Checking} {s : Schema} {slot : SlotId}

theorem scoped_takeUp {host : Literal} {mover : SlotId × List Literal} (hh : host.var < n)
    (h : ∀ l ∈ mover.2, l.var < n) : Scoped n (takeUp slot host mover) fun m l => m.literal = l := by
  refine scoped_fresh.bind fun m k hle hk => ?_
  have hk : k.var < m := hk k rfl
  have hh : host.var < m := Nat.lt_of_lt_of_le hh hle
  have h : ∀ l ∈ mover.2, l.var < m := fun l hl => Nat.lt_of_lt_of_le (h l hl) hle
  refine Scoped.seq (StaysInScope.forM fun l hl => staysInScope_implies (by simpa using ⟨hh, h l hl⟩) hk) ?_
  refine Scoped.seq (staysInScope_implies (by simpa using hk) hh) ?_
  exact Scoped.seq (staysInScope_impliesAny (by simpa using hk) h) (scoped_pure fun l hl => hl ▸ hk)

theorem scoped_attract (hn : 0 < n) (hc : InScope n c.Mentions) {x : SlotId × List Literal}
    (h : ∀ l ∈ x.2, l.var < n) :
    Scoped n (attract s c x) fun r l => r.1 = l ∨ ∃ m ∈ r.2, m.literal = l := by
  refine (scoped_or hn h).bind fun m host hle hh => ?_
  refine (Scoped.mapM (N := fun (k : HeadMove) l => k.literal = l) fun mover hm =>
    scoped_takeUp (hh _ rfl) fun l hl => ?_).bind fun m' moves hle' hmoves => scoped_pure fun l hl => ?_
  · obtain ⟨y, hy, _⟩ := (mem_movers hm l).1 hl
    exact Nat.lt_of_lt_of_le (Checking.partnersOf_lt hc hy) hle
  · rcases hl with rfl | hl
    · exact Nat.lt_of_lt_of_le (hh _ rfl) hle'
    · exact hmoves l hl

theorem scoped_build (hn : 0 < n) (hlex : InScope n lex.Mentions) (hc : InScope n c.Mentions) (s : Schema) :
    Scoped n (build s lex c) fun moves l => ∃ m ∈ moves, m.literal = l := by
  refine (Scoped.mapM fun x hx => scoped_attract (s := s) hn hc fun l hl => ?_).bind fun m hosted hle hh => ?_
  · obtain ⟨slot, attracting⟩ := x
    obtain ⟨_, rfl, _⟩ := mem_hosts.1 hx
    exact Lexical.literalsAt_lt hlex hl
  · have hmoves : ∀ k ∈ hosted.flatMap (·.2), k.literal.var < m := by
      intro k hk
      obtain ⟨r, hr, hk⟩ := List.mem_flatMap.1 hk
      exact hh _ ⟨r, hr, .inr ⟨k, hk, rfl⟩⟩
    refine Scoped.seq (StaysInScope.forM fun x hx => StaysInScope.forM fun y hy => ?_) (Scoped.seq ?_ (scoped_pure ?_))
    · exact scoped_ite (staysInScope_forbid (by simpa using ⟨hmoves x hx, hmoves y hy⟩)) staysInScope_pure
    · refine staysInScope_atMost (by omega) (fun l hl => ?_) _
      obtain ⟨r, hr, rfl⟩ := List.mem_map.1 hl
      exact hh _ ⟨r, hr, .inl rfl⟩
    · rintro _ ⟨k, hk, rfl⟩
      exact hmoves k hk

end HeadMove

end MinimalistGrammar
