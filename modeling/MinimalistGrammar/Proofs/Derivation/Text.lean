import MinimalistGrammar.Derivation.Text
import MinimalistGrammar.Proofs.Derivation.Usage

/-!
What the text of a derivation tells. Where labels hold no brackets and blanks, a text can be read back in one way only,
and shows triggers by their notation, leaves and what moves by their labels. If no two leaves with one label move, that
is the whole tree, since each check takes the next features of its leaves.
-/

namespace MinimalistGrammar

theorem append_inj_of_stop {α : Type} {P : α → Prop} {l l' r r' : List α} (hl : ∀ x ∈ l, P x) (hl' : ∀ x ∈ l', P x)
    (hr : ∀ x ∈ r.head?, ¬P x) (hr' : ∀ x ∈ r'.head?, ¬P x) (h : l ++ r = l' ++ r') : l = l' ∧ r = r' := by
  induction l generalizing l' with
  | nil =>
    cases l' with
    | nil => exact ⟨rfl, h⟩
    | cons x l' =>
      rw [List.nil_append] at h
      exact absurd (hl' x (.head _)) (hr x (by rw [h]; rfl))
  | cons x l ih =>
    cases l' with
    | nil =>
      rw [List.nil_append] at h
      exact absurd (hl x (.head _)) (hr' x (by rw [← h]; rfl))
    | cons x' l' =>
      obtain ⟨rfl, htail⟩ := List.cons.inj h
      obtain ⟨rfl, hrest⟩ := ih (fun y hy => hl y (.tail _ hy)) (fun y hy => hl' y (.tail _ hy)) htail
      exact ⟨rfl, hrest⟩

/-- What a tree in brackets shows of it. -/
inductive Bracketing where
  | item (label : String)
  | merge (trigger : String) (head argument : Bracketing)
  | move (trigger : String) (head : Bracketing) (mover : String)

namespace Bracketing

def phrase (trigger : String) (head last : List Char) : List Char :=
  '[' :: (trigger.toList ++ ' ' :: (head ++ ' ' :: (last ++ [']'])))

def chars : Bracketing → List Char
  | item l => l.toList
  | merge t h a => phrase t h.chars a.chars
  | move t h m => phrase t h.chars ('^' :: m.toList)

/-- A label without blanks and brackets. -/
def IsPlain (label : String) : Prop := ∀ c ∈ label.toList, c ≠ ' ' ∧ c ≠ '[' ∧ c ≠ ']'

instance (label : String) : Decidable (IsPlain label) := inferInstanceAs (Decidable (∀ c ∈ label.toList, _))

/-- All labels are plain, triggers hold no blanks, and just the triggers of movements begin with a plus. -/
def IsReadable : Bracketing → Prop
  | item l => IsPlain l
  | merge t h a => (' ' ∉ t.toList ∧ t.toList.head? ≠ some '+') ∧ h.IsReadable ∧ a.IsReadable
  | move t h m => (' ' ∉ t.toList ∧ t.toList.head? = some '+') ∧ h.IsReadable ∧ IsPlain m

/-- What follows a label or phrase inside a text. -/
def Ends (r : List Char) : Prop := ∀ c ∈ r.head?, c = ' ' ∨ c = ']'

variable {b b' : Bracketing} {l l' t t' : String} {h h' x x' r r' : List Char}

theorem ends_nil : Ends [] := fun c hc => by cases hc

theorem ends_blank : Ends (' ' :: r) := fun _ hc => .inl (Option.some.inj hc).symm

theorem ends_bracket : Ends (']' :: r) := fun _ hc => .inr (Option.some.inj hc).symm

theorem label_inj (hl : IsPlain l) (hl' : IsPlain l') (hr : Ends r) (hr' : Ends r')
    (he : l.toList ++ r = l'.toList ++ r') : l = l' ∧ r = r' := by
  have stop : ∀ {r}, Ends r → ∀ c ∈ r.head?, ¬(c ≠ ' ' ∧ c ≠ ']') := by
    intro r hr c hc
    rcases hr c hc with rfl | rfl <;> simp
  obtain ⟨hlabel, hrest⟩ := append_inj_of_stop (fun c hc => ⟨(hl c hc).1, (hl c hc).2.2⟩)
    (fun c hc => ⟨(hl' c hc).1, (hl' c hc).2.2⟩) (stop hr) (stop hr') he
  exact ⟨String.toList_inj.1 hlabel, hrest⟩

theorem label_ne_phrase (hl : IsPlain l) (hr : Ends r) : l.toList ++ r ≠ phrase t h x ++ r' := by
  intro he
  cases hc : l.toList with
  | nil =>
    rw [hc, List.nil_append] at he
    have := hr '[' (by rw [he]; rfl)
    simp at this
  | cons c cs =>
    rw [hc] at he
    exact (hl c (by rw [hc]; exact .head _)).2.1 (List.cons.inj he).1

theorem phrase_inj (ht : ' ' ∉ t.toList) (ht' : ' ' ∉ t'.toList) (he : phrase t h x ++ r = phrase t' h' x' ++ r') :
    t = t' ∧ h ++ ' ' :: (x ++ ']' :: r) = h' ++ ' ' :: (x' ++ ']' :: r') := by
  have apart : ∀ {t : String}, ' ' ∉ t.toList → ∀ c ∈ t.toList, c ≠ ' ' := fun ht c hc heq => ht (heq ▸ hc)
  simp only [phrase, List.cons_append, List.append_assoc, List.nil_append, List.cons.injEq, true_and] at he
  obtain ⟨htrigger, hrest⟩ := append_inj_of_stop (apart ht) (apart ht') (by simp) (by simp) he
  exact ⟨String.toList_inj.1 htrigger, (List.cons.inj hrest).2⟩

/-- A text is read back in one way, whatever follows it. -/
theorem chars_inj (hb : b.IsReadable) (hb' : b'.IsReadable) (hr : Ends r) (hr' : Ends r')
    (he : b.chars ++ r = b'.chars ++ r') : b = b' ∧ r = r' := by
  -- what follows is left free: for the head it is a blank, for the last part of a phrase a bracket
  induction b generalizing b' r r' with
  | item l =>
    cases b' with
    | item l' =>
      obtain ⟨rfl, hrest⟩ := label_inj hb hb' hr hr' he
      exact ⟨rfl, hrest⟩
    | merge t' h' a' => exact absurd he (label_ne_phrase hb hr)
    | move t' h' m' => exact absurd he (label_ne_phrase hb hr)
  | merge t h a ihh iha =>
    obtain ⟨⟨ht, hmark⟩, hh, ha⟩ := hb
    cases b' with
    | item l' => exact absurd he.symm (label_ne_phrase hb' hr')
    | merge t' h' a' =>
      obtain ⟨⟨ht', _⟩, hh', ha'⟩ := hb'
      obtain ⟨rfl, hhead⟩ := phrase_inj ht ht' he
      obtain ⟨rfl, hlast⟩ := ihh hh hh' ends_blank ends_blank hhead
      obtain ⟨rfl, hrest⟩ := iha ha ha' ends_bracket ends_bracket (List.cons.inj hlast).2
      exact ⟨rfl, (List.cons.inj hrest).2⟩
    | move t' h' m' =>
      obtain ⟨⟨ht', hmark'⟩, _⟩ := hb'
      exact absurd ((phrase_inj ht ht' he).1 ▸ hmark') hmark
  | move t h m ih =>
    obtain ⟨⟨ht, hmark⟩, hh, hm⟩ := hb
    cases b' with
    | item l' => exact absurd he.symm (label_ne_phrase hb' hr')
    | merge t' h' a' =>
      obtain ⟨⟨ht', hmark'⟩, _⟩ := hb'
      exact absurd ((phrase_inj ht ht' he).1 ▸ hmark) hmark'
    | move t' h' m' =>
      obtain ⟨⟨ht', _⟩, hh', hm'⟩ := hb'
      obtain ⟨rfl, hhead⟩ := phrase_inj ht ht' he
      obtain ⟨rfl, hlast⟩ := ih hh hh' ends_blank ends_blank hhead
      obtain ⟨rfl, hrest⟩ := label_inj hm hm' ends_bracket ends_bracket (List.cons.inj (List.cons.inj hlast).2).2
      exact ⟨rfl, (List.cons.inj hrest).2⟩

end Bracketing

namespace Tree

/-- How many features of a leaf the checks use up. -/
def spentBy (t : Tree) (l : LeafId) : Nat := t.spent.countP (·.leaf = l)

end Tree

namespace Derivation

variable {d₁ d₂ : Derivation} {t₁ t₂ : Tree} {k n₁ n₂ : Nat}

def bracketing (d : Derivation) : Tree → Bracketing
  | .lexical l => .item (d.label l)
  | .merge _ h a c => .merge (d.compact c.trigger) (d.bracketing h) (d.bracketing a)
  | .move h c => .move (d.compact c.trigger) (d.bracketing h) (d.label c.target.leaf)

theorem toList_bracket (d : Derivation) (t : Tree) : (d.bracket t).toList = (d.bracketing t).chars := by
  induction t with
  | lexical l => rfl
  | merge b h a c ihh iha =>
    simp only [bracket, bracketing, Bracketing.chars, Bracketing.phrase, String.toList_append, ihh, iha]
    simp
  | move h c ih =>
    simp only [bracket, bracketing, Bracketing.chars, Bracketing.phrase, String.toList_append, ih]
    simp

/-- In each phrase of the tree the next feature of the head is checked against the next feature of the argument or, if
something moves, of a leaf inside the head. -/
inductive Licenses (d : Derivation) : Tree → Prop
  | lexical (l : LeafId) : Licenses d (.lexical l)
  | merge {h a : Tree} {f : Feature} : Licenses d h → Licenses d a → d.feature? ⟨h.head, h.index⟩ = some f →
      f.polarity = .selector → Licenses d (.merge f.movesHead h a ⟨⟨h.head, h.index⟩, ⟨a.head, a.index⟩⟩)
  | move {h : Tree} {f g : Feature} {l : LeafId} : Licenses d h → d.feature? ⟨h.head, h.index⟩ = some f →
      f.polarity = .licensor → f.movesHead = false → l ∈ h.leaves → d.feature? ⟨l, h.spentBy l⟩ = some g →
      g.polarity = .licensee → Licenses d (.move h ⟨⟨h.head, h.index⟩, ⟨l, h.spentBy l⟩⟩)

theorem compact_eq {d : Derivation} {r : FeatureRef} {f : Feature} (h : d.feature? r = some f) :
    d.compact r = f.compact := by
  rw [compact, h]
  rfl

theorem Licenses.isReadable {d : Derivation} {t : Tree} (h : d.Licenses t)
    (hlabel : ∀ l, Bracketing.IsPlain (d.label l)) (hname : ∀ r f, d.feature? r = some f → ' ' ∉ f.name.toList) :
    (d.bracketing t).IsReadable := by
  induction h with
  | lexical l => exact hlabel l
  | @merge h a f _ _ hf hsel ihh iha =>
    refine ⟨?_, ihh, iha⟩
    rw [compact_eq hf, Feature.compact, hsel]
    have := hname _ _ hf
    cases f.movesHead <;> simp [Polarity.mark, this]
  | @move h f g l _ hf hlic hmoves _ _ _ ih =>
    refine ⟨?_, ih, hlabel l⟩
    rw [compact_eq hf, Feature.compact, hlic, hmoves]
    have := hname _ _ hf
    simp [Polarity.mark, this]

theorem toString_eq_iff_bracketing (hn₁ : d₁.nodes ≠ []) (hn₂ : d₂.nodes ≠ [])
    (h₁ : (d₁.bracketing d₁.tree).IsReadable) (h₂ : (d₂.bracketing d₂.tree).IsReadable) :
    toString d₁ = toString d₂ ↔ d₁.bracketing d₁.tree = d₂.bracketing d₂.tree := by
  have chars : ∀ {d : Derivation}, d.nodes ≠ [] → (toString d).toList = (d.bracketing d.tree).chars := by
    intro d hn
    change (if d.nodes.isEmpty then "[]" else d.bracket d.tree).toList = _
    rw [if_neg (by simpa using hn), toList_bracket]
  rw [← String.toList_inj, chars hn₁, chars hn₂]
  constructor
  · intro h
    exact (Bracketing.chars_inj h₁ h₂ Bracketing.ends_nil Bracketing.ends_nil (congrArg (· ++ []) h)).1
  · exact congrArg Bracketing.chars

/-- The tree follows from what its text shows, unless leaves move that have one label. -/
theorem Licenses.eq_of_bracketing_eq (h₁ : d₁.Licenses t₁) (h₂ : d₂.Licenses t₂)
    (hl₁ : t₁.leaves = List.range' k n₁) (hl₂ : t₂.leaves = List.range' k n₂)
    (hfeature : ∀ l i, l ∈ t₁.leaves → l ∈ t₂.leaves → d₁.label l = d₂.label l →
      d₁.feature? ⟨l, i⟩ = d₂.feature? ⟨l, i⟩)
    (hmover : ∀ l l' i i' g g', d₁.feature? ⟨l, i⟩ = some g → d₁.feature? ⟨l', i'⟩ = some g' →
      g.polarity = .licensee → g'.polarity = .licensee → d₁.label l = d₁.label l' → l = l')
    (he : d₁.bracketing t₁ = d₂.bracketing t₂) : t₁ = t₂ ∧ ∀ l ∈ t₁.leaves, d₁.label l = d₂.label l := by
  -- by the first derivation; both trees take their leaves in order from one interval, so they part it at the same place
  induction h₁ generalizing t₂ k n₁ n₂ with
  | lexical l =>
    cases h₂ with
    | lexical l' =>
      have hk : ∀ {l n}, [l] = List.range' k n → l = k := by
        intro l n h
        cases n with
        | zero => cases h
        | succ n => exact (List.cons.inj h).1
      obtain rfl := (hk hl₁).trans (hk hl₂).symm
      exact ⟨rfl, fun x hx => List.mem_singleton.1 hx ▸ Bracketing.item.inj he⟩
    | merge _ _ _ _ => cases he
    | move _ _ _ _ _ _ _ => cases he
  | @merge h a f hh ha hf hsel ihh iha =>
    cases h₂ with
    | lexical _ => cases he
    | @merge h' a' f' hh' ha' hf' hsel' =>
      obtain ⟨_, heh, hea⟩ := Bracketing.merge.inj he
      obtain ⟨m, _, hm, hr⟩ := List.range'_eq_append_iff.1 hl₁.symm
      obtain ⟨m', _, hm', hr'⟩ := List.range'_eq_append_iff.1 hl₂.symm
      obtain ⟨rfl, hlabel⟩ := ihh hh' hm hm' (fun l i hl hl' =>
        hfeature l i (List.mem_append_left _ hl) (List.mem_append_left _ hl')) heh
      obtain rfl : m = m' := by simpa using congrArg List.length (hm.symm.trans hm')
      obtain ⟨rfl, hlabel'⟩ := iha ha' hr hr' (fun l i hl hl' =>
        hfeature l i (List.mem_append_right _ hl) (List.mem_append_right _ hl')) hea
      have hhead := h.head_mem_leaves
      have hff := hfeature h.head h.index (List.mem_append_left _ hhead) (List.mem_append_left _ hhead) (hlabel _ hhead)
      rw [hf, hf', Option.some.injEq] at hff
      exact ⟨by rw [hff], fun l hl => (List.mem_append.1 hl).elim (hlabel l) (hlabel' l)⟩
    | move _ _ _ _ _ _ _ => cases he
  | @move h f g l hh hf hlic hmoves hl hg hgl ih =>
    cases h₂ with
    | lexical _ => cases he
    | merge _ _ _ _ => cases he
    | @move h' f' g' l' hh' hf' hlic' hmoves' hl' hg' hgl' =>
      obtain ⟨_, heh, hel⟩ := Bracketing.move.inj he
      obtain ⟨rfl, hlabel⟩ := ih hh' hl₁ hl₂ hfeature heh
      have hmove' := hfeature l' (h.spentBy l') hl' hl' (hlabel l' hl')
      obtain rfl := hmover l l' _ _ g g' hg (hmove'.trans hg') hgl hgl' (hel.trans (hlabel l' hl').symm)
      exact ⟨rfl, hlabel⟩

end Derivation

end MinimalistGrammar
