import MinimalistGrammar.Lexicon.Format
import MinimalistGrammar.Proofs.Fallible
import Mathlib.Tactic.Common

/-!
Which features compact notation can write. Those that are read have a name and attract heads only as selectors; written in
compact notation they are read back if the name holds no blank and, for a category, does not begin with a mark. The notation
reads no others, while an object can give any name.
-/

namespace MinimalistGrammar

namespace Feature

variable {f g : Feature} {p : Polarity} {m : Bool} {name cs : List Char} {s text : String}

/-- The characters that stand for something before a name. -/
def marks : List Char := ['<', '=', '~', '+', '-']

/-- There is a name, and only selectors attract heads. -/
structure IsFormed (f : Feature) : Prop where
  name_ne : f.name.toList ≠ []
  selector_of_movesHead : f.movesHead = true → f.polarity = .selector

def HasNoBlanks (f : Feature) : Prop := ∀ c ∈ f.name.toList, Text.isBlank c = false

instance (f : Feature) : Decidable f.HasNoBlanks := List.decidableBAll (fun c => Text.isBlank c = false) f.name.toList

/-- The name of a category, which has no mark of its own, does not begin with one. -/
def IsUnmarked (f : Feature) : Prop := f.polarity = .category → ∀ c ∈ f.name.toList.head?, c ∉ marks

theorem isUnmarked_of_ne_category (h : f.polarity ≠ .category) : f.IsUnmarked := fun hp => absurd hp h

section Compact

theorem toList_compact (f : Feature) : f.compact.toList =
    (if f.movesHead then ['<'] else []) ++ f.polarity.mark.toList ++ f.name.toList := by
  rw [compact, String.toList_append, String.toList_append]
  split <;> rfl

theorem named?_eq_some_iff : named? p m name = some f ↔
    (name ≠ [] ∧ ∀ c ∈ name, Text.isBlank c = false) ∧ f = ⟨String.ofList name, p, m⟩ := by
  simp only [named?, Bool.or_eq_true, List.isEmpty_iff, List.any_eq_true, Option.ite_none_left_eq_some,
    Option.some.injEq, not_or, not_exists, not_and, Bool.not_eq_true, eq_comm (a := f)]

theorem of_ofChars?_eq_some (h : ofChars? cs = some f) :
    cs = f.compact.toList ∧ f.IsFormed ∧ f.HasNoBlanks ∧ f.IsUnmarked := by
  have marked : ∀ {p m name}, named? p m name = some f → (m = true → p = .selector) → p ≠ .category →
      f.compact.toList = (if m then ['<'] else []) ++ p.mark.toList ++ name ∧ f.IsFormed ∧ f.HasNoBlanks ∧
        f.IsUnmarked := by
    intro p m name h hm hp
    obtain ⟨⟨hne, hblank⟩, rfl⟩ := named?_eq_some_iff.1 h
    refine ⟨by simp [toList_compact], ⟨by simpa using hne, hm⟩, by simpa [HasNoBlanks] using hblank, ?_⟩
    exact isUnmarked_of_ne_category hp
  unfold ofChars? at h
  split at h
  · exact (marked h (fun _ => rfl) nofun).imp_left Eq.symm
  · cases h
  · exact (marked h nofun nofun).imp_left Eq.symm
  · exact (marked h nofun nofun).imp_left Eq.symm
  · exact (marked h nofun nofun).imp_left Eq.symm
  · exact (marked h nofun nofun).imp_left Eq.symm
  · rename_i _ hless hselector hselectee hlicensor hlicensee
    obtain ⟨⟨hne, hblank⟩, rfl⟩ := named?_eq_some_iff.1 h
    refine ⟨by simp [toList_compact, Polarity.mark], ⟨by simpa using hne, nofun⟩, by simpa [HasNoBlanks] using hblank, ?_⟩
    -- a text that begins with a mark would have been read by one of the cases before
    intro _ c hc hmark
    obtain ⟨rest, rfl⟩ := List.head?_eq_some_iff.1 (show cs.head? = some c by simpa using hc)
    simp only [marks, List.mem_cons, List.not_mem_nil, or_false] at hmark
    rcases hmark with rfl | rfl | rfl | rfl | rfl
    · exact hless rest rfl
    · exact hselector rest rfl
    · exact hselectee rest rfl
    · exact hlicensor rest rfl
    · exact hlicensee rest rfl

/-- The polarity and the head attraction that a text tells, and the rest of it. -/
def parts : List Char → Polarity × Bool × List Char
  | '<' :: '=' :: name => (.selector, true, name)
  | '=' :: name => (.selector, false, name)
  | '~' :: name => (.selectee, false, name)
  | '+' :: name => (.licensor, false, name)
  | '-' :: name => (.licensee, false, name)
  | name => (.category, false, name)

theorem parts_and_ofChars?_compact (hf : f.IsFormed) (hu : f.IsUnmarked) :
    parts f.compact.toList = (f.polarity, f.movesHead, f.name.toList) ∧
      ofChars? f.compact.toList = named? f.polarity f.movesHead f.name.toList := by
  rw [toList_compact]
  cases hm : f.movesHead with
  | true =>
    rw [hf.selector_of_movesHead hm]
    exact ⟨rfl, rfl⟩
  | false =>
    cases hp : f.polarity with
    | selector => exact ⟨rfl, rfl⟩
    | selectee => exact ⟨rfl, rfl⟩
    | licensor => exact ⟨rfl, rfl⟩
    | licensee => exact ⟨rfl, rfl⟩
    | category =>
      obtain ⟨c, rest, hname⟩ := List.exists_cons_of_ne_nil hf.name_ne
      have hc : c ∉ marks := hu hp c (by simp [hname])
      simp only [marks, List.mem_cons, List.not_mem_nil, or_false, not_or] at hc
      simp [hname, Polarity.mark, parts, ofChars?, hc]

theorem compact_inj (hf : f.IsFormed) (hfu : f.IsUnmarked) (hg : g.IsFormed) (hgu : g.IsUnmarked) :
    f.compact = g.compact ↔ f = g := by
  refine ⟨fun h => ?_, fun h => h ▸ rfl⟩
  have hparts := (parts_and_ofChars?_compact hf hfu).1
  rw [h, (parts_and_ofChars?_compact hg hgu).1, Prod.mk.injEq, Prod.mk.injEq, String.toList_inj] at hparts
  obtain ⟨hp, hm, hname⟩ := hparts
  cases f
  cases g
  simp_all

theorem ofCompact?_eq_some_iff : ofCompact? s = some f ↔
    s = f.compact ∧ f.IsFormed ∧ f.HasNoBlanks ∧ f.IsUnmarked := by
  rw [ofCompact?, ← String.toList_inj]
  refine ⟨of_ofChars?_eq_some, ?_⟩
  rintro ⟨hs, hf, hblank, hu⟩
  rw [hs, (parts_and_ofChars?_compact hf hu).2, named?_eq_some_iff]
  exact ⟨⟨hf.name_ne, hblank⟩, by simp⟩

theorem ofCompact_eq_ok_iff : ofCompact s = .ok f ↔ ofCompact? s = some f := by
  rw [ofCompact]
  split <;> simp_all

/-- A text that can stand for a name in compact notation. -/
def IsName (s : String) : Prop := s ≠ "" ∧ ∀ c ∈ s.toList, Text.isBlank c = false

theorem isName_name (hf : f.IsFormed) (hblank : f.HasNoBlanks) : IsName f.name :=
  ⟨fun h => hf.name_ne (by rw [h]; rfl), hblank⟩

theorem isFormed_of_isName {name : String} (h : IsName name) (hm : m = true → p = .selector) :
    IsFormed ⟨name, p, m⟩ :=
  ⟨fun he => h.1 (String.toList_eq_nil_iff.1 he), hm⟩

/-- The marks that stand before a name. -/
def prefixes : List String := ["<=", "=", "~", "+", "-"]

theorem exists_mark_of_compact (hf : f.IsFormed) (hp : f.polarity ≠ .category) :
    ∃ mark ∈ prefixes, f.compact = mark ++ f.name := by
  cases hm : f.movesHead with
  | true =>
    refine ⟨"<=", .head _, ?_⟩
    rw [compact, if_pos hm, hf.selector_of_movesHead hm]
    rfl
  | false =>
    refine ⟨f.polarity.mark, ?_, ?_⟩
    · cases hpol : f.polarity <;> simp_all [prefixes, Polarity.mark]
    · simp [compact, hm]

theorem exists_compact_of_mark {mark name : String} (hmark : mark ∈ prefixes) (hname : IsName name) :
    ∃ f : Feature, mark ++ name = f.compact ∧ f.IsFormed ∧ f.HasNoBlanks ∧ f.IsUnmarked := by
  have of {p : Polarity} {m : Bool} (hm : m = true → p = .selector) (hp : p ≠ .category)
      (he : mark = (if m then "<" else "") ++ p.mark) :
      ∃ f : Feature, mark ++ name = f.compact ∧ f.IsFormed ∧ f.HasNoBlanks ∧ f.IsUnmarked :=
    ⟨⟨name, p, m⟩, by rw [he, compact], isFormed_of_isName hname hm, hname.2, isUnmarked_of_ne_category hp⟩
  simp only [prefixes, List.mem_cons, List.not_mem_nil, or_false] at hmark
  rcases hmark with rfl | rfl | rfl | rfl | rfl
  · exact of (p := .selector) (m := true) (fun _ => rfl) nofun rfl
  · exact of (p := .selector) (m := false) nofun nofun rfl
  · exact of (p := .selectee) (m := false) nofun nofun rfl
  · exact of (p := .licensor) (m := false) nofun nofun rfl
  · exact of (p := .licensee) (m := false) nofun nofun rfl

/-- A text is a feature in compact notation just if it is a name after one of the marks, or a name that begins with none of
their characters. The feature is written as the text that it was read from, so that no other text gives it, and a text that
is no feature is named by the error. -/
theorem exists_ofCompact_iff_and_compact_eq (s : String) :
    ((∃ f, ofCompact s = .ok f) ↔ (∃ mark ∈ prefixes, ∃ name, IsName name ∧ s = mark ++ name) ∨
        IsName s ∧ ∀ c ∈ s.toList.head?, c ∉ marks) ∧
      (∀ f, ofCompact s = .ok f → f.compact = s ∧ ∀ t, ofCompact t = .ok f → t = s) ∧
      ∀ e, ofCompact s = .error e → e = .invalidFeature s := by
  refine ⟨⟨?_, ?_⟩, ?_, ?_⟩
  · rintro ⟨f, h⟩
    obtain ⟨rfl, hf, hblank, hu⟩ := ofCompact?_eq_some_iff.1 (ofCompact_eq_ok_iff.1 h)
    by_cases hp : f.polarity = .category
    · have hm : f.movesHead = false := by
        by_contra hm
        have := hf.selector_of_movesHead (by simpa using hm)
        rw [hp] at this
        cases this
      have he : f.compact = f.name := by simp [compact, hm, hp, Polarity.mark]
      rw [he]
      exact .inr ⟨isName_name hf hblank, hu hp⟩
    · obtain ⟨mark, hmark, he⟩ := exists_mark_of_compact hf hp
      exact .inl ⟨mark, hmark, f.name, isName_name hf hblank, he⟩
  · simp only [ofCompact_eq_ok_iff, ofCompact?_eq_some_iff]
    rintro (⟨mark, hmark, name, hname, rfl⟩ | ⟨hname, hhead⟩)
    · exact exists_compact_of_mark hmark hname
    · refine ⟨⟨s, .category, false⟩, ?_, isFormed_of_isName hname nofun, hname.2, fun _ => hhead⟩
      simp [compact, Polarity.mark]
  · intro f h
    have hs := (ofCompact?_eq_some_iff.1 (ofCompact_eq_ok_iff.1 h)).1
    exact ⟨hs.symm, fun t ht => (ofCompact?_eq_some_iff.1 (ofCompact_eq_ok_iff.1 ht)).1.trans hs.symm⟩
  · intro e h
    rw [ofCompact] at h
    split at h <;> cases h
    rfl

end Compact

section Json

theorem ofParts?_eq_some_iff {name : String} : ofParts? name p m = some f ↔ f = ⟨name, p, m⟩ ∧ f.IsFormed := by
  rw [ofParts?, Option.ite_none_left_eq_some, Option.some.injEq, Bool.or_eq_true, not_or, String.isEmpty_iff,
    ← String.toList_eq_nil_iff, Bool.and_eq_true, bne_iff_ne, not_and, not_not]
  constructor
  · rintro ⟨⟨hne, hm⟩, rfl⟩
    exact ⟨rfl, hne, hm⟩
  · rintro ⟨rfl, hf⟩
    exact ⟨⟨hf.name_ne, hf.selector_of_movesHead⟩, rfl⟩

theorem isFormed_of_ofJson? {v : Json} (h : ofJson? v = some f) : f.IsFormed := by
  cases v with
  | string s =>
    obtain ⟨s, _, h⟩ := Option.bind_eq_some_iff.1 h
    exact (ofCompact?_eq_some_iff.1 h).2.1
  | object members =>
    simp only [ofJson?, bind, Option.bind_eq_some_iff] at h
    obtain ⟨members, _, _, _, name, _, _, _, p, _, _, _, m, _, h⟩ := h
    exact (ofParts?_eq_some_iff.1 h).2
  | null => cases h
  | bool => cases h
  | number => cases h
  | array => cases h

theorem ofJson?_toJson (hf : f.IsFormed) : ofJson? f.toJson = some f := by
  have hp : Polarity.ofJson? f.polarity.toJson = some f.polarity := by cases f.polarity <;> rfl
  have hparts : ofParts? f.name f.polarity f.movesHead = some f := ofParts?_eq_some_iff.2 ⟨rfl, hf⟩
  cases hm : f.movesHead <;> rw [hm] at hparts <;>
    simpa [toJson, hm, Json.mkObject, ofJson?, Json.members?, Json.member?, Json.string?, Json.bool?, Json.optional?,
      Json.ofString, Json.ofBool, hp] using hparts

theorem ofText_eq_ok_iff : ofText text = .ok f ↔ ∃ v, Json.parseSound? text = some v ∧ ofJson? v = some f := by
  rw [ofText, ← Option.bind_eq_some_iff]
  split
  · rename_i g hg
    rw [Option.bind_eq_bind] at hg
    rw [hg, Except.ok.injEq, Option.some.injEq]
  · rename_i hnone
    rw [Option.bind_eq_bind] at hnone
    rw [hnone]
    exact ⟨fun h => (by cases h), fun h => (by cases h)⟩

theorem isFormed_of_ofText (h : ofText text = .ok f) : f.IsFormed := by
  obtain ⟨v, _, hv⟩ := ofText_eq_ok_iff.1 h
  exact isFormed_of_ofJson? hv

/-- A feature that a text gives, written in compact notation, is read back just if its name holds no blank and, for a
category, begins with no mark. This holds of all that are given in compact notation, and these features are all that the
notation gives, while an object gives any. Written alike, unmarked features are equal. -/
theorem compact_isRead_iff_of_ofText (h : ofText text = .ok f) :
    (ofCompact? f.compact = some f ↔ f.HasNoBlanks ∧ f.IsUnmarked) ∧
      (∀ s, Json.parse? text = some (.string s) → ofCompact? f.compact = some f) ∧
      ((∃ s, ofJson? (.ofString s) = some f) ↔ f.HasNoBlanks ∧ f.IsUnmarked) ∧
      (∃ members, ofJson? (.object members) = some f) ∧
      ∀ text' g, ofText text' = .ok g → f.IsUnmarked → g.IsUnmarked → (f.compact = g.compact ↔ f = g) := by
  have hf := isFormed_of_ofText h
  have hwritten : ofCompact? f.compact = some f ↔ f.HasNoBlanks ∧ f.IsUnmarked := by
    rw [ofCompact?_eq_some_iff]
    exact ⟨fun h => h.2.2, fun h => ⟨rfl, hf, h⟩⟩
  have hread : ∀ s, ofCompact? s = some f → f.HasNoBlanks ∧ f.IsUnmarked := fun s hs =>
    (ofCompact?_eq_some_iff.1 hs).2.2
  refine ⟨hwritten, fun s hs => hwritten.2 ?_, ⟨fun ⟨s, hs⟩ => hread s hs, fun h => ⟨_, hwritten.2 h⟩⟩, ?_, ?_⟩
  · obtain ⟨v, hv, hvf⟩ := ofText_eq_ok_iff.1 h
    obtain rfl : Json.string s = v := Option.some.inj (hs.symm.trans (Option.filter_eq_some_iff.1 hv).1)
    obtain ⟨s, _, hs⟩ := Option.bind_eq_some_iff.1 hvf
    exact hread s hs
  · exact ⟨_, ofJson?_toJson hf⟩
  · exact fun text' g hg hfu hgu => compact_inj hf hfu (isFormed_of_ofText hg) hgu

/-- A head-attracting selector is read back, and a licensor whose name holds a blank is not. -/
theorem compact_isRead_attractingSelector : ∃ f g, ofText "\"<=V\"" = .ok f ∧ ofCompact? f.compact = some f ∧
    ofText "\x7b\"name\":\"wh q\",\"polarity\":\"licensor\"\x7d" = .ok g ∧ ofCompact? g.compact ≠ some g := by
  have hselector : (ofText "\"<=V\"").toOption.any (· = headAttracting "V") = true := by decide +kernel
  have hblank : (ofText "\x7b\"name\":\"wh q\",\"polarity\":\"licensor\"\x7d").toOption.any
      (· = ⟨"wh q", .licensor, false⟩) = true := by decide +kernel
  obtain ⟨f, hf, hfe⟩ := Fallible.exists_of_any hselector
  obtain ⟨g, hg, hge⟩ := Fallible.exists_of_any hblank
  obtain ⟨hwritten, _⟩ := compact_isRead_iff_of_ofText hf
  obtain ⟨hwritten', _⟩ := compact_isRead_iff_of_ofText hg
  refine ⟨f, g, hf, hwritten.2 ?_, hg, fun h => ?_⟩
  · rw [of_decide_eq_true hfe]
    exact ⟨by decide, isUnmarked_of_ne_category nofun⟩
  · have hblanks := (hwritten'.1 h).1
    rw [of_decide_eq_true hge] at hblanks
    exact absurd hblanks (by decide)

/-- An object gives the category that is written like a selector, and the selector is what is read back. -/
theorem exists_compact_eq_of_ne : ∃ text text' f g, ofText text = .ok f ∧ ofText text' = .ok g ∧
    f.compact = g.compact ∧ f ≠ g ∧ ofCompact? f.compact ≠ some f := by
  have hcategory : (ofText "\x7b\"name\":\"=D\",\"polarity\":\"category\"\x7d").toOption.any
      (· = ⟨"=D", .category, false⟩) = true := by decide +kernel
  have hselector : (ofText "\"=D\"").toOption.any (· = ⟨"D", .selector, false⟩) = true := by decide +kernel
  obtain ⟨f, hf, hfe⟩ := Fallible.exists_of_any hcategory
  obtain ⟨g, hg, hge⟩ := Fallible.exists_of_any hselector
  obtain rfl := of_decide_eq_true hfe
  obtain rfl := of_decide_eq_true hge
  exact ⟨_, _, _, _, hf, hg, by decide, by decide, by decide⟩

end Json

end Feature

end MinimalistGrammar
