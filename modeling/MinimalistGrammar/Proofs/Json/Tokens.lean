import MinimalistGrammar.Json.Reader
import MinimalistGrammar.Proofs.Json.Characters

/-!
The tokens of written values. Names, numbers and strings are single tokens. Names and numbers end only at the
character after them, so a text is cut where a character is a token of its own.
-/

namespace MinimalistGrammar.Json

variable {cs cs' : List Char} {ts ts' : List Token} {c : Char} {t : Token} {l l₀ : Lexer} {n : Nat}

namespace Lexer

def emits (ts : List Token) (l : Lexer) : Lexer := ts.foldl (fun l t => l.emit t) l

theorem emits_append : l.emits (ts ++ ts') = (l.emits ts).emits ts' := by simp [emits]

theorem tokens_emits : (l.emits ts).tokens.toList = l.tokens.toList ++ ts := by
  induction ts generalizing l with
  | nil => simp [emits]
  | cons t ts ih =>
    have h : l.emits (t :: ts) = (l.emit t).emits ts := rfl
    rw [h, ih, emit, Array.toList_push, List.append_assoc, List.singleton_append]

/-- A character that is a token of its own: it is part of no name and no number. -/
structure Stands (c : Char) (t : Token) : Prop where
  start : ∀ l : Lexer, l.start c = some (l.emit t)
  isLetter : ('a' ≤ c && c ≤ 'z') = false
  isNumeralCharacter : isNumeralCharacter c = false

theorem step_of_stands (h : Stands c t) (hl : l.settle = some l₀) : l.step c = some (l₀.emit t) := by
  obtain ⟨mode, tokens⟩ := l
  cases mode with
  | between => cases hl; exact h.start _
  | word letters => simp only [step, h.isLetter, hl, Bool.false_eq_true, if_false]; exact h.start _
  | numeral characters => simp only [step, h.isNumeralCharacter, hl, Bool.false_eq_true, if_false]; exact h.start _
  | string draft => cases hl
  | escape draft => cases hl
  | unit draft digits value => cases hl

end Lexer

open Lexer

/-- Between tokens, the characters are lexed as the tokens. -/
def Lexes (cs : List Char) (ts : List Token) : Prop :=
  ∀ l : Lexer, l.mode = .between → ∃ l', cs.foldlM Lexer.step l = some l' ∧ l'.settle = some (l.emits ts)

/-- After any token, the characters end it and are lexed as further tokens. -/
def Follows (cs : List Char) (ts : List Token) : Prop :=
  ∀ l l₀ : Lexer, l.settle = some l₀ → ∃ l', cs.foldlM Lexer.step l = some l' ∧ l'.settle = some (l₀.emits ts)

section Texts

theorem Follows.nil : Follows [] [] := fun l _ hl => ⟨l, rfl, hl⟩

theorem Follows.lexes (h : Follows cs ts) : Lexes cs ts := by
  rintro ⟨mode, tokens⟩ rfl
  exact h _ _ rfl

theorem Lexes.append (h : Lexes cs ts) (h' : Follows cs' ts') : Lexes (cs ++ cs') (ts ++ ts') := by
  intro l hl
  obtain ⟨l', hcs, hl'⟩ := h l hl
  obtain ⟨l'', hcs', hl''⟩ := h' l' _ hl'
  exact ⟨l'', by rw [List.foldlM_append, hcs]; exact hcs', by rw [hl'', emits_append]⟩

theorem Follows.append (h : Follows cs ts) (h' : Follows cs' ts') : Follows (cs ++ cs') (ts ++ ts') := by
  intro l l₀ hl
  obtain ⟨l', hcs, hl'⟩ := h l l₀ hl
  obtain ⟨l'', hcs', hl''⟩ := h' l' _ hl'
  exact ⟨l'', by rw [List.foldlM_append, hcs]; exact hcs', by rw [hl'', emits_append]⟩

theorem Follows.cons (h : Stands c t) (h' : Lexes cs ts) : Follows (c :: cs) (t :: ts) := by
  intro l l₀ hl
  obtain ⟨l', hcs, hl'⟩ := h' (l₀.emit t) rfl
  exact ⟨l', by rw [List.foldlM_cons, step_of_stands h hl]; exact hcs, hl'⟩

theorem Follows.flatMap {α : Type} {items : List α} {f : α → List Char} {g : α → List Token}
    (h : ∀ a ∈ items, Follows (f a) (g a)) : Follows (items.flatMap f) (items.flatMap g) := by
  induction items with
  | nil => exact .nil
  | cons a items ih => exact (h a (by simp)).append (ih fun b hb => h b (by simp [hb]))

theorem tokens?_of_lexes {s : String} (h : Lexes s.toList ts) : tokens? s = some ts := by
  obtain ⟨l, hcs, hl⟩ := h {} rfl
  rw [tokens?, hcs]
  simp [hl, tokens_emits]

theorem stands_openArray : Stands '[' .openArray := ⟨fun _ => rfl, by decide, by decide⟩

theorem stands_closeArray : Stands ']' .closeArray := ⟨fun _ => rfl, by decide, by decide⟩

theorem stands_openObject : Stands '{' .openObject := ⟨fun _ => rfl, by decide, by decide⟩

theorem stands_closeObject : Stands '}' .closeObject := ⟨fun _ => rfl, by decide, by decide⟩

theorem stands_comma : Stands ',' .comma := ⟨fun _ => rfl, by decide, by decide⟩

theorem stands_colon : Stands ':' .colon := ⟨fun _ => rfl, by decide, by decide⟩

end Texts

section Names

theorem lexes_null : Lexes null.write.toList [.scalar null] := by
  rintro ⟨mode, tokens⟩ rfl
  exact ⟨_, rfl, rfl⟩

theorem lexes_bool (b : Bool) : Lexes (bool b).write.toList [.scalar (bool b)] := by
  rintro ⟨mode, tokens⟩ rfl
  cases b <;> exact ⟨_, rfl, rfl⟩

end Names

section Numbers

theorem digit?_of_isDigit (h : c.isDigit = true) : digit? c = some (c.toNat - '0'.toNat) := by
  have hc : '0' ≤ c ∧ c ≤ '9' := Char.isDigit_iff_toNat.1 h
  simp [digit?, hc]

theorem start_of_isDigit (h : c.isDigit = true) : l.start c = some { l with mode := .numeral [c] } := by
  unfold Lexer.start
  split <;> first | exact absurd h (by decide) | simp [digit?_of_isDigit h]

theorem foldlM_step_numeral {tokens : Array Token} (h : ∀ c ∈ cs, c.isDigit = true) :
    cs.foldlM Lexer.step ⟨.numeral cs', tokens⟩ = some ⟨.numeral (cs.reverse ++ cs'), tokens⟩ := by
  induction cs generalizing cs' with
  | nil => rfl
  | cons c cs ih =>
    have hc : isNumeralCharacter c = true := by simp [isNumeralCharacter, digit?_of_isDigit (h c (by simp))]
    simp only [List.foldlM_cons, Lexer.step, hc, if_true, Option.bind_eq_bind, Option.bind_some, List.reverse_cons,
      List.append_assoc, List.singleton_append]
    exact ih fun d hd => h d (by simp [hd])

theorem splitDigits_of_isDigit (h : ∀ c ∈ cs, c.isDigit = true) :
    splitDigits cs = (cs.map fun c => c.toNat - '0'.toNat, []) := by
  induction cs with
  | nil => rfl
  | cons c cs ih =>
    have hc := digit?_of_isDigit (h c (.head _))
    have hsome : (digit? c).isSome = true := by rw [hc, Option.isSome_some]
    obtain ⟨hwhole, hrest⟩ := Prod.mk.inj (ih fun d hd => h d (.tail _ hd))
    rw [splitDigits, List.takeWhile_cons, List.dropWhile_cons, hsome, if_pos rfl, if_pos rfl, List.filterMap_cons_some hc,
      hwhole, hrest, List.map_cons]

theorem head?_toDigits_ne (h : 0 < n) : (Nat.toDigits 10 n).head? ≠ some '0' := by
  induction n using Nat.strongRecOn with
  | ind n ih =>
    rcases Nat.lt_or_ge n 10 with hn | hn
    · have hdigit : ∀ n < 10, 0 < n → ([Nat.digitChar n].head? ≠ some '0') := by decide
      rw [Nat.toDigits_of_lt_base hn]
      exact hdigit n hn h
    · obtain ⟨c, cs, hcs⟩ := List.exists_cons_of_ne_nil (Nat.toDigits_ne_nil : Nat.toDigits 10 (n / 10) ≠ [])
      have hhead := ih (n / 10) (by omega) (by omega)
      rw [hcs] at hhead
      rw [Nat.toDigits_of_base_le (by decide) hn, hcs]
      exact hhead

theorem number?_of_isDigit (h : ∀ c ∈ cs, c.isDigit = true) (hne : cs ≠ []) (hz : cs.head? = some '0' → cs = ['0']) :
    number? cs = some { whole := cs.map fun c => c.toNat - '0'.toNat } := by
  have hsplit := splitDigits_of_isDigit h
  unfold number?
  split
  rename_i x negative cs' heq
  split at heq
  · exact absurd (h '-' (by simp)) (by decide)
  · obtain ⟨rfl, rfl⟩ := Prod.mk.inj heq
    simp only [hsplit]
    split
    · rename_i heq
      exact absurd (List.map_eq_nil_iff.1 (Prod.mk.inj heq).1) hne
    · -- a zero and another digit
      rename_i heq
      obtain ⟨c, rest, rfl, hc, hrest⟩ := List.map_eq_cons_iff.1 (Prod.mk.inj heq).1
      obtain ⟨d, rest, rfl, -, -⟩ := List.map_eq_cons_iff.1 hrest
      have hzero : Nat.digitChar 0 = c := hc ▸ digitChar_toNat_sub (h c (by simp))
      exact absurd (hz (by rw [← hzero]; rfl)) (by simp)
    · rename_i heq
      cases (Prod.mk.inj heq).2
    · rename_i heq
      obtain ⟨rfl, rfl⟩ := Prod.mk.inj heq
      rfl

theorem number?_toDigits (n : Nat) : number? (Nat.toDigits 10 n) = some { whole := decimalDigits n } := by
  refine number?_of_isDigit (fun c hc => Nat.isDigit_of_mem_toDigits (by decide) (by decide) hc) Nat.toDigits_ne_nil
    fun hz => ?_
  rcases Nat.eq_zero_or_pos n with rfl | hn
  · rfl
  · exact absurd hz (head?_toDigits_ne hn)

theorem lexes_ofNat (n : Nat) : Lexes (ofNat n).write.toList [.scalar (ofNat n)] := by
  rintro ⟨mode, tokens⟩ rfl
  have hdigits : ∀ c ∈ Nat.toDigits 10 n, c.isDigit = true :=
    fun c hc => Nat.isDigit_of_mem_toDigits (by decide) (by decide) hc
  have hnumber := number?_toDigits n
  rw [toList_write_ofNat]
  cases hcs : Nat.toDigits 10 n with
  | nil => exact absurd hcs Nat.toDigits_ne_nil
  | cons c cs =>
    rw [hcs] at hdigits hnumber
    refine ⟨⟨.numeral (cs.reverse ++ [c]), tokens⟩, ?_, ?_⟩
    · simp only [List.foldlM_cons, Lexer.step, start_of_isDigit (hdigits c (by simp)), Option.bind_eq_bind, Option.bind_some]
      exact foldlM_step_numeral fun d hd => hdigits d (by simp [hd])
    · simp [Lexer.settle, hnumber, ofNat, emits, emit]

end Numbers

section Strings

theorem hexDigit?_hexDigit : ∀ n < 16, hexDigit? (hexDigit n) = some n := by decide

theorem escaped?_of_escapeLetter? {e : Char} (h : escapeLetter? c = some e) : e ≠ 'u' ∧ escaped? e = some c := by
  unfold escapeLetter? at h
  split at h <;> first | (cases h; decide) | cases h

theorem foldlM_step_escape {characters : List Char} {tokens : Array Token} :
    (escape c).foldlM Lexer.step ⟨.string { characters }, tokens⟩ =
      some ⟨.string { characters := c :: characters }, tokens⟩ := by
  unfold escape
  split
  · rename_i e he
    obtain ⟨hu, hc⟩ := escaped?_of_escapeLetter? he
    simp [Lexer.step, hu, hc, StringDraft.push]
  · rename_i he
    split
    · rename_i hlt
      have hhigh := hexDigit?_hexDigit (c.toNat / 16) (by omega)
      have hlow := hexDigit?_hexDigit (c.toNat % 16) (by omega)
      have hzero : hexDigit? '0' = some 0 := rfl
      have hvalue : 16 * (c.toNat / 16) + c.toNat % 16 = c.toNat := Nat.div_add_mod ..
      have hhalf : ¬ (0xD800 ≤ c.toNat ∧ c.toNat < 0xDC00) := by omega
      have hlater : ¬ (0xDC00 ≤ c.toNat ∧ c.toNat < 0xE000) := by omega
      simp [Lexer.step, hhigh, hlow, hzero, hvalue, hhalf, hlater, StringDraft.pushUnit, StringDraft.push]
    · rename_i hge
      have hq : c ≠ '"' := by rintro rfl; cases he
      have hb : c ≠ '\\' := by rintro rfl; cases he
      simp [Lexer.step, hq, hb, hge, StringDraft.push]

theorem foldlM_step_escapes {characters : List Char} {tokens : Array Token} :
    (cs.flatMap escape).foldlM Lexer.step ⟨.string { characters }, tokens⟩ =
      some ⟨.string { characters := cs.reverse ++ characters }, tokens⟩ := by
  induction cs generalizing characters with
  | nil => rfl
  | cons c cs ih => simp [foldlM_step_escape, ih]

theorem lexes_quote (s : String) : Lexes (quote s).toList [.scalar (ofString s)] := by
  rintro ⟨mode, tokens⟩ rfl
  refine ⟨⟨.between, tokens.push (.scalar (ofString s))⟩, ?_, rfl⟩
  have hstart : Lexer.step ⟨.between, tokens⟩ '"' = some ⟨.string {}, tokens⟩ := rfl
  rw [toList_quote, List.cons_append, List.foldlM_cons, hstart]
  simp [foldlM_step_escapes, Lexer.step, StringDraft.finish, emit, ofString]

end Strings

end MinimalistGrammar.Json
