import MinimalistGrammar.Proofs.Encoding.Scope
import MinimalistGrammar.Proofs.Parse.Extraction

/-!
The formula of a parse has no variables but its own, and the choices and links are among them.
-/

namespace MinimalistGrammar

open MinimalistGrammar.Sat
open MinimalistGrammar.Sat.Builder

variable {n : Nat} {s : Schema} {enc : Encoding} {p : PointId} {argument : List SlotId}

namespace Encoding

inductive Mentions (enc : Encoding) : Literal → Prop
  | lexical {l : Literal} (h : enc.lexical.Mentions l) : Mentions enc l
  | checking {l : Literal} (h : enc.checking.Mentions l) : Mentions enc l
  | dominance {l : Literal} (h : enc.dominance.Mentions l) : Mentions enc l
  | movement {m : Movement} (h : m ∈ enc.movements) : Mentions enc m.link
  | headMove {m : HeadMove} (h : m ∈ enc.headMoves) : Mentions enc m.literal

theorem scoped_build (hn : 0 < n) (s : Schema) : Scoped n (build s) Mentions := by
  refine (Lexical.scoped_build hn s).bind fun n₁ lex h₁ hlex => ?_
  refine (Checking.scoped_build (by omega) hlex s).bind fun n₂ c h₂ hc => ?_
  have hlex := hlex.mono h₂
  refine Scoped.seq (Lexical.staysInScope_requireRoot (by omega) hlex) ?_
  refine (Dominance.scoped_build (by omega) hlex hc s).bind fun n₃ d h₃ hd => ?_
  have hlex := hlex.mono h₃
  have hc := hc.mono h₃
  refine Scoped.seq (Movement.staysInScope_constrain (by omega) hlex hc hd s) ?_
  refine (HeadMove.scoped_build (by omega) hlex hc s).bind fun n₄ moves h₄ hmoves => ?_
  refine Scoped.seq (Lexical.staysInScope_orderCovertSlots (by omega) (hlex.mono h₄) s) (scoped_pure fun l hl => ?_)
  cases hl with
  | lexical h => exact hlex.mono h₄ _ h
  | checking h => exact hc.mono h₄ _ h
  | dominance h => exact hd.mono h₄ _ h
  | movement h =>
    obtain ⟨landing, _, hm⟩ := List.mem_flatMap.1 h
    exact Nat.lt_of_lt_of_le (Movement.link_lt hc hm) h₄
  | headMove h => exact hmoves _ ⟨_, h, rfl⟩

theorem projection_lt (h : InScope n enc.Mentions) : ∀ l ∈ enc.projection, l.var < n := by
  intro l hl
  rcases List.mem_append.1 hl with hl | hl
  · obtain ⟨row, hr, hl⟩ := List.mem_flatMap.1 hl
    obtain ⟨c, hc, rfl⟩ := List.mem_map.1 hl
    exact h _ (.lexical (.choice hr hc))
  · obtain ⟨k, hk, rfl⟩ := List.mem_map.1 hl
    exact h _ (.checking (.link hk))

end Encoding

namespace LocalityPolicy

/-- The policy makes clauses over the variables that there are, and over new ones. -/
def IsScoped (l : LocalityPolicy) : Prop :=
  ∀ s enc n, 0 < n → InScope n enc.Mentions → StaysInScope n (l.constrain s enc)

theorem staysInScope_forbidCrossing (h : InScope n enc.Mentions) {first second : Movement} (hf : first ∈ enc.movements)
    (hs : second ∈ enc.movements) : StaysInScope n (forbidCrossing s enc first second) := by
  have hlex : InScope n enc.lexical.Mentions := fun l hl => h l (.lexical hl)
  have hdom : InScope n enc.dominance.Mentions := fun l hl => h l (.dominance hl)
  refine scoped_ite staysInScope_pure ?_
  split
  · rename_i outer inner ho hi
    refine StaysInScope.forM fun x hx => ?_
    obtain ⟨⟨f, l⟩, hl, he⟩ := List.mem_filterMap.1 hx
    dsimp only at he
    split at he
    · obtain ⟨m, hm, rfl⟩ := Option.map_eq_some_iff.1 he
      have := Dominance.literal?_lt hdom ho
      have := Dominance.literal?_lt hdom hi
      have := Lexical.featuresAt_lt hlex hl
      have := Lexical.feature?_lt hlex hm
      have := h _ (.movement hf)
      have := h _ (.movement hs)
      exact staysInScope_forbid (by simp [*])
    · cases he
  · exact staysInScope_pure

theorem isScoped_shortestMove : shortestMove.IsScoped := fun _ _ _ _ h =>
  StaysInScope.forM fun _ hf => StaysInScope.forM fun _ hs => staysInScope_forbidCrossing h hf hs

theorem staysInScope_leaveFromEdge (h : InScope n enc.Mentions) {m : Movement} (hm : m ∈ enc.movements)
    {phase : PointId × Literal} (hp : phase.2.var < n) : StaysInScope n (leaveFromEdge s enc m phase) := by
  have hdom : InScope n enc.dominance.Mentions := fun l hl => h l (.dominance hl)
  refine scoped_ite staysInScope_pure ?_
  split
  · rename_i outside inside ho hi
    have := Dominance.literal?_lt hdom ho
    have := Dominance.literal?_lt hdom hi
    have := h _ (.movement hm)
    refine staysInScope_addClause fun l hl => ?_
    rcases List.mem_append.1 hl with hl | hl
    · simp only [List.mem_cons, List.not_mem_nil, or_false] at hl
      rcases hl with rfl | rfl | rfl | rfl <;> assumption
    · obtain ⟨x, hx, rfl⟩ := List.mem_map.1 hl
      exact Checking.checkersOf_lt (fun l hl => h l (.checking hl)) (List.mem_filter.1 hx).1
  · exact staysInScope_pure

theorem isScoped_phaseBounded (phases : List String) : (phaseBounded phases).IsScoped := by
  intro s enc n hn h
  refine Scoped.seq (isScoped_shortestMove s enc n hn h) (StaysInScope.forM fun m hm => StaysInScope.forM fun x hx => ?_)
  obtain ⟨p, _, hx⟩ := List.mem_flatMap.1 hx
  obtain ⟨phase, _, he⟩ := List.mem_filterMap.1 hx
  obtain ⟨l, hl, rfl⟩ := Option.map_eq_some_iff.1 he
  exact staysInScope_leaveFromEdge h hm (Lexical.feature?_lt (fun l hl => h l (.lexical hl)) hl)

theorem isScoped_policy (l : Locality) : l.policy.IsScoped := by
  cases l with
  | shortestMove => exact isScoped_shortestMove
  | phaseBounded phases => exact isScoped_phaseBounded phases

end LocalityPolicy

namespace Layout

inductive Mentions (lay : Layout) : Literal → Prop
  | parent {row : List (PointId × Literal)} {x : PointId × Literal} (hr : row ∈ lay.parents.toList) (hx : x ∈ row) :
    Mentions lay x.2
  | stay {st : Stay} (h : st ∈ lay.stays) : Mentions lay st.literal

variable {lay : Layout}

theorem scoped_stay {onward : Option (PointId × Literal)} {link : Literal} (hn : 0 < n)
    (ho : ∀ x ∈ onward, x.2.var < n) (hl : link.var < n) (target checker : PointId) :
    Scoped n (stay onward target checker link) fun st l => st.literal = l := by
  cases onward with
  | some x =>
    have hx : x.2.var < n := ho x rfl
    refine (scoped_and hn fun l hm => ?_).bind fun m k _ hk => scoped_pure fun l hl => hk l hl
    simp only [List.mem_cons, List.not_mem_nil, or_false] at hm
    rcases hm with rfl | rfl
    · exact hl
    · simpa using hx
  | none => exact scoped_pure fun l h => h ▸ hl

theorem scoped_layPoint (hn : 0 < n) (h : InScope n enc.Mentions) (p : PointId) : Scoped n (layPoint s enc p)
    fun r l => (∃ x ∈ r.1, x.2 = l) ∨ ∃ st ∈ r.2, st.literal = l := by
  have hlex : InScope n enc.lexical.Mentions := fun l hl => h l (.lexical hl)
  have honward : ∀ x ∈ onward? s enc.lexical p, x.2.var < n := by
    intro x hx
    obtain ⟨next, _, hx⟩ := Option.bind_eq_some_iff.1 hx
    split at hx
    · cases hx
    · cases hx
      exact Lexical.licensee_lt hn hlex next
  refine (Scoped.mapM (N := fun (st : Stay) l => st.literal = l) fun x hx => ?_).bind fun m stays hle hstays =>
    scoped_pure fun l hl => ?_
  · obtain ⟨y, hy, he⟩ := List.mem_filterMap.1 hx
    obtain ⟨result, _, rfl⟩ := Option.map_eq_some_iff.1 he
    exact scoped_stay hn honward (Checking.checkersOf_lt (fun l hl => h l (.checking hl)) hy) p y.1
  · rcases hl with ⟨x, hx, rfl⟩ | hl
    · rcases List.mem_append.1 hx with hx | hx
      · refine Nat.lt_of_lt_of_le ?_ hle
        rcases List.mem_append.1 hx with hx | hx
        · split at hx
          · cases hx
          · obtain ⟨q, _, rfl⟩ := List.mem_map.1 hx
            exact Lexical.trigger_lt hn hlex p
        · exact honward x (by simpa using hx)
      · obtain ⟨⟨c, st⟩, hz, rfl⟩ := List.mem_map.1 hx
        exact hstays _ ⟨st, (List.of_mem_zip hz).2, rfl⟩
    · exact hstays l hl

theorem scoped_build (hn : 0 < n) (h : InScope n enc.Mentions) (s : Schema) : Scoped n (build s enc) Mentions := by
  refine (Scoped.mapM fun p _ => scoped_layPoint hn h p).bind fun m laid _ hlaid => scoped_pure fun l hl => ?_
  cases hl with
  | parent hr hx =>
    obtain ⟨r, hm, rfl⟩ := List.mem_map.1 hr
    exact hlaid _ ⟨r, hm, .inl ⟨_, hx, rfl⟩⟩
  | stay hst =>
    obtain ⟨r, hr, hst⟩ := List.mem_flatMap.1 hst
    exact hlaid _ ⟨r, hr, .inr ⟨_, hst, rfl⟩⟩

theorem scoped_pin (hn : 0 < n) (h : InScope n lay.Mentions) (slot : SlotId) :
    Scoped n (lay.pin s slot) fun pins l => ∃ x ∈ pins, x.2 = l := by
  refine (scoped_freshList _).bind fun m lits hle hlits => ?_
  have hpins : ∀ x ∈ (reachable (fun q => (lay.parentsOf q).map (·.1)) s.pointIds (s.lexicalPoint slot)).zip
      (.top :: lits), x.2.var < m := by
    intro x hx
    rcases List.mem_cons.1 (List.of_mem_zip hx).2 with he | hl
    · rw [he]
      exact Nat.lt_of_lt_of_le hn hle
    · exact hlits _ hl
  refine Scoped.seq (StaysInScope.forM fun x hx => StaysInScope.forM fun y hy => StaysInScope.option_forM fun above ha =>
    ?_) (scoped_pure fun l ⟨x, hx, he⟩ => he ▸ hpins x hx)
  obtain ⟨row, hr, hy⟩ := exists_mem_of_mem_getD hy
  exact staysInScope_implies (by simpa using ⟨h.mono hle _ (.parent hr hy), hpins x hx⟩) (hpins _ (mem_of_lookup ha))

end Layout

namespace SiteOrder

inductive Mentions (o : SiteOrder) : Literal → Prop
  | order {row : Array Literal} {l : Literal} (hr : row ∈ o.rows.toList) (h : l ∈ row.toList) : Mentions o l

theorem scoped_build (s : Schema) : Scoped n (build s) Mentions := by
  refine (Scoped.mapM fun slot _ => scoped_freshList _).bind fun m rows _ hrows => scoped_pure fun l hl => ?_
  cases hl with
  | order hr h =>
    obtain ⟨row, hm, rfl⟩ := List.mem_map.1 hr
    exact hrows l ⟨row, hm, h⟩

theorem before_lt {o : SiteOrder} (hn : 0 < n) (h : InScope n o.Mentions) (a b : SlotId) : (o.before a b).var < n := by
  have entry : ∀ i j, ((o.rows.getD i #[]).getD j .top).var < n := by
    intro i j
    rcases getD_eq_or_mem (o.rows.getD i #[]) j Literal.top with he | hl
    · rw [he]
      exact hn
    · rcases getD_eq_or_mem o.rows i #[] with he | hr
      · rw [he] at hl
        cases hl
      · exact h _ (.order hr hl)
  rw [before]
  split
  · exact entry _ _
  · exact entry _ _

end SiteOrder

namespace Encoding

section Words

variable {o : SiteOrder}

theorem staysInScope_orderStay (hn : 0 < n) (ho : InScope n o.Mentions) {pinned : Array (List (SlotId × Literal))}
    (hp : ∀ i, ∀ x ∈ pinned.getD i [], x.2.var < n) {st : Stay} (hst : st.literal.var < n) :
    StaysInScope n (orderStay s o pinned st) := by
  refine StaysInScope.forM fun x hx => StaysInScope.forM fun y hy => scoped_ite staysInScope_pure ?_
  refine staysInScope_implies (by simpa using ⟨hst, hp _ x hx, hp _ y hy⟩) ?_
  split
  · exact SiteOrder.before_lt hn ho _ _
  · exact SiteOrder.before_lt hn ho _ _

theorem scoped_sites (hn : 0 < n) (h : InScope n enc.Mentions) (slot : SlotId) :
    Scoped n (enc.sites slot) fun sites l => ∃ x ∈ sites, x.2 = l := by
  have hhosts : ∀ x ∈ (enc.headMoves.filter (·.mover = slot)).map fun m => (m.host, m.literal), x.2.var < n := by
    intro x hx
    obtain ⟨m, hm, rfl⟩ := List.mem_map.1 hx
    exact h _ (.headMove (List.mem_filter.1 hm).1)
  refine (scoped_or hn fun l hl => ?_).bind fun m moved hle hmoved => ?_
  · obtain ⟨x, hx, rfl⟩ := List.mem_map.1 hl
    exact hhosts x hx
  · have hused := Nat.lt_of_lt_of_le (Lexical.usedAt_lt hn (fun l hl => h l (.lexical hl)) slot) hle
    refine (scoped_and (by omega) (by simpa using ⟨hused, hmoved _ rfl⟩)).bind fun m' stays hle' hstays => scoped_pure ?_
    rintro _ ⟨x, hx, rfl⟩
    rcases List.mem_cons.1 hx with rfl | hx
    · exact hstays _ rfl
    · exact Nat.lt_of_lt_of_le (hhosts x hx) (Nat.le_trans hle hle')

theorem staysInScope_orderWords (hn : 0 < n) (ho : InScope n o.Mentions) {x y : SlotId × List (SlotId × Literal)}
    (hx : ∀ z ∈ x.2, z.2.var < n) (hy : ∀ z ∈ y.2, z.2.var < n) : StaysInScope n (orderWords o x y) := by
  refine StaysInScope.forM fun z hz => StaysInScope.forM fun w hw => scoped_ite ?_ (scoped_ite ?_ staysInScope_pure)
  · exact staysInScope_implies (by simpa using ⟨hx z hz, hy w hw⟩) (SiteOrder.before_lt hn ho _ _)
  · exact staysInScope_forbid (by simpa using ⟨hx z hz, hy w hw⟩)

theorem staysInScope_orderAll (hn : 0 < n) (ho : InScope n o.Mentions) {words : List (SlotId × List (SlotId × Literal))}
    (h : ∀ x ∈ words, ∀ z ∈ x.2, z.2.var < n) : StaysInScope n (orderAll o words) := by
  induction words with
  | nil => exact staysInScope_pure
  | cons x later ih =>
    obtain ⟨hx, hlater⟩ := List.forall_mem_cons.1 h
    exact Scoped.seq (StaysInScope.forM fun y hy => staysInScope_orderWords hn ho hx (hlater y hy)) (ih hlater)

theorem staysInScope_requireWordOrder (hn : 0 < n) (h : InScope n enc.Mentions) (s : Schema) :
    StaysInScope n (enc.requireWordOrder s) := by
  refine (Layout.scoped_build hn h s).bind fun n₁ lay h₁ hlay => ?_
  refine (Scoped.mapM fun slot _ => Layout.scoped_pin (s := s) (by omega) hlay slot).bind fun n₂ pins h₂ hpins => ?_
  refine (SiteOrder.scoped_build s).bind fun n₃ o h₃ ho => Scoped.seq (StaysInScope.forM fun st hst => ?_) ?_
  · refine staysInScope_orderStay (by omega) ho (fun i x hx => ?_) (hlay.mono (Nat.le_trans h₂ h₃) _ (.stay hst))
    obtain ⟨row, hr, hx⟩ := exists_mem_of_mem_getD hx
    obtain ⟨p, _, rfl⟩ := List.mem_map.1 hr
    obtain ⟨⟨slot, ps⟩, hz, he⟩ := List.mem_filterMap.1 hx
    obtain ⟨l, hl, rfl⟩ := Option.map_eq_some_iff.1 he
    exact Nat.lt_of_lt_of_le (hpins l ⟨ps, (List.of_mem_zip hz).2, _, mem_of_lookup hl, rfl⟩) h₃
  · have h := h.mono (Nat.le_trans h₁ (Nat.le_trans h₂ h₃))
    refine (Scoped.mapM fun slot _ => scoped_sites (by omega) h slot).bind fun n₄ sites h₄ hsites => ?_
    refine staysInScope_orderAll (by omega) (ho.mono h₄) fun x hx z hz => ?_
    exact hsites _ ⟨x.2, (List.of_mem_zip hx).2, z, hz, rfl⟩

end Words

section Demands

theorem scoped_checkArgument (hn : 0 < n) (h : InScope n enc.Mentions) {conditions : Literal → List Literal}
    (hc : ∀ l, l.var < n → ∀ k ∈ conditions l, k.var < n) {x : PointId × Literal} (hx : x.2.var < n) :
    Scoped n (enc.checkArgument s conditions argument x) fun ls l => l ∈ ls := by
  rw [checkArgument]
  split
  · rename_i b hb
    rw [spans] at hb
    split at hb
    · obtain ⟨lits, hlits, rfl⟩ := Option.map_eq_some_iff.1 hb
      refine (scoped_and hn fun l hl => ?_).bind fun m spans hle hspans => ?_
      · obtain ⟨slot, _, hs⟩ := exists_left_of_forall₂ (forall₂_of_mapM_eq_some hlits) hl
        exact Dominance.literal?_lt (fun l hl => h l (.dominance hl)) hs
      · refine (scoped_and (by omega) fun l hl => ?_).bind fun m' k _ hk => scoped_pure fun l hl => ?_
        · rcases List.mem_append.1 hl with hl | hl
          · exact Nat.lt_of_lt_of_le (hc _ hx l hl) hle
          · exact List.mem_singleton.1 hl ▸ hspans _ rfl
        · exact List.mem_singleton.1 hl ▸ hk _ rfl
    · cases hb
  · exact scoped_pure fun l hl => by cases hl

theorem scoped_flatten {α : Type} {xs : List α} {g : α → Builder (List Literal)}
    (hg : ∀ x ∈ xs, Scoped n (g x) fun ls l => l ∈ ls) :
    Scoped n (do return (← xs.mapM g).flatten) fun ls l => l ∈ ls := by
  refine (Scoped.mapM hg).bind fun m found _ hfound => scoped_pure fun l hl => ?_
  obtain ⟨ls, hls, hl⟩ := List.mem_flatten.1 hl
  exact hfound l ⟨ls, hls, hl⟩

theorem scoped_checksArgument (hn : 0 < n) (h : InScope n enc.Mentions) {conditions : Literal → List Literal}
    (hc : ∀ l, l.var < n → ∀ k ∈ conditions l, k.var < n) (p : PointId) :
    Scoped n (enc.checksArgument s conditions p argument) fun ls l => l ∈ ls :=
  scoped_flatten (g := enc.checkArgument s conditions argument) fun _ hx =>
    scoped_checkArgument hn h hc (Checking.partnersOf_lt (fun l hl => h l (.checking hl)) hx)

theorem scoped_selectsArgument (hn : 0 < n) (h : InScope n enc.Mentions) {conditions : List Literal}
    (hc : ∀ k ∈ conditions, k.var < n) (p : PointId) :
    Scoped n (enc.selectsArgument s conditions p argument) fun ls l => l ∈ ls := by
  refine (scoped_or hn fun l hl => Lexical.literalsAt_lt (fun l hl => h l (.lexical hl)) hl).bind fun m selects hle hs => ?_
  refine scoped_checksArgument (by omega) (h.mono hle) (fun l hl k hk => ?_) p
  rcases List.mem_append.1 hk with hk | hk
  · exact Nat.lt_of_lt_of_le (hc k hk) hle
  · simp only [List.mem_cons, List.not_mem_nil, or_false] at hk
    rcases hk with rfl | rfl
    · exact hs _ rfl
    · exact hl

theorem scoped_selectsAt (hn : 0 < n) (h : InScope n enc.Mentions) (o : Option PointId) :
    Scoped n (match o with
      | some p => enc.selectsArgument s [] p argument
      | none => pure []) fun ls l => l ∈ ls := by
  cases o with
  | none => exact scoped_pure fun l hl => by cases hl
  | some p => exact scoped_selectsArgument hn h (by simp) p

theorem scoped_alternatives (hn : 0 < n) (h : InScope n enc.Mentions) (d : Demand) :
    Scoped n (enc.alternatives s d) fun ls l => l ∈ ls := by
  have hlex : InScope n enc.lexical.Mentions := fun l hl => h l (.lexical hl)
  cases d with
  | root category =>
    refine scoped_pure fun l hl => ?_
    obtain ⟨p, _, hp⟩ := List.mem_filterMap.1 hl
    exact Lexical.feature?_lt hlex hp
  | category slot category =>
    refine scoped_pure fun l hl => ?_
    obtain ⟨⟨candidate, choice⟩, hz, he⟩ := List.mem_filterMap.1 hl
    dsimp only at he
    split at he
    · cases he
      exact Lexical.choicesAt_lt hlex (List.of_mem_zip hz).2
    · cases he
  | theta predicate role argument =>
    cases role with
    | subj =>
      refine scoped_flatten fun p _ => scoped_flatten fun x hx => scoped_ite (scoped_pure fun l hl => by cases hl) ?_
      have hlink := Checking.checkersOf_lt (fun l hl => h l (.checking hl)) hx
      split
      · exact scoped_selectsArgument hn h (by simpa using hlink) _
      · exact scoped_pure fun l hl => by cases hl
    | obj => exact scoped_selectsAt hn h _
    | iobj => exact scoped_selectsAt hn h _
  | agree predicate argument =>
    exact scoped_flatten fun p _ => scoped_checksArgument hn h (fun l hl k hk => List.mem_singleton.1 hk ▸ hl) p

theorem staysInScope_require (hn : 0 < n) (h : InScope n enc.Mentions) (requirements : List Requirement) :
    StaysInScope n (enc.require s requirements) :=
  StaysInScope.forM fun r _ => (scoped_alternatives hn h r.demand).bind fun _ _ _ hl => staysInScope_addClause hl

end Demands

end Encoding

namespace Grammar

variable {g : Grammar} {c : Condition} {p : Problem}

theorem scoped_close (hn : 0 < n) (h : InScope n enc.Mentions) (s : Schema) (linearize : Bool)
    (requirements : List Requirement) : Scoped n (Assembly.close s linearize requirements enc) Encoding.Mentions := by
  have last : Scoped n (do
      if !requirements.isEmpty then enc.require s requirements
      return enc) Encoding.Mentions :=
    scoped_ite (Scoped.seq (Encoding.staysInScope_require hn h _) (scoped_pure h)) (scoped_pure h)
  exact scoped_ite (Scoped.seq (Encoding.staysInScope_requireWordOrder hn h s) last) last

/-- What a parse has been set up with speaks of the variables of its formula only. -/
theorem IsPrepared.scoped (hg : g.locality.IsScoped) (hp : g.IsPrepared c p) :
    p.formula.IsProper ∧ InScope p.formula.numVars p.encoding.Mentions := by
  have hall : Scoped 1 (g.assemble c p.schema p.requirements) Encoding.Mentions :=
    (Encoding.scoped_build Nat.one_pos p.schema).bind fun m enc hle h =>
      Scoped.seq (hg _ _ _ hle h) (scoped_close hle h _ _ _)
  obtain ⟨hproper, _, hin⟩ := hall ∅ Formula.isProper_empty (Nat.le_refl _)
  rw [hp.formula, hp.encoding]
  exact ⟨hproper, hin⟩

end Grammar

end MinimalistGrammar
