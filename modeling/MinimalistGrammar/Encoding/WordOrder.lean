import MinimalistGrammar.Encoding.Basic

/-!
The order of the words. Every word stands at a site: its own slot, or the host that takes up its head. The
sites are in some order, every check puts those of the head before or after those of the argument, and the
words have to come as the sentence has them.
-/

namespace MinimalistGrammar

open MinimalistGrammar.Sat

/-- A check at whose place the argument is pronounced; the literal says that it is. -/
structure Stay where
  trigger : PointId
  target : PointId
  literal : Literal
deriving DecidableEq, Repr

/-- Where the words below each point are pronounced: as the tree has it, except that a phrase that moves on
is pronounced at its next landing and not where it was checked. -/
structure Layout where
  /-- Per point: above which points its words are pronounced, with the literal that says so. -/
  parents : Array (List (PointId × Literal))
  stays : List Stay
deriving Repr

namespace Layout

def parentsOf (lay : Layout) (p : PointId) : List (PointId × Literal) := lay.parents.getD p []

/-- The landing after a point, with the literal that says that the phrase moves on to it. -/
def onward? (s : Schema) (lex : Lexical) (p : PointId) : Option (PointId × Literal) :=
  (s.successor p).bind fun next =>
    if lex.licensee next = .bottom then none else some (next, lex.licensee next)

/-- A check of a target, after which its phrase stays unless it moves on. -/
def stay (onward : Option (PointId × Literal)) (target checker : PointId) (link : Literal) :
    Builder Stay :=
  match onward with
  | some (_, licensee) => do return ⟨checker, target, ← Builder.and [link, -licensee]⟩
  | none => pure ⟨checker, target, link⟩

/-- Lays out one point: what its words are pronounced above, and the checks after which they stay. -/
def layPoint (s : Schema) (enc : Encoding) (p : PointId) :
    Builder (List (PointId × Literal) × List Stay) := do
  let next := (s.successor p).toList
  let trigger := enc.lexical.trigger p
  let onward := onward? s enc.lexical p
  let checkers := (enc.checking.checkersOf p).filterMap fun (checker, link) =>
    (s.successor checker).map fun result => (checker, result, link)
  let stays ← checkers.mapM fun (checker, _, link) => stay onward p checker link
  let up := if trigger = .bottom then [] else next.map fun q => (q, trigger)
  return (up ++ onward.toList ++ (checkers.zip stays).map (fun (c, st) => (c.2.1, st.literal)), stays)

def build (s : Schema) (enc : Encoding) : Builder Layout := do
  let laid ← s.pointIds.mapM (layPoint s enc)
  return { parents := (laid.map (·.1)).toArray, stays := laid.flatMap (·.2) }

end Layout

/-- The points that a slot may be pronounced below, with literals that hold at least where it is. -/
abbrev Pins := List (PointId × Literal)

namespace Layout

/-- What is pronounced below a point is pronounced below its parent. -/
def pinUpward (lay : Layout) (pins : Pins) : Builder Unit :=
  pins.forM fun (p, below) => (lay.parentsOf p).forM fun (parent, l) =>
    (pins.lookup parent).forM fun above => Builder.implies [l, below] above

/-- Pins a slot at its first point and upward from there. -/
def pin (s : Schema) (lay : Layout) (slot : SlotId) : Builder Pins := do
  let reached := reachable (fun q => (lay.parentsOf q).map (·.1)) s.pointIds (s.lexicalPoint slot)
  let pins := reached.zip (.top :: (← Builder.freshList (reached.length - 1)))
  lay.pinUpward pins
  return pins

end Layout

/-- The slots pinned at a point. -/
def pinnedAt (s : Schema) (pins : List Pins) (p : PointId) : List (SlotId × Literal) :=
  (s.slotIds.zip pins).filterMap fun (slot, pins) => (pins.lookup p).map fun l => (slot, l)

/-- A literal for each two slots: the earlier slot is pronounced first. -/
structure SiteOrder where
  /-- Per slot: the literals for it and each later slot. -/
  rows : Array (Array Literal)
deriving Repr

namespace SiteOrder

def build (s : Schema) : Builder SiteOrder := do
  let rows ← s.slotIds.mapM fun slot => Builder.freshList (s.slotCount - 1 - slot)
  return { rows := (rows.map (·.toArray)).toArray }

/-- Holds when the first slot is pronounced before the second. -/
def before (o : SiteOrder) (first second : SlotId) : Literal :=
  if first < second then (o.rows.getD first #[]).getD (second - first - 1) .top
  else -((o.rows.getD second #[]).getD (first - second - 1) .top)

end SiteOrder

namespace Encoding

/-- A complement follows its lexical head, and a specifier precedes its head. -/
def orderStay (s : Schema) (o : SiteOrder) (pinned : Array (List (SlotId × Literal))) (st : Stay) :
    Builder Unit :=
  (pinned.getD st.trigger []).forM fun (head, headPinned) =>
    (pinned.getD st.target []).forM fun (argument, argumentPinned) =>
      if head = argument then pure ()
      else
        Builder.implies [st.literal, headPinned, argumentPinned]
          (if (s.point st.trigger).isLexical then o.before head argument else o.before argument head)

/-- The sites of a slot's head: the slot if it stays, or else the host that takes it up. -/
def sites (enc : Encoding) (slot : SlotId) : Builder (List (SlotId × Literal)) := do
  let hosts := (enc.headMoves.filter (·.mover = slot)).map fun m => (m.host, m.literal)
  let moved ← Builder.or (hosts.map (·.2))
  return (slot, ← Builder.and [enc.lexical.usedAt slot, -moved]) :: hosts

/-- Two words come in this order. At one site that is so only when the second is the host. -/
def orderWords (o : SiteOrder) (first second : SlotId × List (SlotId × Literal)) : Builder Unit :=
  first.2.forM fun (site, atSite) => second.2.forM fun (otherSite, atOther) =>
    if site ≠ otherSite then Builder.implies [atSite, atOther] (o.before site otherSite)
    else if site ≠ second.1 then Builder.forbid [atSite, atOther]
    else pure ()

def orderAll (o : SiteOrder) : List (SlotId × List (SlotId × Literal)) → Builder Unit
  | [] => pure ()
  | word :: later => do
    later.forM (orderWords o word)
    orderAll o later

/-- The words are pronounced in the order of the sentence. -/
def requireWordOrder (s : Schema) (enc : Encoding) : Builder Unit := do
  let lay ← Layout.build s enc
  let pins ← s.slotIds.mapM (lay.pin s)
  let o ← SiteOrder.build s
  let pinned := (s.pointIds.map (pinnedAt s pins)).toArray
  lay.stays.forM (orderStay s o pinned)
  let words := (List.range s.words.length).filterMap s.overtSlot?
  let sites ← words.mapM enc.sites
  orderAll o (words.zip sites)

end Encoding

end MinimalistGrammar
