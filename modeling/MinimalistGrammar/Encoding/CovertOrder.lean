import MinimalistGrammar.Encoding.Lexical

/-!
The slots for covert items are alike, so they are filled in the order of the candidates, and the empty ones
come last. Of all ways to number the covert items of a derivation this leaves one, up to equal items.
-/

namespace MinimalistGrammar

open MinimalistGrammar.Sat

namespace Lexical

/-- The later slot is used only if the earlier one is, and not with an earlier candidate. -/
def orderPair (lex : Lexical) (earlier later : SlotId) : Builder Unit := do
  Builder.implies [lex.usedAt later] (lex.usedAt earlier)
  (lex.choicesAt later).zipIdx.forM fun (choice, index) =>
    Builder.impliesAny [choice.2] (((lex.choicesAt earlier).take (index + 1)).map (·.2))

def orderCovertSlots (s : Schema) (lex : Lexical) : Builder Unit :=
  (s.covertSlots.zip s.covertSlots.tail).forM fun (earlier, later) => lex.orderPair earlier later

end Lexical

end MinimalistGrammar
