import MinimalistGrammar.Encoding.CovertOrder
import MinimalistGrammar.Encoding.HeadMovement
import MinimalistGrammar.Encoding.Movement

/-!
The literals that describe a derivation over a schema, all of them together.
-/

namespace MinimalistGrammar

open MinimalistGrammar.Sat

structure Encoding where
  lexical : Lexical
  checking : Checking
  dominance : Dominance
  movements : List Movement
  headMoves : List HeadMove
deriving Repr

namespace Encoding

/-- The choices and links. They settle everything else that can be seen of a derivation. -/
def projection (enc : Encoding) : List Literal :=
  enc.lexical.choices.toList.flatMap (·.map (·.2)) ++ enc.checking.links.map (·.literal)

end Encoding

end MinimalistGrammar
