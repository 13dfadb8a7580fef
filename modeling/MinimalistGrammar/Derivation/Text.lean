import MinimalistGrammar.Derivation.Basic

/-!
Derivations as texts: in brackets on one line, and with one phrase to a line.
-/

namespace MinimalistGrammar

namespace Derivation

/-- A phrase in brackets: the trigger, the head and the argument or, after `^`, the head of the phrase that
moves. -/
def bracket (d : Derivation) : Tree → String
  | .lexical leaf => d.label leaf
  | .merge _ h a c => "[" ++ d.compact c.trigger ++ " " ++ d.bracket h ++ " " ++ d.bracket a ++ "]"
  | .move h c => "[" ++ d.compact c.trigger ++ " " ++ d.bracket h ++ " ^" ++ d.label c.target.leaf ++ "]"

instance : ToString Derivation := ⟨fun d => if d.nodes.isEmpty then "[]" else d.bracket d.tree⟩

/-- A leaf with its features and form. -/
def describeLeaf (d : Derivation) (leaf : LeafId) : String :=
  match d.leaf? leaf with
  | some l =>
    l.item ++ " :: " ++ " ".intercalate (l.features.map (·.compact)) ++ " (" ++ l.form.getD "ε" ++ ")"
  | none => ""

/-- A line for each phrase, indented by its depth. -/
def outline (d : Derivation) (depth : Nat) : Tree → String
  | .lexical leaf => line depth (d.describeLeaf leaf)
  | .merge takesHead h a c =>
    let title :=
      if takesHead then
        "head-move " ++ d.compact c.trigger ++ " (" ++ d.label c.target.leaf ++ " incorporates)"
      else "merge " ++ d.compact c.trigger
    line depth title ++ d.outline (depth + 1) h ++ d.outline (depth + 1) a
  | .move h c =>
    line depth ("move " ++ d.compact c.trigger ++ " (" ++ d.label c.target.leaf ++ " moves)") ++
      d.outline (depth + 1) h
where
  line (depth : Nat) (s : String) : String := String.ofList (List.replicate (2 * depth) ' ') ++ s ++ "\n"

def pretty (d : Derivation) : String := d.outline 0 d.tree

end Derivation

end MinimalistGrammar
