/-!
Values under keys: collected, with the keys in the order in which they first come, or sorted by numbers.
-/

namespace MinimalistGrammar

variable {κ α : Type}

def groupByKey [DecidableEq κ] : List (κ × α) → List (κ × List α)
  | [] => []
  | (k, v) :: rest =>
    let groups := groupByKey rest
    (k, v :: (groups.lookup k).getD []) :: groups.filter (·.1 ≠ k)

def insertByKey (x : Nat × α) : List (Nat × α) → List (Nat × α)
  | [] => [x]
  | y :: ys => if x.1 ≤ y.1 then x :: y :: ys else y :: insertByKey x ys

def sortByKey (xs : List (Nat × α)) : List (Nat × α) := xs.foldr insertByKey []

end MinimalistGrammar
