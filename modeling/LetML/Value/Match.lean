import LetML.Value.Basic

namespace LetML

/-- The bindings by which a pattern matches a value, from left to right. -/
def Pattern.match? : Pattern → Value → Option (List (String × Value))
  | var x, v => some [(x, v)]
  | wild, _ => some []
  | lit l, v => if v.isLit l then some [] else none
  | nil, .nil => some []
  | cons p q, .cons h t => do
    let left ← p.match? h
    let right ← q.match? t
    return left ++ right
  | _, _ => none

def selectArm (v : Value) : List (Pattern × Expr) → Option (List (String × Value) × Expr)
  | [] => none
  | (p, e) :: arms => match p.match? v with
    | some bindings => some (bindings, e)
    | none => selectArm v arms

end LetML
