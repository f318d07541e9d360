import LetML.Unify.Basic

namespace LetML

/-- The next unused type variable, and the equations tried so far, the latest first. -/
structure Supply where
  next : Nat
  tried : List (Ty × Ty)

/-- Inference uses up variables and tries equations also where it fails. -/
abbrev InferM := ExceptT TypeError (StateM Supply)

namespace InferM

def reserve (count : Nat) : InferM Nat := do
  let s ← get
  set { s with next := s.next + count }
  return s.next

def fresh : InferM Ty := do
  return .var (← reserve 1)

def instantiate (σ : Scheme) : InferM Ty := do
  return σ.instantiate (← reserve σ.vars.length)

def solve (t₁ t₂ : Ty) : InferM Subst := do
  modify fun s => { s with tried := (t₁, t₂) :: s.tried }
  match unify t₁ t₂ with
  | .ok s => return s
  | .error e => throw e

end InferM

end LetML
