import LetML.Eval.Operator
import LetML.Value.Env
import LetML.Value.Match

namespace LetML

/-- Evaluation makes and fills slots also where it fails. It has no result if it runs out of
fuel. -/
abbrev EvalM := ExceptT RuntimeError (StateT Store Option)

def EvalM.outOfFuel {α : Type} : EvalM α := fun _ => none

@[inline] def Value.call (run : Env → Expr → EvalM Value) (f a : Value) : EvalM Value :=
  match f with
  | .closure x b ρ => run (.bind x a ρ) b
  | v => throw (.notFunction v)

/-- Evaluate an expression, to a depth that the fuel bounds. Operands are evaluated from left to
right, those of `&&` and `||` both. -/
def eval : Nat → Env → Expr → EvalM Value
  | 0, _, _ => .outOfFuel
  | n + 1, ρ, e => match e with
    | .lit l => return .ofLit l
    | .var x => do
      let σ ← get
      ofExcept (ρ.lookup σ x)
    | .abs x b => return .closure x b ρ
    | .app f a => do
      let f ← eval n ρ f
      let a ← eval n ρ a
      f.call (eval n) a
    | .letIn x v b => do
      let v ← eval n ρ v
      eval n (.bind x v ρ) b
    | .letRec x v b => do
      let ρ ← modifyGet (ρ.bindSlot x)
      let v ← eval n ρ v
      modify fun σ => ρ.fillHead v σ
      eval n ρ b
    | .cond c t e => do
      match ← eval n ρ c with
      | .bool true => eval n ρ t
      | .bool false => eval n ρ e
      | v => throw (.notBool v)
    | .bin op l r => do
      let l ← eval n ρ l
      let r ← eval n ρ r
      ofExcept (op.apply l r)
    | .nil => return .nil
    | .cons h t => do
      let h ← eval n ρ h
      let t ← eval n ρ t
      return .cons h t
    | .list es => do
      let vs ← es.mapM (eval n ρ)
      return .ofList vs
    | .case e arms => do
      let v ← eval n ρ e
      match selectArm v arms with
      | some (bindings, b) => eval n (ρ.bindAll bindings) b
      | none => throw (.noMatch v)

def apply (fuel : Nat) (f a : Value) : EvalM Value := f.call (eval fuel) a

end LetML
