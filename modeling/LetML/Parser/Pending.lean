import LetML.Expr
import LetML.Token.Basic

namespace LetML

/-- The left operands that wait for an operand to their right, from the loosest operator to the
tightest. Where an operator associates to the right several may wait, the innermost first. -/
structure Pending where
  ors : List Expr
  ands : List Expr
  comparison : Option (Expr × BinOp)
  heads : List Expr
  sum : Option (Expr × BinOp)
  factor : Option Expr
  fn : Option Expr

namespace Pending

def nothing : Pending := ⟨[], [], none, [], none, none, none⟩

def application (p : Pending) (e : Expr) : Expr :=
  match p.fn with
  | none => e
  | some f => .app f e

def multiplied (p : Pending) (e : Expr) : Expr :=
  match p.factor with
  | none => p.application e
  | some l => .bin .mul l (p.application e)

def added (p : Pending) (e : Expr) : Expr :=
  match p.sum with
  | none => p.multiplied e
  | some (l, op) => .bin op l (p.multiplied e)

def listed (p : Pending) (e : Expr) : Expr := p.heads.foldl (fun t h => .cons h t) (p.added e)

def compared (p : Pending) (e : Expr) : Expr :=
  match p.comparison with
  | none => p.listed e
  | some (l, op) => .bin op l (p.listed e)

def conjoined (p : Pending) (e : Expr) : Expr :=
  p.ands.foldl (fun r l => .bin .and l r) (p.compared e)

/-- The expression that an operand completes. -/
def complete (p : Pending) (e : Expr) : Expr :=
  p.ors.foldl (fun r l => .bin .or l r) (p.conjoined e)

def apply (p : Pending) (e : Expr) : Pending := { p with fn := some (p.application e) }

def compareWith (p : Pending) (op : BinOp) : Option (Expr → Pending) :=
  if p.comparison.isSome then none
  else some fun e => { nothing with ors := p.ors, ands := p.ands, comparison := some (p.listed e, op) }

def addWith (p : Pending) (op : BinOp) : Option (Expr → Pending) :=
  some fun e => { p with sum := some (p.added e, op), factor := none, fn := none }

/-- What waits after an operand and a binary operator. Comparisons do not associate, so a second
one cannot follow a first. -/
def operator? (p : Pending) : Symbol → Option (Expr → Pending)
  | .star => some fun e => { p with factor := some (p.multiplied e), fn := none }
  | .plus => p.addWith .add
  | .minus => p.addWith .sub
  | .colons => some fun e =>
    { nothing with
      ors := p.ors, ands := p.ands, comparison := p.comparison, heads := p.added e :: p.heads }
  | .eq => p.compareWith .eq
  | .ne => p.compareWith .ne
  | .lt => p.compareWith .lt
  | .le => p.compareWith .le
  | .gt => p.compareWith .gt
  | .ge => p.compareWith .ge
  | .andAnd => some fun e => { nothing with ors := p.ors, ands := p.compared e :: p.ands }
  | .orOr => some fun e => { nothing with ors := p.conjoined e :: p.ors }
  | _ => none

end Pending

end LetML
