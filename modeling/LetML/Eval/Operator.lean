import LetML.Value.RuntimeError

namespace LetML

namespace BinOp

def checked (op : BinOp) (a b : Int64) (result : Int) : Except RuntimeError Value :=
  if Int64.minValue.toInt ≤ result ∧ result ≤ Int64.maxValue.toInt then
    .ok (.int (Int64.ofInt result))
  else .error (.overflow op a b)

def apply (op : BinOp) (l r : Value) : Except RuntimeError Value :=
  match op, l, r with
  | add, .int a, .int b => checked op a b (a.toInt + b.toInt)
  | sub, .int a, .int b => checked op a b (a.toInt - b.toInt)
  | mul, .int a, .int b => checked op a b (a.toInt * b.toInt)
  | eq, .int a, .int b => .ok (.bool (a = b))
  | ne, .int a, .int b => .ok (.bool (a ≠ b))
  | lt, .int a, .int b => .ok (.bool (a < b))
  | le, .int a, .int b => .ok (.bool (a ≤ b))
  | gt, .int a, .int b => .ok (.bool (b < a))
  | ge, .int a, .int b => .ok (.bool (b ≤ a))
  | and, .bool a, .bool b => .ok (.bool (a && b))
  | or, .bool a, .bool b => .ok (.bool (a || b))
  | op, l, r => .error (.operands op l r)

end BinOp

end LetML
