import LetML.Value.Basic

namespace LetML

inductive RuntimeError where
  | unbound (name : String)
  | notFunction (v : Value)
  | noMatch (v : Value)
  | notBool (v : Value)
  | operands (op : BinOp) (left right : Value)
  | overflow (op : BinOp) (left right : Int64)
  | notReady (name : String)

def RuntimeError.message : RuntimeError → String
  | unbound name => "unbound variable: " ++ name
  | notFunction v => "cannot apply a non-function value: " ++ v.text
  | noMatch v => "no pattern matches the value " ++ v.text
  | notBool v => "expected a boolean condition, found " ++ v.text
  | operands op l r => "invalid operands for " ++ op.symbol ++ ": " ++ l.text ++ " and " ++ r.text
  | overflow op a b =>
    "integer overflow in " ++ a.toInt.repr ++ " " ++ op.symbol ++ " " ++ b.toInt.repr
  | notReady name =>
    "recursive binding " ++ name ++ " was used before its definition finished"

end LetML
