import LetML.Ty

namespace LetML

inductive TypeError where
  | unbound (name : String)
  | mismatch (expected actual : Ty)
  | infinite (id : Nat) (ty : Ty)
  deriving DecidableEq

def TypeError.message : TypeError → String
  | unbound name => "unbound variable: " ++ name
  | mismatch expected actual =>
    "type mismatch: expected " ++ expected.text ++ ", found " ++ actual.text
  | infinite v t =>
    "occurs check failed: cannot construct infinite type " ++ Ty.rawName v ++ " = " ++ t.text

end LetML
