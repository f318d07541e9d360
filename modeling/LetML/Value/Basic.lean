import LetML.Expr

namespace LetML

mutual

inductive Value where
  | int (n : Int64)
  | bool (b : Bool)
  | nil
  | cons (head tail : Value)
  | closure (param : String) (body : Expr) (env : Env)

/-- The values of the names in scope, innermost first. A recursive name has a slot, which is filled
once its definition has been evaluated. -/
inductive Env where
  | empty
  | bind (name : String) (value : Value) (outer : Env)
  | slot (name : String) (address : Nat) (outer : Env)

end

namespace Value

def ofLit : Lit → Value
  | .int n => int n
  | .bool b => bool b

def ofList (vs : List Value) : Value := vs.foldr cons nil

def isLit : Value → Lit → Bool
  | int n, .int m => n = m
  | bool a, .bool b => a = b
  | _, _ => false

/-- Equality of data. Functions are not compared. -/
def dataEq : Value → Value → Bool
  | int n, int m => n = m
  | bool a, bool b => a = b
  | nil, nil => true
  | cons h t, cons h' t' => h.dataEq h' && t.dataEq t'
  | _, _ => false

def scalarText : Value → String
  | int n => n.toInt.repr
  | bool b => if b then "true" else "false"
  | closure _ _ _ => "<fun>"
  | nil | cons _ _ => ""

mutual

def text : Value → String
  | nil => "[]"
  | cons h t => "[" ++ h.text ++ t.restText ++ "]"
  | v => v.scalarText

def restText : Value → String
  | nil => ""
  | cons h t => ", " ++ h.text ++ t.restText
  | v => " | " ++ v.scalarText

end

end Value

end LetML
