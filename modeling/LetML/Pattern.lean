namespace LetML

inductive Lit where
  | int (n : Int64)
  | bool (b : Bool)
  deriving DecidableEq

def Lit.text : Lit → String
  | int n => n.toInt.repr
  | bool b => if b then "true" else "false"

inductive Pattern where
  | var (name : String)
  | wild
  | lit (l : Lit)
  | nil
  | cons (head tail : Pattern)
  deriving DecidableEq

namespace Pattern

def ofList : List Pattern → Pattern
  | [] => nil
  | p :: ps => cons p (ofList ps)

/-- Whether a pattern is of a form that matches every value. -/
def irrefutable : Pattern → Bool
  | var _ | wild => true
  | _ => false

def isCons : Pattern → Bool
  | cons _ _ => true
  | _ => false

def text : Pattern → String
  | var name => name
  | wild => "_"
  | lit l => l.text
  | nil => "[]"
  | cons head tail =>
    (if head.isCons then "(" ++ head.text ++ ")" else head.text) ++ " :: " ++ tail.text

def names : Pattern → List String
  | var name => [name]
  | wild | lit _ | nil => []
  | cons head tail => head.names ++ tail.names

end Pattern

end LetML
