import LetML.Expr

namespace LetML

structure Clause where
  name : String
  params : List Pattern
  body : Expr

inductive ClauseError where
  | empty
  | names
  | arity
  | value
  deriving DecidableEq

def ClauseError.message : ClauseError → String
  | empty => "definition without clauses"
  | names => "clauses of one definition must share a name"
  | arity => "clauses of one definition must have the same number of parameters"
  | value => "a value binding cannot have several clauses"

namespace Clause

/-- The name of an argument that no pattern names. No identifier of the language starts with an
underscore, so these names cannot clash with a program's own. -/
def argName (i : Nat) : String := "__arg" ++ i.repr

def nextName : String := "__next"

def unitName : String := "__unit"

def paramName : Pattern × Nat → String
  | (.var name, _) => name
  | (_, i) => argName i

/-- A clause with irrefutable parameters only. -/
def curried (c : Clause) : Expr := .lambda (c.params.zipIdx.map paramName) c.body

def callNext : Expr := .app (.var nextName) (.lit (.int 0))

/-- Match arguments from left to right. If there are further clauses, a refutable pattern that
fails goes on with them. -/
def matchArgs (further : Bool) (body : Expr) : List (Pattern × Nat) → Expr
  | [] => body
  | (p, i) :: rest =>
    .case (.var (argName i)) <|
      (p, matchArgs further body rest) ::
        if further && !p.irrefutable then [(.wild, callNext)] else []

/-- Try clauses in order. The clauses after the first are a function of a dummy argument, so that
they are evaluated only when called. -/
def tryInOrder (c : Clause) : List Clause → Expr
  | [] => matchArgs false c.body c.params.zipIdx
  | next :: rest =>
    .letIn nextName (.abs unitName (tryInOrder next rest)) (matchArgs true c.body c.params.zipIdx)

def combine (first : Clause) (rest : List Clause) : Except ClauseError Expr :=
  match first.params.length, rest with
  | 0, [] => .ok first.body
  | 0, _ => .error .value
  | arity + 1, _ =>
    if rest.isEmpty && first.params.all Pattern.irrefutable then .ok first.curried
    else if arity = 0 then
      .ok <| .abs (argName 0) <| .case (.var (argName 0)) <|
        (first :: rest).flatMap (fun c => c.params.map (fun p => (p, c.body)))
    else .ok <| .lambda ((List.range (arity + 1)).map argName) (tryInOrder first rest)

def desugar : List Clause → Except ClauseError (String × Expr)
  | [] => .error .empty
  | first :: rest =>
    if rest.any (fun c => c.name ≠ first.name) then .error .names
    else if rest.any (fun c => c.params.length ≠ first.params.length) then .error .arity
    else (combine first rest).map (fun e => (first.name, e))

end Clause

end LetML
