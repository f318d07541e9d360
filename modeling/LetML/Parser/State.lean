import LetML.Clause
import LetML.Parser.Pending

namespace LetML

inductive Fault where
  | range
  | clauses (e : ClauseError)
  deriving DecidableEq

def Fault.message : Fault → String
  | range => "integer literal out of range"
  | clauses e => e.message

/-- A construct that waits for the expression inside it. -/
inductive Frame where
  | lambda (params : List String)
  | clause (recursive : Bool) (done : List Clause) (name : String) (params : List Pattern)
  | body (recursive : Bool) (clauses : List Clause)
  | test
  | yes (test : Expr)
  | no (test yes : Expr)
  | paren (left : Pending)
  | elem (left : Pending) (done : List Expr)
  | scrutinee (left : Pending)
  | arm (left : Pending) (scrutinee : Expr) (done : List (Pattern × Expr)) (pattern : Pattern)

inductive PatternSite where
  | param (recursive : Bool) (done : List Clause) (name : String) (params : List Pattern)
  | arm (left : Pending) (scrutinee : Expr) (done : List (Pattern × Expr))

/-- A bracket that waits for the pattern inside it, after the heads of a `::` chain. -/
inductive PatternFrame where
  | paren (heads : List Pattern)
  | elem (heads : List Pattern) (done : List Pattern)

/-- What comes next. An operand or a pattern that has just been read may turn out to be a number
out of range; this is found when the token after it is taken. -/
inductive Focus where
  | expr
  | elem (left : Pending) (done : List Expr)
  | operand (left : Pending)
  | operator (left : Pending) (value : Except Fault Expr)
  | lambda (params : List String)
  | afterLet
  | clauseName (recursive : Bool) (done : List Clause)
  | firstArm (left : Pending) (scrutinee : Expr)
  | pattern (site : PatternSite) (within : List PatternFrame) (heads : List Pattern)
  | patternElem (site : PatternSite) (within : List PatternFrame) (heads done : List Pattern)
  | patternEnd (site : PatternSite) (within : List PatternFrame) (heads : List Pattern)
      (value : Except Fault Pattern)
  | ended (d : Decl)

/-- The statements read so far, the constructs that are open, innermost first, and what comes
next. -/
structure State where
  done : List Decl
  stack : List Frame
  focus : Focus

def State.start : State := ⟨[], [], .expr⟩

inductive Goal : Type → Type where
  | expr : Goal Expr
  | statement : Goal Decl
  | program : Goal (List Decl)

end LetML
