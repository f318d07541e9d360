import LetML.Pattern

namespace LetML

inductive BinOp where
  | add | sub | mul
  | eq | ne | lt | le | gt | ge
  | and | or
  deriving DecidableEq

def BinOp.symbol : BinOp → String
  | add => "+"
  | sub => "-"
  | mul => "*"
  | eq => "=="
  | ne => "!="
  | lt => "<"
  | le => "<="
  | gt => ">"
  | ge => ">="
  | and => "&&"
  | or => "||"

inductive Expr where
  | lit (l : Lit)
  | var (name : String)
  | abs (param : String) (body : Expr)
  | app (fn arg : Expr)
  | letIn (name : String) (value body : Expr)
  | letRec (name : String) (value body : Expr)
  | cond (test yes no : Expr)
  | bin (op : BinOp) (left right : Expr)
  | nil
  | cons (head tail : Expr)
  | list (elems : List Expr)
  | case (scrutinee : Expr) (arms : List (Pattern × Expr))

namespace Expr

def lambda (params : List String) (body : Expr) : Expr := params.foldr abs body

def isAtomic : Expr → Bool
  | lit _ | var _ | nil | list _ | case _ _ => true
  | _ => false

def isApp : Expr → Bool
  | app _ _ => true
  | _ => false

def isCons : Expr → Bool
  | cons _ _ => true
  | _ => false

def parenUnless (bare : Bool) (s : String) : String := if bare then s else "(" ++ s ++ ")"

mutual

/-- The text of an expression whose binders `\x` are written by `binder`. Applications associate to
the left and `::` to the right; all other operands are parenthesised unless they are atomic. -/
def render (binder : String → String) : Expr → String
  | lit l => l.text
  | var x => x
  | abs x b => binder x ++ b.render binder
  | app f a =>
    parenUnless (f.isAtomic || f.isApp) (f.render binder) ++ " "
      ++ parenUnless a.isAtomic (a.render binder)
  | letIn x v b => "let " ++ x ++ " = " ++ v.render binder ++ " in " ++ b.render binder
  | letRec x v b => "let rec " ++ x ++ " = " ++ v.render binder ++ " in " ++ b.render binder
  | cond c t e =>
    "if " ++ c.render binder ++ " then " ++ t.render binder ++ " else " ++ e.render binder
  | bin op l r =>
    parenUnless l.isAtomic (l.render binder) ++ " " ++ op.symbol ++ " "
      ++ parenUnless r.isAtomic (r.render binder)
  | nil => "[]"
  | cons h t =>
    parenUnless h.isAtomic (h.render binder) ++ " :: "
      ++ parenUnless (t.isAtomic || t.isCons) (t.render binder)
  | list es => "[" ++ ", ".intercalate (renderElems binder es) ++ "]"
  | case s arms =>
    "case " ++ s.render binder ++ " of " ++ " | ".intercalate (renderArms binder arms) ++ " end"

def renderElems (binder : String → String) : List Expr → List String
  | [] => []
  | e :: es => e.render binder :: renderElems binder es

def renderArms (binder : String → String) : List (Pattern × Expr) → List String
  | [] => []
  | (p, e) :: arms => (p.text ++ " -> " ++ e.render binder) :: renderArms binder arms

end

/-- The text of an expression as it is shown. -/
def text (e : Expr) : String := e.render (fun x => "λ" ++ x ++ ".")

/-- The text of an expression as it is read. -/
def source (e : Expr) : String := e.render (fun x => "\\" ++ x ++ " -> ")

end Expr

inductive Decl where
  | define (recursive : Bool) (name : String) (value : Expr)
  | eval (e : Expr)

namespace Decl

/-- The expression that is typed and evaluated for a statement. A recursive definition stands for
the name it defines, under its own definition. -/
def toExpr : Decl → Expr
  | define true name value => .letRec name value (.var name)
  | define false _ value => value
  | eval e => e

def name? : Decl → Option String
  | define _ name _ => some name
  | eval _ => none

end Decl

end LetML
