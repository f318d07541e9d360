import LetML.Expr
import LetML.Unify.Trace

namespace LetML

inductive Derivation where
  | typing (Γ : TypeEnv) (e : Expr) (t : Ty) (premises : List Derivation)
  | matching (p : Pattern) (t : Ty) (s : Subst) (premises : List Derivation)
  | solving (t₁ t₂ : Ty)

def Expr.rule : Expr → String
  | lit (.int _) => "T-Int"
  | lit (.bool _) => "T-Bool"
  | var _ => "T-Var"
  | abs _ _ => "T-Abs"
  | app _ _ => "T-App"
  | letIn _ _ _ => "T-Let"
  | letRec _ _ _ => "T-LetRec"
  | cond _ _ _ => "T-If"
  | bin _ _ _ => "T-BinOp"
  | nil => "T-Nil"
  | cons _ _ => "T-Cons"
  | list _ => "T-List"
  | case _ _ => "T-Case"

def Pattern.rule : Pattern → String
  | var _ => "P-Var"
  | wild => "P-Wild"
  | lit _ => "P-Lit"
  | nil => "P-Nil"
  | cons _ _ => "P-Cons"

/-- A pattern against a type gives the name it binds if it is one, else what it makes of the
type's variables. -/
def matchingText (p : Pattern) (t : Ty) (s : Subst) : String :=
  match p with
  | .var x => "\x7b" ++ x ++ " : " ++ t.text ++ "\x7d"
  | _ => s.text

namespace Derivation

mutual

/-- The tree that is shown, where the judgements on expressions may be left out. -/
def outline (judgements : Bool) : Derivation → Outline
  | typing Γ e t premises =>
    let (input, output) := if judgements then (Γ.text ++ " ⊢ " ++ e.text ++ " ⇒", t.text) else ("", "")
    .node e.rule input output (outlines judgements premises)
  | matching p t s premises =>
    .node p.rule (p.text ++ " : " ++ t.text) (matchingText p t s) (outlines judgements premises)
  | solving t₁ t₂ => unifyOutline t₁ t₂

def outlines (judgements : Bool) : List Derivation → List Outline
  | [] => []
  | d :: ds => d.outline judgements :: outlines judgements ds

end

def text (judgements : Bool) (d : Derivation) : String := (d.outline judgements).text

end Derivation

end LetML
