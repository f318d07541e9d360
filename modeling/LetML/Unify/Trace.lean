import LetML.Outline
import LetML.Unify.Basic

namespace LetML

/-- The equations that a unification goes on to solve, in order. The second half of an arrow is
reached only if the first has a solution. -/
def subproblems : Ty → Ty → List (Ty × Ty)
  | .arrow a₁ a₂, .arrow b₁ b₂ =>
    (a₁, b₁) :: match unify a₁ b₁ with
      | .ok s => [(a₂.apply s, b₂.apply s)]
      | .error _ => []
  | .list a, .list b => [(a, b)]
  | _, _ => []

theorem subproblems_lt {t₁ t₂ : Ty} {p : Ty × Ty} (h : p ∈ subproblems t₁ t₂) :
    Prod.Lex (· < ·) (· < ·) (distinctVars p.1 p.2, p.1.size + p.2.size)
      (distinctVars t₁ t₂, t₁.size + t₂.size) := by
  fun_cases subproblems t₁ t₂ with
  | case1 a₁ a₂ b₁ b₂ =>
    simp only [subproblems, List.mem_cons] at h
    rcases h with rfl | h
    · refine Prod.Lex.right' _ (distinctVars_le (by grind [Ty.leaves])) ?_
      simp only [Ty.size]; omega
    · split at h
      · rename_i s hs
        rw [List.mem_singleton.mp h]
        exact (shrinks_of_unify hs).measure_lt
      · simp at h
  | case2 a b =>
    simp only [subproblems, List.mem_singleton] at h
    subst h
    refine Prod.Lex.right' _ (distinctVars_le (by simp [Ty.leaves])) ?_
    simp only [Ty.size]; omega
  | case3 => simp_all [subproblems]

def attempts (t₁ t₂ : Ty) : List (Ty × Ty) :=
  (t₁, t₂) :: (subproblems t₁ t₂).attach.flatMap (fun p => attempts p.1.1 p.1.2)
termination_by (distinctVars t₁ t₂, t₁.size + t₂.size)
decreasing_by exact subproblems_lt p.2

def unifyRule : Ty → Ty → String
  | .var v, t => if t = .var v then "Unify-Var-Same" else "Unify-Var"
  | _, .var _ => "Unify-Var"
  | .arrow _ _, _ => "Unify-Arrow"
  | .list _, _ => "Unify-List"
  | _, _ => "Unify-Con"

def equationText (t₁ t₂ : Ty) : String := t₁.text ++ " ~ " ++ t₂.text

def unifyOutline (t₁ t₂ : Ty) : Outline :=
  .node (unifyRule t₁ t₂) (equationText t₁ t₂) ((unify t₁ t₂).toOption.getD .empty).text
    ((subproblems t₁ t₂).attach.map (fun p => unifyOutline p.1.1 p.1.2))
termination_by (distinctVars t₁ t₂, t₁.size + t₂.size)
decreasing_by exact subproblems_lt p.2

end LetML
