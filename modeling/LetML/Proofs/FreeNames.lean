import LetML.Expr

namespace LetML

namespace Expr

mutual

/-- The names that an expression takes from its surroundings, with repeats. -/
def free : Expr → List String
  | lit _ | nil => []
  | var x => [x]
  | abs x b => b.free.filter (· ≠ x)
  | app f a => f.free ++ a.free
  | letIn x v b => v.free ++ b.free.filter (· ≠ x)
  | letRec x v b => v.free.filter (· ≠ x) ++ b.free.filter (· ≠ x)
  | cond c y n => c.free ++ y.free ++ n.free
  | bin _ l r => l.free ++ r.free
  | cons h t => h.free ++ t.free
  | list es => freeElems es
  | case e arms => e.free ++ freeArms arms

def freeElems : List Expr → List String
  | [] => []
  | e :: es => e.free ++ freeElems es

def freeArms : List (Pattern × Expr) → List String
  | [] => []
  | (p, b) :: arms => b.free.filter (· ∉ p.names) ++ freeArms arms

end

variable {x y : String} {e b v : Expr}

theorem mem_free_abs : y ∈ (abs x b).free ↔ y ∈ b.free ∧ y ≠ x := by
  simp [free]

theorem mem_free_letIn : y ∈ (letIn x v b).free ↔ y ∈ v.free ∨ y ∈ b.free ∧ y ≠ x := by
  simp [free]

theorem mem_free_letRec :
    y ∈ (letRec x v b).free ↔ (y ∈ v.free ∧ y ≠ x) ∨ y ∈ b.free ∧ y ≠ x := by
  simp [free]

theorem mem_free_list {es : List Expr} : y ∈ (list es).free ↔ ∃ e ∈ es, y ∈ e.free := by
  simp only [free]
  induction es with
  | nil => simp [freeElems]
  | cons e es ih => simp [freeElems, ih]

theorem mem_free_case {arms : List (Pattern × Expr)} :
    y ∈ (case e arms).free ↔
      y ∈ e.free ∨ ∃ p b, (p, b) ∈ arms ∧ y ∈ b.free ∧ y ∉ p.names := by
  simp only [free, List.mem_append]
  refine or_congr_right ?_
  induction arms with
  | nil => simp [freeArms]
  | cons a arms ih =>
    obtain ⟨q, c⟩ := a
    simp only [freeArms, List.mem_append, List.mem_filter, decide_eq_true_eq, ih, List.mem_cons,
      Prod.mk.injEq, or_and_right, exists_or]
    exact or_congr_left ⟨fun h => ⟨q, c, ⟨rfl, rfl⟩, h⟩, by rintro ⟨_, _, ⟨rfl, rfl⟩, h⟩; exact h⟩

end Expr

end LetML
