namespace LetML

def insertAscending (n : Nat) : List Nat → List Nat
  | [] => [n]
  | m :: ms => if n < m then n :: m :: ms else if n = m then m :: ms else m :: insertAscending n ms

/-- The members of a list in ascending order, each once. -/
def ascending (l : List Nat) : List Nat := l.foldr insertAscending []

theorem mem_insertAscending {n k : Nat} {l : List Nat} :
    k ∈ insertAscending n l ↔ k = n ∨ k ∈ l := by
  induction l with
  | nil => simp [insertAscending]
  | cons m ms ih => simp only [insertAscending]; split <;> grind

@[simp] theorem mem_ascending {k : Nat} {l : List Nat} : k ∈ ascending l ↔ k ∈ l := by
  induction l with
  | nil => simp [ascending]
  | cons n l ih =>
    simp only [ascending, List.foldr_cons, mem_insertAscending, List.mem_cons]
    rw [← ih, ascending]

inductive Ty where
  | var (id : Nat)
  | int
  | bool
  | arrow (dom cod : Ty)
  | list (elem : Ty)
  deriving DecidableEq

namespace Ty

def size : Ty → Nat
  | var _ | int | bool => 1
  | arrow a b => a.size + b.size + 1
  | list a => a.size + 1

def leaves : Ty → List Nat
  | var v => [v]
  | int | bool => []
  | arrow a b => a.leaves ++ b.leaves
  | list a => a.leaves

def vars (t : Ty) : List Nat := t.leaves.eraseDups

def freeVars (t : Ty) : List Nat := ascending t.leaves

def occurs (v : Nat) (t : Ty) : Bool := t.leaves.contains v

def rename (f : Nat → Nat) : Ty → Ty
  | var v => var (f v)
  | int => int
  | bool => bool
  | arrow a b => arrow (a.rename f) (b.rename f)
  | list a => list (a.rename f)

def isArrow : Ty → Bool
  | arrow _ _ => true
  | _ => false

def render (name : Nat → String) : Ty → String
  | var v => name v
  | int => "Int"
  | bool => "Bool"
  | arrow a b =>
    (if a.isArrow then "(" ++ a.render name ++ ")" else a.render name) ++ " -> " ++ b.render name
  | list a => "[" ++ a.render name ++ "]"

/-- The name under which a variable is shown where no quantifier names it. -/
def rawName (v : Nat) : String := "t" ++ v.repr

def text (t : Ty) : String := t.render rawName

@[simp] theorem mem_vars {v : Nat} {t : Ty} : v ∈ t.vars ↔ v ∈ t.leaves := List.mem_eraseDups

@[simp] theorem mem_freeVars {v : Nat} {t : Ty} : v ∈ t.freeVars ↔ v ∈ t.leaves := by
  simp [freeVars]

@[simp] theorem occurs_iff {v : Nat} {t : Ty} : t.occurs v = true ↔ v ∈ t.leaves := by
  simp [occurs]

end Ty

end LetML
