import LetML.Scheme
import LetML.Table

namespace LetML

abbrev Subst := Table Nat Ty

abbrev TypeEnv := Table String Scheme

def Ty.apply (s : Subst) : Ty → Ty
  | .var v => (s.get? v).getD (.var v)
  | .int => .int
  | .bool => .bool
  | .arrow a b => .arrow (a.apply s) (b.apply s)
  | .list a => .list (a.apply s)

namespace Subst

def single (v : Nat) (t : Ty) : Subst := Table.empty.insert v t

/-- The substitution that applies `s₁` first and `s₂` after it. -/
def compose (s₂ s₁ : Subst) : Subst := (s₁.map (Ty.apply s₂)).orElse s₂

def without (vs : List Nat) (s : Subst) : Subst := s.restrict (· ∉ vs)

def text (s : Subst) : String :=
  "\x7b" ++ ", ".intercalate (s.entries.map (fun e => e.2.text ++ "/" ++ Ty.rawName e.1)) ++ "\x7d"

end Subst

/-- Quantified variables are left alone; a free variable of the scheme may become bound if the
substitution sends it to one that is quantified. -/
def Scheme.apply (s : Subst) (σ : Scheme) : Scheme := { σ with ty := σ.ty.apply (s.without σ.vars) }

namespace TypeEnv

def apply (s : Subst) (Γ : TypeEnv) : TypeEnv := Γ.map (Scheme.apply s)

def freeVars (Γ : TypeEnv) : List Nat := ascending (Γ.values.flatMap Scheme.unbound)

def supply (Γ : TypeEnv) : Nat := Γ.freeVars.foldl (fun n v => max n (v + 1)) 0

def generalize (Γ : TypeEnv) (t : Ty) : Scheme :=
  let fixed := Γ.freeVars
  ⟨t.freeVars.filter (· ∉ fixed), t⟩

def text (Γ : TypeEnv) : String :=
  "\x7b" ++ ", ".intercalate (Γ.entries.map (fun e => e.1 ++ ": " ++ e.2.text)) ++ "\x7d"

end TypeEnv

/-- The type of a scheme with its quantified variables replaced by `start`, `start + 1`, … in the
order of the quantifier list. -/
def Scheme.instantiate (start : Nat) (σ : Scheme) : Ty :=
  σ.ty.apply (Table.ofList (σ.vars.zipIdx start |>.map (fun e => (e.1, .var e.2))))

@[simp] theorem Ty.apply_empty (t : Ty) : t.apply Table.empty = t := by
  induction t with
  | var v => simp [apply]
  | int | bool => rfl
  | arrow a b iha ihb => simp [apply, iha, ihb]
  | list a ih => simp [apply, ih]

theorem Ty.apply_compose (s₂ s₁ : Subst) (t : Ty) :
    t.apply (s₂.compose s₁) = (t.apply s₁).apply s₂ := by
  induction t with
  | var v =>
    simp only [apply, Subst.compose, Table.get?_orElse, Table.get?_map]
    cases s₁.get? v <;> simp [apply]
  | int | bool => rfl
  | arrow a b iha ihb => simp [apply, iha, ihb]
  | list a ih => simp [apply, ih]

theorem Ty.mem_leaves_apply {s : Subst} {t : Ty} {v : Nat} :
    v ∈ (t.apply s).leaves ↔ ∃ u ∈ t.leaves, v ∈ ((s.get? u).getD (.var u)).leaves := by
  induction t with
  | var u => simp [apply, leaves]
  | int | bool => simp [apply, leaves]
  | arrow a b iha ihb =>
    simp only [apply, leaves, List.mem_append, iha, ihb]
    grind
  | list a ih => simpa [apply, leaves] using ih

end LetML
