import LetML.Unify.Basic

namespace LetML

/-- The replacement of every variable by the type that an assignment gives it. -/
def Ty.subst (θ : Nat → Ty) : Ty → Ty
  | .var v => θ v
  | .int => .int
  | .bool => .bool
  | .arrow a b => .arrow (a.subst θ) (b.subst θ)
  | .list a => .list (a.subst θ)

def Subst.fn (s : Subst) (v : Nat) : Ty := (s.get? v).getD (.var v)

/-- An assignment solves a substitution if it gives a variable the same type before and after. -/
def Solves (θ : Nat → Ty) (s : Subst) : Prop := ∀ v, (s.fn v).subst θ = θ v

namespace Ty

theorem apply_eq_subst (s : Subst) (t : Ty) : t.apply s = t.subst s.fn := by
  induction t with
  | var v => rfl
  | int | bool => rfl
  | arrow a b iha ihb => rw [apply, subst, iha, ihb]
  | list a ih => rw [apply, subst, ih]

@[simp] theorem subst_var (t : Ty) : t.subst .var = t := by
  induction t with
  | var v => rfl
  | int | bool => rfl
  | arrow a b iha ihb => rw [subst, iha, ihb]
  | list a ih => rw [subst, ih]

theorem subst_subst (t : Ty) (θ₁ θ₂ : Nat → Ty) :
    (t.subst θ₁).subst θ₂ = t.subst (fun v => (θ₁ v).subst θ₂) := by
  induction t with
  | var v => rfl
  | int | bool => rfl
  | arrow a b iha ihb => simp only [subst, iha, ihb]
  | list a ih => simp only [subst, ih]

theorem subst_congr {t : Ty} {θ₁ θ₂ : Nat → Ty} (h : ∀ v ∈ t.leaves, θ₁ v = θ₂ v) :
    t.subst θ₁ = t.subst θ₂ := by
  induction t with
  | var v => exact h v (by simp [leaves])
  | int | bool => rfl
  | arrow a b iha ihb =>
    rw [subst, subst, iha (fun v hv => h v (by simp [leaves, hv])),
      ihb (fun v hv => h v (by simp [leaves, hv]))]
  | list a ih => rw [subst, subst, ih h]

theorem subst_eq_self {t : Ty} {θ : Nat → Ty} (h : ∀ v ∈ t.leaves, θ v = .var v) :
    t.subst θ = t := by
  rw [subst_congr h, subst_var]

/-- Assignments that make the same of a type give its variables the same types. -/
theorem eq_of_subst_eq {t : Ty} {θ₁ θ₂ : Nat → Ty} (h : t.subst θ₁ = t.subst θ₂) :
    ∀ v ∈ t.leaves, θ₁ v = θ₂ v := by
  induction t with
  | var u =>
    intro v hv
    obtain rfl := List.mem_singleton.mp hv
    exact h
  | int | bool =>
    intro v hv
    cases hv
  | arrow a b iha ihb =>
    intro v hv
    obtain ⟨ha, hb⟩ := Ty.arrow.inj h
    obtain hv | hv := List.mem_append.mp hv
    · exact iha ha v hv
    · exact ihb hb v hv
  | list a ih => exact ih (Ty.list.inj h)

theorem mem_leaves_subst {t : Ty} {θ : Nat → Ty} {v : Nat} :
    v ∈ (t.subst θ).leaves ↔ ∃ u ∈ t.leaves, v ∈ (θ u).leaves := by
  induction t with
  | var u => simp [subst, leaves]
  | int | bool => simp [subst, leaves]
  | arrow a b iha ihb => simp only [subst, leaves, List.mem_append, iha, ihb, or_and_right, exists_or]
  | list a ih => exact ih

theorem apply_eq_self {t : Ty} {s : Subst} (h : ∀ v ∈ t.leaves, s.get? v = none) :
    t.apply s = t := by
  rw [apply_eq_subst]
  exact subst_eq_self (fun v hv => by simp [Subst.fn, h v hv])

end Ty

namespace Subst

theorem fn_of_none {s : Subst} {v : Nat} (h : s.get? v = none) : s.fn v = .var v := by
  simp [fn, h]

theorem fn_of_some {s : Subst} {v : Nat} {t : Ty} (h : s.get? v = some t) : s.fn v = t := by
  simp [fn, h]

theorem get?_compose (s₂ s₁ : Subst) (v : Nat) :
    (s₂.compose s₁).get? v = ((s₁.get? v).map (Ty.apply s₂)).or (s₂.get? v) := by
  simp [compose]

@[simp] theorem empty_compose (s : Subst) : compose .empty s = s := by
  apply Table.ext
  intro v
  rw [get?_compose]
  cases s.get? v <;> simp

theorem fn_compose (s₂ s₁ : Subst) (v : Nat) : (s₂.compose s₁).fn v = (s₁.fn v).apply s₂ := by
  rw [fn, get?_compose]
  cases h : s₁.get? v with
  | none => simp [fn, h, Ty.apply]
  | some t => simp [fn, h]

theorem compose_assoc (s₃ s₂ s₁ : Subst) :
    s₃.compose (s₂.compose s₁) = (s₃.compose s₂).compose s₁ := by
  apply Table.ext
  intro v
  rw [get?_compose, get?_compose, get?_compose, get?_compose]
  cases s₁.get? v with
  | some t => simp [Ty.apply_compose]
  | none => simp

theorem fn_without (vs : List Nat) (s : Subst) (v : Nat) :
    (s.without vs).fn v = if v ∈ vs then .var v else s.fn v := by
  by_cases hv : v ∈ vs <;> simp [fn, without, hv]

end Subst

namespace Solves

theorem apply {θ : Nat → Ty} {s : Subst} (h : Solves θ s) (t : Ty) :
    (t.apply s).subst θ = t.subst θ := by
  rw [Ty.apply_eq_subst, Ty.subst_subst]
  exact Ty.subst_congr (fun v _ => h v)

theorem empty (θ : Nat → Ty) : Solves θ .empty := fun _ => rfl

theorem compose {θ : Nat → Ty} {s₁ s₂ : Subst} (h₁ : Solves θ s₁) (h₂ : Solves θ s₂) :
    Solves θ (s₂.compose s₁) := by
  intro v
  rw [Subst.fn_compose, h₂.apply, h₁ v]

end Solves

end LetML
