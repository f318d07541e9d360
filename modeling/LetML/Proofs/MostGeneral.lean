import LetML.Proofs.Typing
import LetML.Proofs.Unification

namespace LetML

variable {t₁ t₂ : Ty} {s : Subst} {err : TypeError}

/-- A substitution that makes two types equal, that every other such one takes up, and that has no
effect on its own result. -/
structure MostGeneral (t₁ t₂ : Ty) (s : Subst) : Prop where
  equates : t₁.apply s = t₂.apply s
  general : ∀ θ : Subst, t₁.apply θ = t₂.apply θ → ∀ t : Ty, (t.apply s).apply θ = t.apply θ
  idempotent : ∀ v t, s.get? v = some t → ∀ u ∈ t.leaves, s.get? u = none
  within : ∀ v t, s.get? v = some t → Either t₁ t₂ v ∧ ∀ u ∈ t.leaves, Either t₁ t₂ u

/-- An error that shows an equation to have no solution: a variable against a larger type in which it
occurs, or two types with different heads. -/
def TypeError.Genuine : TypeError → Prop
  | .infinite v t => v ∈ t.leaves ∧ t ≠ .var v
  | .mismatch expected actual => Clash expected actual
  | .unbound _ => False

theorem genuine_bindVar {v : Nat} {t : Ty} (h : bindVar v t = .error err) : err.Genuine := by
  unfold bindVar at h
  split at h
  · cases h
  next ht =>
    split at h
    next hv =>
      cases h
      exact ⟨Ty.occurs_iff.mp hv, ht⟩
    · cases h

theorem unify_arrow_error {a₁ a₂ b₁ b₂ : Ty} (h : unify (.arrow a₁ a₂) (.arrow b₁ b₂) = .error err) :
    unify a₁ b₁ = .error err ∨
      ∃ s₁, unify a₁ b₁ = .ok s₁ ∧ unify (a₂.apply s₁) (b₂.apply s₁) = .error err := by
  rw [unify_arrow] at h
  cases h₁ : unify a₁ b₁ with
  | error e =>
    rw [h₁] at h
    exact Or.inl h
  | ok s₁ =>
    simp only [h₁, bind, Except.bind] at h
    cases h₂ : unify (a₂.apply s₁) (b₂.apply s₁) with
    | error e =>
      simp only [h₂, Except.error.injEq] at h
      exact Or.inr ⟨s₁, rfl, h ▸ h₂⟩
    | ok s₂ =>
      simp only [h₂] at h
      cases h

theorem genuine_unify (h : unify t₁ t₂ = .error err) : err.Genuine := by
  induction t₁, t₂ using unify_induction with
  | left v t => exact genuine_bindVar (unify_var_left v t ▸ h)
  | right t v hv => exact genuine_bindVar (hv ▸ h)
  | int | bool => cases h
  | arrow a₁ a₂ b₁ b₂ ih₁ ih₂ =>
    obtain h₁ | ⟨s₁, h₁, h₂⟩ := unify_arrow_error h
    · exact ih₁ h₁
    · exact ih₂ s₁ h₁ h₂
  | list a b ih => exact ih (unify_list a b ▸ h)
  | clash t₁ t₂ hc =>
    rw [unify_clash hc] at h
    cases h
    exact hc

theorem solves_of_equates {θ : Subst} (h : unify t₁ t₂ = .ok s) (hθ : t₁.apply θ = t₂.apply θ) :
    Solves θ.fn s := by
  rw [Ty.apply_eq_subst, Ty.apply_eq_subst] at hθ
  obtain ⟨s', hs', hsolves⟩ := exists_unify hθ
  cases h.symm.trans hs'
  exact hsolves

theorem not_equates_of_error (h : unify t₁ t₂ = .error err) (θ : Subst) :
    t₁.apply θ ≠ t₂.apply θ := by
  intro hθ
  rw [Ty.apply_eq_subst, Ty.apply_eq_subst] at hθ
  obtain ⟨s, hs, -⟩ := exists_unify hθ
  cases h.symm.trans hs

theorem mostGeneral_unify (h : unify t₁ t₂ = .ok s) : MostGeneral t₁ t₂ s := by
  obtain ⟨n, hn⟩ := (Ty.arrow t₁ t₂).exists_bound
  -- no variable is taken on the way, so the known ones are those of the two types
  have hstage := stage_unify h (fun v hv => hn v (List.mem_append.mpr hv))
  have hknown : ∀ v, Known (Either t₁ t₂) n n v → Either t₁ t₂ v := fun v hv =>
    hv.resolve_right (fun hv => Nat.lt_irrefl _ (Nat.lt_of_le_of_lt hv.1 hv.2))
  refine ⟨unify_equates h, fun θ hθ t => ?_, fun v t hv u hu => ?_, fun v t hv => ⟨?_, fun u hu => ?_⟩⟩
  · rw [Ty.apply_eq_subst θ, Ty.apply_eq_subst θ, (solves_of_equates h hθ).apply]
  · exact (hstage.range v t hv u hu).2
  · exact hknown v (hstage.keys v t hv)
  · exact hknown u (hstage.range v t hv u hu).1

/-- Unification finds a most general substitution that makes two types equal, or there is none and the
error shows why. -/
theorem unify_mostGeneral_or_genuine (t₁ t₂ : Ty) :
    (∃ s, unify t₁ t₂ = .ok s ∧ MostGeneral t₁ t₂ s) ∨
      ∃ err, unify t₁ t₂ = .error err ∧ (∀ θ : Subst, t₁.apply θ ≠ t₂.apply θ) ∧ err.Genuine := by
  cases h : unify t₁ t₂ with
  | ok s => exact Or.inl ⟨s, rfl, mostGeneral_unify h⟩
  | error err => exact Or.inr ⟨err, rfl, not_equates_of_error h, genuine_unify h⟩

end LetML
