import LetML.Proofs.Capture

namespace LetML

variable {σ : Scheme} {Γ : TypeEnv} {b : Subst}

namespace Scheme

/-- Only a substitution that is not captured acts before every other one as their composition does:
a quantified variable in the place of a free one is beyond the reach of what acts after it. -/
theorem avoids_of_apply_compose (h : ∀ a : Subst, σ.apply (a.compose b) = (σ.apply b).apply a) :
    σ.Avoids b := by
  intro v hv u hu hq
  let a := Subst.single u .int
  have hty := congrArg Scheme.ty (h a)
  rw [apply_ty, apply_ty, apply_ty, Ty.subst_subst] at hty
  have hv' := Ty.eq_of_subst_eq hty v hv.1
  simp only [hv.2, if_false, apply_vars, Subst.fn_compose, Ty.apply_eq_subst] at hv'
  have hu' := Ty.eq_of_subst_eq hv' u hu
  simp [hq, a, Subst.fn, Subst.get?_single] at hu'

theorem avoids_iff :
    σ.Avoids b ↔ ∀ a : Subst, σ.apply (a.compose b) = (σ.apply b).apply a :=
  ⟨fun h _ => apply_compose h, avoids_of_apply_compose⟩

/-- The quantifier captures `t1`, which no longer becomes `int` when it comes in for `t0` first. -/
example :
    let σ : Scheme := ⟨[1], .arrow (.var 0) (.var 1)⟩
    let b := Subst.single 0 (.var 1)
    let a := Subst.single 1 .int
    (σ.apply (a.compose b), (σ.apply b).apply a) =
      (⟨[1], .arrow .int (.var 1)⟩, ⟨[1], .arrow (.var 1) (.var 1)⟩) := by
  decide

end Scheme

theorem TypeEnv.avoids_iff :
    Γ.Avoids b ↔ ∀ a : Subst, Γ.apply (a.compose b) = (Γ.apply b).apply a := by
  refine ⟨fun h a => TypeEnv.apply_compose h a, fun h x σ hx => Scheme.avoids_iff.mpr fun a => ?_⟩
  have hget := congrArg (·.get? x) (h a)
  simp only [get?_apply, hx, Option.map_some] at hget
  exact Option.some.inj hget

/-- Substitutions compose associatively and act on types one after the other, and on schemes exactly
where none captures what the one that acts first brings in. -/
theorem Subst.compose_acts :
    (∀ (a b : Subst) (t : Ty), t.apply (a.compose b) = (t.apply b).apply a) ∧
    (∀ a b c : Subst, (a.compose b).compose c = a.compose (b.compose c)) ∧
    (∀ s : Subst, s.compose .empty = s ∧ Subst.compose .empty s = s) ∧
    (∀ (t : Ty) (σ : Scheme) (Γ : TypeEnv),
      t.apply .empty = t ∧ σ.apply .empty = σ ∧ Γ.apply .empty = Γ) ∧
    (∀ (σ : Scheme) (b : Subst),
      σ.Avoids b ↔ ∀ a : Subst, σ.apply (a.compose b) = (σ.apply b).apply a) ∧
    ∀ (Γ : TypeEnv) (b : Subst),
      Γ.Avoids b ↔ ∀ a : Subst, Γ.apply (a.compose b) = (Γ.apply b).apply a :=
  ⟨Ty.apply_compose, fun a b c => (compose_assoc a b c).symm,
    fun s => ⟨compose_empty s, empty_compose s⟩,
    fun t σ Γ => ⟨t.apply_empty, σ.apply_empty, Γ.apply_empty⟩,
    fun _ _ => Scheme.avoids_iff, fun _ _ => TypeEnv.avoids_iff⟩

end LetML
