import LetML.Proofs.Normalize

namespace LetML

namespace Scheme

/-- Schemes that differ in the names of their bound variables only. The quantifiers of a scheme bind
a set of variables: repeats, variables that the type lacks and the order make no difference. -/
def AlphaEq (σ τ : Scheme) : Prop := ∃ k, σ.Renaming τ k

variable {σ τ ρ : Scheme}

namespace Renaming

variable {k l : Nat → Nat}

theorem free_iff (h : σ.Renaming τ k) {v : Nat} : τ.Free v ↔ σ.Free v := by
  rw [← mem_unbound, h.unbound_eq, mem_unbound]

theorem bound_iff (h : σ.Renaming τ k) {v : Nat} : v ∈ τ.bound ↔ ∃ u ∈ σ.bound, k u = v := by
  rw [h.bound_eq, List.mem_map]

theorem trans (h : σ.Renaming τ k) (h' : τ.Renaming ρ l) : σ.Renaming ρ (l ∘ k) where
  ty_eq := by rw [h'.ty_eq, h.ty_eq, rename_rename]
  bound_mem v hv := h'.bound_mem (k v) (h.bound_iff.mpr ⟨v, hv, rfl⟩)
  bound_inj u hu v hv huv := by
    have hk : k u = k v :=
      h'.bound_inj (k u) (h.bound_iff.mpr ⟨u, hu, rfl⟩) (k v) (h.bound_iff.mpr ⟨v, hv, rfl⟩) huv
    exact h.bound_inj u hu v hv hk
  free_eq v hv := by
    rw [Function.comp_apply, h.free_eq v hv, h'.free_eq v (h.free_iff.mpr hv)]
  free_not_mem v hv := h'.free_not_mem v (h.free_iff.mpr hv)

theorem symm (h : σ.Renaming τ k) (hl : ∀ v ∈ σ.ty.leaves, l (k v) = v) : τ.Renaming σ l where
  ty_eq := by
    have hid : ∀ v ∈ σ.ty.leaves, (l ∘ k) v = id v := hl
    rw [h.ty_eq, rename_rename, rename_congr hid, rename_eq_subst]
    exact (Ty.subst_var σ.ty).symm
  bound_mem w hw := by
    obtain ⟨v, hv, rfl⟩ := h.bound_iff.mp hw
    rw [hl v (mem_bound.mp hv).1]
    exact (mem_bound.mp hv).2
  bound_inj w hw w' hw' hww := by
    obtain ⟨v, hv, rfl⟩ := h.bound_iff.mp hw
    obtain ⟨v', hv', rfl⟩ := h.bound_iff.mp hw'
    rw [hl v (mem_bound.mp hv).1, hl v' (mem_bound.mp hv').1] at hww
    rw [hww]
  free_eq v hv := by
    have hσ := h.free_iff.mp hv
    conv => lhs; rw [← h.free_eq v hσ]
    exact hl v hσ.1
  free_not_mem v hv := (h.free_iff.mp hv).2

end Renaming

theorem AlphaEq.symm (h : σ.AlphaEq τ) : τ.AlphaEq σ := by
  obtain ⟨k, hk⟩ := h
  have hinj : Set.InjOn k {v | v ∈ σ.ty.leaves} := fun _ hu _ hv huv => hk.inj hu hv huv
  exact ⟨Function.invFunOn k {v | v ∈ σ.ty.leaves},
    hk.symm fun _ hv => hinj.leftInvOn_invFunOn hv⟩

theorem AlphaEq.trans (h : σ.AlphaEq τ) (h' : τ.AlphaEq ρ) : σ.AlphaEq ρ := by
  obtain ⟨k, hk⟩ := h
  obtain ⟨l, hl⟩ := h'
  exact ⟨l ∘ k, hk.trans hl⟩

theorem alphaEq_normalize (σ : Scheme) : σ.AlphaEq σ.normalize := ⟨_, σ.renaming_normalize⟩

theorem normalize_eq_iff : σ.normalize = τ.normalize ↔ σ.AlphaEq τ := by
  constructor
  · intro h
    have hσ : σ.AlphaEq τ.normalize := h ▸ σ.alphaEq_normalize
    exact hσ.trans τ.alphaEq_normalize.symm
  · rintro ⟨k, hk⟩
    exact hk.normalize_eq.symm

/-- Normalising keeps what is free and renames what is bound, its quantifiers are the bound variables
in order of appearance, and two schemes have one normal form exactly if they are alpha-equivalent. -/
theorem normalize_canonical (σ : Scheme) :
    (∀ v, σ.normalize.Free v ↔ σ.Free v) ∧
    σ.Renaming σ.normalize σ.renumber ∧
    σ.normalize.vars.Nodup ∧ σ.normalize.vars = σ.normalize.bound ∧
    σ.normalize.normalize = σ.normalize ∧
    ∀ τ : Scheme, σ.normalize = τ.normalize ↔ σ.AlphaEq τ :=
  ⟨fun _ => free_normalize, σ.renaming_normalize, nodup_leastOutside .., σ.bound_normalize.symm,
    σ.normalize_normalize, fun _ => normalize_eq_iff⟩

-- the free variable 0 is left out, and the bound ones change places
example : (Scheme.mk [1, 3, 1, 2] (.arrow (.var 2) (.arrow (.var 0) (.var 1)))).normalize =
    ⟨[1, 2], .arrow (.var 1) (.arrow (.var 0) (.var 2))⟩ := by decide

end Scheme

end LetML
