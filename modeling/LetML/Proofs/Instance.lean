import LetML.Proofs.Stage

namespace LetML

namespace Table

variable {κ α : Type} [DecidableEq κ]

theorem mem_of_lookup {k : κ} {a : α} {l : List (κ × α)} (h : lookup k l = some a) : (k, a) ∈ l := by
  induction l with
  | nil => cases h
  | cons e rest ih =>
    obtain ⟨k', a'⟩ := e
    by_cases hk : k = k'
    · simp_all [lookup]
    · exact List.mem_cons_of_mem _ (ih (by simpa [lookup, hk] using h))

variable [Ord κ] [Std.LawfulEqOrd κ]

theorem lookup_of_mem {k : κ} {a : α} {l : List (κ × α)}
    (hl : l.Pairwise (fun p q => compare p.1 q.1 = .lt)) (h : (k, a) ∈ l) : lookup k l = some a := by
  induction l with
  | nil => cases h
  | cons e rest ih =>
    obtain ⟨he, hr⟩ := List.pairwise_cons.mp hl
    obtain h | h := List.mem_cons.mp h
    · simp [← h, lookup]
    · have hne : k ≠ e.1 := by
        intro hk
        have hlt := he (k, a) h
        simp [hk] at hlt
      simpa [lookup, hne] using ih hr h

theorem mem_values {t : Table κ α} {a : α} : a ∈ t.values ↔ ∃ k, t.get? k = some a := by
  simp only [values, List.mem_map]
  constructor
  · rintro ⟨⟨k, a⟩, h, rfl⟩
    exact ⟨k, lookup_of_mem t.ascending h⟩
  · rintro ⟨k, h⟩
    exact ⟨(k, a), mem_of_lookup h, rfl⟩

end Table

namespace Scheme

/-- The variables of a scheme that no quantifier binds. -/
def Free (σ : Scheme) (v : Nat) : Prop := v ∈ σ.ty.leaves ∧ v ∉ σ.vars

/-- The types of a scheme where its quantified variables stand for any types and the others for
what an assignment gives them. -/
def InstanceUnder (θ : Nat → Ty) (σ : Scheme) (t : Ty) : Prop :=
  ∃ f : Nat → Ty, (∀ v, v ∉ σ.vars → f v = θ v) ∧ t = σ.ty.subst f

/-- The types of a scheme where its quantified variables stand for any types. -/
def Instance (σ : Scheme) (t : Ty) : Prop := σ.InstanceUnder .var t

/-- A substitution brings no quantified variable into the place of a free one. -/
def Avoids (s : Subst) (σ : Scheme) : Prop := ∀ v, σ.Free v → ∀ u ∈ (s.fn v).leaves, u ∉ σ.vars

variable {σ : Scheme} {θ θ' : Nat → Ty} {t : Ty} {s s' : Subst}

theorem mem_unbound {v : Nat} : v ∈ σ.unbound ↔ σ.Free v := by simp [unbound, Free]

theorem closed_iff : σ.Closed ↔ ∀ v, ¬σ.Free v := by
  simp only [Closed, List.eq_nil_iff_forall_not_mem, mem_unbound]

@[simp] theorem free_mono {t : Ty} {v : Nat} : (mono t).Free v ↔ v ∈ t.leaves := by
  simp [mono, Free]

theorem instanceUnder_iff :
    σ.InstanceUnder θ t ↔ ∃ f : Nat → Ty, (∀ v, σ.Free v → f v = θ v) ∧ t = σ.ty.subst f := by
  constructor
  · rintro ⟨f, hf, rfl⟩
    exact ⟨f, fun v hv => hf v hv.2, rfl⟩
  · rintro ⟨f, hf, rfl⟩
    refine ⟨fun v => if v ∈ σ.vars then f v else θ v, fun v hv => by simp [hv], ?_⟩
    refine Ty.subst_congr (fun v hv => ?_)
    by_cases hq : v ∈ σ.vars
    · simp [hq]
    · simp [hq, hf v ⟨hv, hq⟩]

theorem instanceUnder_congr (h : ∀ v, σ.Free v → θ v = θ' v) (ht : σ.InstanceUnder θ t) :
    σ.InstanceUnder θ' t := by
  obtain ⟨f, hf, rfl⟩ := instanceUnder_iff.mp ht
  exact instanceUnder_iff.mpr ⟨f, fun v hv => (hf v hv).trans (h v hv), rfl⟩

@[simp] theorem instanceUnder_mono {a : Ty} : (mono a).InstanceUnder θ t ↔ t = a.subst θ := by
  constructor
  · rintro ⟨f, hf, rfl⟩
    exact Ty.subst_congr (fun v _ => hf v (by simp [mono]))
  · rintro rfl
    exact ⟨θ, fun v _ => rfl, rfl⟩

theorem instance_ty (σ : Scheme) : σ.Instance σ.ty := ⟨.var, fun _ _ => rfl, (Ty.subst_var _).symm⟩

theorem leaves_of_instanceUnder (h : σ.InstanceUnder θ t) {v u : Nat} (hv : σ.Free v)
    (hu : u ∈ (θ v).leaves) : u ∈ t.leaves := by
  obtain ⟨f, hf, rfl⟩ := instanceUnder_iff.mp h
  exact Ty.mem_leaves_subst.mpr ⟨v, hv.1, (hf v hv).symm ▸ hu⟩

theorem exists_instance_leaves (σ : Scheme) : ∃ t, σ.Instance t ∧ ∀ v ∈ t.leaves, σ.Free v := by
  let f : Nat → Ty := fun v => if v ∈ σ.vars then .int else .var v
  refine ⟨σ.ty.subst f, ⟨f, fun v hv => if_neg hv, rfl⟩, fun v hv => ?_⟩
  obtain ⟨u, hu, hv⟩ := Ty.mem_leaves_subst.mp hv
  by_cases hq : u ∈ σ.vars
  · simp [f, hq, Ty.leaves] at hv
  · simp only [f, hq, if_false, Ty.leaves, List.mem_singleton] at hv
    exact hv ▸ ⟨hu, hq⟩

theorem apply_ty (s : Subst) (σ : Scheme) :
    (σ.apply s).ty = σ.ty.subst (fun v => if v ∈ σ.vars then .var v else s.fn v) := by
  rw [apply, Ty.apply_eq_subst]
  exact Ty.subst_congr (fun v _ => Subst.fn_without σ.vars s v)

@[simp] theorem apply_vars (s : Subst) (σ : Scheme) : (σ.apply s).vars = σ.vars := rfl

theorem free_apply {v : Nat} (h : (σ.apply s).Free v) : ∃ u, σ.Free u ∧ v ∈ (s.fn u).leaves := by
  obtain ⟨hv, hq⟩ := h
  rw [apply_ty] at hv
  obtain ⟨u, hu, hv⟩ := Ty.mem_leaves_subst.mp hv
  by_cases hu' : u ∈ σ.vars
  · simp only [hu', if_true, Ty.leaves, List.mem_singleton] at hv
    exact absurd hu' (hv ▸ hq)
  · exact ⟨u, ⟨hu, hu'⟩, by simpa [hu'] using hv⟩

theorem apply_of_closed (h : σ.Closed) (s : Subst) : σ.apply s = σ := by
  have hty : (σ.apply s).ty = σ.ty := by
    rw [apply_ty]
    refine Ty.subst_eq_self (fun v hv => ?_)
    have hq : v ∈ σ.vars := Classical.byContradiction fun hq => closed_iff.mp h v ⟨hv, hq⟩
    exact if_pos hq
  exact congrArg (Scheme.mk σ.vars) hty

@[simp] theorem apply_mono (s : Subst) (t : Ty) : (mono t).apply s = mono (t.apply s) := by
  have hty : ((mono t).apply s).ty = t.apply s := by
    rw [apply_ty, Ty.apply_eq_subst]
    exact Ty.subst_congr (fun v _ => by simp [mono])
  exact congrArg (Scheme.mk []) hty

theorem apply_empty (σ : Scheme) : σ.apply .empty = σ := by
  have hw : Subst.without σ.vars .empty = .empty := by
    apply Table.ext
    simp [Subst.without]
  rw [apply, hw, Ty.apply_empty]

theorem instanceUnder_apply (h : σ.Avoids s) :
    (σ.apply s).InstanceUnder θ t ↔ σ.InstanceUnder (fun v => (s.fn v).subst θ) t := by
  constructor
  · rintro ⟨f, hf, rfl⟩
    refine instanceUnder_iff.mpr
      ⟨fun v => if v ∈ σ.vars then f v else (s.fn v).subst θ, fun v hv => if_neg hv.2, ?_⟩
    rw [apply_ty, Ty.subst_subst]
    refine Ty.subst_congr (fun v hv => ?_)
    by_cases hq : v ∈ σ.vars
    · simp [hq, Ty.subst]
    · simp only [hq, if_false]
      exact Ty.subst_congr (fun u hu => hf u (h v ⟨hv, hq⟩ u hu))
  · rintro ⟨f, hf, rfl⟩
    refine ⟨fun v => if v ∈ σ.vars then f v else θ v, fun v hv => if_neg hv, ?_⟩
    rw [apply_ty, Ty.subst_subst]
    refine Ty.subst_congr (fun v hv => ?_)
    by_cases hq : v ∈ σ.vars
    · simp [hq, Ty.subst]
    · simp only [hq, if_false]
      rw [hf v hq]
      exact Ty.subst_congr (fun u hu => (if_neg (h v ⟨hv, hq⟩ u hu)).symm)

theorem apply_compose (h : σ.Avoids s) : σ.apply (s'.compose s) = (σ.apply s).apply s' := by
  have hty : (σ.apply (s'.compose s)).ty = ((σ.apply s).apply s').ty := by
    rw [apply_ty, apply_ty, apply_ty, Ty.subst_subst]
    refine Ty.subst_congr (fun v hv => ?_)
    by_cases hq : v ∈ σ.vars
    · simp [hq, Ty.subst]
    · simp only [hq, if_false, Subst.fn_compose, Ty.apply_eq_subst, apply_vars]
      exact Ty.subst_congr (fun u hu => (if_neg (h v ⟨hv, hq⟩ u hu)).symm)
  exact congrArg (Scheme.mk σ.vars) hty

theorem Avoids.of_compose (h : σ.Avoids (s'.compose s)) : (σ.apply s).Avoids s' := by
  intro v hv u hu
  obtain ⟨w, hw, hv⟩ := free_apply hv
  refine h w hw u ?_
  rw [Subst.fn_compose, Ty.apply_eq_subst]
  exact Ty.mem_leaves_subst.mpr ⟨v, hv, hu⟩

theorem get?_foldl_zipIdx (vs : List Nat) (n : Nat) (φ : Subst) (v : Nat) :
    (v ∉ vs → (((vs.zipIdx n).map fun e => (e.1, Ty.var e.2)).foldl
      (fun φ e => φ.insert e.1 e.2) φ).get? v = φ.get? v) ∧
    (v ∈ vs → ∃ i, vs[i]? = some v ∧ (((vs.zipIdx n).map fun e => (e.1, Ty.var e.2)).foldl
      (fun φ e => φ.insert e.1 e.2) φ).get? v = some (.var (n + i))) := by
  induction vs generalizing n φ with
  | nil => simp
  | cons w vs ih =>
    obtain ⟨hout, hin⟩ := ih (n + 1) (φ.insert w (.var n))
    simp only [List.zipIdx_cons, List.map_cons, List.foldl_cons]
    refine ⟨fun hv => ?_, fun hv => ?_⟩
    · obtain ⟨hne, hv⟩ := not_or.mp (mt List.mem_cons.mpr hv)
      rw [hout hv, Table.get?_insert, if_neg hne]
    · by_cases hvs : v ∈ vs
      · obtain ⟨i, hi, h⟩ := hin hvs
        refine ⟨i + 1, by simpa using hi, ?_⟩
        rw [h, Nat.add_assoc, Nat.add_comm 1 i]
      · have hw : v = w := (List.mem_cons.mp hv).resolve_right hvs
        refine ⟨0, by simp [hw], ?_⟩
        rw [hout hvs, Table.get?_insert, if_pos hw]
        rfl

theorem exists_instantiate (σ : Scheme) (n : Nat) :
    ∃ f : Nat → Ty, σ.instantiate n = σ.ty.subst f ∧ (∀ v, v ∉ σ.vars → f v = .var v) ∧
      ∀ v ∈ σ.vars, ∃ i, σ.vars[i]? = some v ∧ f v = .var (n + i) := by
  let φ : Subst := Table.ofList (σ.vars.zipIdx n |>.map fun e => (e.1, .var e.2))
  refine ⟨φ.fn, Ty.apply_eq_subst φ σ.ty, fun v hv => ?_, fun v hv => ?_⟩
  · exact Subst.fn_of_none ((get?_foldl_zipIdx σ.vars n .empty v).1 hv)
  · obtain ⟨i, hi, h⟩ := (get?_foldl_zipIdx σ.vars n .empty v).2 hv
    exact ⟨i, hi, Subst.fn_of_some h⟩

theorem instance_instantiate (σ : Scheme) (n : Nat) : σ.Instance (σ.instantiate n) := by
  obtain ⟨f, hf, hout, _⟩ := σ.exists_instantiate n
  exact ⟨f, hout, hf⟩

theorem mem_leaves_instantiate {n v : Nat} (hv : v ∈ (σ.instantiate n).leaves) :
    σ.Free v ∨ n ≤ v ∧ v < n + σ.vars.length := by
  obtain ⟨f, hf, hout, hin⟩ := σ.exists_instantiate n
  rw [hf] at hv
  obtain ⟨u, hu, hv⟩ := Ty.mem_leaves_subst.mp hv
  by_cases hq : u ∈ σ.vars
  · obtain ⟨i, hi, hfu⟩ := hin u hq
    have hlt := (List.getElem?_eq_some_iff.mp hi).1
    simp only [hfu, Ty.leaves, List.mem_singleton] at hv
    exact Or.inr ⟨by omega, by omega⟩
  · simp only [hout u hq, Ty.leaves, List.mem_singleton] at hv
    exact Or.inl (hv ▸ ⟨hu, hq⟩)

/-- Every instance is what the instantiation becomes when its unused variables are given types. -/
theorem exists_subst_instantiate (h : σ.InstanceUnder θ t) {n : Nat} (hn : ∀ v, σ.Free v → v < n) :
    ∃ θ' : Nat → Ty, (∀ v < n, θ' v = θ v) ∧ (σ.instantiate n).subst θ' = t := by
  obtain ⟨g, hg, rfl⟩ := h
  obtain ⟨f, hf, hout, hin⟩ := σ.exists_instantiate n
  let θ' : Nat → Ty := fun v => if v < n then θ v else ((σ.vars[v - n]?).map g).getD (.var v)
  refine ⟨θ', fun v hv => if_pos hv, ?_⟩
  rw [hf, Ty.subst_subst]
  refine Ty.subst_congr (fun v hv => ?_)
  by_cases hq : v ∈ σ.vars
  · obtain ⟨i, hi, hfv⟩ := hin v hq
    have hlt : ¬n + i < n := by omega
    simp [hfv, Ty.subst, θ', hi, hlt]
  · rw [hout v hq, hg v hq]
    exact if_pos (hn v ⟨hv, hq⟩)

end Scheme

end LetML
