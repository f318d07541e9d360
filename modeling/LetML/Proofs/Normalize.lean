import Mathlib.Data.List.Nodup
import Mathlib.Data.Set.Function
import Mathlib.Tactic.ByContra
import LetML.Proofs.Instance
import LetML.Unify.Shrinks

namespace LetML

theorem eraseDups_map {f : Nat → Nat} (l : List Nat)
    (hf : ∀ a ∈ l, ∀ b ∈ l, f a = f b → a = b) : (l.map f).eraseDups = l.eraseDups.map f := by
  match l with
  | [] => rfl
  | a :: l =>
    have hfilter : (l.map f).filter (fun b => !b == f a) =
        (l.filter (fun b => !b == a)).map f := by
      rw [List.filter_map]
      congr 1
      refine List.filter_congr (fun b hb => ?_)
      have hab : f b = f a ↔ b = a :=
        ⟨hf b (List.mem_cons_of_mem _ hb) a List.mem_cons_self, fun h => h ▸ rfl⟩
      by_cases h : b = a <;> simp [h, hab]
    rw [List.map_cons, List.eraseDups_cons, List.eraseDups_cons, List.map_cons, hfilter,
      eraseDups_map (l.filter (fun b => !b == a))
        (fun b hb c hc => hf b (List.mem_cons_of_mem _ (List.mem_of_mem_filter hb)) c
          (List.mem_cons_of_mem _ (List.mem_of_mem_filter hc)))]
termination_by l.length
decreasing_by exact Nat.lt_succ_of_le (List.length_filter_le ..)

theorem lookup_zip_of_not_mem {l : List Nat} {v : Nat} (hv : v ∉ l) (m : List Nat) :
    (l.zip m).lookup v = none := by
  refine List.lookup_eq_none_iff.mpr (fun p hp => ?_)
  have hpl : p.1 ∈ l := (List.of_mem_zip hp).1
  simpa using fun h : v = p.1 => hv (h ▸ hpl)

theorem map_lookup_zip {l m : List Nat} (hl : l.Nodup) (hlen : l.length = m.length) :
    l.map (fun v => ((l.zip m).lookup v).getD v) = m := by
  induction l generalizing m with
  | nil => simpa using hlen.symm
  | cons a l ih =>
    cases m with
    | nil => simp at hlen
    | cons b m =>
      obtain ⟨ha, hl⟩ := List.nodup_cons.mp hl
      have hrest : l.map (fun v => (((a :: l).zip (b :: m)).lookup v).getD v) =
          l.map (fun v => ((l.zip m).lookup v).getD v) := by
        refine List.map_congr_left (fun v hv => ?_)
        have hva : v ≠ a := fun h => ha (h ▸ hv)
        rw [List.zip_cons_cons, List.lookup_cons, beq_false_of_ne hva]
      rw [List.map_cons, hrest, ih hl (by simpa using hlen)]
      simp

namespace Scheme

variable {σ : Scheme} {t : Ty}

theorem length_leastOutside (avoid : List Nat) (count : Nat) :
    (leastOutside avoid count).length = count := by
  let l := List.range (count + avoid.length)
  have hin : (l.filter (· ∈ avoid)).length ≤ avoid.length :=
    (List.nodup_range.filter _).length_le_of_subset
      (fun v hv => by simpa using (List.mem_filter.mp hv).2)
  have hsplit : l.length = (l.filter (· ∈ avoid)).length + (l.filter (· ∉ avoid)).length := by
    simp only [← List.countP_eq_length_filter]
    rw [List.length_eq_countP_add_countP (fun v => decide (v ∈ avoid))]
    simp
  have hl : l.length = count + avoid.length := List.length_range
  rw [leastOutside, List.length_take]
  change min count (l.filter (· ∉ avoid)).length = count
  omega

theorem nodup_leastOutside (avoid : List Nat) (count : Nat) : (leastOutside avoid count).Nodup :=
  ((List.nodup_range.filter _).sublist (List.take_sublist ..))

theorem not_mem_of_mem_leastOutside {avoid : List Nat} {count v : Nat}
    (hv : v ∈ leastOutside avoid count) : v ∉ avoid := by
  simpa using (List.mem_filter.mp (List.mem_of_mem_take hv)).2

/-- What normalising makes of the variables of a scheme. -/
def renumber (σ : Scheme) (v : Nat) : Nat :=
  ((σ.bound.zip (leastOutside σ.unbound σ.bound.length)).lookup v).getD v

theorem normalize_ty (σ : Scheme) : σ.normalize.ty = σ.ty.rename σ.renumber := rfl

theorem mem_bound {v : Nat} : v ∈ σ.bound ↔ v ∈ σ.ty.leaves ∧ v ∈ σ.vars := by
  simp [bound]

theorem nodup_bound (σ : Scheme) : σ.bound.Nodup := (nodup_eraseDups _).filter _

theorem map_renumber_bound (σ : Scheme) : σ.bound.map σ.renumber = σ.normalize.vars :=
  map_lookup_zip σ.nodup_bound (length_leastOutside ..).symm

theorem renumber_of_not_mem {v : Nat} (hv : v ∉ σ.vars) : σ.renumber v = v := by
  rw [renumber, lookup_zip_of_not_mem (fun h => hv (mem_bound.mp h).2)]
  rfl

theorem renumber_mem {v : Nat} (hv : v ∈ σ.ty.leaves) (hq : v ∈ σ.vars) :
    σ.renumber v ∈ σ.normalize.vars := by
  rw [← map_renumber_bound]
  exact List.mem_map_of_mem (mem_bound.mpr ⟨hv, hq⟩)

theorem not_free_of_mem_normalize {v : Nat} (hv : v ∈ σ.normalize.vars) : ¬σ.Free v :=
  fun h => not_mem_of_mem_leastOutside hv (mem_unbound.mpr h)

theorem leaves_rename (f : Nat → Nat) (t : Ty) : (t.rename f).leaves = t.leaves.map f := by
  induction t with
  | var v => rfl
  | int | bool => rfl
  | arrow a b iha ihb => simp only [Ty.rename, Ty.leaves, List.map_append, iha, ihb]
  | list a ih => exact ih

theorem rename_eq_subst (f : Nat → Nat) (t : Ty) : t.rename f = t.subst (fun v => .var (f v)) := by
  induction t with
  | var v => rfl
  | int | bool => rfl
  | arrow a b iha ihb => simp only [Ty.rename, Ty.subst, iha, ihb]
  | list a ih => simp only [Ty.rename, Ty.subst, ih]

theorem rename_rename (f g : Nat → Nat) (t : Ty) : (t.rename f).rename g = t.rename (g ∘ f) := by
  rw [rename_eq_subst, rename_eq_subst, rename_eq_subst, Ty.subst_subst]
  rfl

theorem rename_congr {f g : Nat → Nat} {t : Ty} (h : ∀ v ∈ t.leaves, f v = g v) :
    t.rename f = t.rename g := by
  rw [rename_eq_subst, rename_eq_subst]
  exact Ty.subst_congr (fun v hv => congrArg Ty.var (h v hv))

/-- A renaming of the bound variables of `σ` that makes `τ` of it. Different variables get different
names, which the quantifiers of `τ` bind, and what is free in `σ` keeps its name and stays free. -/
structure Renaming (σ τ : Scheme) (k : Nat → Nat) : Prop where
  ty_eq : τ.ty = σ.ty.rename k
  bound_mem : ∀ v ∈ σ.bound, k v ∈ τ.vars
  bound_inj : ∀ u ∈ σ.bound, ∀ v ∈ σ.bound, k u = k v → u = v
  free_eq : ∀ v, σ.Free v → k v = v
  free_not_mem : ∀ v, σ.Free v → v ∉ τ.vars

namespace Renaming

variable {τ : Scheme} {k : Nat → Nat}

theorem mem_vars (h : σ.Renaming τ k) {v : Nat} (hv : v ∈ σ.ty.leaves) :
    k v ∈ τ.vars ↔ v ∈ σ.vars := by
  refine ⟨fun hk => ?_, fun hq => h.bound_mem v (mem_bound.mpr ⟨hv, hq⟩)⟩
  by_contra hq
  rw [h.free_eq v ⟨hv, hq⟩] at hk
  exact h.free_not_mem v ⟨hv, hq⟩ hk

theorem inj (h : σ.Renaming τ k) {u v : Nat} (hu : u ∈ σ.ty.leaves) (hv : v ∈ σ.ty.leaves)
    (huv : k u = k v) : u = v := by
  have hq : u ∈ σ.vars ↔ v ∈ σ.vars := by rw [← h.mem_vars hu, ← h.mem_vars hv, huv]
  by_cases hqu : u ∈ σ.vars
  · exact h.bound_inj u (mem_bound.mpr ⟨hu, hqu⟩) v (mem_bound.mpr ⟨hv, hq.mp hqu⟩) huv
  · rwa [h.free_eq u ⟨hu, hqu⟩, h.free_eq v ⟨hv, mt hq.mpr hqu⟩] at huv

theorem vars_eq (h : σ.Renaming τ k) : τ.ty.vars = σ.ty.vars.map k := by
  rw [h.ty_eq, Ty.vars, leaves_rename]
  exact eraseDups_map σ.ty.leaves (fun u hu v hv => h.inj hu hv)

theorem bound_eq (h : σ.Renaming τ k) : τ.bound = σ.bound.map k := by
  rw [bound, h.vars_eq, List.filter_map, bound]
  congr 1
  refine List.filter_congr (fun v hv => ?_)
  simpa using h.mem_vars (Ty.mem_vars.mp hv)

theorem unbound_eq (h : σ.Renaming τ k) : τ.unbound = σ.unbound := by
  rw [unbound, h.vars_eq, List.filter_map]
  have hfilter : σ.ty.vars.filter ((fun v => decide (v ∉ τ.vars)) ∘ k) = σ.unbound := by
    refine List.filter_congr (fun v hv => ?_)
    simpa using h.mem_vars (Ty.mem_vars.mp hv)
  rw [hfilter]
  exact (List.map_congr_left (fun v hv => h.free_eq v (mem_unbound.mp hv))).trans (List.map_id _)

theorem normalize_eq (h : σ.Renaming τ k) : τ.normalize = σ.normalize := by
  have hvars : τ.normalize.vars = σ.normalize.vars := by
    change leastOutside τ.unbound τ.bound.length = leastOutside σ.unbound σ.bound.length
    rw [h.unbound_eq, h.bound_eq, List.length_map]
  have hbound : σ.bound.map (τ.renumber ∘ k) = σ.bound.map σ.renumber := by
    rw [map_renumber_bound, ← hvars, ← map_renumber_bound, h.bound_eq, List.map_map]
  have hrenumber : ∀ v ∈ σ.ty.leaves, τ.renumber (k v) = σ.renumber v := by
    intro v hv
    by_cases hq : v ∈ σ.vars
    · exact List.map_inj_left.mp hbound v (mem_bound.mpr ⟨hv, hq⟩)
    · rw [renumber_of_not_mem (mt (h.mem_vars hv).mp hq), renumber_of_not_mem hq,
        h.free_eq v ⟨hv, hq⟩]
  have hty : τ.normalize.ty = σ.normalize.ty := by
    rw [normalize_ty, normalize_ty, h.ty_eq, rename_rename]
    exact rename_congr hrenumber
  change Scheme.mk τ.normalize.vars τ.normalize.ty = σ.normalize
  rw [hvars, hty]

end Renaming

theorem renaming_normalize (σ : Scheme) : σ.Renaming σ.normalize σ.renumber where
  ty_eq := normalize_ty σ
  bound_mem _ hv := renumber_mem (mem_bound.mp hv).1 (mem_bound.mp hv).2
  bound_inj u hu v hv huv := by
    have hnodup : (σ.bound.map σ.renumber).Nodup := by
      rw [map_renumber_bound]
      exact nodup_leastOutside ..
    exact List.inj_on_of_nodup_map hnodup hu hv huv
  free_eq _ hv := renumber_of_not_mem hv.2
  free_not_mem _ hv := fun h => not_free_of_mem_normalize h hv

theorem renumber_inj {u v : Nat} (hu : u ∈ σ.ty.leaves) (hv : v ∈ σ.ty.leaves)
    (h : σ.renumber u = σ.renumber v) : u = v :=
  σ.renaming_normalize.inj hu hv h

/-- The quantifiers of a normalised scheme are its bound variables, in order of appearance. -/
theorem bound_normalize (σ : Scheme) : σ.normalize.bound = σ.normalize.vars := by
  rw [σ.renaming_normalize.bound_eq, map_renumber_bound]

theorem unbound_normalize (σ : Scheme) : σ.normalize.unbound = σ.unbound :=
  σ.renaming_normalize.unbound_eq

theorem closed_normalize : σ.normalize.Closed ↔ σ.Closed := by
  rw [Closed, Closed, unbound_normalize]

theorem normalize_normalize (σ : Scheme) : σ.normalize.normalize = σ.normalize :=
  σ.renaming_normalize.normalize_eq

theorem free_normalize {v : Nat} : σ.normalize.Free v ↔ σ.Free v := by
  rw [← mem_unbound, unbound_normalize, mem_unbound]

theorem exists_renumber (σ : Scheme) (f : Nat → Ty) :
    ∃ g : Nat → Ty, ∀ v ∈ σ.ty.leaves, g (σ.renumber v) = f v := by
  have hinj : Set.InjOn σ.renumber {v | v ∈ σ.ty.leaves} := fun _ hu _ hv h => renumber_inj hu hv h
  exact ⟨f ∘ Function.invFunOn σ.renumber {v | v ∈ σ.ty.leaves},
    fun _ hv => congrArg f (hinj.leftInvOn_invFunOn hv)⟩

theorem instance_normalize : σ.normalize.Instance t ↔ σ.Instance t := by
  have hsubst : ∀ g, σ.normalize.ty.subst g = σ.ty.subst (fun v => g (σ.renumber v)) := by
    intro g
    rw [normalize_ty, rename_eq_subst, Ty.subst_subst]
    rfl
  rw [Instance, Instance, instanceUnder_iff, instanceUnder_iff]
  refine ⟨fun ⟨g, hg, ht⟩ => ?_, fun ⟨f, hf, ht⟩ => ?_⟩
  · refine ⟨fun v => g (σ.renumber v), fun v hv => ?_, by rw [ht, hsubst]⟩
    change g (σ.renumber v) = .var v
    rw [renumber_of_not_mem hv.2]
    exact hg v (free_normalize.mpr hv)
  · obtain ⟨g, hg⟩ := σ.exists_renumber f
    refine ⟨g, fun v hv => ?_, by rw [ht, hsubst, Ty.subst_congr hg]⟩
    have hv' := free_normalize.mp hv
    rw [← hf v hv', ← hg v hv'.1, renumber_of_not_mem hv'.2]

theorem bound_of_closed (hσ : σ.Closed) : σ.bound = σ.ty.vars := by
  refine List.filter_eq_self.mpr (fun v hv => ?_)
  by_cases hq : v ∈ σ.vars
  · exact decide_eq_true hq
  · exact (closed_iff.mp hσ v ⟨Ty.mem_vars.mp hv, hq⟩).elim

end Scheme

end LetML
