import LetML.Infer.Basic
import LetML.Proofs.Instance

namespace LetML

namespace TypeEnv

/-- The variables that are free in some scheme of an environment. -/
def Free (Γ : TypeEnv) (v : Nat) : Prop := ∃ x σ, Γ.get? x = some σ ∧ σ.Free v

/-- No scheme of the environment has a free variable. -/
def Closed (Γ : TypeEnv) : Prop := ∀ x σ, Γ.get? x = some σ → σ.Closed

/-- A scheme generalises a type over the variables that are not free in the environment. -/
def Generalizes (Γ : TypeEnv) (t : Ty) (σ : Scheme) : Prop :=
  σ.ty = t ∧ ∀ v ∈ t.leaves, v ∈ σ.vars ↔ ¬Γ.Free v

variable {Γ : TypeEnv} {θ : Nat → Ty} {n m : Nat} {s : Subst} {x : String} {σ : Scheme} {t : Ty}

theorem mem_freeVars {v : Nat} : v ∈ Γ.freeVars ↔ Γ.Free v := by
  simp only [freeVars, mem_ascending, List.mem_flatMap, Table.mem_values, Scheme.mem_unbound]
  exact ⟨fun ⟨σ, ⟨x, hx⟩, hv⟩ => ⟨x, σ, hx, hv⟩, fun ⟨x, σ, hx, hv⟩ => ⟨σ, ⟨x, hx⟩, hv⟩⟩

theorem le_foldl_succ (l : List Nat) (n : Nat) : n ≤ l.foldl (fun n v => max n (v + 1)) n := by
  induction l generalizing n with
  | nil => exact Nat.le_refl n
  | cons u l ih => exact Nat.le_trans (Nat.le_max_left n (u + 1)) (ih _)

theorem lt_foldl_succ {l : List Nat} {v : Nat} (hv : v ∈ l) (n : Nat) :
    v < l.foldl (fun n v => max n (v + 1)) n := by
  induction l generalizing n with
  | nil => cases hv
  | cons u l ih =>
    obtain rfl | hv := List.mem_cons.mp hv
    · exact Nat.lt_of_lt_of_le (by omega) (le_foldl_succ l (max n (v + 1)))
    · exact ih hv _

theorem Free.lt_supply {v : Nat} (h : Γ.Free v) : v < Γ.supply :=
  lt_foldl_succ (mem_freeVars.mpr h) 0

theorem Closed.not_free (h : Γ.Closed) (v : Nat) : ¬Γ.Free v :=
  fun ⟨x, σ, hx, hv⟩ => Scheme.closed_iff.mp (h x σ hx) v hv

theorem closed_empty : Closed .empty := fun x σ hx => by
  rw [Table.get?_empty] at hx
  cases hx

theorem Closed.insert (h : Γ.Closed) (hσ : σ.Closed) (x : String) : Closed (Γ.insert x σ) := by
  intro y ς hy
  obtain ⟨-, rfl⟩ | ⟨-, hy⟩ := Table.get?_insert_eq_some_iff.mp hy
  · exact hσ
  · exact h y ς hy

theorem get?_apply (s : Subst) (Γ : TypeEnv) (x : String) :
    (Γ.apply s).get? x = (Γ.get? x).map (Scheme.apply s) := Table.get?_map ..

theorem apply_insert (s : Subst) (Γ : TypeEnv) (x : String) (σ : Scheme) :
    apply s (Γ.insert x σ) = (Γ.apply s).insert x (σ.apply s) := by
  apply Table.ext
  intro y
  by_cases hy : y = x <;> simp [apply, hy]

theorem Closed.apply_eq (h : Γ.Closed) (s : Subst) : Γ.apply s = Γ := by
  apply Table.ext
  intro x
  rw [get?_apply]
  cases hx : Γ.get? x with
  | none => rfl
  | some σ => exact congrArg some (Scheme.apply_of_closed (h x σ hx) s)

@[simp] theorem apply_empty (Γ : TypeEnv) : Γ.apply .empty = Γ := by
  apply Table.ext
  intro x
  rw [get?_apply]
  cases Γ.get? x with
  | none => rfl
  | some σ => exact congrArg some σ.apply_empty

/-- Where nothing is captured, substitutions act on environments one after another. -/
theorem apply_compose (h : ∀ x σ, Γ.get? x = some σ → σ.Avoids s) (s' : Subst) :
    Γ.apply (s'.compose s) = (Γ.apply s).apply s' := by
  apply Table.ext
  intro x
  rw [get?_apply, get?_apply, get?_apply]
  cases hx : Γ.get? x with
  | none => rfl
  | some σ => exact congrArg some (Scheme.apply_compose (h x σ hx))

theorem free_insert {v : Nat} (h : Free (Γ.insert x σ) v) : Γ.Free v ∨ σ.Free v := by
  obtain ⟨y, ς, hy, hv⟩ := h
  obtain ⟨-, rfl⟩ | ⟨-, hy⟩ := Table.get?_insert_eq_some_iff.mp hy
  · exact Or.inr hv
  · exact Or.inl ⟨y, ς, hy, hv⟩

theorem free_apply {v : Nat} (h : (Γ.apply s).Free v) : ∃ u, Γ.Free u ∧ v ∈ (s.fn u).leaves := by
  obtain ⟨x, σ', hx, hv⟩ := h
  rw [get?_apply] at hx
  obtain ⟨σ, hσ, rfl⟩ := Option.map_eq_some_iff.mp hx
  obtain ⟨u, hu, hv⟩ := Scheme.free_apply hv
  exact ⟨u, ⟨x, σ, hσ, hu⟩, hv⟩

theorem bindAll_cons (Γ : TypeEnv) (b : String × Ty) (bs : List (String × Ty)) :
    Γ.bindAll (b :: bs) = bindAll (Γ.insert b.1 (.mono b.2)) bs := rfl

theorem get?_bindAll {bs : List (String × Ty)} (hx : x ∉ bs.map (·.1)) :
    (Γ.bindAll bs).get? x = Γ.get? x := by
  induction bs generalizing Γ with
  | nil => rfl
  | cons b bs ih =>
    rw [List.map_cons, List.mem_cons, not_or] at hx
    rw [bindAll_cons, ih hx.2, Table.get?_insert, if_neg hx.1]

theorem free_bindAll {bs : List (String × Ty)} {v : Nat} (h : (Γ.bindAll bs).Free v) :
    Γ.Free v ∨ ∃ b ∈ bs, v ∈ b.2.leaves := by
  induction bs generalizing Γ with
  | nil => exact Or.inl h
  | cons b bs ih =>
    obtain h | ⟨c, hc, hv⟩ := ih h
    · obtain h | h := free_insert h
      · exact Or.inl h
      · exact Or.inr ⟨b, by simp, Scheme.free_mono.mp h⟩
    · exact Or.inr ⟨c, by simp [hc], hv⟩

theorem apply_bindAll (s : Subst) (Γ : TypeEnv) (bs : List (String × Ty)) :
    (Γ.bindAll bs).apply s = (Γ.apply s).bindAll (bs.map fun b => (b.1, b.2.apply s)) := by
  induction bs generalizing Γ with
  | nil => rfl
  | cons b bs ih => rw [bindAll_cons, ih, apply_insert, Scheme.apply_mono, List.map_cons, bindAll_cons]

theorem free_live (h : Stage Γ.Free n s m) {v : Nat} (hv : (Γ.apply s).Free v) :
    Live Γ.Free n s m v := by
  obtain ⟨u, hu, hv⟩ := free_apply hv
  exact h.fn_live (Or.inl hu) v hv

theorem generalizes_generalize (Γ : TypeEnv) (t : Ty) : Γ.Generalizes t (Γ.generalize t) := by
  refine ⟨rfl, fun v hv => ?_⟩
  simp [generalize, hv, mem_freeVars]

theorem Generalizes.free_iff (h : Γ.Generalizes t σ) {v : Nat} :
    σ.Free v ↔ v ∈ t.leaves ∧ Γ.Free v := by
  obtain ⟨rfl, hq⟩ := h
  constructor
  · rintro ⟨hv, hnq⟩
    exact ⟨hv, Classical.byContradiction fun hf => hnq ((hq v hv).mpr hf)⟩
  · rintro ⟨hv, hf⟩
    exact ⟨hv, fun hv' => (hq v hv).mp hv' hf⟩

theorem Generalizes.instanceUnder_iff (h : Γ.Generalizes t σ) {t' : Ty} :
    σ.InstanceUnder θ t' ↔
      ∃ f : Nat → Ty, (∀ v ∈ t.leaves, Γ.Free v → f v = θ v) ∧ t' = t.subst f := by
  rw [Scheme.instanceUnder_iff, h.1]
  simp only [h.free_iff, and_imp]

end TypeEnv

end LetML
