import LetML.Proofs.Assignment

namespace LetML

/-- The variables that inference may meet: those it is given and the unused ones it took. -/
def Known (P : Nat → Prop) (n m v : Nat) : Prop := P v ∨ n ≤ v ∧ v < m

/-- The known variables that are not yet solved for. -/
def Live (P : Nat → Prop) (n : Nat) (s : Subst) (m v : Nat) : Prop := Known P n m v ∧ s.get? v = none

/-- A stage of solving equations on the variables `P`, all of them below `n`, with the variables
from `n` up to `m` taken: the solution so far gives known variables in terms of live ones. -/
structure Stage (P : Nat → Prop) (n : Nat) (s : Subst) (m : Nat) : Prop where
  below : ∀ v, P v → v < n
  le : n ≤ m
  keys : ∀ v t, s.get? v = some t → Known P n m v
  range : ∀ v t, s.get? v = some t → ∀ u ∈ t.leaves, Live P n s m u

def Ty.All (p : Nat → Prop) (t : Ty) : Prop := ∀ v ∈ t.leaves, p v

variable {P Q : Nat → Prop} {n m k v : Nat} {s s' : Subst} {t : Ty}

namespace Ty

theorem All.imp {p q : Nat → Prop} (h : t.All p) (hpq : ∀ v, p v → q v) : t.All q :=
  fun v hv => hpq v (h v hv)

@[simp] theorem all_var {p : Nat → Prop} : (var v).All p ↔ p v := by simp [All, leaves]

@[simp] theorem all_int {p : Nat → Prop} : int.All p := by simp [All, leaves]

@[simp] theorem all_bool {p : Nat → Prop} : bool.All p := by simp [All, leaves]

@[simp] theorem all_list {p : Nat → Prop} {a : Ty} : (list a).All p ↔ a.All p := Iff.rfl

@[simp] theorem all_arrow {p : Nat → Prop} {a b : Ty} :
    (arrow a b).All p ↔ a.All p ∧ b.All p := by
  simp [All, leaves, or_imp, forall_and]

theorem all_subst {p : Nat → Prop} {θ : Nat → Ty} :
    (t.subst θ).All p ↔ ∀ v ∈ t.leaves, (θ v).All p := by
  simp only [All, mem_leaves_subst]
  exact ⟨fun h v hv u hu => h u ⟨v, hv, hu⟩, fun h u ⟨v, hv, hu⟩ => h v hv u hu⟩

end Ty

theorem Known.widen (h : Known P n m v) (hk : m ≤ k) : Known P n k v :=
  h.imp_right (fun h => ⟨h.1, by omega⟩)

theorem Live.widen (h : Live P n s m v) (hk : m ≤ k) : Live P n s k v := ⟨h.1.widen hk, h.2⟩

theorem Live.first (P : Nat → Prop) (n : Nat) : (Ty.var n).All (Live P n .empty (n + 1)) :=
  Ty.all_var.mpr ⟨Or.inr ⟨Nat.le_refl n, Nat.lt_succ_self n⟩, rfl⟩

namespace Stage

theorem start (h : ∀ v, P v → v < n) : Stage P n .empty n where
  below := h
  le := Nat.le_refl n
  keys := by simp
  range := by simp

theorem widen (h : Stage P n s m) (hk : m ≤ k) : Stage P n s k where
  below := h.below
  le := Nat.le_trans h.le hk
  keys v t hv := (h.keys v t hv).widen hk
  range v t hv u hu := (h.range v t hv u hu).widen hk

theorem mono (h : Stage P n s m) (hPQ : ∀ v, P v → Q v) (hQ : ∀ v, Q v → v < n) :
    Stage Q n s m where
  below := hQ
  le := h.le
  keys v t hv := (h.keys v t hv).imp_left (hPQ v)
  range v t hv u hu := ⟨(h.range v t hv u hu).1.imp_left (hPQ u), (h.range v t hv u hu).2⟩

theorem known_lt (h : Stage P n s m) (hv : Known P n m v) : v < m := by
  rcases hv with hv | hv
  · exact Nat.lt_of_lt_of_le (h.below v hv) h.le
  · exact hv.2

theorem get?_of_le (h : Stage P n s m) (hv : m ≤ v) : s.get? v = none := by
  cases hs : s.get? v with
  | none => rfl
  | some t => have := h.known_lt (h.keys v t hs); omega

theorem live_fresh (h : Stage P n s m) (hv : m ≤ v) (hk : v < k) : Live P n s k v :=
  ⟨Or.inr ⟨Nat.le_trans h.le hv, hk⟩, h.get?_of_le hv⟩

theorem fn_live (h : Stage P n s m) (hv : Known P n m v) : (s.fn v).All (Live P n s m) := by
  cases hs : s.get? v with
  | none =>
    rw [Subst.fn_of_none hs]
    exact Ty.all_var.mpr ⟨hv, hs⟩
  | some t =>
    rw [Subst.fn_of_some hs]
    exact h.range v t hs

theorem apply_live (h : Stage P n s m) (ht : t.All (Known P n m)) :
    (t.apply s).All (Live P n s m) := by
  rw [Ty.apply_eq_subst]
  exact Ty.all_subst.mpr (fun v hv => h.fn_live (ht v hv))

theorem apply_eq_self (ht : t.All (Live P n s m)) : t.apply s = t :=
  Ty.apply_eq_self (fun v hv => (ht v hv).2)

theorem known_of_later (h : Stage P n s m) (h' : Stage Q m s' k)
    (hQ : ∀ v, Q v → Live P n s m v) (hv : Known Q m k v) : Live P n s k v := by
  rcases hv with hv | hv
  · exact (hQ v hv).widen h'.le
  · exact h.live_fresh hv.1 hv.2

theorem live_of_later (h : Stage P n s m) (h' : Stage Q m s' k)
    (hQ : ∀ v, Q v → Live P n s m v) (hv : Live Q m s' k v) : Live P n (s'.compose s) k v := by
  have hk := h.known_of_later h' hQ hv.1
  exact ⟨hk.1, by simp [Subst.get?_compose, hk.2, hv.2]⟩

theorem fn_later (h : Stage P n s m) (h' : Stage Q m s' k) (hQ : ∀ v, Q v → Live P n s m v)
    (hv : Live P n s m v) : (s'.fn v).All (Live P n (s'.compose s) k) := by
  cases hs : s'.get? v with
  | none =>
    rw [Subst.fn_of_none hs]
    exact Ty.all_var.mpr ⟨hv.1.widen h'.le, by simp [Subst.get?_compose, hv.2, hs]⟩
  | some t =>
    rw [Subst.fn_of_some hs]
    exact fun u hu => h.live_of_later h' hQ (h'.range v t hs u hu)

theorem apply_later (h : Stage P n s m) (h' : Stage Q m s' k)
    (hQ : ∀ v, Q v → Live P n s m v) (ht : t.All (Live P n s m)) :
    (t.apply s').All (Live P n (s'.compose s) k) := by
  rw [Ty.apply_eq_subst]
  exact Ty.all_subst.mpr (fun v hv => h.fn_later h' hQ (ht v hv))

theorem trans (h : Stage P n s m) (h' : Stage Q m s' k) (hQ : ∀ v, Q v → Live P n s m v) :
    Stage P n (s'.compose s) k where
  below := h.below
  le := Nat.le_trans h.le h'.le
  keys v t hv := by
    rw [Subst.get?_compose] at hv
    cases hs : s.get? v with
    | some u => exact (h.keys v u hs).widen h'.le
    | none =>
      rw [hs] at hv
      exact (h.known_of_later h' hQ (h'.keys v t hv)).1
  range v t hv := by
    rw [Subst.get?_compose] at hv
    cases hs : s.get? v with
    | some u =>
      rw [hs] at hv
      obtain rfl := Option.some.inj hv
      exact h.apply_later h' hQ (h.range v u hs)
    | none =>
      rw [hs] at hv
      exact fun u hu => h.live_of_later h' hQ (h'.range v t hv u hu)

/-- The stage that a solution `s'` leads on to, which leaves live what it makes of live types. -/
structure Later (P : Nat → Prop) (n : Nat) (s : Subst) (m : Nat) (s' : Subst) (k : Nat) : Prop where
  le : m ≤ k
  stage : Stage P n (s'.compose s) k
  live : ∀ {t : Ty}, t.All (Live P n s m) → (t.apply s').All (Live P n (s'.compose s) k)

theorem later (h : Stage P n s m) (h' : Stage Q m s' k) (hQ : ∀ v, Q v → Live P n s m v) :
    Later P n s m s' k := ⟨h'.le, h.trans h' hQ, fun ht => h.apply_later h' hQ ht⟩

theorem Later.refl (h : Stage P n s m) : Later P n s m .empty m where
  le := Nat.le_refl m
  stage := by simpa using h
  live ht := by simpa using ht

theorem Later.trans {s'' : Subst} {l : Nat} (h : Later P n s m s' k)
    (h' : Later P n (s'.compose s) k s'' l) : Later P n s m (s''.compose s') l where
  le := Nat.le_trans h.le h'.le
  stage := by
    rw [← Subst.compose_assoc]
    exact h'.stage
  live ht := by
    rw [← Subst.compose_assoc, Ty.apply_compose]
    exact h'.live (h.live ht)

theorem Later.widen {l : Nat} (h : Later P n s m s' k) (hl : k ≤ l) : Later P n s m s' l where
  le := Nat.le_trans h.le hl
  stage := h.stage.widen hl
  live ht := (h.live ht).imp (fun _ hv => hv.widen hl)

end Stage

end LetML
