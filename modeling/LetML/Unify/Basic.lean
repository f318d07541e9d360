import LetML.TypeError
import LetML.Unify.Shrinks

namespace LetML

def bindVar (v : Nat) (t : Ty) : Except TypeError Subst :=
  if t = .var v then .ok .empty
  else if t.occurs v then .error (.infinite v t)
  else .ok (Subst.single v t)

/-- Unify two types, where `smaller` unifies types with fewer variables. The second halves of two
arrows are unified under what the first made of their variables. -/
def unifyUsing (smaller : Ty → Ty → Except TypeError Subst) : Ty → Ty → Except TypeError Subst
  | .var v, t => bindVar v t
  | t, .var v => bindVar v t
  | .int, .int => .ok .empty
  | .bool, .bool => .ok .empty
  | .arrow a₁ a₂, .arrow b₁ b₂ => do
    let s₁ ← unifyUsing smaller a₁ b₁
    if s₁.isEmpty then unifyUsing smaller a₂ b₂
    else
      let s₂ ← smaller (a₂.apply s₁) (b₂.apply s₁)
      return s₂.compose s₁
  | .list a, .list b => unifyUsing smaller a b
  | t₁, t₂ => .error (.mismatch t₁ t₂)

/-- Unify types with at most the given number of distinct variables. Each substitution that is not
empty removes one. -/
def unifyWithin : Nat → Ty → Ty → Except TypeError Subst
  | 0 => unifyUsing (fun t₁ t₂ => .error (.mismatch t₁ t₂))
  | n + 1 => unifyUsing (unifyWithin n)

def unify (t₁ t₂ : Ty) : Except TypeError Subst := unifyWithin (distinctVars t₁ t₂) t₁ t₂

theorem shrinks_of_bindVar {v : Nat} {t : Ty} {s : Subst} (h : bindVar v t = .ok s) :
    s.Shrinks (.var v) t := by
  simp only [bindVar] at h
  split at h
  · cases h; exact Subst.shrinks_empty ..
  · split at h
    · cases h
    · cases h; exact Subst.shrinks_single (by simp_all)

theorem shrinks_of_unifyUsing {smaller : Ty → Ty → Except TypeError Subst}
    (hs : ∀ {t₁ t₂ s}, smaller t₁ t₂ = .ok s → s.Shrinks t₁ t₂) {t₁ t₂ : Ty} {s : Subst}
    (h : unifyUsing smaller t₁ t₂ = .ok s) : s.Shrinks t₁ t₂ := by
  fun_induction unifyUsing smaller t₁ t₂ generalizing s with
  | case1 v t => exact shrinks_of_bindVar h
  | case2 t v => exact (shrinks_of_bindVar h).symm
  | case3 | case4 => cases h; exact Subst.shrinks_empty ..
  | case5 a₁ a₂ b₁ b₂ ih₁ ih₂ =>
    cases h₁ : unifyUsing smaller a₁ b₁ with
    | error e => simp [h₁, bind, Except.bind] at h
    | ok s₁ =>
      have hs₁ := ih₁ h₁
      simp only [h₁, bind, Except.bind] at h
      split at h
      · exact (ih₂ h).mono (by grind [Ty.leaves])
      · cases h₂ : smaller (a₂.apply s₁) (b₂.apply s₁) with
        | error e => simp [h₂] at h
        | ok s₂ =>
          simp only [h₂, pure, Except.pure, Except.ok.injEq] at h
          exact h ▸ hs₁.compose (hs h₂)
  | case6 a b ih => exact (ih h).mono (by simp [Ty.leaves])
  | case7 => cases h

theorem shrinks_of_unifyWithin {n : Nat} {t₁ t₂ : Ty} {s : Subst}
    (h : unifyWithin n t₁ t₂ = .ok s) : s.Shrinks t₁ t₂ := by
  induction n generalizing t₁ t₂ s with
  | zero => exact shrinks_of_unifyUsing (by simp) h
  | succ n ih => exact shrinks_of_unifyUsing ih h

theorem shrinks_of_unify {t₁ t₂ : Ty} {s : Subst} (h : unify t₁ t₂ = .ok s) : s.Shrinks t₁ t₂ :=
  shrinks_of_unifyWithin h

theorem unifyUsing_congr {f g : Ty → Ty → Except TypeError Subst}
    (hf : ∀ {t₁ t₂ s}, f t₁ t₂ = .ok s → s.Shrinks t₁ t₂) {t₁ t₂ : Ty}
    (h : ∀ u₁ u₂, distinctVars u₁ u₂ < distinctVars t₁ t₂ → f u₁ u₂ = g u₁ u₂) :
    unifyUsing f t₁ t₂ = unifyUsing g t₁ t₂ := by
  fun_induction unifyUsing f t₁ t₂ with
  | case5 a₁ a₂ b₁ b₂ ih₁ ih₂ =>
    have hle₁ : distinctVars a₁ b₁ ≤ distinctVars (.arrow a₁ a₂) (.arrow b₁ b₂) :=
      distinctVars_le (by grind [Ty.leaves])
    have hle₂ : distinctVars a₂ b₂ ≤ distinctVars (.arrow a₁ a₂) (.arrow b₁ b₂) :=
      distinctVars_le (by grind [Ty.leaves])
    rw [unifyUsing, ← ih₁ (fun u₁ u₂ hu => h u₁ u₂ (by omega)),
      ← ih₂ (fun u₁ u₂ hu => h u₁ u₂ (by omega))]
    cases h₁ : unifyUsing f a₁ b₁ with
    | error e => rfl
    | ok s₁ =>
      simp only [bind, Except.bind]
      split
      · rfl
      · rename_i hne
        rw [h _ _ ((shrinks_of_unifyUsing hf h₁).distinctVars_lt (by simpa using hne))]
  | case6 a b ih =>
    rw [unifyUsing, ih (fun u₁ u₂ hu => h u₁ u₂ (by simpa [distinctVars, Ty.leaves] using hu))]
  | _ => simp_all [unifyUsing]

theorem unifyWithin_eq {n m : Nat} {t₁ t₂ : Ty} (hn : distinctVars t₁ t₂ ≤ n)
    (hm : distinctVars t₁ t₂ ≤ m) : unifyWithin n t₁ t₂ = unifyWithin m t₁ t₂ := by
  induction n generalizing m t₁ t₂ with
  | zero =>
    cases m with
    | zero => rfl
    | succ m => exact unifyUsing_congr (by simp) (fun u₁ u₂ hu => by omega)
  | succ n ih =>
    cases m with
    | zero => exact unifyUsing_congr shrinks_of_unifyWithin (fun u₁ u₂ hu => by omega)
    | succ m =>
      exact unifyUsing_congr shrinks_of_unifyWithin (fun u₁ u₂ hu => ih (by omega) (by omega))

@[simp] theorem unify_int : unify .int .int = .ok .empty := rfl

@[simp] theorem unify_bool : unify .bool .bool = .ok .empty := rfl

theorem unify_list (a b : Ty) : unify (.list a) (.list b) = unify a b := by
  change unifyWithin (distinctVars a b) (.list a) (.list b) = unifyWithin (distinctVars a b) a b
  cases distinctVars a b <;> rfl

theorem exists_unifyUsing (n : Nat) : ∃ f, unifyWithin n = unifyUsing f ∧
    ∀ u₁ u₂, distinctVars u₁ u₂ < n → f u₁ u₂ = unify u₁ u₂ := by
  cases n with
  | zero => exact ⟨_, rfl, fun u₁ u₂ hu => by omega⟩
  | succ n => exact ⟨_, rfl, fun u₁ u₂ hu => unifyWithin_eq (by omega) (Nat.le_refl _)⟩

theorem unify_arrow (a₁ a₂ b₁ b₂ : Ty) :
    unify (.arrow a₁ a₂) (.arrow b₁ b₂) = (do
      let s₁ ← unify a₁ b₁
      let s₂ ← unify (a₂.apply s₁) (b₂.apply s₁)
      return s₂.compose s₁) := by
  have hle₁ : distinctVars a₁ b₁ ≤ distinctVars (.arrow a₁ a₂) (.arrow b₁ b₂) :=
    distinctVars_le (by grind [Ty.leaves])
  have hle₂ : distinctVars a₂ b₂ ≤ distinctVars (.arrow a₁ a₂) (.arrow b₁ b₂) :=
    distinctVars_le (by grind [Ty.leaves])
  obtain ⟨f, hf, hsmaller⟩ := exists_unifyUsing (distinctVars (.arrow a₁ a₂) (.arrow b₁ b₂))
  have h₁ : unifyUsing f a₁ b₁ = unify a₁ b₁ := by
    rw [← hf]; exact unifyWithin_eq hle₁ (Nat.le_refl _)
  have h₂ : unifyUsing f a₂ b₂ = unify a₂ b₂ := by
    rw [← hf]; exact unifyWithin_eq hle₂ (Nat.le_refl _)
  rw [unify, hf, unifyUsing, h₁, h₂]
  cases hs : unify a₁ b₁ with
  | error e => rfl
  | ok s₁ =>
    simp only [bind, Except.bind]
    split
    · rename_i he
      rw [Table.isEmpty_iff.mp he]
      simp only [Ty.apply_empty, Subst.compose_empty]
      cases unify a₂ b₂ <;> rfl
    · rename_i hne
      rw [hsmaller _ _ ((shrinks_of_unify hs).distinctVars_lt (by simpa using hne))]

end LetML
