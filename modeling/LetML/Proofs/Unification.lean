import LetML.Proofs.Stage

namespace LetML

variable {t₁ t₂ : Ty} {s : Subst} {θ : Nat → Ty} {n : Nat}

theorem unify_var_left (v : Nat) (t : Ty) : unify (.var v) t = bindVar v t := by
  unfold unify
  cases distinctVars (.var v) t <;> rfl

theorem unify_var_right (t : Ty) (v : Nat) : unify t (.var v) = bindVar v t ∨ ∃ u, t = .var u := by
  cases t with
  | var u => exact Or.inr ⟨u, rfl⟩
  | _ =>
    refine Or.inl ?_
    unfold unify
    cases distinctVars _ (.var v) <;> rfl

def Clash : Ty → Ty → Prop
  | .var _, _ | _, .var _ | .int, .int | .bool, .bool | .arrow _ _, .arrow _ _ | .list _, .list _ =>
    False
  | _, _ => True

theorem unify_clash (h : Clash t₁ t₂) : unify t₁ t₂ = .error (.mismatch t₁ t₂) := by
  unfold unify
  cases distinctVars t₁ t₂ <;> cases t₁ <;> cases t₂ <;> first | rfl | exact h.elim

theorem Clash.subst_ne (h : Clash t₁ t₂) (θ : Nat → Ty) : t₁.subst θ ≠ t₂.subst θ := by
  cases t₁ <;> cases t₂ <;> first | exact h.elim | (simp [Ty.subst])

theorem unify_induction {motive : Ty → Ty → Prop}
    (left : ∀ v t, motive (.var v) t) (right : ∀ t v, unify t (.var v) = bindVar v t → motive t (.var v))
    (int : motive .int .int) (bool : motive .bool .bool)
    (arrow : ∀ a₁ a₂ b₁ b₂, motive a₁ b₁ →
      (∀ s, unify a₁ b₁ = .ok s → motive (a₂.apply s) (b₂.apply s)) →
      motive (.arrow a₁ a₂) (.arrow b₁ b₂))
    (list : ∀ a b, motive a b → motive (.list a) (.list b))
    (clash : ∀ t₁ t₂, Clash t₁ t₂ → motive t₁ t₂) (t₁ t₂ : Ty) : motive t₁ t₂ :=
  match t₁, t₂ with
  | .var v, t => left v t
  | t, .var v => (unify_var_right t v).elim (right t v) (fun ⟨u, hu⟩ => hu ▸ left u _)
  | .int, .int => int
  | .bool, .bool => bool
  | .arrow a₁ a₂, .arrow b₁ b₂ =>
    arrow a₁ a₂ b₁ b₂ (unify_induction left right int bool arrow list clash a₁ b₁)
      (fun s _hs => unify_induction left right int bool arrow list clash (a₂.apply s) (b₂.apply s))
  | .list a, .list b => list a b (unify_induction left right int bool arrow list clash a b)
  | .int, .bool | .int, .arrow _ _ | .int, .list _ | .bool, .int | .bool, .arrow _ _
  | .bool, .list _ | .arrow _ _, .int | .arrow _ _, .bool | .arrow _ _, .list _
  | .list _, .int | .list _, .bool | .list _, .arrow _ _ => clash _ _ trivial
termination_by (distinctVars t₁ t₂, t₁.size + t₂.size)
decreasing_by
  · refine Prod.Lex.right' _ (distinctVars_le (fun v hv => ?_)) ?_
    · exact hv.imp (by simp +contextual [Ty.leaves]) (by simp +contextual [Ty.leaves])
    · simp only [Ty.size]; omega
  · exact (shrinks_of_unify _hs).measure_lt
  · refine Prod.Lex.right' _ (distinctVars_le (fun v hv => hv)) ?_
    simp only [Ty.size]; omega

theorem unify_arrow_ok {a₁ a₂ b₁ b₂ : Ty} (h : unify (.arrow a₁ a₂) (.arrow b₁ b₂) = .ok s) :
    ∃ s₁ s₂, unify a₁ b₁ = .ok s₁ ∧ unify (a₂.apply s₁) (b₂.apply s₁) = .ok s₂ ∧
      s = s₂.compose s₁ := by
  rw [unify_arrow] at h
  cases h₁ : unify a₁ b₁ with
  | error e => simp [h₁, bind, Except.bind] at h
  | ok s₁ =>
    simp only [h₁, bind, Except.bind] at h
    cases h₂ : unify (a₂.apply s₁) (b₂.apply s₁) with
    | error e => simp [h₂] at h
    | ok s₂ =>
      simp only [h₂, pure, Except.pure, Except.ok.injEq] at h
      exact ⟨s₁, s₂, rfl, h₂, h.symm⟩

theorem bindVar_ok {v : Nat} {t : Ty} (h : bindVar v t = .ok s) :
    t = .var v ∧ s = .empty ∨ v ∉ t.leaves ∧ s = Subst.single v t := by
  unfold bindVar at h
  by_cases ht : t = .var v
  · simp only [ht, if_true, Except.ok.injEq] at h
    exact Or.inl ⟨ht, h.symm⟩
  · by_cases ho : t.occurs v = true
    · simp [ht, ho] at h
    · rw [if_neg ht, if_neg ho, Except.ok.injEq] at h
      exact Or.inr ⟨by simpa using ho, h.symm⟩

theorem apply_single_of_not_mem {v : Nat} {t : Ty} (hv : v ∉ t.leaves) :
    t.apply (Subst.single v t) = t := by
  refine Ty.apply_eq_self (fun u hu => ?_)
  have hne : u ≠ v := fun h => hv (h ▸ hu)
  simp [Subst.get?_single, hne]

theorem bindVar_equates {v : Nat} {t : Ty} (h : bindVar v t = .ok s) : s.fn v = t.apply s := by
  obtain ⟨rfl, rfl⟩ | ⟨hv, rfl⟩ := bindVar_ok h
  · rfl
  · rw [apply_single_of_not_mem hv]
    simp [Subst.fn, Subst.get?_single]

theorem unify_equates (h : unify t₁ t₂ = .ok s) : t₁.apply s = t₂.apply s := by
  induction t₁, t₂ using unify_induction generalizing s with
  | left v t => exact bindVar_equates (unify_var_left v t ▸ h)
  | right t v hv => exact (bindVar_equates (hv ▸ h)).symm
  | int | bool => rfl
  | arrow a₁ a₂ b₁ b₂ ih₁ ih₂ =>
    obtain ⟨s₁, s₂, h₁, h₂, rfl⟩ := unify_arrow_ok h
    simp only [Ty.apply, Ty.apply_compose]
    rw [ih₁ h₁, ih₂ s₁ h₁ h₂]
  | list a b ih => rw [Ty.apply, Ty.apply, ih (unify_list a b ▸ h)]
  | clash t₁ t₂ hc => rw [unify_clash hc] at h; cases h

/-- A variable is given no type in which it occurs, unless it is that type. -/
theorem size_lt_of_mem_leaves (θ : Nat → Ty) {v : Nat} {t : Ty} (hv : v ∈ t.leaves)
    (ht : t ≠ .var v) : (θ v).size < (t.subst θ).size := by
  induction t with
  | var u => simp_all [Ty.leaves]
  | int | bool => simp [Ty.leaves] at hv
  | arrow a b iha ihb =>
    simp only [Ty.subst, Ty.size]
    obtain hv | hv := List.mem_append.mp hv
    · by_cases ha : a = .var v
      · subst ha; simp only [Ty.subst]; omega
      · have := iha hv ha; omega
    · by_cases hb : b = .var v
      · subst hb; simp only [Ty.subst]; omega
      · have := ihb hv hb; omega
  | list a ih =>
    simp only [Ty.subst, Ty.size]
    by_cases ha : a = .var v
    · subst ha; simp only [Ty.subst]; omega
    · have := ih hv ha; omega

theorem exists_bindVar {v : Nat} {t : Ty} (h : θ v = t.subst θ) :
    ∃ s, bindVar v t = .ok s ∧ Solves θ s := by
  by_cases ht : t = .var v
  · exact ⟨.empty, by simp [bindVar, ht], Solves.empty θ⟩
  · have hv : v ∉ t.leaves := fun hv => by
      have hlt := size_lt_of_mem_leaves θ hv ht
      rw [h] at hlt
      exact Nat.lt_irrefl _ hlt
    refine ⟨Subst.single v t, by simp [bindVar, ht, hv], fun u => ?_⟩
    by_cases hu : u = v
    · subst hu; simp [Subst.fn, Subst.get?_single, h]
    · simp [Subst.fn, Subst.get?_single, hu, Ty.subst]

/-- An equation that an assignment satisfies has a solution, and the assignment solves it. -/
theorem exists_unify (h : t₁.subst θ = t₂.subst θ) : ∃ s, unify t₁ t₂ = .ok s ∧ Solves θ s := by
  induction t₁, t₂ using unify_induction with
  | left v t => rw [unify_var_left]; exact exists_bindVar h
  | right t v hv => rw [hv]; exact exists_bindVar h.symm
  | int => exact ⟨.empty, rfl, Solves.empty θ⟩
  | bool => exact ⟨.empty, rfl, Solves.empty θ⟩
  | arrow a₁ a₂ b₁ b₂ ih₁ ih₂ =>
    obtain ⟨hd, hc⟩ := Ty.arrow.inj h
    obtain ⟨s₁, h₁, hs₁⟩ := ih₁ hd
    obtain ⟨s₂, h₂, hs₂⟩ := ih₂ s₁ h₁ (by rw [hs₁.apply, hs₁.apply, hc])
    refine ⟨s₂.compose s₁, ?_, hs₁.compose hs₂⟩
    rw [unify_arrow, h₁]
    simp only [bind, Except.bind, h₂]
    rfl
  | list a b ih => rw [unify_list]; exact ih (Ty.list.inj h)
  | clash t₁ t₂ hc => exact absurd h (hc.subst_ne θ)

def Either (t₁ t₂ : Ty) (v : Nat) : Prop := v ∈ t₁.leaves ∨ v ∈ t₂.leaves

theorem stage_bindVar {v : Nat} {t : Ty} (h : bindVar v t = .ok s)
    (hn : ∀ u, Either (.var v) t u → u < n) : Stage (Either (.var v) t) n s n := by
  obtain ⟨rfl, rfl⟩ | ⟨hv, rfl⟩ := bindVar_ok h
  · exact Stage.start hn
  · have hget : ∀ u w, (Subst.single v t).get? u = some w → u = v ∧ w = t := by
      intro u w hu
      rw [Subst.get?_single] at hu
      split at hu <;> simp_all
    refine ⟨hn, Nat.le_refl n, fun u w hu => ?_, fun u w hu x hx => ?_⟩
    · exact Or.inl (Or.inl (by simp [Ty.leaves, (hget u w hu).1]))
    · rw [(hget u w hu).2] at hx
      have hne : x ≠ v := fun h => hv (h ▸ hx)
      exact ⟨Or.inl (Or.inr hx), by simp [Subst.get?_single, hne]⟩

/-- A solution gives variables of the equation in terms of others of them. -/
theorem stage_unify (h : unify t₁ t₂ = .ok s) (hn : ∀ v, Either t₁ t₂ v → v < n) :
    Stage (Either t₁ t₂) n s n := by
  induction t₁, t₂ using unify_induction generalizing s with
  | left v t => exact stage_bindVar (unify_var_left v t ▸ h) hn
  | right t v hv =>
    have hb : bindVar v t = .ok s := hv ▸ h
    exact (stage_bindVar hb (fun u hu => hn u hu.symm)).mono (fun u hu => hu.symm) hn
  | int | bool => cases h; exact Stage.start hn
  | arrow a₁ a₂ b₁ b₂ ih₁ ih₂ =>
    obtain ⟨s₁, s₂, h₁, h₂, rfl⟩ := unify_arrow_ok h
    have hfst : ∀ v, Either a₁ b₁ v → Either (.arrow a₁ a₂) (.arrow b₁ b₂) v := fun v hv =>
      hv.imp (by simp +contextual [Ty.leaves]) (by simp +contextual [Ty.leaves])
    have hst := (ih₁ h₁ (fun v hv => hn v (hfst v hv))).mono hfst hn
    have hlive : ∀ v, Either (a₂.apply s₁) (b₂.apply s₁) v →
        Live (Either (.arrow a₁ a₂) (.arrow b₁ b₂)) n s₁ n v := by
      intro v hv
      obtain hv | hv := hv
      · exact hst.apply_live (fun u hu => Or.inl (Or.inl (by simp [Ty.leaves, hu]))) v hv
      · exact hst.apply_live (fun u hu => Or.inl (Or.inr (by simp [Ty.leaves, hu]))) v hv
    exact hst.trans (ih₂ s₁ h₁ h₂ (fun v hv => hst.known_lt (hlive v hv).1)) hlive
  | list a b ih => exact ih (unify_list a b ▸ h) hn
  | clash t₁ t₂ hc => rw [unify_clash hc] at h; cases h

end LetML
