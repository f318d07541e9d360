import LetML.Proofs.MostGeneral
import LetML.Unify.Trace

namespace LetML

inductive Ty.Part : Ty → Ty → Prop
  | dom (a b : Ty) : Part a (.arrow a b)
  | cod (a b : Ty) : Part b (.arrow a b)
  | elem (a : Ty) : Part a (.list a)

/-- The rules by which a unification comes to a result, with no bound on how often they are used. -/
inductive Unifies : Ty → Ty → Except TypeError Subst → Prop
  | left (v : Nat) (t : Ty) : Unifies (.var v) t (bindVar v t)
  | right {t : Ty} (ht : ∀ u, t ≠ .var u) (v : Nat) : Unifies t (.var v) (bindVar v t)
  | int : Unifies .int .int (.ok .empty)
  | bool : Unifies .bool .bool (.ok .empty)
  | arrow {a₁ a₂ b₁ b₂ : Ty} {s₁ s₂ : Subst} : Unifies a₁ b₁ (.ok s₁) →
    Unifies (a₂.apply s₁) (b₂.apply s₁) (.ok s₂) →
    Unifies (.arrow a₁ a₂) (.arrow b₁ b₂) (.ok (s₂.compose s₁))
  | dom {a₁ b₁ : Ty} {err : TypeError} (a₂ b₂ : Ty) : Unifies a₁ b₁ (.error err) →
    Unifies (.arrow a₁ a₂) (.arrow b₁ b₂) (.error err)
  | cod {a₁ a₂ b₁ b₂ : Ty} {s₁ : Subst} {err : TypeError} : Unifies a₁ b₁ (.ok s₁) →
    Unifies (a₂.apply s₁) (b₂.apply s₁) (.error err) →
    Unifies (.arrow a₁ a₂) (.arrow b₁ b₂) (.error err)
  | list {a b : Ty} {r : Except TypeError Subst} : Unifies a b r → Unifies (.list a) (.list b) r
  | clash {t₁ t₂ : Ty} : Clash t₁ t₂ → Unifies t₁ t₂ (.error (.mismatch t₁ t₂))

/-- The unification of one pair of types comes to that of another. The second halves of two arrows
are met as the solution for the first makes them. -/
inductive Calls : Ty × Ty → Ty × Ty → Prop
  | dom (a₁ a₂ b₁ b₂ : Ty) : Calls (a₁, b₁) (.arrow a₁ a₂, .arrow b₁ b₂)
  | cod {a₁ b₁ : Ty} {s₁ : Subst} (a₂ b₂ : Ty) : Unifies a₁ b₁ (.ok s₁) →
    Calls (a₂.apply s₁, b₂.apply s₁) (.arrow a₁ a₂, .arrow b₁ b₂)
  | elem (a b : Ty) : Calls (a, b) (.list a, .list b)

def FewerVars (p q : Ty × Ty) : Prop :=
  (∀ v, Either p.1 p.2 v → Either q.1 q.2 v) ∧ ∃ v, Either q.1 q.2 v ∧ ¬Either p.1 p.2 v

variable {t₁ t₂ a₁ a₂ b₁ b₂ : Ty} {s₁ : Subst} {r : Except TypeError Subst}

theorem Unifies.eq_unify (h : Unifies t₁ t₂ r) : r = unify t₁ t₂ := by
  induction h with
  | left v t => exact (unify_var_left v t).symm
  | @right t ht v => exact ((unify_var_right t v).resolve_right (fun ⟨u, hu⟩ => ht u hu)).symm
  | int | bool => rfl
  | arrow _ _ ih₁ ih₂ =>
    rw [unify_arrow, ← ih₁]
    simp only [bind, Except.bind, ← ih₂]
    rfl
  | dom a₂ b₂ _ ih =>
    rw [unify_arrow, ← ih]
    rfl
  | cod _ _ ih₁ ih₂ =>
    rw [unify_arrow, ← ih₁]
    simp only [bind, Except.bind, ← ih₂]
  | list _ ih => rw [unify_list, ih]
  | clash hc => exact (unify_clash hc).symm

theorem unifies_unify (t₁ t₂ : Ty) : Unifies t₁ t₂ (unify t₁ t₂) := by
  induction t₁, t₂ using unify_induction with
  | left v t => exact unify_var_left v t ▸ .left v t
  | right t v hv =>
    cases t with
    | var u => exact unify_var_left u (.var v) ▸ .left u (.var v)
    | _ =>
      rw [hv]
      exact .right (fun u hu => Ty.noConfusion hu) v
  | int => exact .int
  | bool => exact .bool
  | arrow a₁ a₂ b₁ b₂ ih₁ ih₂ =>
    cases h : unify (.arrow a₁ a₂) (.arrow b₁ b₂) with
    | ok s =>
      obtain ⟨s₁, s₂, h₁, h₂, rfl⟩ := unify_arrow_ok h
      exact .arrow (h₁ ▸ ih₁) (h₂ ▸ ih₂ s₁ h₁)
    | error err =>
      obtain h₁ | ⟨s₁, h₁, h₂⟩ := unify_arrow_error h
      · exact .dom a₂ b₂ (h₁ ▸ ih₁)
      · exact .cod (h₁ ▸ ih₁) (h₂ ▸ ih₂ s₁ h₁)
  | list a b ih => exact unify_list a b ▸ ih.list
  | clash t₁ t₂ hc => exact unify_clash hc ▸ .clash hc

theorem unifies_iff : Unifies t₁ t₂ r ↔ r = unify t₁ t₂ :=
  ⟨Unifies.eq_unify, fun h => h ▸ unifies_unify t₁ t₂⟩

theorem Unifies.shrinks (h : Unifies a₁ b₁ (.ok s₁)) : s₁.Shrinks a₁ b₁ :=
  shrinks_of_unify h.eq_unify.symm

theorem Calls.mem_subproblems {p : Ty × Ty} (h : Calls p (t₁, t₂)) : p ∈ subproblems t₁ t₂ := by
  cases h with
  | dom => simp [subproblems]
  | cod a₂ b₂ h₁ => simp [subproblems, ← h₁.eq_unify]
  | elem a b => simp [subproblems]

theorem wellFounded_calls : WellFounded Calls := by
  have hwf : WellFounded (InvImage (Prod.Lex (· < ·) (· < ·))
      (fun p : Ty × Ty => (distinctVars p.1 p.2, p.1.size + p.2.size))) :=
    InvImage.wf _ (Prod.lex Nat.lt_wfRel Nat.lt_wfRel).wf
  exact Subrelation.wf (fun h => subproblems_lt h.mem_subproblems) hwf

theorem Unifies.second (h : Unifies a₁ b₁ (.ok s₁)) :
    s₁ = .empty ∧ (a₂.apply s₁).Part (.arrow a₁ a₂) ∧ (b₂.apply s₁).Part (.arrow b₁ b₂) ∨
    s₁ ≠ .empty ∧ FewerVars (a₂.apply s₁, b₂.apply s₁) (.arrow a₁ a₂, .arrow b₁ b₂) := by
  by_cases hs : s₁ = .empty
  · subst hs
    rw [Ty.apply_empty, Ty.apply_empty]
    exact Or.inl ⟨rfl, .cod a₁ a₂, .cod b₁ b₂⟩
  · obtain ⟨v, hv, hr⟩ := h.shrinks.2.resolve_left hs
    have hv' : Either (.arrow a₁ a₂) (.arrow b₁ b₂) v :=
      hv.imp (List.mem_append_left _) (List.mem_append_left _)
    refine Or.inr ⟨hs, fun u hu => h.shrinks.mem_leaves hu, v, hv', ?_⟩
    exact fun hv => hv.elim (hr a₂) (hr b₂)

def Ty.nested (t : Ty) : Nat → Ty
  | 0 => t
  | n + 1 => .list (t.nested n)

theorem Ty.leaves_nested (t : Ty) (n : Nat) : (t.nested n).leaves = t.leaves := by
  induction n with
  | zero => rfl
  | succ n ih => exact ih

theorem Ty.size_nested (t : Ty) (n : Nat) : (t.nested n).size = t.size + n := by
  induction n with
  | zero => rfl
  | succ n ih => rw [nested, size, ih, Nat.add_assoc]

theorem Unifies.single {v : Nat} {t : Ty} (hv : v ∉ t.leaves) :
    Unifies (.var v) t (.ok (.single v t)) := by
  have hne : t ≠ .var v := by
    rintro rfl
    exact hv List.mem_cons_self
  have hbind : bindVar v t = .ok (.single v t) := by simp [bindVar, hne, hv]
  exact hbind ▸ .left v t

theorem exists_growth (k : Nat) : ∃ a₁ a₂ b₁ b₂ s₁, Unifies a₁ b₁ (.ok s₁) ∧
    k + ((Ty.arrow a₁ a₂).size + (Ty.arrow b₁ b₂).size) <
      (a₂.apply s₁).size + (b₂.apply s₁).size := by
  let t := (Ty.var 1).nested (k + 6)
  have hv : 0 ∉ t.leaves := by simp [t, Ty.leaves_nested, Ty.leaves]
  refine ⟨.var 0, .arrow (.var 0) (.var 0), t, .var 2, _, .single hv, ?_⟩
  have hsize : t.size = k + 7 := by
    rw [Ty.size_nested, Ty.size]
    omega
  have hget : (Subst.single 0 t).get? 2 = none := by rw [Subst.get?_single]; rfl
  simp only [Ty.apply, Subst.get?_single, hget, if_true, Option.getD, Ty.size, hsize]
  omega

/-- Unification ends for every pair of types, with the one result that its rules give, though what
is left of an arrow may be larger than the arrow. -/
theorem unify_terminates :
    WellFounded Calls ∧
    (∀ t₁ t₂ r, Unifies t₁ t₂ r ↔ r = unify t₁ t₂) ∧
    (∀ a₁ a₂ b₁ b₂ s₁, Unifies a₁ b₁ (.ok s₁) →
      s₁ = .empty ∧ (a₂.apply s₁).Part (.arrow a₁ a₂) ∧ (b₂.apply s₁).Part (.arrow b₁ b₂) ∨
      s₁ ≠ .empty ∧ FewerVars (a₂.apply s₁, b₂.apply s₁) (.arrow a₁ a₂, .arrow b₁ b₂)) ∧
    ∀ k, ∃ a₁ a₂ b₁ b₂ s₁, Unifies a₁ b₁ (.ok s₁) ∧
      k + ((Ty.arrow a₁ a₂).size + (Ty.arrow b₁ b₂).size) <
        (a₂.apply s₁).size + (b₂.apply s₁).size :=
  ⟨wellFounded_calls, fun _ _ _ => unifies_iff, fun _ _ _ _ _ h => h.second, exists_growth⟩

/-- After `t0` has become `[t1]`, what is left of `t0 -> t0 -> t0` and `[t1] -> t2` is without it. -/
theorem unify_terminates_solved :
    let s := Subst.single 0 (.list (.var 1))
    Unifies (.var 0) (.list (.var 1)) (.ok s) ∧
    FewerVars ((Ty.arrow (.var 0) (.var 0)).apply s, (Ty.var 2).apply s)
      (.arrow (.var 0) (.arrow (.var 0) (.var 0)), .arrow (.list (.var 1)) (.var 2)) := by
  intro s
  have hsolved : Unifies (.var 0) (.list (.var 1)) (.ok s) := .single (by decide)
  have hne : s ≠ .empty := fun h => nomatch congrArg (·.get? 0) h
  exact ⟨hsolved, ((unify_terminates.2.2.1 _ _ _ _ _ hsolved).resolve_left
    (fun h => hne h.1)).2⟩

end LetML
