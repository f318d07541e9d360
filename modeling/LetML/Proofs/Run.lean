import LetML.Infer.Basic

namespace LetML

namespace Supply

def take (u : Supply) (count : Nat) : Supply := { u with next := u.next + count }

def attempt (u : Supply) (t₁ t₂ : Ty) : Supply := { u with tried := (t₁, t₂) :: u.tried }

@[simp] theorem next_take (u : Supply) (count : Nat) : (u.take count).next = u.next + count := rfl

@[simp] theorem next_attempt (u : Supply) (t₁ t₂ : Ty) : (u.attempt t₁ t₂).next = u.next := rfl

end Supply

namespace InferM

variable {α β : Type} {u u' : Supply}

/-- A run that starts with the supply `u` succeeds with a result and leaves the supply `u'`. -/
def Gives (m : InferM α) (u : Supply) (a : α) (u' : Supply) : Prop := m.run u = (.ok a, u')

theorem exists_gives {m : InferM α} {f : α → β} {b : β}
    (h : (m.run u).1.toOption.map f = some b) : ∃ a u', Gives m u a u' ∧ f a = b := by
  cases hrun : m.run u with
  | mk r u' =>
    rw [hrun] at h
    cases r with
    | error err => cases h
    | ok a => exact ⟨a, u', hrun, Option.some.inj h⟩

theorem gives_pure {a b : α} : Gives (pure a) u b u' ↔ b = a ∧ u' = u := by
  constructor
  · intro h
    cases h
    exact ⟨rfl, rfl⟩
  · rintro ⟨rfl, rfl⟩
    rfl

theorem run_bind (m : InferM α) (f : α → InferM β) (u : Supply) : (m >>= f).run u =
    match m.run u with
    | (.ok a, u₁) => (f a).run u₁
    | (.error e, u₁) => (.error e, u₁) := by
  change (ExceptT.bindCont f (m.run u).1) (m.run u).2 = _
  obtain ⟨_ | a, u₁⟩ := m.run u <;> rfl

theorem gives_bind {m : InferM α} {f : α → InferM β} {b : β} :
    Gives (m >>= f) u b u' ↔ ∃ a u₁, Gives m u a u₁ ∧ Gives (f a) u₁ b u' := by
  rw [Gives, run_bind]
  constructor
  · intro h
    cases hm : m.run u with
    | mk r u₁ =>
      cases r with
      | error e => rw [hm] at h; cases h
      | ok a => exact ⟨a, u₁, hm, by rw [hm] at h; exact h⟩
  · rintro ⟨a, u₁, hm, h⟩
    have hm : m.run u = (.ok a, u₁) := hm
    rw [hm]
    exact h

theorem gives_throw {e : TypeError} {a : α} : ¬Gives (throw e) u a u' := by
  intro h
  cases h

theorem gives_fresh {t : Ty} : Gives fresh u t u' ↔ t = .var u.next ∧ u' = u.take 1 := by
  constructor
  · intro h
    cases h
    exact ⟨rfl, rfl⟩
  · rintro ⟨rfl, rfl⟩
    rfl

theorem gives_instantiate {σ : Scheme} {t : Ty} :
    Gives (instantiate σ) u t u' ↔ t = σ.instantiate u.next ∧ u' = u.take σ.vars.length := by
  constructor
  · intro h
    cases h
    exact ⟨rfl, rfl⟩
  · rintro ⟨rfl, rfl⟩
    rfl

theorem run_solve (t₁ t₂ : Ty) (u : Supply) :
    (solve t₁ t₂).run u = (unify t₁ t₂, u.attempt t₁ t₂) := by
  unfold solve
  cases unify t₁ t₂ with
  | ok s => rfl
  | error e => rfl

theorem gives_solve {t₁ t₂ : Ty} {s : Subst} :
    Gives (solve t₁ t₂) u s u' ↔ unify t₁ t₂ = .ok s ∧ u' = u.attempt t₁ t₂ := by
  rw [Gives, run_solve, Prod.mk.injEq]
  exact and_congr_right (fun _ => eq_comm)

end InferM

open InferM

-- makes the equations of inference here, once for all the rules below
attribute [local simp] infer inferElems inferArms inferPattern

/-- Inference gives an expression a type and makes of the environment's variables what `s` says. -/
def Found (Γ : TypeEnv) (e : Expr) (u : Supply) (s : Subst) (t : Ty) (u' : Supply) : Prop :=
  ∃ d, Gives (infer Γ e) u ⟨s, t, d⟩ u'

def FoundElems (Γ : TypeEnv) (elem : Ty) (s : Subst) (es : List Expr) (u : Supply) (s' : Subst)
    (u' : Supply) : Prop :=
  ∃ ds, Gives (inferElems Γ elem s es) u (s', ds) u'

def FoundArms (Γ : TypeEnv) (scrutinee result : Ty) (s : Subst) (arms : List (Pattern × Expr))
    (u : Supply) (s' : Subst) (u' : Supply) : Prop :=
  ∃ ds, Gives (inferArms Γ scrutinee result s arms) u (s', ds) u'

def FoundPattern (p : Pattern) (t : Ty) (u : Supply) (s : Subst) (bs : List (String × Ty))
    (u' : Supply) : Prop :=
  ∃ d, Gives (inferPattern p t) u ⟨s, bs, d⟩ u'

variable {Γ : TypeEnv} {u u' : Supply} {s s' : Subst} {t : Ty}

theorem found_lit {l : Lit} : Found Γ (.lit l) u s t u' ↔ s = .empty ∧ t = l.ty ∧ u' = u := by
  simp only [Found, infer, gives_pure, Inferred.mk.injEq]
  constructor
  · rintro ⟨d, ⟨rfl, rfl, rfl⟩, rfl⟩
    exact ⟨rfl, rfl, rfl⟩
  · rintro ⟨rfl, rfl, rfl⟩
    exact ⟨_, ⟨rfl, rfl, rfl⟩, rfl⟩

theorem found_var {x : String} : Found Γ (.var x) u s t u' ↔
    ∃ σ, Γ.get? x = some σ ∧ s = .empty ∧ t = σ.instantiate u.next ∧ u' = u.take σ.vars.length := by
  simp only [Found, infer]
  cases Γ.get? x with
  | none => simp [gives_throw]
  | some σ =>
    simp only [gives_bind, gives_instantiate, gives_pure, Inferred.mk.injEq]
    constructor
    · rintro ⟨d, _, _, ⟨rfl, rfl⟩, ⟨rfl, rfl, rfl⟩, rfl⟩
      exact ⟨σ, rfl, rfl, rfl, rfl⟩
    · rintro ⟨ς, hς, rfl, rfl, rfl⟩
      obtain rfl := Option.some.inj hς
      exact ⟨_, _, _, ⟨rfl, rfl⟩, ⟨rfl, rfl, rfl⟩, rfl⟩

theorem found_abs {x : String} {b : Expr} : Found Γ (.abs x b) u s t u' ↔
    ∃ a, Found (Γ.insert x (.mono (.var u.next))) b (u.take 1) s a u' ∧
      t = .arrow ((Ty.var u.next).apply s) a := by
  simp only [Found, infer, gives_bind, gives_fresh, gives_pure, Inferred.mk.injEq]
  constructor
  · rintro ⟨d, _, _, ⟨rfl, rfl⟩, ⟨s₁, a, d₁⟩, u₁, h, ⟨rfl, rfl, rfl⟩, rfl⟩
    exact ⟨a, ⟨d₁, h⟩, rfl⟩
  · rintro ⟨a, ⟨d₁, h⟩, rfl⟩
    exact ⟨_, _, _, ⟨rfl, rfl⟩, ⟨s, a, d₁⟩, u', h, ⟨rfl, rfl, rfl⟩, rfl⟩

theorem found_app {f a : Expr} : Found Γ (.app f a) u s t u' ↔
    ∃ s₁ t₁ u₁ s₂ t₂ u₂ s₃, Found Γ f u s₁ t₁ u₁ ∧ Found (Γ.apply s₁) a u₁ s₂ t₂ u₂ ∧
      unify (t₁.apply s₂) (.arrow t₂ (.var u₂.next)) = .ok s₃ ∧
      s = s₃.compose (s₂.compose s₁) ∧ t = (Ty.var u₂.next).apply s₃ ∧
      u' = (u₂.take 1).attempt (t₁.apply s₂) (.arrow t₂ (.var u₂.next)) := by
  simp only [Found, infer, gives_bind, gives_fresh, gives_solve, gives_pure, Inferred.mk.injEq]
  constructor
  · rintro ⟨d, ⟨s₁, t₁, d₁⟩, u₁, h₁, ⟨s₂, t₂, d₂⟩, u₂, h₂, _, _, ⟨rfl, rfl⟩, s₃, _, ⟨h₃, rfl⟩,
      ⟨rfl, rfl, rfl⟩, rfl⟩
    exact ⟨s₁, t₁, u₁, s₂, t₂, u₂, s₃, ⟨d₁, h₁⟩, ⟨d₂, h₂⟩, h₃, rfl, rfl, rfl⟩
  · rintro ⟨s₁, t₁, u₁, s₂, t₂, u₂, s₃, ⟨d₁, h₁⟩, ⟨d₂, h₂⟩, h₃, rfl, rfl, rfl⟩
    exact ⟨_, ⟨s₁, t₁, d₁⟩, u₁, h₁, ⟨s₂, t₂, d₂⟩, u₂, h₂, _, _, ⟨rfl, rfl⟩, s₃, _, ⟨h₃, rfl⟩,
      ⟨rfl, rfl, rfl⟩, rfl⟩

theorem found_letIn {x : String} {v b : Expr} : Found Γ (.letIn x v b) u s t u' ↔
    ∃ s₁ t₁ u₁ s₂, Found Γ v u s₁ t₁ u₁ ∧
      Found ((Γ.apply s₁).insert x ((Γ.apply s₁).generalize (t₁.apply s₁))) b u₁ s₂ t u' ∧
      s = s₂.compose s₁ := by
  simp only [Found, infer, gives_bind, gives_pure, Inferred.mk.injEq]
  constructor
  · rintro ⟨d, ⟨s₁, t₁, d₁⟩, u₁, h₁, ⟨s₂, t₂, d₂⟩, u₂, h₂, ⟨rfl, rfl, rfl⟩, rfl⟩
    exact ⟨s₁, t₁, u₁, s₂, ⟨d₁, h₁⟩, ⟨d₂, h₂⟩, rfl⟩
  · rintro ⟨s₁, t₁, u₁, s₂, ⟨d₁, h₁⟩, ⟨d₂, h₂⟩, rfl⟩
    exact ⟨_, ⟨s₁, t₁, d₁⟩, u₁, h₁, ⟨s₂, t, d₂⟩, u', h₂, ⟨rfl, rfl, rfl⟩, rfl⟩

theorem found_letRec {x : String} {v b : Expr} : Found Γ (.letRec x v b) u s t u' ↔
    ∃ s₁ t₁ u₁ s₂ s₃, Found (Γ.insert x (.mono (.var u.next))) v (u.take 1) s₁ t₁ u₁ ∧
      unify ((Ty.var u.next).apply s₁) (t₁.apply s₁) = .ok s₂ ∧
      Found ((Γ.apply (s₂.compose s₁)).insert x
          ((Γ.apply (s₂.compose s₁)).generalize ((Ty.var u.next).apply (s₂.compose s₁)))) b
        (u₁.attempt ((Ty.var u.next).apply s₁) (t₁.apply s₁)) s₃ t u' ∧
      s = s₃.compose (s₂.compose s₁) := by
  simp only [Found, infer, gives_bind, gives_fresh, gives_solve, gives_pure, Inferred.mk.injEq]
  constructor
  · rintro ⟨d, _, _, ⟨rfl, rfl⟩, ⟨s₁, t₁, d₁⟩, u₁, h₁, s₂, _, ⟨h₂, rfl⟩, ⟨s₃, t₃, d₃⟩, u₃, h₃,
      ⟨rfl, rfl, rfl⟩, rfl⟩
    exact ⟨s₁, t₁, u₁, s₂, s₃, ⟨d₁, h₁⟩, h₂, ⟨d₃, h₃⟩, rfl⟩
  · rintro ⟨s₁, t₁, u₁, s₂, s₃, ⟨d₁, h₁⟩, h₂, ⟨d₃, h₃⟩, rfl⟩
    exact ⟨_, _, _, ⟨rfl, rfl⟩, ⟨s₁, t₁, d₁⟩, u₁, h₁, s₂, _, ⟨h₂, rfl⟩, ⟨s₃, t, d₃⟩, u', h₃,
      ⟨rfl, rfl, rfl⟩, rfl⟩

theorem found_cond {c y n : Expr} : Found Γ (.cond c y n) u s t u' ↔
    ∃ s₁ t₁ u₁ s₂ s₃ t₃ u₃ s₄ t₄ u₄ s₅, Found Γ c u s₁ t₁ u₁ ∧ unify .bool t₁ = .ok s₂ ∧
      Found (Γ.apply (s₂.compose s₁)) y (u₁.attempt .bool t₁) s₃ t₃ u₃ ∧
      Found (Γ.apply (s₃.compose (s₂.compose s₁))) n u₃ s₄ t₄ u₄ ∧
      unify (t₃.apply (s₄.compose (s₃.compose (s₂.compose s₁))))
        (t₄.apply (s₄.compose (s₃.compose (s₂.compose s₁)))) = .ok s₅ ∧
      s = s₅.compose (s₄.compose (s₃.compose (s₂.compose s₁))) ∧ t = t₄.apply s ∧
      u' = u₄.attempt (t₃.apply (s₄.compose (s₃.compose (s₂.compose s₁))))
        (t₄.apply (s₄.compose (s₃.compose (s₂.compose s₁)))) := by
  simp only [Found, infer, gives_bind, gives_solve, gives_pure, Inferred.mk.injEq]
  constructor
  · rintro ⟨d, ⟨s₁, t₁, d₁⟩, u₁, h₁, s₂, _, ⟨h₂, rfl⟩, ⟨s₃, t₃, d₃⟩, u₃, h₃, ⟨s₄, t₄, d₄⟩, u₄, h₄,
      s₅, _, ⟨h₅, rfl⟩, ⟨rfl, rfl, rfl⟩, rfl⟩
    exact ⟨s₁, t₁, u₁, s₂, s₃, t₃, u₃, s₄, t₄, u₄, s₅, ⟨d₁, h₁⟩, h₂, ⟨d₃, h₃⟩, ⟨d₄, h₄⟩, h₅, rfl,
      rfl, rfl⟩
  · rintro ⟨s₁, t₁, u₁, s₂, s₃, t₃, u₃, s₄, t₄, u₄, s₅, ⟨d₁, h₁⟩, h₂, ⟨d₃, h₃⟩, ⟨d₄, h₄⟩, h₅, rfl,
      rfl, rfl⟩
    exact ⟨_, ⟨s₁, t₁, d₁⟩, u₁, h₁, s₂, _, ⟨h₂, rfl⟩, ⟨s₃, t₃, d₃⟩, u₃, h₃, ⟨s₄, t₄, d₄⟩, u₄, h₄,
      s₅, _, ⟨h₅, rfl⟩, ⟨rfl, rfl, rfl⟩, rfl⟩

theorem found_bin {op : BinOp} {l r : Expr} : Found Γ (.bin op l r) u s t u' ↔
    ∃ s₁ t₁ u₁ s₂ s₃ t₃ u₃ s₄, Found Γ l u s₁ t₁ u₁ ∧ unify op.operandTy t₁ = .ok s₂ ∧
      Found (Γ.apply (s₂.compose s₁)) r (u₁.attempt op.operandTy t₁) s₃ t₃ u₃ ∧
      unify op.operandTy (t₃.apply (s₃.compose (s₂.compose s₁))) = .ok s₄ ∧
      s = s₄.compose (s₃.compose (s₂.compose s₁)) ∧ t = op.resultTy ∧
      u' = u₃.attempt op.operandTy (t₃.apply (s₃.compose (s₂.compose s₁))) := by
  simp only [Found, infer, gives_bind, gives_solve, gives_pure, Inferred.mk.injEq]
  constructor
  · rintro ⟨d, ⟨s₁, t₁, d₁⟩, u₁, h₁, s₂, _, ⟨h₂, rfl⟩, ⟨s₃, t₃, d₃⟩, u₃, h₃, s₄, _, ⟨h₄, rfl⟩,
      ⟨rfl, rfl, rfl⟩, rfl⟩
    exact ⟨s₁, t₁, u₁, s₂, s₃, t₃, u₃, s₄, ⟨d₁, h₁⟩, h₂, ⟨d₃, h₃⟩, h₄, rfl, rfl, rfl⟩
  · rintro ⟨s₁, t₁, u₁, s₂, s₃, t₃, u₃, s₄, ⟨d₁, h₁⟩, h₂, ⟨d₃, h₃⟩, h₄, rfl, rfl, rfl⟩
    exact ⟨_, ⟨s₁, t₁, d₁⟩, u₁, h₁, s₂, _, ⟨h₂, rfl⟩, ⟨s₃, t₃, d₃⟩, u₃, h₃, s₄, _, ⟨h₄, rfl⟩,
      ⟨rfl, rfl, rfl⟩, rfl⟩

theorem found_nil : Found Γ .nil u s t u' ↔
    s = .empty ∧ t = .list (.var u.next) ∧ u' = u.take 1 := by
  simp only [Found, infer, gives_bind, gives_fresh, gives_pure, Inferred.mk.injEq]
  constructor
  · rintro ⟨d, _, _, ⟨rfl, rfl⟩, ⟨rfl, rfl, rfl⟩, rfl⟩
    exact ⟨rfl, rfl, rfl⟩
  · rintro ⟨rfl, rfl, rfl⟩
    exact ⟨_, _, _, ⟨rfl, rfl⟩, ⟨rfl, rfl, rfl⟩, rfl⟩

theorem found_cons {h l : Expr} : Found Γ (.cons h l) u s t u' ↔
    ∃ s₁ t₁ u₁ s₂ t₂ u₂ s₃, Found Γ h u s₁ t₁ u₁ ∧ Found (Γ.apply s₁) l u₁ s₂ t₂ u₂ ∧
      unify (.list (t₁.apply (s₂.compose s₁))) (t₂.apply (s₂.compose s₁)) = .ok s₃ ∧
      s = s₃.compose (s₂.compose s₁) ∧ t = (Ty.list (t₁.apply (s₂.compose s₁))).apply s₃ ∧
      u' = u₂.attempt (.list (t₁.apply (s₂.compose s₁))) (t₂.apply (s₂.compose s₁)) := by
  simp only [Found, infer, gives_bind, gives_solve, gives_pure, Inferred.mk.injEq]
  constructor
  · rintro ⟨d, ⟨s₁, t₁, d₁⟩, u₁, h₁, ⟨s₂, t₂, d₂⟩, u₂, h₂, s₃, _, ⟨h₃, rfl⟩, ⟨rfl, rfl, rfl⟩, rfl⟩
    exact ⟨s₁, t₁, u₁, s₂, t₂, u₂, s₃, ⟨d₁, h₁⟩, ⟨d₂, h₂⟩, h₃, rfl, rfl, rfl⟩
  · rintro ⟨s₁, t₁, u₁, s₂, t₂, u₂, s₃, ⟨d₁, h₁⟩, ⟨d₂, h₂⟩, h₃, rfl, rfl, rfl⟩
    exact ⟨_, ⟨s₁, t₁, d₁⟩, u₁, h₁, ⟨s₂, t₂, d₂⟩, u₂, h₂, s₃, _, ⟨h₃, rfl⟩, ⟨rfl, rfl, rfl⟩, rfl⟩

theorem found_list {es : List Expr} : Found Γ (.list es) u s t u' ↔
    FoundElems Γ (.var u.next) .empty es (u.take 1) s u' ∧
      t = .list ((Ty.var u.next).apply s) := by
  simp only [Found, FoundElems, infer, gives_bind, gives_fresh, gives_pure, Inferred.mk.injEq]
  constructor
  · rintro ⟨d, _, _, ⟨rfl, rfl⟩, ⟨s₁, ds⟩, u₁, h, ⟨rfl, rfl, rfl⟩, rfl⟩
    exact ⟨⟨ds, h⟩, rfl⟩
  · rintro ⟨⟨ds, h⟩, rfl⟩
    exact ⟨_, _, _, ⟨rfl, rfl⟩, ⟨s, ds⟩, u', h, ⟨rfl, rfl, rfl⟩, rfl⟩

theorem found_case {e : Expr} {arms : List (Pattern × Expr)} : Found Γ (.case e arms) u s t u' ↔
    ∃ s₁ t₁ u₁, Found Γ e u s₁ t₁ u₁ ∧
      FoundArms Γ t₁ (.var u₁.next) s₁ arms (u₁.take 1) s u' ∧
      t = (Ty.var u₁.next).apply s := by
  simp only [Found, FoundArms, infer, gives_bind, gives_fresh, gives_pure, Inferred.mk.injEq]
  constructor
  · rintro ⟨d, ⟨s₁, t₁, d₁⟩, u₁, h₁, _, _, ⟨rfl, rfl⟩, ⟨s₂, ds⟩, u₂, h₂, ⟨rfl, rfl, rfl⟩, rfl⟩
    exact ⟨s₁, t₁, u₁, ⟨d₁, h₁⟩, ⟨ds, h₂⟩, rfl⟩
  · rintro ⟨s₁, t₁, u₁, ⟨d₁, h₁⟩, ⟨ds, h₂⟩, rfl⟩
    exact ⟨_, ⟨s₁, t₁, d₁⟩, u₁, h₁, _, _, ⟨rfl, rfl⟩, ⟨s, ds⟩, u', h₂, ⟨rfl, rfl, rfl⟩, rfl⟩

theorem foundElems_nil {elem : Ty} : FoundElems Γ elem s [] u s' u' ↔ s' = s ∧ u' = u := by
  simp only [FoundElems, inferElems, gives_pure, Prod.mk.injEq]
  constructor
  · rintro ⟨ds, ⟨rfl, rfl⟩, rfl⟩
    exact ⟨rfl, rfl⟩
  · rintro ⟨rfl, rfl⟩
    exact ⟨_, ⟨rfl, rfl⟩, rfl⟩

theorem foundElems_cons {elem : Ty} {e : Expr} {es : List Expr} :
    FoundElems Γ elem s (e :: es) u s' u' ↔
      ∃ s₁ t₁ u₁ s₂, Found (Γ.apply s) e u s₁ t₁ u₁ ∧
        unify (elem.apply (s₁.compose s)) (t₁.apply (s₁.compose s)) = .ok s₂ ∧
        FoundElems Γ elem (s₂.compose (s₁.compose s)) es
          (u₁.attempt (elem.apply (s₁.compose s)) (t₁.apply (s₁.compose s))) s' u' := by
  simp only [Found, FoundElems, inferElems, gives_bind, gives_solve, gives_pure, Prod.mk.injEq]
  constructor
  · rintro ⟨ds, ⟨s₁, t₁, d₁⟩, u₁, h₁, s₂, _, ⟨h₂, rfl⟩, ⟨s₃, ds₃⟩, u₃, h₃, ⟨rfl, rfl⟩, rfl⟩
    exact ⟨s₁, t₁, u₁, s₂, ⟨d₁, h₁⟩, h₂, ⟨ds₃, h₃⟩⟩
  · rintro ⟨s₁, t₁, u₁, s₂, ⟨d₁, h₁⟩, h₂, ⟨ds₃, h₃⟩⟩
    exact ⟨_, ⟨s₁, t₁, d₁⟩, u₁, h₁, s₂, _, ⟨h₂, rfl⟩, ⟨s', ds₃⟩, u', h₃, ⟨rfl, rfl⟩, rfl⟩

theorem foundArms_nil {scrutinee result : Ty} :
    FoundArms Γ scrutinee result s [] u s' u' ↔ s' = s ∧ u' = u := by
  simp only [FoundArms, inferArms, gives_pure, Prod.mk.injEq]
  constructor
  · rintro ⟨ds, ⟨rfl, rfl⟩, rfl⟩
    exact ⟨rfl, rfl⟩
  · rintro ⟨rfl, rfl⟩
    exact ⟨_, ⟨rfl, rfl⟩, rfl⟩

theorem foundArms_cons {scrutinee result : Ty} {p : Pattern} {b : Expr}
    {arms : List (Pattern × Expr)} :
    FoundArms Γ scrutinee result s ((p, b) :: arms) u s' u' ↔
      ∃ s₁ bs u₁ s₂ t₂ u₂ s₃, FoundPattern p (scrutinee.apply s) u s₁ bs u₁ ∧
        Found ((Γ.apply (s₁.compose s)).bindAll (bs.map fun b => (b.1, b.2.apply (s₁.compose s)))) b
          u₁ s₂ t₂ u₂ ∧
        unify (result.apply (s₂.compose (s₁.compose s))) (t₂.apply (s₂.compose (s₁.compose s))) =
          .ok s₃ ∧
        FoundArms Γ scrutinee result (s₃.compose (s₂.compose (s₁.compose s))) arms
          (u₂.attempt (result.apply (s₂.compose (s₁.compose s)))
            (t₂.apply (s₂.compose (s₁.compose s)))) s' u' := by
  simp only [Found, FoundPattern, FoundArms, inferArms, gives_bind, gives_solve, gives_pure,
    Prod.mk.injEq]
  constructor
  · rintro ⟨ds, ⟨s₁, bs, d₁⟩, u₁, h₁, ⟨s₂, t₂, d₂⟩, u₂, h₂, s₃, _, ⟨h₃, rfl⟩, ⟨s₄, ds₄⟩, u₄, h₄,
      ⟨rfl, rfl⟩, rfl⟩
    exact ⟨s₁, bs, u₁, s₂, t₂, u₂, s₃, ⟨d₁, h₁⟩, ⟨d₂, h₂⟩, h₃, ⟨ds₄, h₄⟩⟩
  · rintro ⟨s₁, bs, u₁, s₂, t₂, u₂, s₃, ⟨d₁, h₁⟩, ⟨d₂, h₂⟩, h₃, ⟨ds₄, h₄⟩⟩
    exact ⟨_, ⟨s₁, bs, d₁⟩, u₁, h₁, ⟨s₂, t₂, d₂⟩, u₂, h₂, s₃, _, ⟨h₃, rfl⟩, ⟨s', ds₄⟩, u', h₄,
      ⟨rfl, rfl⟩, rfl⟩

variable {bs : List (String × Ty)}

theorem foundPattern_var {x : String} : FoundPattern (.var x) t u s bs u' ↔
    s = .empty ∧ bs = [(x, t)] ∧ u' = u := by
  simp only [FoundPattern, inferPattern, gives_pure, InferredPattern.mk.injEq]
  constructor
  · rintro ⟨d, ⟨rfl, rfl, rfl⟩, rfl⟩
    exact ⟨rfl, rfl, rfl⟩
  · rintro ⟨rfl, rfl, rfl⟩
    exact ⟨_, ⟨rfl, rfl, rfl⟩, rfl⟩

theorem foundPattern_wild : FoundPattern .wild t u s bs u' ↔ s = .empty ∧ bs = [] ∧ u' = u := by
  simp only [FoundPattern, inferPattern, gives_pure, InferredPattern.mk.injEq]
  constructor
  · rintro ⟨d, ⟨rfl, rfl, rfl⟩, rfl⟩
    exact ⟨rfl, rfl, rfl⟩
  · rintro ⟨rfl, rfl, rfl⟩
    exact ⟨_, ⟨rfl, rfl, rfl⟩, rfl⟩

theorem foundPattern_lit {l : Lit} : FoundPattern (.lit l) t u s bs u' ↔
    unify l.ty t = .ok s ∧ bs = [] ∧ u' = u.attempt l.ty t := by
  simp only [FoundPattern, inferPattern, gives_bind, gives_solve, gives_pure,
    InferredPattern.mk.injEq]
  constructor
  · rintro ⟨d, s₁, _, ⟨h, rfl⟩, ⟨rfl, rfl, rfl⟩, rfl⟩
    exact ⟨h, rfl, rfl⟩
  · rintro ⟨h, rfl, rfl⟩
    exact ⟨_, s, _, ⟨h, rfl⟩, ⟨rfl, rfl, rfl⟩, rfl⟩

theorem foundPattern_nil : FoundPattern .nil t u s bs u' ↔
    unify (.list (.var u.next)) t = .ok s ∧ bs = [] ∧
      u' = (u.take 1).attempt (.list (.var u.next)) t := by
  simp only [FoundPattern, inferPattern, gives_bind, gives_fresh, gives_solve, gives_pure,
    InferredPattern.mk.injEq]
  constructor
  · rintro ⟨d, _, _, ⟨rfl, rfl⟩, s₁, _, ⟨h, rfl⟩, ⟨rfl, rfl, rfl⟩, rfl⟩
    exact ⟨h, rfl, rfl⟩
  · rintro ⟨h, rfl, rfl⟩
    exact ⟨_, _, _, ⟨rfl, rfl⟩, s, _, ⟨h, rfl⟩, ⟨rfl, rfl, rfl⟩, rfl⟩

theorem foundPattern_cons {p q : Pattern} : FoundPattern (.cons p q) t u s bs u' ↔
    ∃ s₁ s₂ bs₂ u₂ s₃ bs₃, unify (.list (.var u.next)) t = .ok s₁ ∧
      FoundPattern p ((Ty.var u.next).apply s₁) ((u.take 1).attempt (.list (.var u.next)) t)
        s₂ bs₂ u₂ ∧
      FoundPattern q ((Ty.list (.var u.next)).apply (s₂.compose s₁)) u₂ s₃ bs₃ u' ∧
      s = s₃.compose (s₂.compose s₁) ∧ bs = bs₂ ++ bs₃ := by
  simp only [FoundPattern, inferPattern, gives_bind, gives_fresh, gives_solve, gives_pure,
    InferredPattern.mk.injEq]
  constructor
  · rintro ⟨d, _, _, ⟨rfl, rfl⟩, s₁, _, ⟨h₁, rfl⟩, ⟨s₂, bs₂, d₂⟩, u₂, h₂, ⟨s₃, bs₃, d₃⟩, u₃, h₃,
      ⟨rfl, rfl, rfl⟩, rfl⟩
    exact ⟨s₁, s₂, bs₂, u₂, s₃, bs₃, h₁, ⟨d₂, h₂⟩, ⟨d₃, h₃⟩, rfl, rfl⟩
  · rintro ⟨s₁, s₂, bs₂, u₂, s₃, bs₃, h₁, ⟨d₂, h₂⟩, ⟨d₃, h₃⟩, rfl, rfl⟩
    exact ⟨_, _, _, ⟨rfl, rfl⟩, s₁, _, ⟨h₁, rfl⟩, ⟨s₂, bs₂, d₂⟩, u₂, h₂, ⟨s₃, bs₃, d₃⟩, u', h₃,
      ⟨rfl, rfl, rfl⟩, rfl⟩

end LetML
