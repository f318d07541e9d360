import LetML.Proofs.MentionedTypes
import LetML.Proofs.Shift

namespace LetML

open InferM

variable {α β γ δ : Type} {c : Nat} {Γ Γ' : TypeEnv} {R : α → β → Prop} {Q : γ → δ → Prop}

/-- Two outcomes of inference that agree but for the numbers of the variables in them, where `R` says
what this means of a success. -/
inductive ShiftedOutcome (c : Nat) (R : α → β → Prop) : Except TypeError α → Except TypeError β → Prop
  | ok {a : α} {b : β} (h : R a b) : ShiftedOutcome c R (.ok a) (.ok b)
  | error (e : TypeError) : ShiftedOutcome c R (.error e) (.error (e.shift c))

namespace InferM

/-- Started `c` apart, two runs stay `c` apart and have outcomes that agree but for this. -/
def InStep (c : Nat) (R : α → β → Prop) (m : InferM α) (m' : InferM β) : Prop :=
  ∀ u u' : Supply, u'.next = u.next + c →
    (m'.run u').2.next = (m.run u).2.next + c ∧ ShiftedOutcome c R (m.run u).1 (m'.run u').1

namespace InStep

theorem pure {a : α} {b : β} (h : R a b) : InStep c R (pure a) (pure b) := fun _ _ hu => ⟨hu, .ok h⟩

theorem throw (e : TypeError) : InStep c R (throw e) (throw (e.shift c)) :=
  fun _ _ hu => ⟨hu, .error e⟩

theorem bind {m : InferM α} {m' : InferM β} {f : α → InferM γ} {f' : β → InferM δ}
    (hm : InStep c R m m') (hf : ∀ a b, R a b → InStep c Q (f a) (f' b)) :
    InStep c Q (m >>= f) (m' >>= f') := by
  intro u u' hu
  obtain ⟨hnext, hout⟩ := hm u u' hu
  rw [run_bind, run_bind]
  generalize m.run u = r at hnext hout
  generalize m'.run u' = r' at hnext hout
  obtain ⟨r, u₁⟩ := r
  obtain ⟨r', u₁'⟩ := r'
  cases hout with
  | ok h => exact hf _ _ h u₁ u₁' hnext
  | error e => exact ⟨hnext, .error e⟩

theorem fresh : InStep c (fun t t' => t' = t.shift c) fresh fresh := by
  intro u u' hu
  refine ⟨?_, .ok (congrArg Ty.var hu)⟩
  change u'.next + 1 = u.next + 1 + c
  omega

theorem instantiate {σ σ' : Scheme} (h : σ.Shifted c σ') :
    InStep c (fun t t' => t' = t.shift c) (instantiate σ) (instantiate σ') := by
  intro u u' hu
  have ht : σ'.instantiate u'.next = (σ.instantiate u.next).shift c := by
    rw [hu]
    exact h.instantiate u.next
  refine ⟨?_, .ok ht⟩
  change u'.next + σ'.vars.length = u.next + σ.vars.length + c
  rw [h.length_eq]
  omega

theorem solve {t₁ t₂ t₁' t₂' : Ty} (h₁ : t₁' = t₁.shift c) (h₂ : t₂' = t₂.shift c) :
    InStep c (fun s s' => s' = s.shift c) (solve t₁ t₂) (solve t₁' t₂') := by
  intro u u' hu
  rw [h₁, h₂, run_solve, run_solve, unify_shift]
  refine ⟨hu, ?_⟩
  cases unify t₁ t₂ with
  | ok s => exact .ok rfl
  | error e => exact .error e

end InStep

end InferM

def Inferred.Shifted (c : Nat) (r r' : Inferred) : Prop :=
  r'.subst = r.subst.shift c ∧ r'.ty = r.ty.shift c

def InferredPattern.Shifted (c : Nat) (m m' : InferredPattern) : Prop :=
  m'.subst = m.subst.shift c ∧ m'.bindings = m.bindings.map fun b => (b.1, b.2.shift c)

@[simp] theorem Lit.shift_ty (c : Nat) (l : Lit) : l.ty.shift c = l.ty := by cases l <;> rfl

@[simp] theorem BinOp.shift_operandTy (c : Nat) (op : BinOp) :
    op.operandTy.shift c = op.operandTy := by
  cases op <;> rfl

@[simp] theorem BinOp.shift_resultTy (c : Nat) (op : BinOp) : op.resultTy.shift c = op.resultTy := by
  cases op <;> rfl

theorem inferPattern_inStep (p : Pattern) (t : Ty) :
    InStep c (InferredPattern.Shifted c) (inferPattern p t) (inferPattern p (t.shift c)) := by
  induction p generalizing t with
  | var x | wild => exact .pure ⟨rfl, rfl⟩
  | lit l =>
    refine .bind (.solve (by simp) rfl) ?_
    rintro s _ rfl
    exact .pure ⟨rfl, rfl⟩
  | nil =>
    refine .bind .fresh ?_
    rintro a _ rfl
    refine .bind (.solve rfl rfl) ?_
    rintro s _ rfl
    exact .pure ⟨rfl, rfl⟩
  | cons p q ihp ihq =>
    refine .bind .fresh ?_
    rintro a _ rfl
    refine .bind (.solve rfl rfl) ?_
    rintro s _ rfl
    rw [← Ty.shift_apply]
    refine (ihp _).bind ?_
    rintro ⟨s₁, bs₁, d₁⟩ ⟨_, _, d₁'⟩ ⟨rfl, rfl⟩
    have hlist : (Ty.list (a.shift c)).apply ((s₁.shift c).compose (s.shift c)) =
        ((Ty.list a).apply (s₁.compose s)).shift c := by simp
    simp only [hlist]
    refine (ihq _).bind ?_
    rintro ⟨s₂, bs₂, d₂⟩ ⟨_, _, d₂'⟩ ⟨rfl, rfl⟩
    exact .pure ⟨by simp, List.map_append.symm⟩

def KeepsStep (c : Nat) (e : Expr) : Prop :=
  ∀ {Γ Γ' : TypeEnv}, Γ.Shifted c Γ' → InStep c (Inferred.Shifted c) (infer Γ e) (infer Γ' e)

theorem inferElems_inStep {es : List Expr} (hes : ∀ e ∈ es, KeepsStep c e) (h : Γ.Shifted c Γ')
    (elem : Ty) (s : Subst) :
    InStep c (fun r r' => r'.1 = r.1.shift c) (inferElems Γ elem s es)
      (inferElems Γ' (elem.shift c) (s.shift c) es) := by
  induction es generalizing s with
  | nil => exact .pure rfl
  | cons e es ih =>
    refine .bind (hes e (by simp) (h.apply rfl)) ?_
    rintro ⟨s₁, t₁, d₁⟩ ⟨_, _, d₁'⟩ ⟨rfl, rfl⟩
    refine .bind (.solve (by simp) (by simp)) ?_
    rintro s₂ _ rfl
    have hs : (s₂.shift c).compose ((s₁.shift c).compose (s.shift c)) =
        (s₂.compose (s₁.compose s)).shift c := by simp
    simp only [hs]
    refine .bind (ih (fun e he => hes e (by simp [he])) _) ?_
    rintro ⟨s₃, ds⟩ ⟨_, ds'⟩ rfl
    exact .pure rfl

theorem inferArms_inStep {arms : List (Pattern × Expr)} (harms : ∀ a ∈ arms, KeepsStep c a.2)
    (h : Γ.Shifted c Γ') (scrutinee result : Ty) (s : Subst) :
    InStep c (fun r r' => r'.1 = r.1.shift c) (inferArms Γ scrutinee result s arms)
      (inferArms Γ' (scrutinee.shift c) (result.shift c) (s.shift c) arms) := by
  induction arms generalizing s with
  | nil => exact .pure rfl
  | cons arm arms ih =>
    obtain ⟨p, b⟩ := arm
    rw [inferArms, inferArms, ← Ty.shift_apply]
    refine .bind (inferPattern_inStep p _) ?_
    rintro ⟨s₁, bs, d₁⟩ ⟨_, _, d₁'⟩ ⟨rfl, rfl⟩
    have hbs : (bs.map fun b => (b.1, b.2.shift c)).map (fun b =>
        (b.1, b.2.apply ((s₁.shift c).compose (s.shift c)))) =
        (bs.map fun b => (b.1, b.2.apply (s₁.compose s))).map fun b => (b.1, b.2.shift c) := by
      simp
    simp only [hbs]
    refine .bind (harms (p, b) (by simp) (.bindAll (h.apply (by simp)) _)) ?_
    rintro ⟨s₂, t₂, d₂⟩ ⟨_, _, d₂'⟩ ⟨rfl, rfl⟩
    refine .bind (.solve (by simp) (by simp)) ?_
    rintro s₃ _ rfl
    have hs : (s₃.shift c).compose ((s₂.shift c).compose ((s₁.shift c).compose (s.shift c))) =
        (s₃.compose (s₂.compose (s₁.compose s))).shift c := by simp
    simp only [hs]
    refine .bind (ih (fun a ha => harms a (by simp [ha])) _) ?_
    rintro ⟨s₄, ds⟩ ⟨_, ds'⟩ rfl
    exact .pure rfl

theorem keepsStep (c : Nat) (e : Expr) : KeepsStep c e := by
  induction e using Expr.ind with
  | lit l =>
    intro Γ Γ' _
    exact .pure ⟨rfl, by simp⟩
  | var x =>
    intro Γ Γ' h
    rw [infer, infer]
    have hx := h x
    generalize Γ.get? x = σ at hx
    generalize Γ'.get? x = σ' at hx
    cases hx with
    | none => exact .throw (.unbound x)
    | some hσ =>
      refine .bind (.instantiate hσ) ?_
      rintro t _ rfl
      exact .pure ⟨rfl, rfl⟩
  | abs x b ihb =>
    intro Γ Γ' h
    rw [infer, infer]
    refine .bind .fresh ?_
    rintro a _ rfl
    refine .bind (ihb (h.insert x rfl)) ?_
    rintro ⟨s, t, d⟩ ⟨_, _, d'⟩ ⟨rfl, rfl⟩
    exact .pure ⟨rfl, by simp⟩
  | app f a ihf iha =>
    intro Γ Γ' h
    rw [infer, infer]
    refine .bind (ihf h) ?_
    rintro ⟨s₁, t₁, d₁⟩ ⟨_, _, d₁'⟩ ⟨rfl, rfl⟩
    refine .bind (iha (h.apply rfl)) ?_
    rintro ⟨s₂, t₂, d₂⟩ ⟨_, _, d₂'⟩ ⟨rfl, rfl⟩
    refine .bind .fresh ?_
    rintro r _ rfl
    refine .bind (.solve (by simp) (by simp)) ?_
    rintro s₃ _ rfl
    exact .pure ⟨by simp, by simp⟩
  | letIn x v b ihv ihb =>
    intro Γ Γ' h
    rw [infer, infer]
    refine .bind (ihv h) ?_
    rintro ⟨s₁, t₁, d₁⟩ ⟨_, _, d₁'⟩ ⟨rfl, rfl⟩
    have h₁ := h.apply (s := s₁) rfl
    refine .bind (ihb (h₁.insert x (h₁.generalize (by simp)))) ?_
    rintro ⟨s₂, t₂, d₂⟩ ⟨_, _, d₂'⟩ ⟨rfl, rfl⟩
    exact .pure ⟨by simp, rfl⟩
  | letRec x v b ihv ihb =>
    intro Γ Γ' h
    rw [infer, infer]
    refine .bind .fresh ?_
    rintro a _ rfl
    refine .bind (ihv (h.insert x rfl)) ?_
    rintro ⟨s₁, t₁, d₁⟩ ⟨_, _, d₁'⟩ ⟨rfl, rfl⟩
    refine .bind (.solve (by simp) (by simp)) ?_
    rintro s₂ _ rfl
    have h₁ := h.apply (s := s₂.compose s₁) (Subst.shift_compose c s₂ s₁).symm
    refine .bind (ihb (h₁.insert x (h₁.generalize (by simp)))) ?_
    rintro ⟨s₃, t₃, d₃⟩ ⟨_, _, d₃'⟩ ⟨rfl, rfl⟩
    exact .pure ⟨by simp, rfl⟩
  | cond b y n ihb ihy ihn =>
    intro Γ Γ' h
    rw [infer, infer]
    refine .bind (ihb h) ?_
    rintro ⟨s₁, t₁, d₁⟩ ⟨_, _, d₁'⟩ ⟨rfl, rfl⟩
    refine .bind (.solve (by simp) (by simp)) ?_
    rintro s₂ _ rfl
    refine .bind (ihy (h.apply (by simp))) ?_
    rintro ⟨s₃, t₃, d₃⟩ ⟨_, _, d₃'⟩ ⟨rfl, rfl⟩
    refine .bind (ihn (h.apply (by simp))) ?_
    rintro ⟨s₄, t₄, d₄⟩ ⟨_, _, d₄'⟩ ⟨rfl, rfl⟩
    refine .bind (.solve (by simp) (by simp)) ?_
    rintro s₅ _ rfl
    exact .pure ⟨by simp, by simp⟩
  | bin op l r ihl ihr =>
    intro Γ Γ' h
    rw [infer, infer]
    refine .bind (ihl h) ?_
    rintro ⟨s₁, t₁, d₁⟩ ⟨_, _, d₁'⟩ ⟨rfl, rfl⟩
    refine .bind (.solve (by simp) (by simp)) ?_
    rintro s₂ _ rfl
    refine .bind (ihr (h.apply (by simp))) ?_
    rintro ⟨s₃, t₃, d₃⟩ ⟨_, _, d₃'⟩ ⟨rfl, rfl⟩
    refine .bind (.solve (by simp) (by simp)) ?_
    rintro s₄ _ rfl
    exact .pure ⟨by simp, by simp⟩
  | nil =>
    intro Γ Γ' _
    rw [infer, infer]
    refine .bind .fresh ?_
    rintro a _ rfl
    exact .pure ⟨rfl, rfl⟩
  | cons hd tl ihh iht =>
    intro Γ Γ' h
    rw [infer, infer]
    refine .bind (ihh h) ?_
    rintro ⟨s₁, t₁, d₁⟩ ⟨_, _, d₁'⟩ ⟨rfl, rfl⟩
    refine .bind (iht (h.apply rfl)) ?_
    rintro ⟨s₂, t₂, d₂⟩ ⟨_, _, d₂'⟩ ⟨rfl, rfl⟩
    refine .bind (.solve (by simp) (by simp)) ?_
    rintro s₃ _ rfl
    exact .pure ⟨by simp, by simp⟩
  | list es ih =>
    intro Γ Γ' h
    rw [infer, infer]
    refine .bind .fresh ?_
    rintro a _ rfl
    refine .bind (inferElems_inStep ih h a .empty) ?_
    rintro ⟨s, ds⟩ ⟨_, ds'⟩ rfl
    exact .pure ⟨rfl, by simp⟩
  | case e arms ihe iharms =>
    intro Γ Γ' h
    rw [infer, infer]
    refine .bind (ihe h) ?_
    rintro ⟨s₁, t₁, d₁⟩ ⟨_, _, d₁'⟩ ⟨rfl, rfl⟩
    refine .bind .fresh ?_
    rintro a _ rfl
    refine .bind (inferArms_inStep iharms h t₁ a s₁) ?_
    rintro ⟨s₂, ds⟩ ⟨_, ds'⟩ rfl
    exact .pure ⟨rfl, by simp⟩

def inferred (Γ : TypeEnv) (e : Expr) (u : Supply) : Except TypeError (Subst × Ty) :=
  ((infer Γ e).run u).1.map fun r => (r.subst, r.ty)

/-- What inference makes of expressions in turn: each starts where the one before it has stopped, be
it with a type or with an error. -/
def inferredInTurn (Γ : TypeEnv) : List Expr → Supply → List (Except TypeError (Subst × Ty))
  | [], _ => []
  | e :: es, u => inferred Γ e u :: inferredInTurn Γ es ((infer Γ e).run u).2

def shiftInferred (c : Nat) : Except TypeError (Subst × Ty) → Except TypeError (Subst × Ty)
  | .ok (s, t) => .ok (s.shift c, t.shift c)
  | .error e => .error (e.shift c)

def TypeEnv.taken (Γ : TypeEnv) : List Expr → Nat
  | [] => 0
  | e :: es => ((infer Γ e).run ⟨0, []⟩).2.next + Γ.taken es

theorem next_infer (hΓ : Γ.Closed) (e : Expr) (u : Supply) :
    ((infer Γ e).run u).2.next = u.next + ((infer Γ e).run ⟨0, []⟩).2.next :=
  ((keepsStep u.next e (hΓ.shifted _) ⟨0, []⟩ u (Nat.zero_add _).symm).1).trans (Nat.add_comm _ _)

theorem inferred_eq_shift (hΓ : Γ.Closed) (e : Expr) (u : Supply) :
    inferred Γ e u = shiftInferred u.next (inferred Γ e ⟨0, []⟩) := by
  obtain ⟨-, hout⟩ := keepsStep u.next e (hΓ.shifted _) ⟨0, []⟩ u (Nat.zero_add _).symm
  unfold inferred
  generalize ((infer Γ e).run ⟨0, []⟩).1 = r at hout
  generalize ((infer Γ e).run u).1 = r' at hout
  cases hout with
  | ok h => exact congrArg Except.ok (Prod.ext h.1 h.2)
  | error e => rfl

theorem getElem?_inferredInTurn (hΓ : Γ.Closed) (es : List Expr) (u : Supply) (i : Nat) :
    (inferredInTurn Γ es u)[i]? = es[i]?.map fun e =>
      shiftInferred (u.next + Γ.taken (es.take i)) (inferred Γ e ⟨0, []⟩) := by
  induction es generalizing u i with
  | nil => rfl
  | cons e es ih =>
    cases i with
    | zero => exact congrArg some (inferred_eq_shift hΓ e u)
    | succ i =>
      rw [inferredInTurn, List.getElem?_cons_succ, List.getElem?_cons_succ, List.take_succ_cons,
        TypeEnv.taken, ih, next_infer hΓ, Nat.add_assoc]

/-- In a closed environment it makes no difference where the numbers of the variables start, so of
several expressions in turn each is inferred as if it were the first. -/
theorem infer_shifts_with_start (hΓ : Γ.Closed) :
    Γ.unused = ⟨0, []⟩ ∧
    (∀ e u, inferred Γ e u = shiftInferred u.next (inferred Γ e ⟨0, []⟩) ∧
      ((infer Γ e).run u).2.next = u.next + ((infer Γ e).run ⟨0, []⟩).2.next) ∧
    ∀ es u i, (inferredInTurn Γ es u)[i]? = es[i]?.map fun e =>
      shiftInferred (u.next + Γ.taken (es.take i)) (inferred Γ e ⟨0, []⟩) :=
  ⟨hΓ.unused_eq, fun e u => ⟨inferred_eq_shift hΓ e u, next_infer hΓ e u⟩, getElem?_inferredInTurn hΓ⟩

/-- Quantified variables stay as they are, also where they have the numbers that come next. -/
def swapEnv : TypeEnv := Table.empty.insert "k" ⟨[3, 0], .arrow (.var 0) (.arrow (.var 3) (.var 0))⟩

theorem swapEnv_closed : swapEnv.Closed := TypeEnv.closed_empty.insert (by decide) "k"

theorem infer_shifts_with_start_swap : swapEnv.Closed ∧
    (inferredInTurn swapEnv [.app (.lit (.int 1)) (.lit (.int 2)), .var "k"] ⟨3, []⟩)[0]? =
      some (.error (.mismatch .int (.arrow .int (.var 3)))) ∧
    (inferredInTurn swapEnv [.app (.lit (.int 1)) (.lit (.int 2)), .var "k"] ⟨3, []⟩)[1]? =
      some (.ok (.empty, .arrow (.var 5) (.arrow (.var 4) (.var 5)))) := by
  obtain ⟨-, -, h⟩ := infer_shifts_with_start swapEnv_closed
  exact ⟨swapEnv_closed, (h _ _ 0).trans (by decide +kernel), (h _ _ 1).trans (by decide +kernel)⟩

end LetML
