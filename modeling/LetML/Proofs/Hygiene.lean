import LetML.Proofs.Capture

namespace LetML

variable {P : Nat → Prop} {n m : Nat} {s : Subst} {t : Ty}

/-- A solution on the variables `P` and those from `n` up to `m`, where nothing that is solved for
is left in what it is solved by. -/
structure Subst.Hygienic (P : Nat → Prop) (n : Nat) (s : Subst) (m : Nat) : Prop where
  le : n ≤ m
  domain : ∀ v t, s.get? v = some t → Known P n m v
  range : ∀ v t, s.get? v = some t → t.All (Known P n m)
  apart : ∀ v t, s.get? v = some t → t.All (s.get? · = none)
  idempotent : s.compose s = s

/-- A type of known variables that a solution has nothing more to say about. -/
structure Ty.Settled (P : Nat → Prop) (n : Nat) (s : Subst) (m : Nat) (t : Ty) : Prop where
  known : t.All (Known P n m)
  apart : t.All (s.get? · = none)
  apply_eq : t.apply s = t

theorem Ty.All.settled (ht : t.All (Live P n s m)) : t.Settled P n s m where
  known := ht.imp (fun _ hv => hv.1)
  apart := ht.imp (fun _ hv => hv.2)
  apply_eq := Stage.apply_eq_self ht

namespace Stage

theorem compose_self (h : Stage P n s m) : s.compose s = s := by
  refine Table.ext (fun v => ?_)
  rw [Subst.get?_compose]
  cases hs : s.get? v with
  | none => rfl
  | some t => exact congrArg some (apply_eq_self (h.range v t hs))

theorem hygienic (h : Stage P n s m) : s.Hygienic P n m where
  le := h.le
  domain := h.keys
  range v t hs := fun u hu => (h.range v t hs u hu).1
  apart v t hs := fun u hu => (h.range v t hs u hu).2
  idempotent := h.compose_self

end Stage

/-- Inference speaks of the variables it is given and of those it takes, and solves every variable
in terms of ones that stay unsolved: what it returns is the same under its own solution. -/
theorem infer_hygienic :
    (∀ (Γ : TypeEnv) (e : Expr) (u : Supply) (r : Inferred) (u' : Supply),
      (∀ v ∈ Γ.freeVars, v < u.next) → (infer Γ e).run u = (.ok r, u') →
      r.subst.Hygienic (· ∈ Γ.freeVars) u.next u'.next ∧
      r.ty.Settled (· ∈ Γ.freeVars) u.next r.subst u'.next ∧
      ∀ v ∈ (Γ.apply r.subst).freeVars, Live (· ∈ Γ.freeVars) u.next r.subst u'.next v) ∧
    ∀ (p : Pattern) (t : Ty) (u : Supply) (r : InferredPattern) (u' : Supply),
      (∀ v ∈ t.freeVars, v < u.next) → (inferPattern p t).run u = (.ok r, u') →
      r.subst.Hygienic (· ∈ t.freeVars) u.next u'.next ∧
      (t.apply r.subst).Settled (· ∈ t.freeVars) u.next r.subst u'.next ∧
      ∀ b ∈ r.bindings, (b.2.apply r.subst).Settled (· ∈ t.freeVars) u.next r.subst u'.next := by
  simp only [TypeEnv.mem_freeVars, Ty.mem_freeVars]
  constructor
  · intro Γ e u r u' hΓ h
    have ho := correct e ⟨r.derivation, h⟩ hΓ
    exact ⟨ho.stage.hygienic, ho.live.settled, fun v hv => TypeEnv.free_live ho.stage hv⟩
  · intro p t u r u' ht h
    have ho := FoundPattern.outcome ⟨r.derivation, h⟩ ht
    exact ⟨ho.stage.hygienic, (ho.stage.apply_live (fun v hv => Or.inl hv)).settled,
      fun b hb => (ho.stage.apply_live (ho.known b hb)).settled⟩

def secondPattern : Pattern := .cons (.var "x") (.cons (.lit (.int 1)) .nil)

/-- The type of `y` is solved by the variable that the scheme of `x` quantifies, and the type of a
name in a pattern by what stands to the right of the name. -/
theorem infer_hygienic_captured :
    (∀ v ∈ captureEnv.freeVars, v < captureEnv.unused.next) ∧
    (∃ r u, (infer captureEnv captureStep).run captureEnv.unused = (.ok r, u) ∧
      r.subst.get? 0 = some (.var 1) ∧
      r.subst.Hygienic (· ∈ captureEnv.freeVars) captureEnv.unused.next u.next ∧
      r.ty.Settled (· ∈ captureEnv.freeVars) captureEnv.unused.next r.subst u.next) ∧
    (∀ v ∈ (Ty.var 0).freeVars, v < 1) ∧
    ∃ r u, (inferPattern secondPattern (.var 0)).run ⟨1, []⟩ = (.ok r, u) ∧
      r.bindings = [("x", .var 1)] ∧ r.subst.get? 1 = some .int ∧
      r.subst.Hygienic (· ∈ (Ty.var 0).freeVars) 1 u.next ∧
      ∀ b ∈ r.bindings, (b.2.apply r.subst).Settled (· ∈ (Ty.var 0).freeVars) 1 r.subst u.next := by
  have henv : ∀ v ∈ captureEnv.freeVars, v < captureEnv.unused.next := by decide +kernel
  have hty : ∀ v ∈ (Ty.var 0).freeVars, v < 1 := by decide
  have hinfer : ((infer captureEnv captureStep).run captureEnv.unused).1.toOption.map
      (·.subst.get? 0) = some (some (.var 1)) := by decide +kernel
  have hpattern : (((inferPattern secondPattern (.var 0)).run ⟨1, []⟩).1.toOption.map
      fun r => (r.bindings, r.subst.get? 1)) = some ([("x", .var 1)], some .int) := by
    decide +kernel
  obtain ⟨r, u, hr, hsubst⟩ := InferM.exists_gives hinfer
  obtain ⟨hhygienic, hsettled, -⟩ := infer_hygienic.1 _ _ _ _ _ henv hr
  obtain ⟨q, w, hq, hres⟩ := InferM.exists_gives hpattern
  obtain ⟨hbindings, hsolved⟩ := Prod.mk.inj hres
  obtain ⟨hhygienic', -, hsettled'⟩ := infer_hygienic.2 _ _ _ _ _ hty hq
  exact ⟨henv, ⟨r, u, hr, hsubst, hhygienic, hsettled⟩, hty, q, w, hq, hbindings, hsolved,
    hhygienic', hsettled'⟩

end LetML
