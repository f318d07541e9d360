import LetML.Proofs.Covering
import LetML.Proofs.FreeNames

namespace LetML

inductive Pattern.Binds : Pattern → Ty → List (String × Ty) → Prop
  | var (x : String) (t : Ty) : Binds (.var x) t [(x, t)]
  | wild (t : Ty) : Binds .wild t []
  | lit (l : Lit) : Binds (.lit l) l.ty []
  | nil (a : Ty) : Binds .nil (.list a) []
  | cons {p q : Pattern} {a : Ty} {bs cs : List (String × Ty)} :
    Binds p a bs → Binds q (.list a) cs → Binds (.cons p q) (.list a) (bs ++ cs)

/-- The types of an expression. Only names that `let` and `let rec` define have several types; a
parameter, a name of a pattern and a recursive name inside its own definition have one. -/
inductive Typing : TypeEnv → Expr → Ty → Prop
  | lit (Γ : TypeEnv) (l : Lit) : Typing Γ (.lit l) l.ty
  | var {Γ : TypeEnv} {x : String} {σ : Scheme} {t : Ty} :
    Γ.get? x = some σ → σ.Instance t → Typing Γ (.var x) t
  | abs {Γ : TypeEnv} {x : String} {b : Expr} {a t : Ty} :
    Typing (Γ.insert x (.mono a)) b t → Typing Γ (.abs x b) (.arrow a t)
  | app {Γ : TypeEnv} {f e : Expr} {a t : Ty} :
    Typing Γ f (.arrow a t) → Typing Γ e a → Typing Γ (.app f e) t
  | letIn {Γ : TypeEnv} {x : String} {v b : Expr} {a t : Ty} {σ : Scheme} :
    Typing Γ v a → Γ.Generalizes a σ → Typing (Γ.insert x σ) b t → Typing Γ (.letIn x v b) t
  | letRec {Γ : TypeEnv} {x : String} {v b : Expr} {a t : Ty} {σ : Scheme} :
    Typing (Γ.insert x (.mono a)) v a → Γ.Generalizes a σ → Typing (Γ.insert x σ) b t →
    Typing Γ (.letRec x v b) t
  | cond {Γ : TypeEnv} {c y n : Expr} {t : Ty} :
    Typing Γ c .bool → Typing Γ y t → Typing Γ n t → Typing Γ (.cond c y n) t
  | bin {Γ : TypeEnv} {op : BinOp} {l r : Expr} :
    Typing Γ l op.operandTy → Typing Γ r op.operandTy → Typing Γ (.bin op l r) op.resultTy
  | nil (Γ : TypeEnv) (a : Ty) : Typing Γ .nil (.list a)
  | cons {Γ : TypeEnv} {h l : Expr} {a : Ty} :
    Typing Γ h a → Typing Γ l (.list a) → Typing Γ (.cons h l) (.list a)
  | list {Γ : TypeEnv} {es : List Expr} {a : Ty} :
    (∀ e ∈ es, Typing Γ e a) → Typing Γ (.list es) (.list a)
  | case {Γ : TypeEnv} {e : Expr} {arms : List (Pattern × Expr)} {a t : Ty}
      (names : Pattern → List (String × Ty)) :
    Typing Γ e a → (∀ p b, (p, b) ∈ arms → p.Binds a (names p)) →
    (∀ p b, (p, b) ∈ arms → Typing (Γ.bindAll (names p)) b t) → Typing Γ (.case e arms) t

theorem Lit.subst_ty (l : Lit) (θ : Nat → Ty) : l.ty.subst θ = l.ty := by
  cases l <;> rfl

namespace BinOp

theorem subst_operandTy (op : BinOp) (θ : Nat → Ty) : op.operandTy.subst θ = op.operandTy := by
  cases op <;> rfl

theorem subst_resultTy (op : BinOp) (θ : Nat → Ty) : op.resultTy.subst θ = op.resultTy := by
  cases op <;> rfl

end BinOp

theorem Pattern.Binds.subst {p : Pattern} {t : Ty} {bs : List (String × Ty)} (h : p.Binds t bs)
    (θ : Nat → Ty) : p.Binds (t.subst θ) (bs.map fun b => (b.1, b.2.subst θ)) := by
  induction h with
  | var x t => exact .var x _
  | wild t => exact .wild _
  | lit l => rw [l.subst_ty]; exact .lit l
  | nil a => exact .nil _
  | cons _ _ ihp ihq => rw [List.map_append]; exact .cons ihp ihq

theorem Pattern.Binds.unique {p : Pattern} {t : Ty} {bs cs : List (String × Ty)}
    (h : p.Binds t bs) (h' : p.Binds t cs) : bs = cs := by
  induction h generalizing cs with
  | var x t => cases h'; rfl
  | wild t => cases h'; rfl
  | lit l => cases h'; rfl
  | nil a => cases h'; rfl
  | cons _ _ ihp ihq =>
    cases h' with
    | cons hp hq => rw [ihp hp, ihq hq]

theorem Pattern.Binds.names {p : Pattern} {t : Ty} {bs : List (String × Ty)} (h : p.Binds t bs) :
    bs.map (·.1) = p.names := by
  induction h with
  | cons _ _ ihp ihq => rw [List.map_append, ihp, ihq, Pattern.names]
  | _ => rfl

theorem Ty.exists_bound (t : Ty) : ∃ n, ∀ v ∈ t.leaves, v < n := by
  induction t with
  | var v => exact ⟨v + 1, by simp [leaves]⟩
  | int | bool => exact ⟨0, by simp [leaves]⟩
  | arrow a b iha ihb =>
    obtain ⟨n, hn⟩ := iha
    obtain ⟨m, hm⟩ := ihb
    refine ⟨max n m, fun v hv => ?_⟩
    obtain hv | hv := List.mem_append.mp hv
    · have := hn v hv; omega
    · have := hm v hv; omega
  | list a ih => exact ih

/-- The generalised variables of a type may be renamed so that no variable of `Γ'` is among them.
Under that renaming the type has in `Γ'` all the instances that it had. -/
theorem exists_apart {Γ : TypeEnv} {t : Ty} {σ : Scheme} (Γ' : TypeEnv) (θ : Nat → Ty)
    (hσ : Γ.Generalizes t σ) :
    ∃ θ' : Nat → Ty, (∀ v, Γ.Free v → θ' v = θ v) ∧ ∀ σ' : Scheme, Γ'.Generalizes (t.subst θ') σ' →
      ∀ t', σ.InstanceUnder θ t' → σ'.Instance t' := by
  obtain ⟨k, hk⟩ := (t.subst θ).exists_bound
  let N := max k Γ'.supply
  let θ' : Nat → Ty := fun v => if v ∈ Γ.freeVars then θ v else .var (N + v)
  refine ⟨θ', fun v hv => by simp [θ', TypeEnv.mem_freeVars.mpr hv], fun σ' hσ' t' ht' => ?_⟩
  obtain ⟨f, hf, rfl⟩ := hσ.instanceUnder_iff.mp ht'
  -- a renamed variable goes where the variable went, all others stay
  let g : Nat → Ty := fun u => if u < N then .var u else f (u - N)
  refine hσ'.instanceUnder_iff.mpr ⟨g, fun u _ hu => ?_, ?_⟩
  · have : u < N := Nat.lt_of_lt_of_le hu.lt_supply (Nat.le_max_right ..)
    simp [g, this]
  · rw [Ty.subst_subst]
    refine Ty.subst_congr (fun v hv => ?_)
    by_cases hfree : Γ.Free v
    · have hm := TypeEnv.mem_freeVars.mpr hfree
      rw [hf v hv hfree]
      simp only [θ', hm, if_true]
      refine (Ty.subst_eq_self (fun u hu => ?_)).symm
      have : u < k := hk u (Ty.mem_leaves_subst.mpr ⟨v, hv, hu⟩)
      have : u < N := Nat.lt_of_lt_of_le this (Nat.le_max_left ..)
      simp [g, this]
    · have hm : v ∉ Γ.freeVars := fun hm => hfree (TypeEnv.mem_freeVars.mp hm)
      have hN : ¬N + v < N := by omega
      simp [θ', hm, Ty.subst, g, hN]

/-- Types stay types under every assignment, in every environment that has at least as many for the
names that the expression takes from it. -/
theorem Typing.subst_on {Γ Γ' : TypeEnv} {e : Expr} {t : Ty} {θ : Nat → Ty} (h : Typing Γ e t)
    (hΓ : TypeEnv.CoversOn (· ∈ e.free) θ Γ .var Γ') : Typing Γ' e (t.subst θ) := by
  induction h generalizing Γ' θ with
  | lit Γ l => rw [l.subst_ty]; exact .lit Γ' l
  | @var Γ x σ t hx ht =>
    obtain ⟨σ', hx', hσ'⟩ := hΓ x σ (List.mem_singleton_self x) hx
    obtain ⟨f, hf, rfl⟩ := ht
    refine .var hx' (hσ' _ ⟨fun v => (f v).subst θ, fun v hv => ?_, Ty.subst_subst ..⟩)
    exact congrArg (Ty.subst θ) (hf v hv)
  | abs _ ih =>
    have hb := hΓ.mono (fun y hy => Expr.mem_free_abs.mpr hy)
    exact .abs (ih (hb.insert_mono (Ty.subst_var _).symm))
  | app _ _ ihf ihe =>
    exact .app (ihf (hΓ.mono (fun y hy => List.mem_append_left _ hy)))
      (ihe (hΓ.mono (fun y hy => List.mem_append_right _ hy)))
  | @letIn Γ x v b a t σ _ hσ _ ihv ihb =>
    obtain ⟨θ', hθ', hinst⟩ := exists_apart Γ' θ hσ
    have hv := hΓ.mono (fun y hy => Expr.mem_free_letIn.mpr (Or.inl hy))
    have hb := hΓ.mono (fun y hy => Expr.mem_free_letIn.mpr (Or.inr hy))
    have hσ' := Γ'.generalizes_generalize (a.subst θ')
    exact .letIn (ihv (hv.congr hθ')) hσ' (ihb (hb.insert (hinst _ hσ')))
  | @letRec Γ x v b a t σ _ hσ _ ihv ihb =>
    obtain ⟨θ', hθ', hinst⟩ := exists_apart Γ' θ hσ
    have hv := hΓ.mono (fun y hy => Expr.mem_free_letRec.mpr (Or.inl hy))
    have hb := hΓ.mono (fun y hy => Expr.mem_free_letRec.mpr (Or.inr hy))
    have hσ' := Γ'.generalizes_generalize (a.subst θ')
    exact .letRec (ihv ((hv.congr hθ').insert_mono (Ty.subst_var _).symm)) hσ'
      (ihb (hb.insert (hinst _ hσ')))
  | cond _ _ _ ihc ihy ihn =>
    exact .cond (ihc (hΓ.mono (fun w hw => by simp [Expr.free, hw])))
      (ihy (hΓ.mono (fun w hw => by simp [Expr.free, hw])))
      (ihn (hΓ.mono (fun w hw => by simp [Expr.free, hw])))
  | @bin Γ op l r _ _ ihl ihr =>
    have hl := ihl (hΓ.mono (fun y hy => List.mem_append_left _ hy))
    have hr := ihr (hΓ.mono (fun y hy => List.mem_append_right _ hy))
    rw [op.subst_operandTy] at hl hr
    rw [op.subst_resultTy]
    exact .bin hl hr
  | nil Γ a => exact .nil Γ' _
  | cons _ _ ihh iht =>
    exact .cons (ihh (hΓ.mono (fun y hy => List.mem_append_left _ hy)))
      (iht (hΓ.mono (fun y hy => List.mem_append_right _ hy)))
  | list _ ih =>
    exact .list (fun e he => ih e he (hΓ.mono (fun y hy => Expr.mem_free_list.mpr ⟨e, he, hy⟩)))
  | @case Γ e arms a t names _ hp _ ihe ihb =>
    refine .case (fun p => (names p).map fun b => (b.1, b.2.subst θ))
      (ihe (hΓ.mono (fun y hy => Expr.mem_free_case.mpr (Or.inl hy))))
      (fun p b hpb => (hp p b hpb).subst θ) (fun p b hpb => ihb p b hpb (.bindAll ?_ ?_))
    · rw [(hp p b hpb).names]
      exact hΓ.mono (fun y hy => Expr.mem_free_case.mpr (Or.inr ⟨p, b, hpb, hy⟩))
    · simp [List.map_map, Function.comp_def]

theorem Typing.subst {Γ Γ' : TypeEnv} {e : Expr} {t : Ty} {θ : Nat → Ty} (h : Typing Γ e t)
    (hΓ : TypeEnv.Covers θ Γ .var Γ') : Typing Γ' e (t.subst θ) := h.subst_on (hΓ.coversOn _)

theorem Typing.of_agree {Γ Γ' : TypeEnv} {e : Expr} {t : Ty} (h : Typing Γ e t)
    (hΓ : ∀ x ∈ e.free, Γ'.get? x = Γ.get? x) : Typing Γ' e t := by
  have hcov : TypeEnv.CoversOn (· ∈ e.free) .var Γ .var Γ' := fun x σ hx hσ =>
    ⟨σ, (hΓ x hx).trans hσ, fun _ ht => ht⟩
  simpa [Ty.subst_var] using h.subst_on hcov

theorem TypeEnv.Generalizes.exists_subst {Γ : TypeEnv} {a t : Ty} {σ : Scheme}
    (hσ : Γ.Generalizes a σ) (ht : σ.Instance t) :
    ∃ θ : Nat → Ty, TypeEnv.Covers θ Γ .var Γ ∧ t = a.subst θ := by
  obtain ⟨f, hf, rfl⟩ := hσ.instanceUnder_iff.mp ht
  let θ : Nat → Ty := fun v => if v ∈ Γ.freeVars then .var v else f v
  refine ⟨θ, TypeEnv.Covers.congr (fun v hv => by simp [θ, TypeEnv.mem_freeVars.mpr hv]), ?_⟩
  refine Ty.subst_congr (fun v hv => ?_)
  by_cases hfree : Γ.Free v
  · simp [θ, TypeEnv.mem_freeVars.mpr hfree, hf v hv hfree]
  · simp [θ, mt TypeEnv.mem_freeVars.mp hfree]

theorem Typing.instance {Γ : TypeEnv} {e : Expr} {a t : Ty} {σ : Scheme} (h : Typing Γ e a)
    (hσ : Γ.Generalizes a σ) (ht : σ.Instance t) : Typing Γ e t := by
  obtain ⟨θ, hθ, rfl⟩ := hσ.exists_subst ht
  exact h.subst hθ

theorem Typing.instance_rec {Γ : TypeEnv} {x : String} {e : Expr} {a t : Ty} {σ : Scheme}
    (h : Typing (Γ.insert x (.mono a)) e a) (hσ : Γ.Generalizes a σ) (ht : σ.Instance t) :
    Typing (Γ.insert x (.mono t)) e t := by
  obtain ⟨θ, hθ, rfl⟩ := hσ.exists_subst ht
  exact h.subst (hθ.insert_mono (Ty.subst_var _).symm x)

theorem typing_case_iff {Γ : TypeEnv} {e : Expr} {arms : List (Pattern × Expr)} {t : Ty} :
    Typing Γ (.case e arms) t ↔ ∃ a, Typing Γ e a ∧
      ∀ p b, (p, b) ∈ arms → ∃ bs, p.Binds a bs ∧ Typing (Γ.bindAll bs) b t := by
  constructor
  · intro h
    cases h with
    | case names he hp hb => exact ⟨_, he, fun p b hpb => ⟨_, hp p b hpb, hb p b hpb⟩⟩
  · rintro ⟨a, he, hb⟩
    classical
    let names : Pattern → List (String × Ty) := fun p =>
      if h : ∃ bs, p.Binds a bs then h.choose else []
    have hnames : ∀ p bs, p.Binds a bs → names p = bs := fun p bs hp => by
      have hex : ∃ bs, p.Binds a bs := ⟨bs, hp⟩
      simp only [names, hex, dif_pos]
      exact hex.choose_spec.unique hp
    refine .case names he (fun p b hpb => ?_) (fun p b hpb => ?_)
    · obtain ⟨bs, hp, _⟩ := hb p b hpb
      exact (hnames p bs hp).symm ▸ hp
    · obtain ⟨bs, hp, ht⟩ := hb p b hpb
      exact (hnames p bs hp).symm ▸ ht

end LetML
