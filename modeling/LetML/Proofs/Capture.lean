import LetML.Proofs.Soundness

namespace LetML

def Scheme.brought (s : Subst) (σ : Scheme) : Nat :=
  (σ.unbound.flatMap (fun v => (s.fn v).leaves)).foldl (fun n v => max n (v + 1)) 0

def Scheme.applyAvoiding (s : Subst) (σ : Scheme) : Scheme :=
  { vars := σ.vars.map (σ.brought s + ·)
    ty := σ.ty.subst (fun v => if v ∈ σ.vars then .var (σ.brought s + v) else s.fn v) }

namespace TypeEnv

def applyAvoiding (s : Subst) (Γ : TypeEnv) : TypeEnv := Table.map (Scheme.applyAvoiding s) Γ

def Avoids (s : Subst) (Γ : TypeEnv) : Prop := ∀ x σ, Γ.get? x = some σ → σ.Avoids s

end TypeEnv

namespace InferM

variable {α β : Type} {m : InferM α} {u : Supply} {k : α → Supply → List β} {c : β}

def after (m : InferM α) (u : Supply) (k : α → Supply → List β) : List β :=
  match m.run u with
  | (.ok a, u') => k a u'
  | (.error _, _) => []

theorem mem_after : c ∈ after m u k ↔ ∃ a u', Gives m u a u' ∧ c ∈ k a u' := by
  unfold after Gives
  split
  · rename_i a u' hrun
    rw [hrun]
    constructor
    · exact fun h => ⟨a, u', rfl, h⟩
    · rintro ⟨_, _, heq, h⟩
      cases heq
      exact h
  · rename_i err u' hrun
    rw [hrun]
    constructor
    · exact fun h => nomatch h
    · rintro ⟨_, _, heq, _⟩
      cases heq

theorem mem_after_solve {t₁ t₂ : Ty} {k : Subst → Supply → List β} :
    c ∈ after (solve t₁ t₂) u k ↔ ∃ s, unify t₁ t₂ = .ok s ∧ c ∈ k s (u.attempt t₁ t₂) := by
  constructor
  · intro h
    obtain ⟨s, u', hs, hc⟩ := mem_after.mp h
    obtain ⟨hu, rfl⟩ := gives_solve.mp hs
    exact ⟨s, hu, hc⟩
  · rintro ⟨s, hu, hc⟩
    exact mem_after.mpr ⟨s, _, gives_solve.mpr ⟨hu, rfl⟩, hc⟩

end InferM

open InferM

mutual

/-- The environments that inference puts a substitution through, each with that substitution, in
the order of the run. -/
def applications (Γ : TypeEnv) (u : Supply) : Expr → List (TypeEnv × Subst)
  | .lit _ | .var _ | .nil => []
  | .abs x b => applications (Γ.insert x (.mono (.var u.next))) (u.take 1) b
  | .app f a =>
    applications Γ u f ++ after (infer Γ f) u fun r u =>
      (Γ, r.subst) :: applications (Γ.apply r.subst) u a
  | .letIn x v b =>
    applications Γ u v ++ after (infer Γ v) u fun r u =>
      let Γ' := Γ.apply r.subst
      (Γ, r.subst) :: applications (Γ'.insert x (Γ'.generalize (r.ty.apply r.subst))) u b
  | .letRec x v b =>
    let self := Ty.var u.next
    let scope := Γ.insert x (.mono self)
    applications scope (u.take 1) v ++ after (infer scope v) (u.take 1) fun r u =>
      after (solve (self.apply r.subst) (r.ty.apply r.subst)) u fun s u =>
        let s' := s.compose r.subst
        let Γ' := Γ.apply s'
        (Γ, s') :: applications (Γ'.insert x (Γ'.generalize (self.apply s'))) u b
  | .cond c y n =>
    applications Γ u c ++ after (infer Γ c) u fun r₁ u =>
      after (solve .bool r₁.ty) u fun s u =>
        let s₁ := s.compose r₁.subst
        ((Γ, s₁) :: applications (Γ.apply s₁) u y) ++ after (infer (Γ.apply s₁) y) u fun r₂ u =>
          let s₂ := r₂.subst.compose s₁
          (Γ, s₂) :: applications (Γ.apply s₂) u n
  | .bin op l r =>
    applications Γ u l ++ after (infer Γ l) u fun r₁ u =>
      after (solve op.operandTy r₁.ty) u fun s u =>
        let s₁ := s.compose r₁.subst
        (Γ, s₁) :: applications (Γ.apply s₁) u r
  | .cons h t =>
    applications Γ u h ++ after (infer Γ h) u fun r u =>
      (Γ, r.subst) :: applications (Γ.apply r.subst) u t
  | .list es => applicationsElems Γ (.var u.next) .empty (u.take 1) es
  | .case e arms =>
    applications Γ u e ++ after (infer Γ e) u fun r u =>
      applicationsArms Γ r.ty (.var u.next) r.subst (u.take 1) arms

def applicationsElems (Γ : TypeEnv) (elem : Ty) (s : Subst) (u : Supply) :
    List Expr → List (TypeEnv × Subst)
  | [] => []
  | e :: es =>
    ((Γ, s) :: applications (Γ.apply s) u e) ++ after (infer (Γ.apply s) e) u fun r u =>
      let s₁ := r.subst.compose s
      after (solve (elem.apply s₁) (r.ty.apply s₁)) u fun s₂ u =>
        applicationsElems Γ elem (s₂.compose s₁) u es

def applicationsArms (Γ : TypeEnv) (scrutinee result : Ty) (s : Subst) (u : Supply) :
    List (Pattern × Expr) → List (TypeEnv × Subst)
  | [] => []
  | (p, b) :: arms =>
    after (inferPattern p (scrutinee.apply s)) u fun m u =>
      let s₁ := m.subst.compose s
      let Γ' := (Γ.apply s₁).bindAll (m.bindings.map fun b => (b.1, b.2.apply s₁))
      ((Γ, s₁) :: applications Γ' u b) ++ after (infer Γ' b) u fun r u =>
        let s₂ := r.subst.compose s₁
        after (solve (result.apply s₂) (r.ty.apply s₂)) u fun s₃ u =>
          applicationsArms Γ scrutinee result (s₃.compose s₂) u arms

end

variable {Γ : TypeEnv} {n m : Nat} {s : Subst} {t : Ty} {σ : Scheme} {e : Expr} {u : Supply}

namespace Scheme

theorem lt_brought {v w : Nat} (hv : σ.Free v) (hw : w ∈ (s.fn v).leaves) : w < σ.brought s :=
  TypeEnv.lt_foldl_succ (List.mem_flatMap.mpr ⟨v, mem_unbound.mpr hv, hw⟩) 0

theorem instance_applyAvoiding :
    (σ.applyAvoiding s).Instance t ↔ σ.InstanceUnder s.fn t := by
  let N := σ.brought s
  have hmap : ∀ {w}, w ∈ (σ.applyAvoiding s).vars ↔ ∃ v ∈ σ.vars, N + v = w := List.mem_map
  constructor
  · rintro ⟨f, hf, rfl⟩
    refine instanceUnder_iff.mpr ⟨fun v => if v ∈ σ.vars then f (N + v) else s.fn v,
      fun v hv => if_neg hv.2, ?_⟩
    rw [applyAvoiding, Ty.subst_subst]
    refine Ty.subst_congr (fun v hv => ?_)
    by_cases hq : v ∈ σ.vars
    · simp [hq, Ty.subst, N]
    · simp only [hq, if_false]
      refine Ty.subst_eq_self (fun w hw => hf w (fun hmem => ?_))
      obtain ⟨v', -, rfl⟩ := hmap.mp hmem
      have := lt_brought (s := s) ⟨hv, hq⟩ hw
      omega
  · rintro ⟨g, hg, rfl⟩
    -- the new numbers stand for what the old ones stood for
    let f : Nat → Ty := fun w => if N ≤ w ∧ w - N ∈ σ.vars then g (w - N) else .var w
    refine ⟨f, fun w hw => if_neg (fun h => hw (hmap.mpr ⟨w - N, h.2, by omega⟩)), ?_⟩
    rw [applyAvoiding, Ty.subst_subst]
    refine Ty.subst_congr (fun v hv => ?_)
    by_cases hq : v ∈ σ.vars
    · simp [hq, Ty.subst, f, N]
    · simp only [hq, if_false]
      rw [hg v hq]
      refine (Ty.subst_eq_self (fun w hw => if_neg (fun h => ?_))).symm
      have := lt_brought (s := s) ⟨hv, hq⟩ hw
      omega

end Scheme

theorem TypeEnv.Avoids.typing (hΓ : Γ.Avoids s) (h : Typing (Γ.apply s) e t) :
    Typing (Γ.applyAvoiding s) e t := by
  have hcov : Covers .var (Γ.apply s) .var (Γ.applyAvoiding s) := by
    intro x σ' hx
    rw [get?_apply] at hx
    obtain ⟨σ, hσ, rfl⟩ := Option.map_eq_some_iff.mp hx
    refine ⟨σ.applyAvoiding s, by simp [applyAvoiding, hσ], fun t ht => ?_⟩
    refine Scheme.instance_applyAvoiding.mpr ?_
    simpa [Ty.subst_var] using (Scheme.instanceUnder_apply (hΓ x σ hσ)).mp ht
  simpa [Ty.subst_var] using h.subst hcov

theorem TypeEnv.Apart.avoids_of_stage (hΓ : Γ.Apart n) (h : Stage Γ.Free n s m) : Γ.Avoids s :=
  fun _ _ hx => hΓ.avoids h hx

def Guarded (e : Expr) : Prop :=
  ∀ {Γ u}, Γ.Apart u.next → ∀ c ∈ applications Γ u e, c.1.Avoids c.2

namespace Guarded

theorem next (he : Guarded e) (hΓ : Γ.Apart n) (h : Stage Γ.Free n s u.next) :
    ∀ c ∈ (Γ, s) :: applications (Γ.apply s) u e, c.1.Avoids c.2 :=
  List.forall_mem_cons.mpr ⟨hΓ.avoids_of_stage h, he (hΓ.apply h)⟩

theorem scope (he : Guarded e) (hΓ : Γ.Apart n) (h : Stage Γ.Free n s u.next)
    (ht : t.All (Live Γ.Free n s u.next)) (x : String) :
    ∀ c ∈ (Γ, s) :: applications ((Γ.apply s).insert x ((Γ.apply s).generalize t)) u e,
      c.1.Avoids c.2 := by
  have hlt : ∀ v ∈ t.leaves, v < u.next := fun v hv => h.known_lt (ht v hv).1
  exact List.forall_mem_cons.mpr ⟨hΓ.avoids_of_stage h, he ((hΓ.apply h).generalize hlt x)⟩

theorem app {f a : Expr} (ihf : Guarded f) (iha : Guarded a) : Guarded (.app f a) := by
  intro Γ u hΓ c hc
  obtain hc | hc := List.mem_append.mp hc
  · exact ihf hΓ c hc
  · obtain ⟨r, u₁, hf, hc⟩ := mem_after.mp hc
    have ho := correct f ⟨_, hf⟩ hΓ.free_lt
    exact iha.next hΓ ho.stage c hc

theorem letIn {v b : Expr} (ihv : Guarded v) (ihb : Guarded b) (x : String) :
    Guarded (.letIn x v b) := by
  intro Γ u hΓ c hc
  obtain hc | hc := List.mem_append.mp hc
  · exact ihv hΓ c hc
  · obtain ⟨r, u₁, hv, hc⟩ := mem_after.mp hc
    have ho := correct v ⟨_, hv⟩ hΓ.free_lt
    rw [Stage.apply_eq_self ho.live] at hc
    exact ihb.scope hΓ ho.stage ho.live x c hc

theorem letRec {v b : Expr} (ihv : Guarded v) (ihb : Guarded b) (x : String) :
    Guarded (.letRec x v b) := by
  intro Γ u hΓ c hc
  obtain hc | hc := List.mem_append.mp hc
  · exact ihv (hΓ.param x) c hc
  · obtain ⟨r, u₁, hv, hc⟩ := mem_after.mp hc
    obtain ⟨s, hu, hc⟩ := mem_after_solve.mp hc
    obtain ⟨hst, ht, hself, -⟩ := found_param (correct v) hΓ.free_lt ⟨_, hv⟩
    rw [Stage.apply_eq_self ht] at hu
    have hl := hst.solved hu hself ht
    have hself' := hl.live hself
    rw [← Ty.apply_compose] at hself'
    exact ihb.scope (u := u₁.attempt _ _) hΓ hl.stage hself' x c hc

theorem cond {d y n : Expr} (ihd : Guarded d) (ihy : Guarded y) (ihn : Guarded n) :
    Guarded (.cond d y n) := by
  intro Γ u hΓ c hc
  obtain hc | hc := List.mem_append.mp hc
  · exact ihd hΓ c hc
  · obtain ⟨r₁, u₁, hd, hc⟩ := mem_after.mp hc
    obtain ⟨s, hu, hc⟩ := mem_after_solve.mp hc
    have hd := correct d ⟨_, hd⟩ hΓ.free_lt
    have hl := hd.stage.solved hu Ty.all_bool hd.live
    obtain hc | hc := List.mem_append.mp hc
    · exact ihy.next (u := u₁.attempt _ _) hΓ hl.stage c hc
    · obtain ⟨r₂, u₂, hy, hc⟩ := mem_after.mp hc
      have hl₂ := (hl.stage.foundNext (u := u₁.attempt _ _) (correct y) ⟨_, hy⟩).1
      exact ihn.next hΓ hl₂.stage c hc

theorem bin {l r : Expr} (ihl : Guarded l) (ihr : Guarded r) (op : BinOp) :
    Guarded (.bin op l r) := by
  intro Γ u hΓ c hc
  obtain hc | hc := List.mem_append.mp hc
  · exact ihl hΓ c hc
  · obtain ⟨r₁, u₁, hl, hc⟩ := mem_after.mp hc
    obtain ⟨s, hu, hc⟩ := mem_after_solve.mp hc
    have hl := correct l ⟨_, hl⟩ hΓ.free_lt
    have hl₂ := hl.stage.solved hu op.all_operandTy hl.live
    exact ihr.next (u := u₁.attempt _ _) hΓ hl₂.stage c hc

theorem elems {elem : Ty} {es : List Expr} (ih : ∀ e ∈ es, Guarded e) (hΓ : Γ.Apart n)
    (h : Stage Γ.Free n s u.next) (helem : elem.All (Known Γ.Free n u.next)) :
    ∀ c ∈ applicationsElems Γ elem s u es, c.1.Avoids c.2 := by
  induction es generalizing s u with
  | nil => exact fun c hc => (List.not_mem_nil hc).elim
  | cons e es ihes =>
    intro c hc
    obtain hc | hc := List.mem_append.mp hc
    · exact Guarded.next (ih e (by simp)) hΓ h c hc
    · obtain ⟨r, u₁, he, hc⟩ := mem_after.mp hc
      obtain ⟨s₂, hu, hc⟩ := mem_after_solve.mp hc
      obtain ⟨hl, ht, -⟩ := h.foundNext (correct e) ⟨_, he⟩
      have helem₁ := helem.imp (fun v hv => hv.widen hl.le)
      rw [Stage.apply_eq_self ht] at hu
      have hl₂ := hl.stage.solved hu (hl.stage.apply_live helem₁) ht
      exact ihes (fun e he => ih e (by simp [he])) (u := u₁.attempt _ _) hl₂.stage helem₁ c hc

theorem arms {scrutinee result : Ty} {arms : List (Pattern × Expr)}
    (ih : ∀ a ∈ arms, Guarded a.2) (hΓ : Γ.Apart n) (h : Stage Γ.Free n s u.next)
    (hscr : scrutinee.All (Known Γ.Free n u.next)) (hres : result.All (Known Γ.Free n u.next)) :
    ∀ c ∈ applicationsArms Γ scrutinee result s u arms, c.1.Avoids c.2 := by
  induction arms generalizing s u with
  | nil => exact fun c hc => (List.not_mem_nil hc).elim
  | cons a arms iharms =>
    intro c hc
    obtain ⟨p, b⟩ := a
    obtain ⟨m, u₁, hp, hc⟩ := mem_after.mp hc
    obtain ⟨hl₁, hlive, -⟩ := h.foundPattern ⟨_, hp⟩ hscr
    have hcs : ∀ b ∈ m.bindings.map (fun b => (b.1, b.2.apply (m.subst.compose s))),
        b.2.All (Live Γ.Free n (m.subst.compose s) u₁.next) := fun b hb => by
      obtain ⟨d, hd, rfl⟩ := List.mem_map.mp hb
      exact hlive d hd
    obtain hc | hc := List.mem_append.mp hc
    · obtain rfl | hc := List.mem_cons.mp hc
      · exact hΓ.avoids_of_stage hl₁.stage
      · exact ih (p, b) (by simp) (hΓ.arm hl₁.stage hcs) c hc
    · obtain ⟨r, u₂, hb, hc⟩ := mem_after.mp hc
      obtain ⟨s₃, hu, hc⟩ := mem_after_solve.mp hc
      obtain ⟨hl₂, ht, -⟩ := hl₁.stage.found (correct b) ⟨_, hb⟩ (TypeEnv.free_arm hl₁.stage hcs)
      have hle := Nat.le_trans hl₁.le hl₂.le
      have hres₂ := hres.imp (fun v hv => hv.widen hle)
      rw [Stage.apply_eq_self ht] at hu
      have hl₃ := hl₂.stage.solved hu (hl₂.stage.apply_live hres₂) ht
      exact iharms (fun a ha => ih a (by simp [ha])) (u := u₂.attempt _ _) hl₃.stage
        (hscr.imp (fun v hv => hv.widen hle)) hres₂ c hc

end Guarded

/-- In an environment whose quantified variables are apart from its free ones and from those still
to be taken, inference captures no variable. -/
theorem guarded (e : Expr) : Guarded e := by
  induction e using Expr.ind with
  | lit | var | nil => exact fun _ c hc => (List.not_mem_nil hc).elim
  | abs x b ih => exact fun hΓ c hc => ih (hΓ.param x) c hc
  | app f a ihf iha => exact ihf.app iha
  | letIn x v b ihv ihb => exact ihv.letIn ihb x
  | letRec x v b ihv ihb => exact ihv.letRec ihb x
  | cond c y n ihc ihy ihn => exact ihc.cond ihy ihn
  | bin op l r ihl ihr => exact ihl.bin ihr op
  | cons h l ihh ihl => exact ihh.app ihl
  | list es ih =>
    intro Γ u hΓ c hc
    exact Guarded.elems ih hΓ ((Stage.start hΓ.free_lt).widen (Nat.le_add_right u.next 1))
      ((Live.first Γ.Free u.next).imp (fun v hv => hv.1)) c hc
  | case e arms ihe iharms =>
    intro Γ u hΓ c hc
    obtain hc | hc := List.mem_append.mp hc
    · exact ihe hΓ c hc
    · obtain ⟨r, u₁, he, hc⟩ := mem_after.mp hc
      have ho := correct e ⟨_, he⟩ hΓ.free_lt
      have hst := ho.stage.widen (Nat.le_add_right u₁.next 1)
      exact Guarded.arms iharms hΓ hst
        (ho.live.imp (fun v hv => hv.1.widen (Nat.le_succ u₁.next)))
        (Ty.all_var.mpr (ho.stage.live_fresh (Nat.le_refl _) (Nat.lt_succ_self _)).1) c hc

/-- The type that inference gives an expression is one of its types in the environment under what
was solved, also where that environment is open, and no variable is captured on the way. -/
theorem infer_sound_open (hΓ : Γ.Apart Γ.supply) :
    (∀ r u, (infer Γ e).run Γ.unused = (.ok r, u) → Typing (Γ.applyAvoiding r.subst) e r.ty) ∧
      ∀ c ∈ applications Γ Γ.unused e, c.1.Avoids c.2 := by
  refine ⟨fun r u h => ?_, guarded e (u := Γ.unused) hΓ⟩
  have ho := correct e (u := Γ.unused) ⟨_, h⟩ hΓ.free_lt
  exact (hΓ.avoids_of_stage ho.stage).typing (ho.typing hΓ)

/-- `y` has a free variable in its type, and `x` has it beside a quantified one. -/
def openEnv : TypeEnv :=
  (Table.empty.insert "y" (.mono (.var 1))).insert "x" ⟨[0], .arrow (.var 1) (.var 0)⟩

def openUse : Expr := .cond (.app (.var "x") (.var "y")) (.var "y") (.lit (.int 1))

theorem openEnv_apart : openEnv.Apart openEnv.supply where
  free_lt _ hv := hv.lt_supply
  apart x σ hx := by
    have hfree : ¬openEnv.Free 0 := by
      rw [← TypeEnv.mem_freeVars]
      decide +kernel
    obtain ⟨-, rfl⟩ | ⟨-, hx⟩ := Table.get?_insert_eq_some_iff.mp hx
    · exact Or.inr (fun v hv => by rw [List.mem_singleton.mp hv]; exact ⟨by decide +kernel, hfree⟩)
    · obtain ⟨-, rfl⟩ | ⟨-, hx⟩ := Table.get?_insert_eq_some_iff.mp hx
      · exact Or.inr (fun v hv => nomatch hv)
      · cases hx

theorem infer_sound_open_solved : openEnv.Apart openEnv.supply ∧
    ∃ r u, (infer openEnv openUse).run openEnv.unused = (.ok r, u) ∧ r.subst.get? 1 = some .int ∧
      Typing (openEnv.applyAvoiding r.subst) openUse .int := by
  have hrun : (((infer openEnv openUse).run openEnv.unused).1.toOption.map
      fun r => (r.subst.get? 1, r.ty)) = some (some .int, .int) := by decide +kernel
  obtain ⟨r, u, hr, hres⟩ := InferM.exists_gives hrun
  obtain ⟨hsubst, hty⟩ := Prod.mk.inj hres
  exact ⟨openEnv_apart, r, u, hr, hsubst, hty ▸ (infer_sound_open openEnv_apart).1 r u hr⟩

/-- The quantified variable of `x` is the first that inference takes. -/
def captureEnv : TypeEnv :=
  (Table.empty.insert "y" (.mono (.var 0))).insert "x" ⟨[1], .arrow (.var 0) (.var 1)⟩

def captureStep : Expr := .abs "z" (.cond (.lit (.bool true)) (.var "y") (.var "z"))

/-- `let g = \z -> if true then y else z in let h = x 1 in x true` -/
def captureUse : Expr :=
  .letIn "g" captureStep
    (.letIn "h" (.app (.var "x") (.lit (.int 1))) (.app (.var "x") (.lit (.bool true))))

/-- Where a quantified variable is taken anew, it may be captured, and inference gives a type to an
expression that has none. -/
theorem infer_captures :
    (∃ r u, (infer captureEnv captureUse).run captureEnv.unused = (.ok r, u) ∧
      ¬Typing (captureEnv.applyAvoiding r.subst) captureUse r.ty) ∧
    ∃ c ∈ applications captureEnv captureEnv.unused captureUse, ¬c.1.Avoids c.2 := by
  have hx : captureEnv.get? "x" = some ⟨[1], .arrow (.var 0) (.var 1)⟩ := rfl
  constructor
  · have hrun : (((infer captureEnv captureUse).run captureEnv.unused).1.toOption.map
        fun r => r.subst.get? 0) = some (some (.var 1)) := by decide +kernel
    obtain ⟨r, u, hr, hsubst⟩ := InferM.exists_gives hrun
    refine ⟨r, u, hr, fun h => ?_⟩
    cases h with
    | letIn _ _ h => cases h with
      | letIn h _ _ => cases h with
        | app hf ha => cases hf with
          | var hx' ht =>
            rw [Table.get?_insert, if_neg (by decide), TypeEnv.applyAvoiding, Table.get?_map, hx]
              at hx'
            obtain rfl := Option.some.inj hx'
            obtain ⟨f, hf, heq⟩ := Scheme.instance_applyAvoiding.mp ht
            -- the argument of `x` has the type of `y`, which is not that of a number
            have harg : f 0 = .var 1 := (hf 0 (by decide)).trans (Subst.fn_of_some hsubst)
            rw [Ty.subst, Ty.subst, harg] at heq
            cases heq
            cases ha
  · have hrun : (((infer captureEnv captureStep).run captureEnv.unused).1.toOption.map
        fun r => r.subst.get? 0) = some (some (.var 1)) := by decide +kernel
    obtain ⟨r, u, hr, hsubst⟩ := InferM.exists_gives hrun
    refine ⟨(captureEnv, r.subst), ?_, fun h => ?_⟩
    · exact List.mem_append.mpr (Or.inr (mem_after.mpr ⟨r, u, hr, List.mem_cons_self⟩))
    · refine h "x" _ hx 0 ⟨by decide, by decide⟩ 1 ?_ (by decide)
      rw [Subst.fn_of_some hsubst]
      exact List.mem_singleton_self 1

end LetML
