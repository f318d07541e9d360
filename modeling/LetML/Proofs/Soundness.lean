import LetML.Proofs.Patterns

namespace LetML

theorem Expr.ind {motive : Expr → Prop} (lit : ∀ l, motive (.lit l)) (var : ∀ x, motive (.var x))
    (abs : ∀ x b, motive b → motive (.abs x b))
    (app : ∀ f a, motive f → motive a → motive (.app f a))
    (letIn : ∀ x v b, motive v → motive b → motive (.letIn x v b))
    (letRec : ∀ x v b, motive v → motive b → motive (.letRec x v b))
    (cond : ∀ c y n, motive c → motive y → motive n → motive (.cond c y n))
    (bin : ∀ op l r, motive l → motive r → motive (.bin op l r)) (nil : motive .nil)
    (cons : ∀ h t, motive h → motive t → motive (.cons h t))
    (list : ∀ es, (∀ e ∈ es, motive e) → motive (.list es))
    (case : ∀ e arms, motive e → (∀ a ∈ arms, motive a.2) → motive (.case e arms)) (e : Expr) :
    motive e := by
  refine @Expr.rec motive (fun es => ∀ e ∈ es, motive e) (fun arms => ∀ a ∈ arms, motive a.2)
    (fun a => motive a.2) lit var abs app letIn letRec cond bin nil cons list case ?_ ?_ ?_ ?_ ?_ e
  · intro e he
    cases he
  · intro e es he hes e' he'
    obtain rfl | he' := List.mem_cons.mp he'
    · exact he
    · exact hes e' he'
  · intro a ha
    cases ha
  · intro a arms ha harms a' ha'
    obtain rfl | ha' := List.mem_cons.mp ha'
    · exact ha
    · exact harms a' ha'
  · intro p b hb
    exact hb

variable {P : Nat → Prop} {Γ : TypeEnv} {n m k : Nat} {s s' : Subst} {t t₁ t₂ : Ty} {e : Expr}
  {u u' : Supply}

theorem BinOp.all_operandTy {p : Nat → Prop} (op : BinOp) : op.operandTy.All p := by
  cases op <;> simp [operandTy]

theorem BinOp.all_resultTy {p : Nat → Prop} (op : BinOp) : op.resultTy.All p := by
  cases op <;> simp [resultTy]

/-- What inference finds for an expression in an environment: how it proceeds from the free
variables of the environment, and that the expression has the type it gives. -/
structure ExprOutcome (Γ : TypeEnv) (e : Expr) (n : Nat) (s : Subst) (t : Ty) (m : Nat) : Prop where
  stage : Stage Γ.Free n s m
  live : t.All (Live Γ.Free n s m)
  typing : Γ.Apart n → Typing (Γ.apply s) e t

def Correct (e : Expr) : Prop := ∀ {Γ u s t u'}, Found Γ e u s t u' → (∀ v, Γ.Free v → v < u.next) →
  ExprOutcome Γ e u.next s t u'.next

theorem Typing.later (h : Typing (Γ.apply s) e t) (hΓ : Γ.Apart n) (hs : Stage Γ.Free n s m)
    (hl : Stage.Later Γ.Free n s m s' k) : Typing (Γ.apply (s'.compose s)) e (t.apply s') := by
  rw [Ty.apply_eq_subst]
  exact h.subst (hΓ.covers hs hl.stage)

theorem Stage.found {Γ' : TypeEnv} (he : Correct e) (h : Stage P n s u.next)
    (hf : Found Γ' e u s' t u') (hΓ : ∀ v, Γ'.Free v → Live P n s u.next v) :
    Later P n s u.next s' u'.next ∧ t.All (Live P n (s'.compose s) u'.next) ∧
      (Γ'.Apart u.next → Typing (Γ'.apply s') e t) := by
  have ho := he hf (fun v hv => h.known_lt (hΓ v hv).1)
  exact ⟨h.later ho.stage hΓ, ho.live.imp (fun v hv => h.live_of_later ho.stage hΓ hv), ho.typing⟩

theorem Stage.foundNext (he : Correct e) (h : Stage Γ.Free n s u.next)
    (hf : Found (Γ.apply s) e u s' t u') :
    Later Γ.Free n s u.next s' u'.next ∧ t.All (Live Γ.Free n (s'.compose s) u'.next) ∧
      (Γ.Apart n → Typing (Γ.apply (s'.compose s)) e t) := by
  obtain ⟨hl, ht, hty⟩ := h.found he hf (fun v hv => TypeEnv.free_live h hv)
  refine ⟨hl, ht, fun hΓ => ?_⟩
  rw [hΓ.apply_compose h s']
  exact hty (hΓ.apply h)

theorem TypeEnv.free_generalize (h : Stage Γ.Free n s m) (t : Ty) (x : String) (v : Nat)
    (hv : TypeEnv.Free ((Γ.apply s).insert x ((Γ.apply s).generalize t)) v) :
    Live Γ.Free n s m v := by
  obtain hv | hv := TypeEnv.free_insert hv
  · exact TypeEnv.free_live h hv
  · exact TypeEnv.free_live h (((Γ.apply s).generalizes_generalize t).free_iff.mp hv).2

theorem live_param (Γ : TypeEnv) (n : Nat) (x : String) (v : Nat)
    (hv : TypeEnv.Free (Γ.insert x (.mono (.var n))) v) : Live Γ.Free n .empty (n + 1) v := by
  obtain hv | hv := TypeEnv.free_insert hv
  · exact ⟨Or.inl hv, rfl⟩
  · have hvn : v = n := by simpa [Ty.leaves] using hv
    exact ⟨Or.inr ⟨by omega, by omega⟩, rfl⟩

theorem found_param {x : String} {b : Expr} (hb : Correct b) (hΓ : ∀ v, Γ.Free v → v < u.next)
    (hf : Found (Γ.insert x (.mono (.var u.next))) b (u.take 1) s t u') :
    Stage Γ.Free u.next s u'.next ∧ t.All (Live Γ.Free u.next s u'.next) ∧
      ((Ty.var u.next).apply s).All (Live Γ.Free u.next s u'.next) ∧
      (Γ.Apart u.next →
        Typing ((Γ.apply s).insert x (.mono ((Ty.var u.next).apply s))) b t) := by
  have hst := (Stage.start hΓ).widen (Nat.le_add_right u.next 1)
  obtain ⟨hl, ht, hty⟩ := hst.found (u := u.take 1) hb hf (live_param Γ u.next x)
  have hparam := hl.live (Live.first Γ.Free u.next)
  have hst' := hl.stage
  rw [Subst.compose_empty] at ht hparam hst'
  refine ⟨hst', ht, hparam, fun hΓ => ?_⟩
  rw [← Scheme.apply_mono, ← TypeEnv.apply_insert]
  exact hty (hΓ.param x)

/-- A definition may be put through what its scope makes of its environment. -/
theorem exists_generalizes_apply {a : Ty} {x : String} (hΓ : Γ.Apart n) (ha : ∀ v ∈ a.leaves, v < n)
    (hs : Stage (TypeEnv.Free (Γ.insert x (Γ.generalize a))) n s m) :
    ∃ θ : Nat → Ty, TypeEnv.Covers θ Γ .var (Γ.apply s) ∧
      ∃ σ : Scheme, (Γ.apply s).Generalizes (a.subst θ) σ ∧
        ∀ {b : Expr} {t : Ty}, Typing (TypeEnv.apply s (Γ.insert x (Γ.generalize a))) b t →
          Typing ((Γ.apply s).insert x σ) b t := by
  have hgen := Γ.generalizes_generalize a
  have hsΓ : Stage Γ.Free n s m := hs.mono (fun v hv => (TypeEnv.free_insert hv).elim id
    (fun hv => (hgen.free_iff.mp hv).2)) hΓ.free_lt
  have havoids : (Γ.generalize a).Avoids s :=
    (hΓ.generalize ha x).avoids hs (by rw [Table.get?_insert, if_pos rfl])
  obtain ⟨θ, hθ, hinst⟩ := exists_apart (Γ.apply s) (Subst.fn s) hgen
  have hσ := (Γ.apply s).generalizes_generalize (a.subst θ)
  refine ⟨θ, (TypeEnv.Covers.congr hθ).trans (hΓ.covers_apply hsΓ), _, hσ, fun h => ?_⟩
  rw [TypeEnv.apply_insert] at h
  have hcov := (TypeEnv.Covers.refl .var (Γ.apply s)).insert (fun t' ht' =>
    hinst _ hσ t' (by simpa using (Scheme.instanceUnder_apply havoids).mp ht')) x
  simpa using h.subst hcov

theorem Stage.foundScope {a : Ty} {x : String} {b : Expr} (hb : Correct b)
    (h : Stage Γ.Free n s u.next)
    (hf : Found ((Γ.apply s).insert x ((Γ.apply s).generalize a)) b u s' t u')
    (ha : a.All (Live Γ.Free n s u.next)) :
    Stage Γ.Free n (s'.compose s) u'.next ∧ t.All (Live Γ.Free n (s'.compose s) u'.next) ∧
      (Γ.Apart n → ∃ θ : Nat → Ty,
        TypeEnv.Covers θ (Γ.apply s) .var (Γ.apply (s'.compose s)) ∧
        ∃ σ : Scheme, (Γ.apply (s'.compose s)).Generalizes (a.subst θ) σ ∧
          Typing ((Γ.apply (s'.compose s)).insert x σ) b t) := by
  have hfree := TypeEnv.free_generalize h a x
  have ho := hb hf (fun v hv => h.known_lt (hfree v hv).1)
  refine ⟨h.trans ho.stage hfree,
    ho.live.imp (fun v hv => h.live_of_later ho.stage hfree hv), fun hΓ => ?_⟩
  have hlt : ∀ v ∈ a.leaves, v < u.next := fun v hv => h.known_lt (ha v hv).1
  have hΓ₁ := hΓ.apply h
  obtain ⟨θ, hcov, σ, hσ, hbody⟩ := exists_generalizes_apply hΓ₁ hlt ho.stage
  rw [hΓ.apply_compose h]
  exact ⟨θ, hcov, σ, hσ, hbody (ho.typing (hΓ₁.generalize hlt x))⟩

theorem FoundElems.outcome {elem : Ty} {es : List Expr} (hes : ∀ e ∈ es, Correct e)
    (h : FoundElems Γ elem s es u s' u') (hst : Stage Γ.Free n s u.next)
    (helem : elem.All (Known Γ.Free n u.next)) :
    ∃ r, s' = r.compose s ∧ Stage.Later Γ.Free n s u.next r u'.next ∧
      (Γ.Apart n → ∀ e ∈ es, Typing (Γ.apply s') e (elem.apply s')) := by
  induction es generalizing s u with
  | nil =>
    obtain ⟨rfl, rfl⟩ := foundElems_nil.mp h
    exact ⟨.empty, by simp, Stage.Later.refl hst, by simp⟩
  | cons e es ih =>
    obtain ⟨s₁, t₁, u₁, s₂, h₁, hu, h₂⟩ := foundElems_cons.mp h
    obtain ⟨hl₁, ht₁, hty⟩ := hst.foundNext (hes e (by simp)) h₁
    have helem₁ : elem.All (Known Γ.Free n u₁.next) := helem.imp (fun v hv => hv.widen hl₁.le)
    rw [Stage.apply_eq_self ht₁] at hu
    have hl₂ := hl₁.stage.solved hu (hl₁.stage.apply_live helem₁) ht₁
    obtain ⟨r, rfl, hl, hrest⟩ := ih (fun e he => hes e (by simp [he])) h₂ hl₂.stage helem₁
    refine ⟨r.compose (s₂.compose s₁), ?_, (hl₁.trans hl₂).trans (by
      rw [← Subst.compose_assoc]; exact hl), fun hΓ e' he' => ?_⟩
    · simp only [Subst.compose_assoc]
    · obtain rfl | he' := List.mem_cons.mp he'
      · have htyped := ((hty hΓ).later hΓ hl₁.stage hl₂).later hΓ hl₂.stage hl
        rw [← unify_equates hu] at htyped
        simpa only [Ty.apply_compose] using htyped
      · exact hrest hΓ e' he'

theorem TypeEnv.Apart.arm {bs : List (String × Ty)} (hΓ : Γ.Apart n) (hst : Stage Γ.Free n s m)
    (hbs : ∀ b ∈ bs, b.2.All (Live Γ.Free n s m)) : ((Γ.apply s).bindAll bs).Apart m := by
  refine (hΓ.apply hst).bindAll (fun b hb v hv => hst.known_lt (hbs b hb v hv).1) (fun y ς hy => ?_)
  rw [TypeEnv.get?_apply] at hy
  obtain ⟨σ, hσ, rfl⟩ := Option.map_eq_some_iff.mp hy
  obtain hc | hk := hΓ.not_known (m := m) hσ
  · rw [Scheme.apply_of_closed hc]
    exact Or.inl hc
  · exact Or.inr (fun v hv b hb hvb => hk v hv (hbs b hb v hvb).1)

theorem TypeEnv.free_arm {bs : List (String × Ty)} (h : Stage Γ.Free n s m)
    (hbs : ∀ b ∈ bs, b.2.All (Live Γ.Free n s m)) (v : Nat)
    (hv : ((Γ.apply s).bindAll bs).Free v) : Live Γ.Free n s m v := by
  obtain hv | ⟨b, hb, hv⟩ := TypeEnv.free_bindAll hv
  · exact TypeEnv.free_live h hv
  · exact hbs b hb v hv

theorem FoundArms.outcome {scrutinee result : Ty} {arms : List (Pattern × Expr)}
    (harms : ∀ a ∈ arms, Correct a.2) (h : FoundArms Γ scrutinee result s arms u s' u')
    (hst : Stage Γ.Free n s u.next) (hscr : scrutinee.All (Known Γ.Free n u.next))
    (hres : result.All (Known Γ.Free n u.next)) :
    ∃ r, s' = r.compose s ∧ Stage.Later Γ.Free n s u.next r u'.next ∧
      (Γ.Apart n → ∀ p b, (p, b) ∈ arms → ∃ bs, p.Binds (scrutinee.apply s') bs ∧
        Typing ((Γ.apply s').bindAll bs) b (result.apply s')) := by
  induction arms generalizing s u with
  | nil =>
    obtain ⟨rfl, rfl⟩ := foundArms_nil.mp h
    exact ⟨.empty, by simp, Stage.Later.refl hst, by simp⟩
  | cons a arms ih =>
    obtain ⟨p, b⟩ := a
    obtain ⟨s₁, bs, u₁, s₂, t₂, u₂, s₃, hp, hb, hu, hrest⟩ := foundArms_cons.mp h
    obtain ⟨hl₁, hlive, hbinds⟩ := hst.foundPattern hp hscr
    let cs := bs.map fun b => (b.1, b.2.apply (s₁.compose s))
    have hcs : ∀ c ∈ cs, c.2.All (Live Γ.Free n (s₁.compose s) u₁.next) := fun c hc => by
      obtain ⟨b, hb, rfl⟩ := List.mem_map.mp hc
      exact hlive b hb
    obtain ⟨hl₂, ht₂, hty⟩ := hl₁.stage.found (harms (p, b) (by simp)) hb
      (TypeEnv.free_arm hl₁.stage hcs)
    have hle := Nat.le_trans hl₁.le hl₂.le
    rw [Stage.apply_eq_self ht₂] at hu
    have hl₃ := hl₂.stage.solved hu
      (hl₂.stage.apply_live (hres.imp (fun v hv => hv.widen hle))) ht₂
    obtain ⟨r, rfl, hl, harms'⟩ := ih (fun a ha => harms a (by simp [ha])) hrest hl₃.stage
      (hscr.imp (fun v hv => hv.widen hle)) (hres.imp (fun v hv => hv.widen hle))
    -- what is solved after the body: the result type, then the other arms
    have hlast := hl₃.trans hl
    refine ⟨((r.compose s₃).compose s₂).compose s₁, by simp only [Subst.compose_assoc],
      hl₁.trans (hl₂.trans hlast), fun hΓ p' b' hpb => ?_⟩
    obtain hpb | hpb := List.mem_cons.mp hpb
    · obtain ⟨rfl, rfl⟩ := Prod.mk.inj hpb
      have hbody := hty (hΓ.arm hl₁.stage hcs)
      rw [TypeEnv.apply_bindAll, ← hΓ.apply_compose hl₁.stage] at hbody
      have hcov := (hΓ.covers hl₂.stage hlast.stage).bindAll
        (cs.map fun c => (c.1, c.2.apply s₂))
        (cs.map fun c => (c.1, (c.2.apply s₂).apply (r.compose s₃)))
        (by simp [Ty.apply_eq_subst])
      have hbody' := hbody.subst hcov
      rw [← Ty.apply_eq_subst, Ty.apply_compose, ← unify_equates hu] at hbody'
      have hbinds' := (hbinds.subst (Subst.fn s₂)).subst (Subst.fn (r.compose s₃))
      simp only [List.map_map, Function.comp_def, ← Ty.apply_eq_subst] at hbinds'
      refine ⟨cs.map fun c => (c.1, (c.2.apply s₂).apply (r.compose s₃)), ?_, ?_⟩
      · simpa [cs, Ty.apply_compose, Function.comp_def] using hbinds'
      · simpa only [Ty.apply_compose, Subst.compose_assoc] using hbody'
    · exact harms' hΓ p' b' hpb

namespace Correct

theorem app {f a : Expr} (ihf : Correct f) (iha : Correct a) : Correct (.app f a) := by
  intro Γ u s t u' h hΓ
  obtain ⟨s₁, t₁, u₁, s₂, t₂, u₂, s₃, hf, ha, hu, rfl, rfl, rfl⟩ := found_app.mp h
  have hf := ihf hf hΓ
  obtain ⟨hl₂, ht₂, hty₂⟩ := hf.stage.foundNext iha ha
  have hl₂' := hl₂.widen (Nat.le_succ u₂.next)
  have hres := Ty.all_var.mpr (hl₂.stage.live_fresh (Nat.le_refl u₂.next) (Nat.lt_succ_self _))
  have hl₃ := hl₂'.stage.solved hu (hl₂'.live hf.live)
    (Ty.all_arrow.mpr ⟨ht₂.imp (fun v hv => hv.widen (Nat.le_succ _)), hres⟩)
  refine ⟨hl₃.stage, hl₃.live hres, fun hΓ => ?_⟩
  have htf := ((hf.typing hΓ).later hΓ hf.stage hl₂').later hΓ hl₂'.stage hl₃
  rw [unify_equates hu] at htf
  exact .app htf ((hty₂ hΓ).later hΓ hl₂'.stage hl₃)

theorem letIn {v b : Expr} (ihv : Correct v) (ihb : Correct b) (x : String) :
    Correct (.letIn x v b) := by
  intro Γ u s t u' h hΓ
  obtain ⟨s₁, t₁, u₁, s₂, hv, hb, rfl⟩ := found_letIn.mp h
  have hv := ihv hv hΓ
  rw [Stage.apply_eq_self hv.live] at hb
  obtain ⟨hst, hlive, hscope⟩ := hv.stage.foundScope ihb hb hv.live
  refine ⟨hst, hlive, fun hΓ => ?_⟩
  obtain ⟨θ, hcov, σ, hσ, hbody⟩ := hscope hΓ
  exact .letIn ((hv.typing hΓ).subst hcov) hσ hbody

theorem letRec {v b : Expr} (ihv : Correct v) (ihb : Correct b) (x : String) :
    Correct (.letRec x v b) := by
  intro Γ u s t u' h hΓ
  obtain ⟨s₁, t₁, u₁, s₂, s₃, hv, hu, hb, rfl⟩ := found_letRec.mp h
  obtain ⟨hst₁, ht₁, hself, hty₁⟩ := found_param ihv hΓ hv
  rw [Stage.apply_eq_self ht₁] at hu
  have hl₂ := hst₁.solved hu hself ht₁
  have hself₂ := hl₂.live hself
  rw [← Ty.apply_compose] at hself₂
  obtain ⟨hst, hlive, hscope⟩ := hl₂.stage.foundScope (u := u₁.attempt _ _) ihb hb hself₂
  refine ⟨hst, hlive, fun hΓ => ?_⟩
  obtain ⟨θ, hcov, σ, hσ, hbody⟩ := hscope hΓ
  -- the type of the value is what the recursive name was solved for
  have hval := (hty₁ hΓ).subst ((hΓ.covers hst₁ hl₂.stage).insert_mono
    (a := (Ty.var u.next).apply s₁) (b := (Ty.var u.next).apply (s₂.compose s₁))
    (by rw [Ty.apply_compose, Ty.subst_var, Ty.apply_eq_subst s₂]) x)
  rw [← Ty.apply_eq_subst, ← unify_equates hu, ← Ty.apply_compose] at hval
  exact .letRec (hval.subst (hcov.insert_mono (by rw [Ty.subst_var]) x)) hσ hbody

theorem cond {c y n : Expr} (ihc : Correct c) (ihy : Correct y) (ihn : Correct n) :
    Correct (.cond c y n) := by
  intro Γ u s t u' h hΓ
  obtain ⟨s₁, t₁, u₁, s₂, s₃, t₃, u₃, s₄, t₄, u₄, s₅, hc, hu₂, hy, hn, hu₅, rfl, rfl, rfl⟩ :=
    found_cond.mp h
  have hc := ihc hc hΓ
  have hl₂ := hc.stage.solved hu₂ Ty.all_bool hc.live
  obtain ⟨hl₃, ht₃, hty₃⟩ := hl₂.stage.foundNext (u := u₁.attempt _ _) ihy hy
  obtain ⟨hl₄, ht₄, hty₄⟩ := hl₃.stage.foundNext ihn hn
  have hyes : t₃.apply (s₄.compose (s₃.compose (s₂.compose s₁))) = t₃.apply s₄ := by
    rw [Ty.apply_compose, Stage.apply_eq_self ht₃]
  rw [hyes, Stage.apply_eq_self ht₄] at hu₅
  have hl₅ := hl₄.stage.solved hu₅ (hl₄.live ht₃) ht₄
  have hno : t₄.apply (s₅.compose (s₄.compose (s₃.compose (s₂.compose s₁)))) = t₄.apply s₅ := by
    rw [Ty.apply_compose, Stage.apply_eq_self ht₄]
  rw [hno]
  refine ⟨hl₅.stage, hl₅.live ht₄, fun hΓ => ?_⟩
  have htc := ((((hc.typing hΓ).later hΓ hc.stage hl₂).later hΓ hl₂.stage hl₃).later hΓ
    hl₃.stage hl₄).later hΓ hl₄.stage hl₅
  rw [← unify_equates hu₂] at htc
  have hty := ((hty₃ hΓ).later hΓ hl₃.stage hl₄).later hΓ hl₄.stage hl₅
  rw [unify_equates hu₅] at hty
  exact .cond htc hty ((hty₄ hΓ).later hΓ hl₄.stage hl₅)

theorem bin {l r : Expr} (ihl : Correct l) (ihr : Correct r) (op : BinOp) :
    Correct (.bin op l r) := by
  intro Γ u s t u' h hΓ
  obtain ⟨s₁, t₁, u₁, s₂, s₃, t₃, u₃, s₄, hl, hu₂, hr, hu₄, rfl, rfl, rfl⟩ := found_bin.mp h
  have hl := ihl hl hΓ
  have hl₂ := hl.stage.solved hu₂ op.all_operandTy hl.live
  obtain ⟨hl₃, ht₃, hty₃⟩ := hl₂.stage.foundNext (u := u₁.attempt _ _) ihr hr
  rw [Stage.apply_eq_self ht₃] at hu₄
  have hl₄ := hl₃.stage.solved hu₄ op.all_operandTy ht₃
  refine ⟨hl₄.stage, op.all_resultTy, fun hΓ => ?_⟩
  have htl := (((hl.typing hΓ).later hΓ hl.stage hl₂).later hΓ hl₂.stage hl₃).later hΓ
    hl₃.stage hl₄
  have htr := (hty₃ hΓ).later hΓ hl₃.stage hl₄
  rw [← unify_equates hu₂] at htl
  rw [← unify_equates hu₄] at htr
  simp only [Ty.apply_eq_subst, op.subst_operandTy] at htl htr
  exact .bin htl htr

theorem cons {h l : Expr} (ihh : Correct h) (ihl : Correct l) : Correct (.cons h l) := by
  intro Γ u s t u' hf hΓ
  obtain ⟨s₁, t₁, u₁, s₂, t₂, u₂, s₃, hh, hl, hu, rfl, rfl, rfl⟩ := found_cons.mp hf
  have hh := ihh hh hΓ
  obtain ⟨hl₂, ht₂, hty₂⟩ := hh.stage.foundNext ihl hl
  have hhead : t₁.apply (s₂.compose s₁) = t₁.apply s₂ := by
    rw [Ty.apply_compose, Stage.apply_eq_self hh.live]
  rw [hhead, Stage.apply_eq_self ht₂] at hu
  rw [hhead]
  have hl₃ := hl₂.stage.solved hu (hl₂.live hh.live) ht₂
  refine ⟨hl₃.stage, hl₃.live (t := .list (t₁.apply s₂)) (hl₂.live hh.live), fun hΓ => ?_⟩
  have htl := (hty₂ hΓ).later hΓ hl₂.stage hl₃
  rw [← unify_equates hu] at htl
  exact .cons (((hh.typing hΓ).later hΓ hh.stage hl₂).later hΓ hl₂.stage hl₃) htl

theorem list {es : List Expr} (ih : ∀ e ∈ es, Correct e) : Correct (.list es) := by
  intro Γ u s t u' h hΓ
  obtain ⟨hes, rfl⟩ := found_list.mp h
  have hst := (Stage.start hΓ).widen (Nat.le_add_right u.next 1)
  have helem := (Live.first Γ.Free u.next).imp (fun v hv => hv.1)
  obtain ⟨r, rfl, hl, hty⟩ := hes.outcome ih hst helem
  exact ⟨hl.stage, hl.stage.apply_live (helem.imp (fun v hv => hv.widen hl.le)),
    fun hΓ => .list (hty hΓ)⟩

theorem case {arms : List (Pattern × Expr)} (ihe : Correct e) (iharms : ∀ a ∈ arms, Correct a.2) :
    Correct (.case e arms) := by
  intro Γ u s t u' h hΓ
  obtain ⟨s₁, t₁, u₁, he, harms, rfl⟩ := found_case.mp h
  have he := ihe he hΓ
  have hst := he.stage.widen (Nat.le_add_right u₁.next 1)
  have hlive := he.live.imp (fun v hv => hv.widen (Nat.le_succ u₁.next))
  have hres : (Ty.var u₁.next).All (Known Γ.Free u.next (u₁.next + 1)) :=
    Ty.all_var.mpr (he.stage.live_fresh (Nat.le_refl _) (Nat.lt_succ_self _)).1
  obtain ⟨r, rfl, hl, hty⟩ := harms.outcome iharms hst (hlive.imp (fun v hv => hv.1)) hres
  refine ⟨hl.stage, hl.stage.apply_live (hres.imp (fun v hv => hv.widen hl.le)), fun hΓ => ?_⟩
  refine typing_case_iff.mpr ⟨t₁.apply (r.compose s₁), ?_, hty hΓ⟩
  rw [Ty.apply_compose, Stage.apply_eq_self hlive]
  exact (he.typing hΓ).later hΓ hst hl

end Correct

theorem correct (e : Expr) : Correct e := by
  induction e using Expr.ind with
  | lit l =>
    intro Γ u s t u' h hΓ
    obtain ⟨rfl, rfl, rfl⟩ := found_lit.mp h
    exact ⟨Stage.start hΓ, l.all_ty, fun _ => .lit _ l⟩
  | var x =>
    intro Γ u s t u' h hΓ
    obtain ⟨σ, hx, rfl, rfl, rfl⟩ := found_var.mp h
    refine ⟨(Stage.start hΓ).widen (Nat.le_add_right ..), fun v hv => ⟨?_, rfl⟩, fun _ => ?_⟩
    · exact (Scheme.mem_leaves_instantiate hv).imp_left (fun hv => ⟨x, σ, hx, hv⟩)
    · rw [TypeEnv.apply_empty]
      exact .var hx (σ.instance_instantiate _)
  | abs x b ih =>
    intro Γ u s t u' h hΓ
    obtain ⟨a, hb, rfl⟩ := found_abs.mp h
    obtain ⟨hst, ha, hparam, hty⟩ := found_param ih hΓ hb
    exact ⟨hst, Ty.all_arrow.mpr ⟨hparam, ha⟩, fun hΓ => .abs (hty hΓ)⟩
  | app f a ihf iha => exact ihf.app iha
  | letIn x v b ihv ihb => exact ihv.letIn ihb x
  | letRec x v b ihv ihb => exact ihv.letRec ihb x
  | cond c y n ihc ihy ihn => exact ihc.cond ihy ihn
  | bin op l r ihl ihr => exact ihl.bin ihr op
  | nil =>
    intro Γ u s t u' h hΓ
    obtain ⟨rfl, rfl, rfl⟩ := found_nil.mp h
    exact ⟨(Stage.start hΓ).widen (Nat.le_add_right ..), Live.first Γ.Free u.next,
      fun _ => .nil _ _⟩
  | cons h l ihh ihl => exact ihh.cons ihl
  | list es ih => exact Correct.list ih
  | case e arms ihe iharms => exact ihe.case iharms

theorem found_of_schemeOf {σ : Scheme} (h : schemeOf Γ e = .ok σ) :
    ∃ s t u', Found Γ e Γ.unused s t u' ∧ σ = (Γ.apply s).generalize (t.apply s) := by
  unfold schemeOf at h
  cases hrun : (inferScheme Γ e).run Γ.unused with
  | mk r u' =>
    rw [hrun] at h
    cases r with
    | error err => cases h
    | ok p =>
      obtain ⟨⟨s, t, d⟩, u₁, hi, hp⟩ := InferM.gives_bind.mp hrun
      obtain ⟨rfl, rfl⟩ := InferM.gives_pure.mp hp
      cases h
      exact ⟨s, t, _, ⟨d, hi⟩, rfl⟩

theorem TypeEnv.Closed.typing (hΓ : Γ.Closed) (h : Found Γ e u s t u') : Typing Γ e t := by
  have ho := correct e h (fun v hv => (hΓ.not_free v hv).elim)
  simpa only [hΓ.apply_eq] using ho.typing (hΓ.apart u.next)

/-- Every type of the scheme of an expression is a type of the expression. -/
theorem TypeEnv.Closed.typing_of_schemeOf {σ : Scheme} (hΓ : Γ.Closed) (h : schemeOf Γ e = .ok σ)
    (ht : σ.Instance t) : Typing Γ e t := by
  obtain ⟨s, t', u', hf, rfl⟩ := found_of_schemeOf h
  have ho := correct e hf (fun v hv => (hΓ.not_free v hv).elim)
  rw [Stage.apply_eq_self ho.live, hΓ.apply_eq] at ht
  exact (hΓ.typing hf).instance (Γ.generalizes_generalize t') ht

/-- The type that inference gives an expression in a closed environment is one of its types, and
so is every type of its scheme. -/
theorem infer_sound (hΓ : Γ.Closed) :
    (∀ r u, (infer Γ e).run Γ.unused = (.ok r, u) → Typing Γ e r.ty) ∧
      ∀ σ, schemeOf Γ e = .ok σ → ∀ t, σ.Instance t → Typing Γ e t := by
  refine ⟨fun r u h => ?_, fun σ h t ht => hΓ.typing_of_schemeOf h ht⟩
  obtain ⟨s, t, d⟩ := r
  exact hΓ.typing ⟨d, h⟩

/-- The quantified variable is the first that inference takes. -/
def identityEnv : TypeEnv := Table.empty.insert "id" ⟨[0], .arrow (.var 0) (.var 0)⟩

def identityUse : Expr :=
  .letIn "f" (.abs "x" (.app (.var "id") (.var "x"))) (.app (.var "id") (.var "f"))

theorem identityEnv_closed : identityEnv.Closed :=
  TypeEnv.closed_empty.insert (by decide) "id"

theorem infer_sound_identity : identityEnv.Closed ∧
    schemeOf identityEnv identityUse = .ok ⟨[4], .arrow (.var 4) (.var 4)⟩ ∧
    Typing identityEnv identityUse (.arrow .int .int) := by
  have hscheme : schemeOf identityEnv identityUse = .ok ⟨[4], .arrow (.var 4) (.var 4)⟩ := rfl
  have hint : Scheme.Instance ⟨[4], .arrow (.var 4) (.var 4)⟩ (.arrow .int .int) :=
    ⟨fun v => if v = 4 then .int else .var v, fun v hv => if_neg (by simpa using hv), rfl⟩
  exact ⟨identityEnv_closed, hscheme, (infer_sound identityEnv_closed).2 _ hscheme _ hint⟩

end LetML
