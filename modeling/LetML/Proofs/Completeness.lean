import LetML.Proofs.Soundness

namespace LetML

variable {P Q : Nat → Prop} {Γ Γ' Γ₂ : TypeEnv} {n m k : Nat} {s s' : Subst} {t t' t₁ t₂ : Ty}
  {e : Expr} {u u' : Supply} {θ θ' θ'' : Nat → Ty}

/-- An environment of a typing, where inference has `Γ` and its variables stand for what `θ` gives
them. -/
structure TypeEnv.Realizes (Γ' : TypeEnv) (θ : Nat → Ty) (Γ : TypeEnv) : Prop where
  covers : Covers .var Γ' θ Γ
  names : ∀ x, Γ'.get? x = none → Γ.get? x = none

namespace TypeEnv.Realizes

theorem insert (h : Γ'.Realizes θ Γ) {σ' σ : Scheme}
    (hσ : ∀ t, σ'.InstanceUnder .var t → σ.InstanceUnder θ t) (x : String) :
    Realizes (Γ'.insert x σ') θ (Γ.insert x σ) where
  covers := h.covers.insert hσ x
  names y hy := by
    rw [Table.get?_insert] at hy ⊢
    by_cases hyx : y = x
    · rw [if_pos hyx] at hy
      cases hy
    · rw [if_neg hyx] at hy ⊢
      exact h.names y hy

theorem insert_mono (h : Γ'.Realizes θ Γ) {a b : Ty} (hab : a = b.subst θ) (x : String) :
    Realizes (Γ'.insert x (.mono a)) θ (Γ.insert x (.mono b)) :=
  h.insert (fun t ht => by simpa [hab] using ht) x

theorem bindAll (h : Γ'.Realizes θ Γ) (bs : List (String × Ty)) :
    Realizes (Γ'.bindAll (bs.map fun b => (b.1, b.2.subst θ))) θ (Γ.bindAll bs) := by
  induction bs generalizing Γ' Γ with
  | nil => exact h
  | cons b bs ih => exact ih (h.insert_mono rfl b.1)

theorem congr (h : Γ'.Realizes θ Γ) (hθ : ∀ v, Γ.Free v → θ v = θ' v) : Γ'.Realizes θ' Γ where
  covers := h.covers.trans (Covers.congr hθ)
  names := h.names

theorem apply (h : Γ'.Realizes θ Γ) (hΓ : Γ.Apart n) (hs : Stage Γ.Free n s m) (hθ : Solves θ s) :
    Γ'.Realizes θ (Γ.apply s) where
  covers := h.covers.trans (fun x σ hx => by
    refine ⟨σ.apply s, by rw [get?_apply, hx]; rfl, fun t ht => ?_⟩
    refine (Scheme.instanceUnder_apply (hΓ.avoids hs hx)).mpr ?_
    exact Scheme.instanceUnder_congr (fun v _ => (hθ v).symm) ht)
  names x hx := by rw [get?_apply, h.names x hx]; rfl

theorem generalize (h : Γ'.Realizes θ Γ) {σ : Scheme} (hσ : Γ'.Generalizes (t.subst θ) σ)
    (x : String) : Realizes (Γ'.insert x σ) θ (Γ.insert x (Γ.generalize t)) := by
  refine h.insert (fun t' ht' => ?_) x
  obtain ⟨f, hf, rfl⟩ := hσ.instanceUnder_iff.mp ht'
  refine (Γ.generalizes_generalize t).instanceUnder_iff.mpr
    ⟨fun v => (θ v).subst f, fun v hv hfree => ?_, Ty.subst_subst ..⟩
  refine Ty.subst_eq_self (fun w hw => hf w (Ty.mem_leaves_subst.mpr ⟨v, hv, hw⟩) ?_)
  exact h.covers.free_of_free h.names hfree hw

end TypeEnv.Realizes

theorem Solves.extend (h : Solves θ s) (hst : Stage P n s m) (hθ : ∀ v < m, θ' v = θ v) :
    Solves θ' s := by
  intro v
  cases hs : s.get? v with
  | none => rw [Subst.fn_of_none hs]; rfl
  | some t =>
    have hv : v < m := hst.known_lt (hst.keys v t hs)
    have ht : t.subst θ' = t.subst θ :=
      Ty.subst_congr (fun w hw => hθ w (hst.known_lt (hst.range v t hs w hw).1))
    rw [Subst.fn_of_some hs, ht, hθ v hv, ← h v, Subst.fn_of_some hs]

/-- The assignment `θ'` agrees with `θ` on the variables that were given and solves what has been
found. -/
structure Solution (P : Nat → Prop) (n : Nat) (θ : Nat → Ty) (s : Subst) (m : Nat) (θ' : Nat → Ty) :
    Prop where
  stage : Stage P n s m
  agree : ∀ v < n, θ' v = θ v
  solves : Solves θ' s

def assign (θ : Nat → Ty) (n : Nat) (a : Ty) (v : Nat) : Ty := if v = n then a else θ v

theorem assign_of_lt {a : Ty} {v : Nat} (hv : v < n) : assign θ n a v = θ v :=
  if_neg (Nat.ne_of_lt hv)

@[simp] theorem assign_self {a : Ty} : assign θ n a n = a := if_pos rfl

theorem Ty.subst_agree (ht : ∀ v ∈ t.leaves, v < m) (hθ : ∀ v < m, θ' v = θ v) :
    t.subst θ' = t.subst θ := subst_congr (fun v hv => hθ v (ht v hv))

theorem Stage.subst_agree (h : Stage P n s m) (ht : t.All (Known P n m))
    (hθ : ∀ v < m, θ' v = θ v) : t.subst θ' = t.subst θ :=
  Ty.subst_agree (fun v hv => h.known_lt (ht v hv)) hθ

namespace Solution

theorem start (hP : ∀ v, P v → v < n) (θ : Nat → Ty) : Solution P n θ .empty n θ :=
  ⟨Stage.start hP, fun _ _ => rfl, Solves.empty θ⟩

theorem fresh (h : Solution P n θ s m θ') (a : Ty) :
    Solution P n θ s (m + 1) (assign θ' m a) where
  stage := h.stage.widen (Nat.le_succ m)
  agree v hv := (assign_of_lt (Nat.lt_of_lt_of_le hv h.stage.le)).trans (h.agree v hv)
  solves := h.solves.extend h.stage (fun _ hv => assign_of_lt hv)

theorem solve (h : Solution P n θ s m θ') (h₁ : t₁.All (Live P n s m)) (h₂ : t₂.All (Live P n s m))
    (heq : t₁.subst θ' = t₂.subst θ') :
    ∃ s', unify t₁ t₂ = .ok s' ∧ Stage.Later P n s m s' m ∧
      Solution P n θ (s'.compose s) m θ' := by
  obtain ⟨s', hu, hs'⟩ := exists_unify heq
  have hl := h.stage.solved hu h₁ h₂
  exact ⟨s', hu, hl, hl.stage, h.agree, h.solves.compose hs'⟩

theorem trans (h : Solution P n θ s m θ') (h' : Solution Q m θ' s' k θ'')
    (hQ : ∀ v, Q v → Live P n s m v) : Solution P n θ (s'.compose s) k θ'' where
  stage := h.stage.trans h'.stage hQ
  agree v hv := (h'.agree v (Nat.lt_of_lt_of_le hv h.stage.le)).trans (h.agree v hv)
  solves := (h.solves.extend h.stage h'.agree).compose h'.solves

theorem subst_apply (h : Solution P n θ (s'.compose s) k θ') (ht : t.All (Live P n s m)) :
    (t.apply s').subst θ' = t.subst θ' := by
  have hs := h.solves.apply t
  rwa [Ty.apply_compose, Stage.apply_eq_self ht] at hs

theorem subst_assign (h : Solution P n θ s m θ') (ht : t.All (Live P n s m)) (a : Ty) :
    t.subst (assign θ' m a) = t.subst θ' :=
  h.stage.subst_agree (ht.imp (fun _ hv => hv.1)) (fun _ hv => assign_of_lt hv)

theorem realizes (h : Solution Γ.Free n θ s m θ') (hΓ : Γ.Apart n) (hr : Γ'.Realizes θ Γ) :
    Γ'.Realizes θ' (Γ.apply s) :=
  (hr.congr (fun v hv => (h.agree v (hΓ.free_lt v hv)).symm)).apply hΓ h.stage h.solves

end Solution

theorem exists_list {a : Ty} (ht : ∀ v ∈ t.leaves, v < n) (h : t.subst θ = .list a) :
    ∃ s, unify (.list (.var n)) t = .ok s ∧
      Solution (· ∈ t.leaves) n θ s (n + 1) (assign θ n a) := by
  have hlive : t.All (Live (· ∈ t.leaves) n .empty (n + 1)) := fun v hv => ⟨Or.inl hv, rfl⟩
  have heq : t.subst (assign θ n a) = .list a :=
    (Ty.subst_agree ht (fun _ hv => assign_of_lt hv)).trans h
  have hlist : (Ty.list (.var n)).All (Live (· ∈ t.leaves) n .empty (n + 1)) := Live.first _ n
  obtain ⟨s, hu, -, hsol⟩ := ((Solution.start ht θ).fresh a).solve hlist hlive
    (by simp [Ty.subst, heq])
  exact ⟨s, hu, by simpa using hsol⟩

/-- A pattern that binds names at a type is found to bind them at every type of which that one is
an instance. -/
theorem Pattern.Binds.exists_found {p : Pattern} {bs' : List (String × Ty)}
    (h : p.Binds (t.subst θ) bs') (ht : ∀ v ∈ t.leaves, v < u.next) :
    ∃ s bs u' θ', FoundPattern p t u s bs u' ∧
      Solution (· ∈ t.leaves) u.next θ s u'.next θ' ∧
      bs.map (fun b => (b.1, b.2.subst θ')) = bs' := by
  induction p generalizing t u θ bs' with
  | var x =>
    cases h
    exact ⟨_, _, _, θ, foundPattern_var.mpr ⟨rfl, rfl, rfl⟩, .start ht θ, rfl⟩
  | wild =>
    cases h
    exact ⟨_, _, _, θ, foundPattern_wild.mpr ⟨rfl, rfl, rfl⟩, .start ht θ, rfl⟩
  | lit l =>
    generalize hT : t.subst θ = T at h
    cases h
    have hlive : t.All (Live (· ∈ t.leaves) u.next .empty u.next) := fun v hv => ⟨Or.inl hv, rfl⟩
    obtain ⟨s, hu, -, hsol⟩ := (Solution.start ht θ).solve l.all_ty hlive
      ((l.subst_ty θ).trans hT.symm)
    rw [Subst.compose_empty] at hsol
    exact ⟨s, _, _, θ, foundPattern_lit.mpr ⟨hu, rfl, rfl⟩, hsol, rfl⟩
  | nil =>
    generalize hT : t.subst θ = T at h
    cases h with
    | nil a =>
      obtain ⟨s, hu, hsol⟩ := exists_list ht hT
      exact ⟨s, _, _, _, foundPattern_nil.mpr ⟨hu, rfl, rfl⟩, hsol, rfl⟩
  | cons p q ihp ihq =>
    generalize hT : t.subst θ = T at h
    cases h with
    | @cons _ _ a bs cs hp hq =>
      obtain ⟨s₁, hu, hsol₁⟩ := exists_list ht hT
      have helem := hsol₁.stage.apply_live ((Live.first (· ∈ t.leaves) u.next).imp (fun _ h => h.1))
      have hbelow := fun v hv => hsol₁.stage.known_lt (helem v hv).1
      have ha : ((Ty.var u.next).apply s₁).subst (assign θ u.next a) = a := by
        rw [hsol₁.solves.apply]
        exact assign_self
      obtain ⟨s₂, bs₂, u₂, θ₂, hp, hsol₂, hbs⟩ := ihp (ha ▸ hp)
        (u := (u.take 1).attempt (.list (.var u.next)) t) hbelow
      have hsol := hsol₁.trans hsol₂ helem
      have htail := hsol.stage.apply_live (t := .list (.var u.next))
        ((Live.first (· ∈ t.leaves) u.next).imp (fun _ h => h.1.widen hsol₂.stage.le))
      have hlist : ((Ty.list (.var u.next)).apply (s₂.compose s₁)).subst θ₂ = .list a := by
        rw [hsol.solves.apply]
        simp [Ty.subst, hsol₂.agree u.next (Nat.lt_succ_self _)]
      obtain ⟨s₃, bs₃, u₃, θ₃, hq, hsol₃, hcs⟩ := ihq (hlist ▸ hq)
        (fun v hv => hsol.stage.known_lt (htail v hv).1)
      refine ⟨_, _, u₃, θ₃, foundPattern_cons.mpr ⟨s₁, s₂, bs₂, u₂, s₃, bs₃, hu, hp, hq, rfl, rfl⟩,
        hsol.trans hsol₃ htail, ?_⟩
      -- what the head binds was known before the tail was looked at
      have hknown := (hp.outcome hbelow).known
      have hbs' : bs₂.map (fun b => (b.1, b.2.subst θ₃)) = bs := by
        rw [← hbs]
        refine List.map_congr_left (fun b hb => ?_)
        rw [hsol₂.stage.subst_agree (hknown b hb) hsol₃.agree]
      rw [List.map_append, hbs', hcs]

/-- Inference finds a type for an expression of which `t'` is an instance, in every environment of
which `Γ'` is one. -/
def Complete (Γ' : TypeEnv) (e : Expr) (t' : Ty) : Prop :=
  ∀ {Γ u θ}, Γ.Apart u.next → Γ'.Realizes θ Γ →
    ∃ s t u' θ', Found Γ e u s t u' ∧ Solution Γ.Free u.next θ s u'.next θ' ∧ t.subst θ' = t'

structure Solution.Next (P : Nat → Prop) (n : Nat) (θ : Nat → Ty) (s : Subst) (m : Nat)
    (θ' : Nat → Ty) (s' : Subst) (t : Ty) (k : Nat) (θ'' : Nat → Ty) : Prop where
  solution : Solution P n θ (s'.compose s) k θ''
  later : Stage.Later P n s m s' k
  live : t.All (Live P n (s'.compose s) k)
  agree : ∀ v < m, θ'' v = θ' v

theorem Solution.Next.subst_apply {a : Ty} (h : Next P n θ s m θ' s' t k θ'') (hst : Stage P n s m)
    (ha : a.All (Live P n s m)) : (a.apply s').subst θ'' = a.subst θ' := by
  rw [h.solution.subst_apply ha]
  exact hst.subst_agree (ha.imp (fun _ hv => hv.1)) h.agree

theorem Solution.found (h : Solution P n θ s u.next θ') (he : Complete Γ' e t')
    (hΓ₂ : Γ₂.Apart u.next) (hr : Γ'.Realizes θ' Γ₂)
    (hlive : ∀ v, Γ₂.Free v → Live P n s u.next v) :
    ∃ s' t u' θ'', Found Γ₂ e u s' t u' ∧ Next P n θ s u.next θ' s' t u'.next θ'' ∧
      t.subst θ'' = t' := by
  obtain ⟨s', t, u', θ'', hf, hsol, ht⟩ := he hΓ₂ hr
  obtain ⟨hl, htl, -⟩ := h.stage.found (correct e) hf hlive
  exact ⟨s', t, u', θ'', hf, ⟨h.trans hsol hlive, hl, htl, hsol.agree⟩, ht⟩

theorem Solution.foundNext (h : Solution Γ.Free n θ s u.next θ') (he : Complete Γ' e t')
    (hΓ : Γ.Apart n) (hr : Γ'.Realizes θ Γ) :
    ∃ s' t u' θ'', Found (Γ.apply s) e u s' t u' ∧
      Next Γ.Free n θ s u.next θ' s' t u'.next θ'' ∧ t.subst θ'' = t' :=
  h.found he (hΓ.apply h.stage) (h.realizes hΓ hr) (fun _ hv => TypeEnv.free_live h.stage hv)

theorem Solution.foundScope {x : String} {b : Expr} {a : Ty} {σ : Scheme}
    (h : Solution Γ.Free n θ s u.next θ') (hb : Complete (Γ'.insert x σ) b t') (hΓ : Γ.Apart n)
    (hr : Γ'.Realizes θ Γ) (ha : a.All (Live Γ.Free n s u.next))
    (hσ : Γ'.Generalizes (a.subst θ') σ) :
    ∃ s' t u' θ'', Found ((Γ.apply s).insert x ((Γ.apply s).generalize a)) b u s' t u' ∧
      Next Γ.Free n θ s u.next θ' s' t u'.next θ'' ∧ t.subst θ'' = t' := by
  have hlt : ∀ v ∈ a.leaves, v < u.next := fun v hv => h.stage.known_lt (ha v hv).1
  exact h.found hb ((hΓ.apply h.stage).generalize hlt x) ((h.realizes hΓ hr).generalize hσ x)
    (TypeEnv.free_generalize h.stage a x)

theorem Complete.first (he : Complete Γ' e t') (hΓ : Γ.Apart u.next) (hr : Γ'.Realizes θ Γ) :
    ∃ s t u' θ', Found Γ e u s t u' ∧ Solution Γ.Free u.next θ s u'.next θ' ∧
      t.All (Live Γ.Free u.next s u'.next) ∧ t.subst θ' = t' := by
  obtain ⟨s, t, u', θ', hf, hsol, ht⟩ := he hΓ hr
  exact ⟨s, t, u', θ', hf, hsol, (correct e hf hΓ.free_lt).live, ht⟩

theorem Complete.param {x : String} {b : Expr} {a : Ty} (hb : Complete (Γ'.insert x (.mono a)) b t')
    (hΓ : Γ.Apart u.next) (hr : Γ'.Realizes θ Γ) :
    ∃ s t u' θ', Found (Γ.insert x (.mono (.var u.next))) b (u.take 1) s t u' ∧
      Solution Γ.Free u.next θ s u'.next θ' ∧ t.All (Live Γ.Free u.next s u'.next) ∧
      ((Ty.var u.next).apply s).All (Live Γ.Free u.next s u'.next) ∧
      ((Ty.var u.next).apply s).subst θ' = a ∧ t.subst θ' = t' := by
  have hsol := (Solution.start hΓ.free_lt θ).fresh a
  have hr' : Γ'.Realizes (assign θ u.next a) Γ :=
    hr.congr (fun v hv => (assign_of_lt (hΓ.free_lt v hv)).symm)
  obtain ⟨s, t, u', θ', hf, hnext, ht⟩ := hsol.found (u := u.take 1) hb (hΓ.param x)
    (hr'.insert_mono (by simp [Ty.subst]) x) (live_param Γ u.next x)
  obtain ⟨hsol', hlater, hlive, hagree⟩ := hnext
  have hparam := hlater.live (Live.first Γ.Free u.next)
  rw [Subst.compose_empty] at hsol' hlive hparam
  refine ⟨s, t, u', θ', hf, hsol', hlive, hparam, ?_, ht⟩
  rw [hsol'.solves.apply]
  exact (hagree u.next (Nat.lt_succ_self _)).trans assign_self

theorem exists_foundElems {elem a : Ty} {es : List Expr} (hes : ∀ e ∈ es, Complete Γ' e a)
    (hΓ : Γ.Apart n) (hr : Γ'.Realizes θ Γ) (h : Solution Γ.Free n θ s u.next θ')
    (helem : elem.All (Known Γ.Free n u.next)) (ha : elem.subst θ' = a) :
    ∃ s' u' θ'', FoundElems Γ elem s es u s' u' ∧ Solution Γ.Free n θ s' u'.next θ'' ∧
      elem.subst θ'' = a := by
  induction es generalizing s u θ' with
  | nil => exact ⟨s, u, θ', foundElems_nil.mpr ⟨rfl, rfl⟩, h, ha⟩
  | cons e es ih =>
    obtain ⟨s₁, t₁, u₁, θ₁, hf, hnext, ht₁⟩ := h.foundNext (hes e (by simp)) hΓ hr
    obtain ⟨hsol, hlater, hlive, hagree⟩ := hnext
    have helem₁ : elem.All (Known Γ.Free n u₁.next) := helem.imp (fun v hv => hv.widen hlater.le)
    have ha₁ : elem.subst θ₁ = a := (h.stage.subst_agree helem hagree).trans ha
    obtain ⟨s₂, hu, -, hsol₂⟩ := hsol.solve (hsol.stage.apply_live helem₁) hlive
      (by rw [hsol.solves.apply, ha₁, ht₁])
    rw [← Stage.apply_eq_self hlive] at hu
    obtain ⟨s', u', θ'', hrest, hsol', ha'⟩ := ih (fun e he => hes e (by simp [he]))
      (u := u₁.attempt _ _) hsol₂ helem₁ ha₁
    exact ⟨s', u', θ'', foundElems_cons.mpr ⟨s₁, t₁, u₁, s₂, hf, hu, hrest⟩, hsol', ha'⟩

theorem exists_foundArms {scrutinee result a : Ty} {arms : List (Pattern × Expr)}
    (harms : ∀ p b, (p, b) ∈ arms → ∃ bs, p.Binds a bs ∧ Complete (Γ'.bindAll bs) b t')
    (hΓ : Γ.Apart n) (hr : Γ'.Realizes θ Γ) (h : Solution Γ.Free n θ s u.next θ')
    (hscr : scrutinee.All (Known Γ.Free n u.next)) (hres : result.All (Known Γ.Free n u.next))
    (ha : scrutinee.subst θ' = a) (ht' : result.subst θ' = t') :
    ∃ s' u' θ'', FoundArms Γ scrutinee result s arms u s' u' ∧
      Solution Γ.Free n θ s' u'.next θ'' ∧ result.subst θ'' = t' := by
  induction arms generalizing s u θ' with
  | nil => exact ⟨s, u, θ', foundArms_nil.mpr ⟨rfl, rfl⟩, h, ht'⟩
  | cons arm arms ih =>
    obtain ⟨p, b⟩ := arm
    obtain ⟨bs', hbinds, hb⟩ := harms p b (by simp)
    have hlive := h.stage.apply_live hscr
    rw [← ha, ← h.solves.apply] at hbinds
    obtain ⟨s₁, bs, u₁, θ₁, hp, hsolp, hbs⟩ := hbinds.exists_found
      (fun v hv => h.stage.known_lt (hlive v hv).1)
    obtain ⟨hl₁, hbslive, -⟩ := h.stage.foundPattern hp hscr
    have hsol₁ := h.trans hsolp hlive
    let cs := bs.map fun b => (b.1, b.2.apply (s₁.compose s))
    have hcs : ∀ c ∈ cs, c.2.All (Live Γ.Free n (s₁.compose s) u₁.next) := fun c hc => by
      obtain ⟨b, hb, rfl⟩ := List.mem_map.mp hc
      exact hbslive b hb
    have hnames : cs.map (fun c => (c.1, c.2.subst θ₁)) = bs' := by
      rw [← hbs]
      simp [cs, hsol₁.solves.apply]
    obtain ⟨s₂, t₂, u₂, θ₂, hf, hnext, ht₂⟩ := hsol₁.found (hnames ▸ hb) (hΓ.arm hl₁.stage hcs)
      ((hsol₁.realizes hΓ hr).bindAll cs) (TypeEnv.free_arm hl₁.stage hcs)
    obtain ⟨hsol₂, hlater, hlive₂, hagree⟩ := hnext
    have hle : u.next ≤ u₂.next := Nat.le_trans hl₁.le hlater.le
    have hagree' : ∀ v < u.next, θ₂ v = θ' v := fun v hv =>
      (hagree v (Nat.lt_of_lt_of_le hv hl₁.le)).trans (hsolp.agree v hv)
    have hres₂ := hres.imp (fun v hv => hv.widen hle)
    have ht'₂ : result.subst θ₂ = t' := (h.stage.subst_agree hres hagree').trans ht'
    have ha₂ : scrutinee.subst θ₂ = a := (h.stage.subst_agree hscr hagree').trans ha
    obtain ⟨s₃, hu, -, hsol₃⟩ := hsol₂.solve (hsol₂.stage.apply_live hres₂) hlive₂
      (by rw [hsol₂.solves.apply, ht'₂, ht₂])
    rw [← Stage.apply_eq_self hlive₂] at hu
    obtain ⟨s', u', θ'', hrest, hsol', hr'⟩ := ih (fun p b hpb => harms p b (by simp [hpb]))
      (u := u₂.attempt _ _) hsol₃ (hscr.imp (fun v hv => hv.widen hle)) hres₂ ha₂ ht'₂
    exact ⟨s', u', θ'', foundArms_cons.mpr ⟨s₁, bs, u₁, s₂, t₂, u₂, s₃, hp, hf, hu, hrest⟩,
      hsol', hr'⟩

namespace Complete

theorem app {f : Expr} {a : Ty} (ihf : Complete Γ' f (.arrow a t')) (ihe : Complete Γ' e a) :
    Complete Γ' (.app f e) t' := by
  intro Γ u θ hΓ hr
  obtain ⟨s₁, t₁, u₁, θ₁, hf, hsol₁, hlive₁, ht₁⟩ := ihf.first hΓ hr
  obtain ⟨s₂, t₂, u₂, θ₂, he, hnext, ht₂⟩ := hsol₁.foundNext ihe hΓ hr
  have ⟨hsol₂, hlater, hlive₂, _⟩ := hnext
  have hsol := hsol₂.fresh t'
  have hres := Ty.all_var.mpr (hsol₂.stage.live_fresh (Nat.le_refl u₂.next) (Nat.lt_succ_self _))
  have hfn : (t₁.apply s₂).subst (assign θ₂ u₂.next t') = .arrow a t' := by
    rw [hsol₂.subst_assign (hlater.live hlive₁), hnext.subst_apply hsol₁.stage hlive₁, ht₁]
  have harg : t₂.subst (assign θ₂ u₂.next t') = a := by
    rw [hsol₂.subst_assign hlive₂, ht₂]
  obtain ⟨s₃, hu, hlater₃, hsol₃⟩ := hsol.solve ((hlater.widen (Nat.le_succ _)).live hlive₁)
    (Ty.all_arrow.mpr ⟨hlive₂.imp (fun v hv => hv.widen (Nat.le_succ _)), hres⟩)
    (by rw [hfn, Ty.subst, harg, Ty.subst, assign_self])
  refine ⟨_, _, _, _, found_app.mpr ⟨s₁, t₁, u₁, s₂, t₂, u₂, s₃, hf, he, hu, rfl, rfl, rfl⟩,
    hsol₃, ?_⟩
  rw [hsol₃.subst_apply hres, Ty.subst, assign_self]

theorem letIn {x : String} {v b : Expr} {a : Ty} {σ : Scheme} (ihv : Complete Γ' v a)
    (hσ : Γ'.Generalizes a σ) (ihb : Complete (Γ'.insert x σ) b t') :
    Complete Γ' (.letIn x v b) t' := by
  intro Γ u θ hΓ hr
  obtain ⟨s₁, t₁, u₁, θ₁, hv, hsol₁, hlive₁, rfl⟩ := ihv.first hΓ hr
  obtain ⟨s₂, t₂, u₂, θ₂, hb, hnext, ht₂⟩ := hsol₁.foundScope ihb hΓ hr hlive₁ hσ
  rw [← Stage.apply_eq_self hlive₁] at hb
  exact ⟨_, t₂, u₂, θ₂, found_letIn.mpr ⟨s₁, t₁, u₁, s₂, hv, hb, rfl⟩, hnext.solution, ht₂⟩

theorem letRec {x : String} {v b : Expr} {a : Ty} {σ : Scheme}
    (ihv : Complete (Γ'.insert x (.mono a)) v a) (hσ : Γ'.Generalizes a σ)
    (ihb : Complete (Γ'.insert x σ) b t') : Complete Γ' (.letRec x v b) t' := by
  intro Γ u θ hΓ hr
  obtain ⟨s₁, t₁, u₁, θ₁, hv, hsol₁, hlive₁, hself, ha, ht₁⟩ := ihv.param hΓ hr
  obtain ⟨s₂, hu, hlater, hsol₂⟩ := hsol₁.solve hself hlive₁ (ha.trans ht₁.symm)
  rw [← Stage.apply_eq_self hlive₁] at hu
  have hself₂ := hlater.live hself
  have ha₂ := hsol₂.subst_apply hself
  rw [ha] at ha₂
  rw [← Ty.apply_compose] at hself₂ ha₂
  obtain ⟨s₃, t₃, u₃, θ₃, hb, hnext, ht₃⟩ := hsol₂.foundScope (u := u₁.attempt _ _) ihb hΓ hr
    hself₂ (by rwa [ha₂])
  exact ⟨_, t₃, u₃, θ₃, found_letRec.mpr ⟨s₁, t₁, u₁, s₂, s₃, hv, hu, hb, rfl⟩, hnext.solution,
    ht₃⟩

theorem cond {c y n : Expr} (ihc : Complete Γ' c .bool) (ihy : Complete Γ' y t')
    (ihn : Complete Γ' n t') : Complete Γ' (.cond c y n) t' := by
  intro Γ u θ hΓ hr
  obtain ⟨s₁, t₁, u₁, θ₁, hc, hsol₁, hlive₁, ht₁⟩ := ihc.first hΓ hr
  obtain ⟨s₂, hu₂, -, hsol₂⟩ := hsol₁.solve Ty.all_bool hlive₁ ht₁.symm
  obtain ⟨s₃, t₃, u₃, θ₃, hy, hnext₃, ht₃⟩ := hsol₂.foundNext (u := u₁.attempt _ _) ihy hΓ hr
  obtain ⟨s₄, t₄, u₄, θ₄, hn, hnext₄, ht₄⟩ := hnext₃.solution.foundNext ihn hΓ hr
  have hsol₄ := hnext₄.solution
  have hyes : t₃.apply (s₄.compose (s₃.compose (s₂.compose s₁))) = t₃.apply s₄ := by
    rw [Ty.apply_compose, Stage.apply_eq_self hnext₃.live]
  have ht₃' : (t₃.apply s₄).subst θ₄ = t' := by
    rw [hnext₄.subst_apply hnext₃.solution.stage hnext₃.live, ht₃]
  obtain ⟨s₅, hu₅, hlater₅, hsol₅⟩ := hsol₄.solve (hnext₄.later.live hnext₃.live) hnext₄.live
    (ht₃'.trans ht₄.symm)
  rw [← hyes, ← Stage.apply_eq_self (t := t₄) hnext₄.live] at hu₅
  refine ⟨_, _, _, θ₄, found_cond.mpr ⟨s₁, t₁, u₁, s₂, s₃, t₃, u₃, s₄, t₄, u₄, s₅, hc, hu₂, hy,
    hn, hu₅, rfl, rfl, rfl⟩, hsol₅, ?_⟩
  rw [hsol₅.solves.apply, ht₄]

theorem bin {op : BinOp} {l r : Expr} (ihl : Complete Γ' l op.operandTy)
    (ihr : Complete Γ' r op.operandTy) : Complete Γ' (.bin op l r) op.resultTy := by
  intro Γ u θ hΓ hr
  obtain ⟨s₁, t₁, u₁, θ₁, hl, hsol₁, hlive₁, ht₁⟩ := ihl.first hΓ hr
  obtain ⟨s₂, hu₂, -, hsol₂⟩ := hsol₁.solve op.all_operandTy hlive₁
    ((op.subst_operandTy θ₁).trans ht₁.symm)
  obtain ⟨s₃, t₃, u₃, θ₃, hr, hnext, ht₃⟩ := hsol₂.foundNext (u := u₁.attempt _ _) ihr hΓ hr
  obtain ⟨s₄, hu₄, -, hsol₄⟩ := hnext.solution.solve op.all_operandTy hnext.live
    ((op.subst_operandTy θ₃).trans ht₃.symm)
  rw [← Stage.apply_eq_self hnext.live] at hu₄
  exact ⟨_, _, _, θ₃, found_bin.mpr ⟨s₁, t₁, u₁, s₂, s₃, t₃, u₃, s₄, hl, hu₂, hr, hu₄, rfl, rfl,
    rfl⟩, hsol₄, op.subst_resultTy θ₃⟩

theorem cons {h l : Expr} {a : Ty} (ihh : Complete Γ' h a) (ihl : Complete Γ' l (.list a)) :
    Complete Γ' (.cons h l) (.list a) := by
  intro Γ u θ hΓ hr
  obtain ⟨s₁, t₁, u₁, θ₁, hh, hsol₁, hlive₁, ht₁⟩ := ihh.first hΓ hr
  obtain ⟨s₂, t₂, u₂, θ₂, hl, hnext, ht₂⟩ := hsol₁.foundNext ihl hΓ hr
  have hsol₂ := hnext.solution
  have hhead : t₁.apply (s₂.compose s₁) = t₁.apply s₂ := by
    rw [Ty.apply_compose, Stage.apply_eq_self hlive₁]
  have ha : (t₁.apply s₂).subst θ₂ = a := by
    rw [hnext.subst_apply hsol₁.stage hlive₁, ht₁]
  have hlist : (Ty.list (t₁.apply s₂)).All (Live Γ.Free u.next (s₂.compose s₁) u₂.next) :=
    hnext.later.live hlive₁
  obtain ⟨s₃, hu, -, hsol₃⟩ := hsol₂.solve hlist hnext.live (by rw [Ty.subst, ha, ht₂])
  rw [← hhead, ← Stage.apply_eq_self (t := t₂) hnext.live] at hu
  refine ⟨_, _, _, θ₂, found_cons.mpr ⟨s₁, t₁, u₁, s₂, t₂, u₂, s₃, hh, hl, hu, rfl, rfl, rfl⟩,
    hsol₃, ?_⟩
  rw [hhead, hsol₃.subst_apply hlist, Ty.subst, ha]

theorem list {es : List Expr} {a : Ty} (ih : ∀ e ∈ es, Complete Γ' e a) :
    Complete Γ' (.list es) (.list a) := by
  intro Γ u θ hΓ hr
  have helem := (Live.first Γ.Free u.next).imp (fun v hv => hv.1)
  obtain ⟨s, u', θ', hes, hsol, ha⟩ := exists_foundElems (u := u.take 1) ih hΓ hr
    ((Solution.start hΓ.free_lt θ).fresh a) helem (by simp [Ty.subst])
  exact ⟨s, _, u', θ', found_list.mpr ⟨hes, rfl⟩, hsol, by rw [Ty.subst, hsol.solves.apply, ha]⟩

theorem case {arms : List (Pattern × Expr)} {a : Ty} (ihe : Complete Γ' e a)
    (iharms : ∀ p b, (p, b) ∈ arms → ∃ bs, p.Binds a bs ∧ Complete (Γ'.bindAll bs) b t') :
    Complete Γ' (.case e arms) t' := by
  intro Γ u θ hΓ hr
  obtain ⟨s₁, t₁, u₁, θ₁, he, hsol₁, hlive₁, ht₁⟩ := ihe.first hΓ hr
  have hscr := hlive₁.imp (fun v hv => hv.1.widen (Nat.le_succ u₁.next))
  have hres : (Ty.var u₁.next).All (Known Γ.Free u.next (u₁.next + 1)) :=
    Ty.all_var.mpr (hsol₁.stage.live_fresh (Nat.le_refl _) (Nat.lt_succ_self _)).1
  have ha : t₁.subst (assign θ₁ u₁.next t') = a := by
    rw [hsol₁.subst_assign hlive₁, ht₁]
  obtain ⟨s, u', θ', harms, hsol, ht⟩ := exists_foundArms (u := u₁.take 1)
    iharms hΓ hr (hsol₁.fresh t') hscr hres ha (by simp [Ty.subst])
  exact ⟨s, _, u', θ', found_case.mpr ⟨s₁, t₁, u₁, he, harms, rfl⟩, hsol, by
    rw [hsol.solves.apply, ht]⟩

end Complete

/-- Inference succeeds on every expression that has a type, with a type of which that one is an
instance. -/
theorem complete (h : Typing Γ' e t') : Complete Γ' e t' := by
  induction h with
  | lit Γ' l =>
    intro Γ u θ hΓ hr
    exact ⟨_, _, _, θ, found_lit.mpr ⟨rfl, rfl, rfl⟩, .start hΓ.free_lt θ, l.subst_ty θ⟩
  | @var Γ' x σ' t' hx ht =>
    intro Γ u θ hΓ hr
    obtain ⟨σ, hσ, hinst⟩ := hr.covers x σ' hx
    obtain ⟨θ', hagree, ht'⟩ := Scheme.exists_subst_instantiate (hinst _ ht)
      (fun v hv => hΓ.free_lt v ⟨x, σ, hσ, hv⟩)
    exact ⟨_, _, _, θ', found_var.mpr ⟨σ, hσ, rfl, rfl, rfl⟩,
      ⟨(Stage.start hΓ.free_lt).widen (Nat.le_add_right ..), hagree, Solves.empty θ'⟩, ht'⟩
  | abs _ ih =>
    intro Γ u θ hΓ hr
    obtain ⟨s, t, u', θ', hf, hsol, -, -, ha, ht⟩ := ih.param hΓ hr
    exact ⟨s, _, u', θ', found_abs.mpr ⟨t, hf, rfl⟩, hsol, by rw [Ty.subst, ha, ht]⟩
  | app _ _ ihf ihe => exact ihf.app ihe
  | letIn _ hσ _ ihv ihb => exact ihv.letIn hσ ihb
  | letRec _ hσ _ ihv ihb => exact ihv.letRec hσ ihb
  | cond _ _ _ ihc ihy ihn => exact ihc.cond ihy ihn
  | bin _ _ ihl ihr => exact ihl.bin ihr
  | nil Γ' a =>
    intro Γ u θ hΓ hr
    exact ⟨_, _, _, _, found_nil.mpr ⟨rfl, rfl, rfl⟩, (Solution.start hΓ.free_lt θ).fresh a,
      by simp [Ty.subst]⟩
  | cons _ _ ihh ihl => exact ihh.cons ihl
  | list _ ih => exact Complete.list ih
  | case names _ hp _ ihe iharms =>
    exact ihe.case (fun p b hpb => ⟨names p, hp p b hpb, iharms p b hpb⟩)

theorem Found.schemeOf_eq (h : Found Γ e Γ.unused s t u) :
    schemeOf Γ e = .ok ((Γ.apply s).generalize (t.apply s)) := by
  obtain ⟨d, h⟩ := h
  have hrun : InferM.Gives (inferScheme Γ e) Γ.unused
      ((Γ.apply s).generalize (t.apply s), d) u :=
    InferM.gives_bind.mpr ⟨_, _, h, InferM.gives_pure.mpr ⟨rfl, rfl⟩⟩
  have hrun : (inferScheme Γ e).run Γ.unused = _ := hrun
  rw [schemeOf, hrun]
  rfl

/-- Every type of an expression is a type of its scheme. -/
theorem TypeEnv.Closed.exists_schemeOf (hΓ : Γ.Closed) (h : Typing Γ e t) :
    ∃ σ, schemeOf Γ e = .ok σ ∧ σ.Instance t := by
  have hr : Γ.Realizes .var Γ := ⟨Covers.refl .var Γ, fun _ hx => hx⟩
  have hc : Complete Γ e t := complete h
  obtain ⟨s, t₁, u, θ, hf, hsol, hlive, ht⟩ := hc.first (hΓ.apart Γ.unused.next) hr
  refine ⟨_, hf.schemeOf_eq, ?_⟩
  rw [hΓ.apply_eq, Stage.apply_eq_self hlive]
  exact (Γ.generalizes_generalize t₁).instanceUnder_iff.mpr
    ⟨θ, fun v _ hv => (hΓ.not_free v hv).elim, ht.symm⟩

/-- Inference succeeds on exactly the expressions that have a type, and the types of an expression
are exactly those of its scheme. -/
theorem schemeOf_principal (hΓ : Γ.Closed) :
    (∀ t, Typing Γ e t → ∃ σ, schemeOf Γ e = .ok σ ∧ σ.Instance t) ∧
      (∀ err, schemeOf Γ e = .error err → ∀ t, ¬Typing Γ e t) ∧
      ∀ σ, schemeOf Γ e = .ok σ → ∀ t, Typing Γ e t ↔ σ.Instance t := by
  refine ⟨fun t h => hΓ.exists_schemeOf h, fun err herr t h => ?_, fun σ hσ t => ⟨fun h => ?_, ?_⟩⟩
  · obtain ⟨σ, hσ, -⟩ := hΓ.exists_schemeOf h
    cases herr.symm.trans hσ
  · obtain ⟨σ', hσ', ht⟩ := hΓ.exists_schemeOf h
    cases hσ.symm.trans hσ'
    exact ht
  · exact hΓ.typing_of_schemeOf hσ

/-- A function that is applied to itself has no type, also where other functions have many. -/
theorem schemeOf_principal_identity : identityEnv.Closed ∧
    (∀ t, ¬Typing identityEnv (.abs "x" (.app (.var "x") (.var "x"))) t) ∧
    ∀ t, Typing identityEnv identityUse t ↔ Scheme.Instance ⟨[4], .arrow (.var 4) (.var 4)⟩ t :=
  ⟨identityEnv_closed,
    (schemeOf_principal identityEnv_closed).2.1 (.infinite 0 (.arrow (.var 0) (.var 1))) rfl,
    (schemeOf_principal identityEnv_closed).2.2 _ rfl⟩

end LetML
