import LetML.Proofs.Environment

namespace LetML.TypeEnv

/-- Under `θ₂` the environment `Γ₂` has every instance that `Γ₁` has under `θ₁`. -/
def Covers (θ₁ : Nat → Ty) (Γ₁ : TypeEnv) (θ₂ : Nat → Ty) (Γ₂ : TypeEnv) : Prop :=
  ∀ x σ₁, Γ₁.get? x = some σ₁ →
    ∃ σ₂, Γ₂.get? x = some σ₂ ∧ ∀ t, σ₁.InstanceUnder θ₁ t → σ₂.InstanceUnder θ₂ t

/-- The same for the names of which `N` holds. -/
def CoversOn (N : String → Prop) (θ₁ : Nat → Ty) (Γ₁ : TypeEnv) (θ₂ : Nat → Ty) (Γ₂ : TypeEnv) :
    Prop :=
  ∀ x σ₁, N x → Γ₁.get? x = some σ₁ →
    ∃ σ₂, Γ₂.get? x = some σ₂ ∧ ∀ t, σ₁.InstanceUnder θ₁ t → σ₂.InstanceUnder θ₂ t

/-- The variables taken so far are below `n`, and an open scheme quantifies none that is free
anywhere. -/
structure Apart (Γ : TypeEnv) (n : Nat) : Prop where
  free_lt : ∀ v, Γ.Free v → v < n
  apart : ∀ x σ, Γ.get? x = some σ → σ.Closed ∨ ∀ v ∈ σ.vars, v < n ∧ ¬Γ.Free v

variable {Γ Γ₁ Γ₂ Γ₃ : TypeEnv} {θ θ' θ₁ θ₂ θ₃ : Nat → Ty} {n m k : Nat} {s s' : Subst} {x : String}
  {σ σ₁ σ₂ : Scheme} {t : Ty}

namespace CoversOn

variable {N M : String → Prop}

theorem mono (h : CoversOn N θ₁ Γ₁ θ₂ Γ₂) (hM : ∀ y, M y → N y) : CoversOn M θ₁ Γ₁ θ₂ Γ₂ :=
  fun x σ₁ hx => h x σ₁ (hM x hx)

theorem congr (h : CoversOn N θ₁ Γ₁ θ₂ Γ₂) (hθ : ∀ v, Γ₁.Free v → θ v = θ₁ v) :
    CoversOn N θ Γ₁ θ₂ Γ₂ := by
  intro x σ₁ hN hx
  obtain ⟨σ₂, hx₂, hinst⟩ := h x σ₁ hN hx
  exact ⟨σ₂, hx₂, fun t ht =>
    hinst t (Scheme.instanceUnder_congr (fun v hv => hθ v ⟨x, σ₁, hx, hv⟩) ht)⟩

theorem insert (h : CoversOn (fun y => N y ∧ y ≠ x) θ₁ Γ₁ θ₂ Γ₂)
    (hσ : ∀ t, σ₁.InstanceUnder θ₁ t → σ₂.InstanceUnder θ₂ t) :
    CoversOn N θ₁ (Γ₁.insert x σ₁) θ₂ (Γ₂.insert x σ₂) := by
  intro y ς hN hy
  obtain ⟨rfl, rfl⟩ | ⟨hyx, hy⟩ := Table.get?_insert_eq_some_iff.mp hy
  · exact ⟨σ₂, by simp, hσ⟩
  · obtain ⟨ς', hy, ht⟩ := h y ς ⟨hN, hyx⟩ hy
    exact ⟨ς', by simpa [hyx] using hy, ht⟩

theorem insert_mono (h : CoversOn (fun y => N y ∧ y ≠ x) θ₁ Γ₁ θ₂ Γ₂) {a b : Ty}
    (hab : a.subst θ₁ = b.subst θ₂) :
    CoversOn N θ₁ (Γ₁.insert x (.mono a)) θ₂ (Γ₂.insert x (.mono b)) :=
  h.insert (fun t ht => by simpa [← hab] using ht)

theorem bindAll {bs cs : List (String × Ty)}
    (h : CoversOn (fun y => N y ∧ y ∉ bs.map (·.1)) θ₁ Γ₁ θ₂ Γ₂)
    (hbc : bs.map (fun b => (b.1, b.2.subst θ₁)) = cs.map (fun c => (c.1, c.2.subst θ₂))) :
    CoversOn N θ₁ (Γ₁.bindAll bs) θ₂ (Γ₂.bindAll cs) := by
  induction bs generalizing Γ₁ Γ₂ cs with
  | nil =>
    have hc : cs = [] := by simpa using hbc.symm
    rw [hc]
    exact h.mono (fun y hy => ⟨hy, by simp⟩)
  | cons b bs ih =>
    cases cs with
    | nil => simp at hbc
    | cons c cs =>
      simp only [List.map_cons, List.cons.injEq, Prod.mk.injEq] at hbc
      obtain ⟨⟨hx, ht⟩, hbc⟩ := hbc
      rw [bindAll_cons, bindAll_cons, ← hx]
      refine ih (insert_mono (h.mono (fun y hy => ⟨hy.1.1, ?_⟩)) ht) hbc
      rw [List.map_cons, List.mem_cons, not_or]
      exact ⟨hy.2, hy.1.2⟩

end CoversOn

namespace Covers

theorem refl (θ : Nat → Ty) (Γ : TypeEnv) : Covers θ Γ θ Γ := fun _ σ hx => ⟨σ, hx, fun _ ht => ht⟩

theorem trans (h : Covers θ₁ Γ₁ θ₂ Γ₂) (h' : Covers θ₂ Γ₂ θ₃ Γ₃) : Covers θ₁ Γ₁ θ₃ Γ₃ := by
  intro x σ₁ hx
  obtain ⟨σ₂, hx, h₂⟩ := h x σ₁ hx
  obtain ⟨σ₃, hx, h₃⟩ := h' x σ₂ hx
  exact ⟨σ₃, hx, fun t ht => h₃ t (h₂ t ht)⟩

theorem congr (h : ∀ v, Γ.Free v → θ v = θ' v) : Covers θ Γ θ' Γ := fun x σ hx =>
  ⟨σ, hx, fun _ ht => Scheme.instanceUnder_congr (fun v hv => h v ⟨x, σ, hx, hv⟩) ht⟩

theorem coversOn (h : Covers θ₁ Γ₁ θ₂ Γ₂) (N : String → Prop) : CoversOn N θ₁ Γ₁ θ₂ Γ₂ :=
  fun x σ₁ _ => h x σ₁

theorem of_coversOn (h : CoversOn (fun _ => True) θ₁ Γ₁ θ₂ Γ₂) : Covers θ₁ Γ₁ θ₂ Γ₂ :=
  fun x σ₁ => h x σ₁ trivial

theorem insert (h : Covers θ₁ Γ₁ θ₂ Γ₂)
    (hσ : ∀ t, σ₁.InstanceUnder θ₁ t → σ₂.InstanceUnder θ₂ t) (x : String) :
    Covers θ₁ (Γ₁.insert x σ₁) θ₂ (Γ₂.insert x σ₂) :=
  of_coversOn ((h.coversOn _).insert hσ)

theorem insert_mono (h : Covers θ₁ Γ₁ θ₂ Γ₂) {a b : Ty} (hab : a.subst θ₁ = b.subst θ₂)
    (x : String) : Covers θ₁ (Γ₁.insert x (.mono a)) θ₂ (Γ₂.insert x (.mono b)) :=
  of_coversOn ((h.coversOn _).insert_mono hab)

theorem bindAll (h : Covers θ₁ Γ₁ θ₂ Γ₂) (bs cs : List (String × Ty))
    (hbc : bs.map (fun b => (b.1, b.2.subst θ₁)) = cs.map (fun c => (c.1, c.2.subst θ₂))) :
    Covers θ₁ (Γ₁.bindAll bs) θ₂ (Γ₂.bindAll cs) :=
  of_coversOn ((h.coversOn _).bindAll hbc)

theorem free_of_free (h : Covers .var Γ₁ θ Γ₂) (hn : ∀ x, Γ₁.get? x = none → Γ₂.get? x = none)
    {v u : Nat} (hv : Γ₂.Free v) (hu : u ∈ (θ v).leaves) : Γ₁.Free u := by
  obtain ⟨x, σ₂, hx₂, hv⟩ := hv
  cases hx₁ : Γ₁.get? x with
  | none => rw [hn x hx₁] at hx₂; cases hx₂
  | some σ₁ =>
    obtain ⟨σ, hσ, hσt⟩ := h x σ₁ hx₁
    obtain rfl : σ₂ = σ := Option.some.inj (hx₂.symm.trans hσ)
    obtain ⟨t, ht, htf⟩ := σ₁.exists_instance_leaves
    exact ⟨x, σ₁, hx₁, htf u (Scheme.leaves_of_instanceUnder (hσt t ht) hv hu)⟩

end Covers

theorem Closed.apart (h : Γ.Closed) (n : Nat) : Γ.Apart n where
  free_lt v hv := (h.not_free v hv).elim
  apart x σ hx := Or.inl (h x σ hx)

namespace Apart

theorem widen (h : Γ.Apart n) (hm : n ≤ m) : Γ.Apart m where
  free_lt v hv := Nat.lt_of_lt_of_le (h.free_lt v hv) hm
  apart x σ hx := (h.apart x σ hx).imp_right
    (fun h v hv => ⟨Nat.lt_of_lt_of_le (h v hv).1 hm, (h v hv).2⟩)

/-- A substitution that is made of free and of unused variables captures none. -/
theorem avoids (h : Γ.Apart n) (hs : Stage Γ.Free n s m) (hx : Γ.get? x = some σ) : σ.Avoids s := by
  intro v hv u hu hq
  obtain hc | hq' := h.apart x σ hx
  · exact Scheme.closed_iff.mp hc v hv
  · have hfree : Γ.Free v := ⟨x, σ, hx, hv⟩
    obtain hu | hu := (hs.fn_live (Or.inl hfree) u hu).1
    · exact (hq' u hq).2 hu
    · have := (hq' u hq).1
      omega

theorem apply (h : Γ.Apart n) (hs : Stage Γ.Free n s m) : (Γ.apply s).Apart m where
  free_lt v hv := hs.known_lt (free_live hs hv).1
  apart x σ' hx := by
    rw [get?_apply] at hx
    obtain ⟨σ, hσ, rfl⟩ := Option.map_eq_some_iff.mp hx
    obtain hc | hq := h.apart x σ hσ
    · rw [Scheme.apply_of_closed hc]
      exact Or.inl hc
    · refine Or.inr (fun v hv => ⟨Nat.lt_of_lt_of_le (hq v hv).1 hs.le, fun hf => ?_⟩)
      obtain hf | hf := (free_live hs hf).1
      · exact (hq v hv).2 hf
      · have := (hq v hv).1
        omega

theorem insert (h : Γ.Apart n) (hσ : ∀ v, σ.Free v → v < n)
    (hq : ∀ v ∈ σ.vars, v < n ∧ ¬Γ.Free v)
    (hΓ : ∀ y ς, Γ.get? y = some ς → ς.Closed ∨ ∀ v ∈ ς.vars, ¬σ.Free v) (x : String) :
    Apart (Γ.insert x σ) n where
  free_lt v hv := (free_insert hv).elim (h.free_lt v) (hσ v)
  apart y ς hy := by
    obtain ⟨-, rfl⟩ | ⟨-, hy⟩ := Table.get?_insert_eq_some_iff.mp hy
    · exact Or.inr (fun v hv => ⟨(hq v hv).1, fun hf =>
        (free_insert hf).elim (hq v hv).2 (fun hf => hf.2 hv)⟩)
    · obtain hc | hv := h.apart y ς hy
      · exact Or.inl hc
      · obtain hc | hn := hΓ y ς hy
        · exact Or.inl hc
        · exact Or.inr (fun v hm => ⟨(hv v hm).1, fun hf => (free_insert hf).elim (hv v hm).2 (hn v hm)⟩)

theorem insert_mono (h : Γ.Apart n) (ht : ∀ v ∈ t.leaves, v < n)
    (hΓ : ∀ y ς, Γ.get? y = some ς → ς.Closed ∨ ∀ v ∈ ς.vars, v ∉ t.leaves) (x : String) :
    Apart (Γ.insert x (.mono t)) n :=
  h.insert (fun v hv => ht v (Scheme.free_mono.mp hv)) (by simp [Scheme.mono])
    (by simpa only [Scheme.free_mono] using hΓ) x

theorem bindAll {bs : List (String × Ty)} (h : Γ.Apart n) (ht : ∀ b ∈ bs, ∀ v ∈ b.2.leaves, v < n)
    (hΓ : ∀ y ς, Γ.get? y = some ς → ς.Closed ∨ ∀ v ∈ ς.vars, ∀ b ∈ bs, v ∉ b.2.leaves) :
    (Γ.bindAll bs).Apart n := by
  induction bs generalizing Γ with
  | nil => exact h
  | cons b bs ih =>
    have hb : ∀ y ς, Γ.get? y = some ς → ς.Closed ∨ ∀ v ∈ ς.vars, v ∉ b.2.leaves := fun y ς hy =>
      (hΓ y ς hy).imp_right (fun h v hv => h v hv b (by simp))
    refine ih (h.insert_mono (ht b (by simp)) hb b.1) (fun c hc => ht c (by simp [hc])) ?_
    intro y ς hy
    obtain ⟨-, rfl⟩ | ⟨-, hy⟩ := Table.get?_insert_eq_some_iff.mp hy
    · exact Or.inr (by simp [Scheme.mono])
    · exact (hΓ y ς hy).imp_right (fun h v hv c hc => h v hv c (by simp [hc]))

theorem param (h : Γ.Apart n) (x : String) : Apart (Γ.insert x (.mono (.var n))) (n + 1) := by
  refine (h.widen (Nat.le_succ n)).insert_mono (by simp [Ty.leaves]) (fun y ς hy => ?_) x
  refine (h.apart y ς hy).imp_right (fun h v hv => ?_)
  have := (h v hv).1
  simp only [Ty.leaves, List.mem_singleton]
  omega

theorem generalize (h : Γ.Apart n) (ht : ∀ v ∈ t.leaves, v < n) (x : String) :
    Apart (Γ.insert x (Γ.generalize t)) n := by
  have hgen := Γ.generalizes_generalize t
  refine h.insert (fun v hv => ht v hv.1) (fun v hv => ?_) (fun y ς hy => ?_) x
  · have hvt : v ∈ t.leaves := by simpa using (List.mem_filter.mp hv).1
    exact ⟨ht v hvt, (hgen.2 v hvt).mp hv⟩
  · exact (h.apart y ς hy).imp_right (fun h v hv hf => (h v hv).2 (hgen.free_iff.mp hf).2)

theorem not_known (h : Γ.Apart n) (hx : Γ.get? x = some σ) :
    σ.Closed ∨ ∀ v ∈ σ.vars, ¬Known Γ.Free n m v := by
  refine (h.apart x σ hx).imp_right (fun h v hv hk => ?_)
  obtain hf | hk := hk
  · exact (h v hv).2 hf
  · have := (h v hv).1
    omega

theorem apply_compose (h : Γ.Apart n) (hs : Stage Γ.Free n s m) (s' : Subst) :
    Γ.apply (s'.compose s) = (Γ.apply s).apply s' :=
  TypeEnv.apply_compose (fun _ _ hx => h.avoids hs hx) s'

theorem covers_apply (h : Γ.Apart n) (hs : Stage Γ.Free n s m) :
    Covers (Subst.fn s) Γ .var (Γ.apply s) := by
  intro x σ hx
  rw [get?_apply, hx]
  refine ⟨_, rfl, fun t ht => (Scheme.instanceUnder_apply (h.avoids hs hx)).mpr ?_⟩
  simpa using ht

theorem covers (h : Γ.Apart n) (hs : Stage Γ.Free n s m) (hl : Stage Γ.Free n (s'.compose s) k) :
    Covers (Subst.fn s') (Γ.apply s) .var (Γ.apply (s'.compose s)) := by
  intro x σ' hx
  rw [get?_apply] at hx
  obtain ⟨σ, hσ, rfl⟩ := Option.map_eq_some_iff.mp hx
  rw [h.apply_compose hs s', get?_apply, get?_apply, hσ]
  refine ⟨_, rfl, fun t ht => (Scheme.instanceUnder_apply (h.avoids hl hσ).of_compose).mpr ?_⟩
  simpa using ht

end Apart

end LetML.TypeEnv
