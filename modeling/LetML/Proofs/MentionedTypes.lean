import LetML.Proofs.FreeNames
import LetML.Proofs.Soundness
import LetML.Proofs.Tracing

namespace LetML

open InferM

variable {Γ Δ : TypeEnv} {N M : String → Prop} {x : String} {σ : Scheme} {s : Subst}

/-- Two environments with the same schemes, but for names of which `N` does not hold: such a name may
have another scheme without free variables, or none. -/
def TypeEnv.AgreeOn (N : String → Prop) (Γ Δ : TypeEnv) : Prop :=
  ∀ x, Γ.get? x = Δ.get? x ∨ ¬N x ∧ (∀ σ, Γ.get? x = some σ → σ.Closed) ∧
    ∀ σ, Δ.get? x = some σ → σ.Closed

namespace TypeEnv.AgreeOn

theorem symm (h : Γ.AgreeOn N Δ) : Δ.AgreeOn N Γ := fun x =>
  (h x).imp Eq.symm (fun ⟨hx, hΓ, hΔ⟩ => ⟨hx, hΔ, hΓ⟩)

theorem mono (h : Γ.AgreeOn N Δ) (hM : ∀ y, M y → N y) : Γ.AgreeOn M Δ := fun x =>
  (h x).imp_right (fun ⟨hx, hclosed⟩ => ⟨fun hx' => hx (hM x hx'), hclosed⟩)

theorem of_closed (hΓ : Γ.Closed) (hΔ : Δ.Closed) (h : ∀ x, N x → Γ.get? x = Δ.get? x) :
    Γ.AgreeOn N Δ := by
  intro x
  by_cases hx : N x
  · exact Or.inl (h x hx)
  · exact Or.inr ⟨hx, hΓ x, hΔ x⟩

theorem get? (h : Γ.AgreeOn N Δ) (hx : N x) : Γ.get? x = Δ.get? x :=
  (h x).resolve_right (fun h => h.1 hx)

theorem apply (h : Γ.AgreeOn N Δ) (s : Subst) : (Γ.apply s).AgreeOn N (Δ.apply s) := by
  have hkept : ∀ {Γ : TypeEnv} {x}, (∀ σ, Γ.get? x = some σ → σ.Closed) →
      ∀ σ, (Γ.apply s).get? x = some σ → σ.Closed := by
    intro Γ x hx σ hσ
    rw [get?_apply] at hσ
    obtain ⟨σ₀, hσ₀, rfl⟩ := Option.map_eq_some_iff.mp hσ
    rw [Scheme.apply_of_closed (hx σ₀ hσ₀)]
    exact hx σ₀ hσ₀
  intro x
  obtain hx | ⟨hx, hΓ, hΔ⟩ := h x
  · rw [get?_apply, get?_apply, hx]
    exact Or.inl rfl
  · exact Or.inr ⟨hx, hkept hΓ, hkept hΔ⟩

theorem insert (h : Γ.AgreeOn (fun y => N y ∧ y ≠ x) Δ) (σ : Scheme) :
    AgreeOn N (Γ.insert x σ) (Δ.insert x σ) := by
  intro y
  rw [Table.get?_insert, Table.get?_insert]
  by_cases hy : y = x
  · rw [if_pos hy, if_pos hy]
    exact Or.inl rfl
  · rw [if_neg hy, if_neg hy]
    exact (h y).imp_right (fun ⟨hN, hclosed⟩ => ⟨fun hN' => hN ⟨hN', hy⟩, hclosed⟩)

theorem bindAll {bs : List (String × Ty)} (h : Γ.AgreeOn (fun y => N y ∧ y ∉ bs.map (·.1)) Δ) :
    (Γ.bindAll bs).AgreeOn N (Δ.bindAll bs) := by
  induction bs generalizing Γ Δ with
  | nil => exact h.mono (fun y hy => ⟨hy, by simp⟩)
  | cons b bs ih =>
    rw [bindAll_cons, bindAll_cons]
    refine ih (insert (h.mono (fun y hy => ⟨hy.1.1, ?_⟩)) _)
    rw [List.map_cons, List.mem_cons, not_or]
    exact ⟨hy.2, hy.1.2⟩

theorem free (h : Γ.AgreeOn N Δ) {v : Nat} (hv : Γ.Free v) : Δ.Free v := by
  obtain ⟨x, σ, hσ, hv⟩ := hv
  obtain hx | ⟨-, hΓ, -⟩ := h x
  · exact ⟨x, σ, hx ▸ hσ, hv⟩
  · exact (Scheme.closed_iff.mp (hΓ σ hσ) v hv).elim

theorem generalize (h : Γ.AgreeOn N Δ) (t : Ty) : Γ.generalize t = Δ.generalize t := by
  have hfree : ∀ v, v ∈ Γ.freeVars ↔ v ∈ Δ.freeVars := fun v => by
    rw [mem_freeVars, mem_freeVars]
    exact ⟨h.free, h.symm.free⟩
  unfold TypeEnv.generalize
  simp only [hfree]

end TypeEnv.AgreeOn

/-- An expression is inferred alike, as long as no judgements are written, where the schemes of its
names agree. -/
def Coincides (e : Expr) : Prop :=
  ∀ {Γ Δ : TypeEnv}, Γ.AgreeOn (· ∈ e.free) Δ → write false Γ e = write false Δ e

theorem map_fst_bindings_of_gives {p : Pattern} {t : Ty} {u u' : Supply} {m : WrittenPattern}
    (h : Gives (writePattern p t) u m u') : m.bindings.map (·.1) = p.names := by
  induction p generalizing t u m u' with
  | var x | wild =>
    obtain ⟨rfl, -⟩ := gives_pure.mp h
    rfl
  | lit l =>
    obtain ⟨_, _, -, h⟩ := gives_bind.mp h
    obtain ⟨rfl, -⟩ := gives_pure.mp h
    rfl
  | nil =>
    obtain ⟨_, _, -, h⟩ := gives_bind.mp h
    obtain ⟨_, _, -, h⟩ := gives_bind.mp h
    obtain ⟨rfl, -⟩ := gives_pure.mp h
    rfl
  | cons p q ihp ihq =>
    obtain ⟨_, _, -, h⟩ := gives_bind.mp h
    obtain ⟨_, _, -, h⟩ := gives_bind.mp h
    obtain ⟨left, _, hp, h⟩ := gives_bind.mp h
    obtain ⟨right, _, hq, h⟩ := gives_bind.mp h
    obtain ⟨rfl, -⟩ := gives_pure.mp h
    rw [List.map_append, ihp hp, ihq hq, Pattern.names]

theorem InferM.bind_congr_of_gives {α β : Type} {m : InferM α} {f g : α → InferM β}
    (h : ∀ u a u', Gives m u a u' → f a = g a) : m >>= f = m >>= g := by
  funext u
  refine (run_bind m f u).trans (Eq.trans ?_ (run_bind m g u).symm)
  cases hm : m.run u with
  | mk r u₁ =>
    cases r with
    | error e => rfl
    | ok a => exact congrArg (fun n : InferM β => n u₁) (h u a u₁ hm)

theorem writeElems_agree {es : List Expr} (hes : ∀ e ∈ es, Coincides e)
    (h : Γ.AgreeOn (fun y => ∃ e ∈ es, y ∈ e.free) Δ) (elem : Ty) (s : Subst) :
    writeElems false Γ elem s es = writeElems false Δ elem s es := by
  induction es generalizing s with
  | nil => rfl
  | cons e es ih =>
    have he := hes e (by simp) ((h.mono (fun y hy => ⟨e, by simp, hy⟩)).apply s)
    have hrest : ∀ s, writeElems false Γ elem s es = writeElems false Δ elem s es := fun s =>
      ih (fun e he => hes e (by simp [he]))
        (h.mono (fun y ⟨e, he, hy⟩ => ⟨e, by simp [he], hy⟩)) s
    simp only [writeElems, he, hrest]

theorem writeArms_agree {arms : List (Pattern × Expr)} (harms : ∀ a ∈ arms, Coincides a.2)
    (h : Γ.AgreeOn (fun y => ∃ p b, (p, b) ∈ arms ∧ y ∈ b.free ∧ y ∉ p.names) Δ)
    (scrutinee result : Ty) (s : Subst) :
    writeArms false Γ scrutinee result s arms = writeArms false Δ scrutinee result s arms := by
  induction arms generalizing s with
  | nil => rfl
  | cons arm arms ih =>
    obtain ⟨p, b⟩ := arm
    have hrest : ∀ s, writeArms false Γ scrutinee result s arms =
        writeArms false Δ scrutinee result s arms := fun s =>
      ih (fun a ha => harms a (by simp [ha]))
        (h.mono (fun y ⟨p, b, hpb, hy⟩ => ⟨p, b, by simp [hpb], hy⟩)) s
    rw [writeArms, writeArms]
    -- what the pattern binds is known only once it has been found
    refine InferM.bind_congr_of_gives (fun u m u' hm => ?_)
    have hb : ∀ s₁ : Subst, write false ((Γ.apply s₁).bindAll (m.bindings.map fun b =>
        (b.1, b.2.apply s₁))) b = write false ((Δ.apply s₁).bindAll (m.bindings.map fun b =>
        (b.1, b.2.apply s₁))) b := by
      intro s₁
      refine harms (p, b) (by simp) (.bindAll ((h.mono (fun y hy => ?_)).apply s₁))
      rw [List.map_map] at hy
      exact ⟨p, b, by simp, hy.1, map_fst_bindings_of_gives hm ▸ hy.2⟩
    simp only [hb, hrest]

theorem coincides (e : Expr) : Coincides e := by
  induction e using Expr.ind with
  | lit l =>
    intro Γ Δ _
    simp only [write]
    rfl
  | nil =>
    intro Γ Δ _
    simp only [write]
    rfl
  | var x =>
    intro Γ Δ h
    rw [write, write, h.get? (List.mem_singleton_self x)]
    rfl
  | abs x b ihb =>
    intro Γ Δ h
    have hb := fun σ => ihb ((h.mono (fun y hy => Expr.mem_free_abs.mpr hy)).insert σ)
    simp only [write, hb]
    rfl
  | app f a ihf iha =>
    intro Γ Δ h
    have hf := ihf (h.mono (fun y hy => List.mem_append_left _ hy))
    have ha := fun s => iha ((h.mono (fun y hy => List.mem_append_right _ hy)).apply s)
    simp only [write, hf, ha]
    rfl
  | letIn x v b ihv ihb =>
    intro Γ Δ h
    have hv := ihv (h.mono (fun y hy => Expr.mem_free_letIn.mpr (Or.inl hy)))
    have hb := fun s σ => ihb
      (((h.mono (fun y hy => Expr.mem_free_letIn.mpr (Or.inr hy))).apply s).insert σ)
    simp only [write, hv, hb, (h.apply _).generalize]
    rfl
  | letRec x v b ihv ihb =>
    intro Γ Δ h
    have hv := fun σ => ihv ((h.mono (fun y hy => Expr.mem_free_letRec.mpr (Or.inl hy))).insert σ)
    have hb := fun s σ => ihb
      (((h.mono (fun y hy => Expr.mem_free_letRec.mpr (Or.inr hy))).apply s).insert σ)
    simp only [write, hv, hb, (h.apply _).generalize]
    rfl
  | cond c y n ihc ihy ihn =>
    intro Γ Δ h
    have hc := ihc (h.mono (fun z hz => by simp [Expr.free, hz]))
    have hy := fun s => ihy ((h.mono (fun z hz => by simp [Expr.free, hz])).apply s)
    have hn := fun s => ihn ((h.mono (fun z hz => by simp [Expr.free, hz])).apply s)
    simp only [write, hc, hy, hn]
    rfl
  | bin op l r ihl ihr =>
    intro Γ Δ h
    have hl := ihl (h.mono (fun y hy => List.mem_append_left _ hy))
    have hr := fun s => ihr ((h.mono (fun y hy => List.mem_append_right _ hy)).apply s)
    simp only [write, hl, hr]
    rfl
  | cons hd tl ihh iht =>
    intro Γ Δ h
    have hh := ihh (h.mono (fun y hy => List.mem_append_left _ hy))
    have ht := fun s => iht ((h.mono (fun y hy => List.mem_append_right _ hy)).apply s)
    simp only [write, hh, ht]
    rfl
  | list es ih =>
    intro Γ Δ h
    have hes := writeElems_agree ih (h.mono (fun y hy => Expr.mem_free_list.mpr hy))
    simp only [write, hes]
    rfl
  | case e arms ihe iharms =>
    intro Γ Δ h
    have he := ihe (h.mono (fun y hy => Expr.mem_free_case.mpr (Or.inl hy)))
    have harms := writeArms_agree iharms (h.mono (fun y hy => Expr.mem_free_case.mpr (Or.inr hy)))
    simp only [write, he, harms]
    rfl

theorem TypeEnv.Closed.unused_eq (h : Γ.Closed) : Γ.unused = ⟨0, []⟩ := by
  have hfree : Γ.freeVars = [] :=
    List.eq_nil_iff_forall_not_mem.mpr (fun v hv => h.not_free v (mem_freeVars.mp hv))
  rw [unused, supply, hfree]
  rfl

/-- In closed environments, the outcome of inference depends on the schemes of the names of an
expression only: its scheme, or its error with the variables in it. -/
theorem writeScheme_agree {e : Expr} (hΓ : Γ.Closed) (hΔ : Δ.Closed)
    (h : ∀ x ∈ e.free, Γ.get? x = Δ.get? x) :
    (writeScheme false Γ e).run Γ.unused = (writeScheme false Δ e).run Δ.unused := by
  have hagree : Γ.AgreeOn (· ∈ e.free) Δ := .of_closed hΓ hΔ h
  simp only [writeScheme, coincides e hagree, (hagree.apply _).generalize, hΓ.unused_eq,
    hΔ.unused_eq]

end LetML
