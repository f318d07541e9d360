import LetML.Proofs.Run
import LetML.Proofs.Typing
import LetML.Proofs.Unification

namespace LetML

variable {P : Nat → Prop} {n m : Nat} {s s' : Subst} {t t₁ t₂ : Ty} {u u' : Supply}

theorem Lit.all_ty {p : Nat → Prop} (l : Lit) : l.ty.All p := by
  cases l <;> simp [Lit.ty]

theorem Either.of_all {p : Nat → Prop} (h₁ : t₁.All p) (h₂ : t₂.All p) (v : Nat)
    (hv : Either t₁ t₂ v) : p v := hv.elim (h₁ v) (h₂ v)

theorem Stage.solved (h : Stage P n s m) (hu : unify t₁ t₂ = .ok s') (h₁ : t₁.All (Live P n s m))
    (h₂ : t₂.All (Live P n s m)) : Later P n s m s' m :=
  h.later (stage_unify hu (fun v hv => h.known_lt (Either.of_all h₁ h₂ v hv).1))
    (Either.of_all h₁ h₂)

/-- What inference finds for a pattern against a type: how it proceeds from the variables of the
type, and what the pattern binds once these are solved for. -/
structure PatternOutcome (p : Pattern) (t : Ty) (n : Nat) (s : Subst) (bs : List (String × Ty))
    (m : Nat) : Prop where
  stage : Stage (· ∈ t.leaves) n s m
  known : ∀ b ∈ bs, b.2.All (Known (· ∈ t.leaves) n m)
  binds : p.Binds (t.apply s) (bs.map fun b => (b.1, b.2.apply s))

theorem stage_list (ht : ∀ v ∈ t.leaves, v < n) (hu : unify (.list (.var n)) t = .ok s) :
    Stage (· ∈ t.leaves) n s (n + 1) := by
  have hst := (Stage.start ht).widen (Nat.le_add_right n 1)
  have hlive : t.All (Live (· ∈ t.leaves) n .empty (n + 1)) := fun v hv => ⟨Or.inl hv, rfl⟩
  simpa using (hst.solved hu (Live.first (· ∈ t.leaves) n) hlive).stage

theorem map_apply_eq {bs : List (String × Ty)} (h : ∀ b ∈ bs, b.2.All (Live P n s m)) (s' : Subst) :
    (bs.map fun b => (b.1, b.2.apply (s'.compose s))) = bs.map fun b => (b.1, b.2.apply s') := by
  refine List.map_congr_left (fun b hb => ?_)
  rw [Ty.apply_compose, Stage.apply_eq_self (h b hb)]

theorem FoundPattern.outcome {p : Pattern} {bs : List (String × Ty)}
    (h : FoundPattern p t u s bs u') (ht : ∀ v ∈ t.leaves, v < u.next) :
    PatternOutcome p t u.next s bs u'.next := by
  induction p generalizing t u s bs u' with
  | var x =>
    obtain ⟨rfl, rfl, rfl⟩ := foundPattern_var.mp h
    refine ⟨Stage.start ht, fun b hb => ?_, .var x _⟩
    rw [List.mem_singleton.mp hb]
    exact fun v hv => Or.inl hv
  | wild =>
    obtain ⟨rfl, rfl, rfl⟩ := foundPattern_wild.mp h
    exact ⟨Stage.start ht, by simp, .wild _⟩
  | lit l =>
    obtain ⟨hu, rfl, rfl⟩ := foundPattern_lit.mp h
    have hlive : t.All (Live (· ∈ t.leaves) u.next .empty u.next) := fun v hv => ⟨Or.inl hv, rfl⟩
    have hst := ((Stage.start ht).solved hu l.all_ty hlive).stage
    refine ⟨by simpa using hst, by simp, ?_⟩
    rw [← unify_equates hu, Ty.apply_eq_subst, l.subst_ty]
    exact .lit l
  | nil =>
    obtain ⟨hu, rfl, rfl⟩ := foundPattern_nil.mp h
    refine ⟨stage_list ht hu, by simp, ?_⟩
    rw [← unify_equates hu]
    exact .nil _
  | cons p q ihp ihq =>
    obtain ⟨s₁, s₂, bs₂, u₂, s₃, bs₃, hu, hp, hq, rfl, rfl⟩ := foundPattern_cons.mp h
    have hst₁ := stage_list ht hu
    have helem := hst₁.apply_live ((Live.first (· ∈ t.leaves) u.next).imp (fun _ h => h.1))
    have hp := ihp hp (fun v hv => hst₁.known_lt (helem v hv).1)
    have hst₂ := hst₁.trans hp.stage helem
    have htail := hst₂.apply_live (t := .list (.var u.next))
      ((Live.first (· ∈ t.leaves) u.next).imp (fun _ h => h.1.widen hp.stage.le))
    have hq := ihq hq (fun v hv => hst₂.known_lt (htail v hv).1)
    have hbs₂ : ∀ b ∈ bs₂, b.2.All (Live (· ∈ t.leaves) u.next s₁ u₂.next) := fun b hb =>
      (hp.known b hb).imp (fun v hv => hst₁.known_of_later hp.stage helem hv)
    have hbs₃ : ∀ b ∈ bs₃, b.2.All (Live (· ∈ t.leaves) u.next (s₂.compose s₁) u'.next) := fun b hb =>
      (hq.known b hb).imp (fun v hv => hst₂.known_of_later hq.stage htail hv)
    refine ⟨hst₂.trans hq.stage htail, fun b hb => ?_, ?_⟩
    · obtain hb | hb := List.mem_append.mp hb
      · exact (hbs₂ b hb).imp (fun v hv => hv.1.widen hq.stage.le)
      · exact (hbs₃ b hb).imp (fun v hv => hv.1)
    · have hlist : t.apply (s₃.compose (s₂.compose s₁)) =
          .list ((((Ty.var u.next).apply s₁).apply s₂).apply s₃) := by
        rw [Ty.apply_compose, Ty.apply_compose, ← unify_equates hu]
        rfl
      have hhead := hp.binds.subst s₃.fn
      simp only [List.map_map, Function.comp_def, ← Ty.apply_eq_subst] at hhead
      have htail := hq.binds
      rw [Ty.apply_compose] at htail
      rw [hlist, List.map_append, map_apply_eq hbs₃, Subst.compose_assoc, map_apply_eq hbs₂]
      simp only [Ty.apply_compose]
      exact .cons hhead htail

theorem Stage.foundPattern {p : Pattern} {bs : List (String × Ty)} (h : Stage P n s u.next)
    (hf : FoundPattern p (t.apply s) u s' bs u') (ht : t.All (Known P n u.next)) :
    Later P n s u.next s' u'.next ∧
      (∀ b ∈ bs, (b.2.apply (s'.compose s)).All (Live P n (s'.compose s) u'.next)) ∧
      p.Binds (t.apply (s'.compose s)) (bs.map fun b => (b.1, b.2.apply (s'.compose s))) := by
  have hlive := h.apply_live ht
  have ho := hf.outcome (fun v hv => h.known_lt (hlive v hv).1)
  have hl := h.later ho.stage hlive
  have hbs : ∀ b ∈ bs, b.2.All (Live P n s u'.next) := fun b hb =>
    (ho.known b hb).imp (fun v hv => h.known_of_later ho.stage hlive hv)
  refine ⟨hl, fun b hb => hl.stage.apply_live ((hbs b hb).imp (fun v hv => hv.1)), ?_⟩
  rw [map_apply_eq hbs, Ty.apply_compose]
  exact ho.binds

end LetML
