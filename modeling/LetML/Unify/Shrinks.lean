import LetML.Subst

namespace LetML

theorem nodup_eraseDups {α : Type} [BEq α] [LawfulBEq α] (l : List α) : l.eraseDups.Nodup := by
  match l with
  | [] => simp
  | a :: l =>
    rw [List.eraseDups_cons]
    refine List.nodup_cons.mpr ⟨by simp, nodup_eraseDups _⟩
termination_by l.length
decreasing_by exact Nat.lt_succ_of_le (List.length_filter_le ..)

theorem length_le_of_subset {l m : List Nat} (hl : l.Nodup) (h : l ⊆ m) : l.length ≤ m.length := by
  induction l generalizing m with
  | nil => simp
  | cons a l ih =>
    obtain ⟨ha, hl⟩ := List.nodup_cons.mp hl
    have hm : a ∈ m := h (by simp)
    have hsub : l ⊆ m.erase a := fun b hb =>
      (List.mem_erase_of_ne (fun hba : b = a => ha (hba ▸ hb))).mpr (h (by simp [hb]))
    have hlen := ih hl hsub
    rw [List.length_erase_of_mem hm] at hlen
    have hpos := List.length_pos_of_mem hm
    simp only [List.length_cons]
    omega

theorem length_lt_of_subset {l m : List Nat} {v : Nat} (hl : l.Nodup) (h : l ⊆ m) (hv : v ∈ m)
    (hvl : v ∉ l) : l.length < m.length :=
  length_le_of_subset (List.nodup_cons.mpr ⟨hvl, hl⟩) (List.cons_subset.mpr ⟨hv, h⟩)

def distinctVars (t₁ t₂ : Ty) : Nat := (t₁.leaves ++ t₂.leaves).eraseDups.length

theorem distinctVars_le {a b c d : Ty} (h : ∀ v, v ∈ a.leaves ∨ v ∈ b.leaves → v ∈ c.leaves ∨ v ∈ d.leaves) :
    distinctVars a b ≤ distinctVars c d := by
  refine length_le_of_subset (nodup_eraseDups _) (fun v hv => ?_)
  simp only [List.mem_eraseDups, List.mem_append] at hv ⊢
  exact h v hv

theorem distinctVars_lt {a b c d : Ty} {v : Nat}
    (h : ∀ v, v ∈ a.leaves ∨ v ∈ b.leaves → v ∈ c.leaves ∨ v ∈ d.leaves)
    (hcd : v ∈ c.leaves ∨ v ∈ d.leaves) (ha : v ∉ a.leaves) (hb : v ∉ b.leaves) :
    distinctVars a b < distinctVars c d := by
  refine length_lt_of_subset (v := v) (nodup_eraseDups _) (fun u hu => ?_) ?_ ?_
  · simp only [List.mem_eraseDups, List.mem_append] at hu ⊢
    exact h u hu
  · simpa only [List.mem_eraseDups, List.mem_append] using hcd
  · simp [ha, hb]

/-- A substitution shrinks two types if it brings in variables of theirs only and, unless it is
empty, removes one of theirs from every type. -/
def Subst.Shrinks (t₁ t₂ : Ty) (s : Subst) : Prop :=
  (∀ (t : Ty) (v : Nat), v ∈ (t.apply s).leaves → v ∈ t.leaves ∨ v ∈ t₁.leaves ∨ v ∈ t₂.leaves) ∧
  (s = .empty ∨ ∃ v, (v ∈ t₁.leaves ∨ v ∈ t₂.leaves) ∧ ∀ t : Ty, v ∉ (t.apply s).leaves)

namespace Subst

theorem shrinks_empty (t₁ t₂ : Ty) : Shrinks t₁ t₂ .empty :=
  ⟨fun t v hv => by simpa using Or.inl hv, Or.inl rfl⟩

theorem Shrinks.symm {t₁ t₂ : Ty} {s : Subst} (h : s.Shrinks t₁ t₂) : s.Shrinks t₂ t₁ :=
  ⟨fun t v hv => by have := h.1 t v hv; grind, by
    rcases h.2 with h | ⟨v, hv, h⟩
    · exact Or.inl h
    · exact Or.inr ⟨v, hv.symm, h⟩⟩

theorem Shrinks.mono {t₁ t₂ u₁ u₂ : Ty} {s : Subst} (h : s.Shrinks t₁ t₂)
    (hv : ∀ v, v ∈ t₁.leaves ∨ v ∈ t₂.leaves → v ∈ u₁.leaves ∨ v ∈ u₂.leaves) :
    s.Shrinks u₁ u₂ :=
  ⟨fun t v hm => (h.1 t v hm).imp_right (hv v), h.2.imp_right fun ⟨v, hm, hr⟩ => ⟨v, hv v hm, hr⟩⟩

theorem get?_single (v u : Nat) (t : Ty) :
    (single v t).get? u = if u = v then some t else none := by
  simp [single]

theorem shrinks_single {v : Nat} {t : Ty} (h : v ∉ t.leaves) : (single v t).Shrinks (.var v) t := by
  refine ⟨fun u w hw => ?_, Or.inr ⟨v, by simp [Ty.leaves], fun u hv => ?_⟩⟩
  · obtain ⟨x, hx, hw⟩ := Ty.mem_leaves_apply.mp hw
    rw [get?_single] at hw
    split at hw <;> simp_all [Ty.leaves]
  · obtain ⟨x, _, hv⟩ := Ty.mem_leaves_apply.mp hv
    rw [get?_single] at hv
    split at hv <;> simp_all [Ty.leaves]

@[simp] theorem compose_empty (s : Subst) : s.compose .empty = s := by
  apply Table.ext
  simp [compose]

theorem Shrinks.compose {a₁ a₂ b₁ b₂ : Ty} {s₁ s₂ : Subst} (h₁ : s₁.Shrinks a₁ b₁)
    (h₂ : s₂.Shrinks (a₂.apply s₁) (b₂.apply s₁)) :
    (s₂.compose s₁).Shrinks (.arrow a₁ a₂) (.arrow b₁ b₂) := by
  constructor
  · intro t v hv
    rw [Ty.apply_compose] at hv
    simp only [Ty.leaves, List.mem_append]
    rcases h₂.1 _ v hv with hv | hv | hv
    · have := h₁.1 _ v hv; grind
    · have := h₁.1 _ v hv; grind
    · have := h₁.1 _ v hv; grind
  · rcases h₁.2 with rfl | ⟨v, hv, h₁r⟩
    · rcases h₂.2 with rfl | ⟨v, hv, h₂r⟩
      · exact Or.inl (compose_empty _)
      · refine Or.inr ⟨v, ?_, fun t => by rw [Ty.apply_compose]; exact h₂r _⟩
        simp only [Ty.apply_empty] at hv
        simp only [Ty.leaves, List.mem_append]
        grind
    · refine Or.inr ⟨v, ?_, fun t hm => ?_⟩
      · simp only [Ty.leaves, List.mem_append]
        grind
      · rw [Ty.apply_compose] at hm
        rcases h₂.1 _ v hm with hm | hm | hm <;> exact h₁r _ hm

theorem Shrinks.mem_leaves {a₁ a₂ b₁ b₂ : Ty} {s : Subst} (h : s.Shrinks a₁ b₁) {v : Nat}
    (hv : v ∈ (a₂.apply s).leaves ∨ v ∈ (b₂.apply s).leaves) :
    v ∈ (Ty.arrow a₁ a₂).leaves ∨ v ∈ (Ty.arrow b₁ b₂).leaves := by
  simp only [Ty.leaves, List.mem_append]
  rcases hv with hv | hv <;> have := h.1 _ v hv <;> grind

theorem Shrinks.distinctVars_lt {a₁ a₂ b₁ b₂ : Ty} {s : Subst} (h : s.Shrinks a₁ b₁)
    (hne : s ≠ .empty) :
    distinctVars (a₂.apply s) (b₂.apply s) < distinctVars (.arrow a₁ a₂) (.arrow b₁ b₂) := by
  obtain ⟨v, hv, hr⟩ := h.2.resolve_left hne
  refine LetML.distinctVars_lt (v := v) (fun u hu => h.mem_leaves hu) ?_ (hr _) (hr _)
  simp only [Ty.leaves, List.mem_append]
  grind

/-- After a shrinking substitution two types have fewer variables, or they are unchanged. -/
theorem Shrinks.measure_lt {a₁ a₂ b₁ b₂ : Ty} {s : Subst} (h : s.Shrinks a₁ b₁) :
    Prod.Lex (· < ·) (· < ·)
      (distinctVars (a₂.apply s) (b₂.apply s), (a₂.apply s).size + (b₂.apply s).size)
      (distinctVars (.arrow a₁ a₂) (.arrow b₁ b₂), (Ty.arrow a₁ a₂).size + (Ty.arrow b₁ b₂).size) := by
  rcases Decidable.em (s = .empty) with rfl | hne
  · refine Prod.Lex.right' _ (distinctVars_le (fun v hv => h.mem_leaves hv)) ?_
    simp only [Ty.apply_empty, Ty.size]
    omega
  · exact Prod.Lex.left _ _ (h.distinctVars_lt hne)

end Subst

end LetML
