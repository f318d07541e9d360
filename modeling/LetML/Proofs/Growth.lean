import LetML.Eval.Basic

namespace LetML

variable {α β : Type} {store store' store'' : Store}

namespace Store

theorem next_alloc (store : Store) : store.alloc.next = store.next + 1 := by
  simp [alloc, next]

theorem next_fill (store : Store) (a : Nat) (v : Value) : (store.fill a v).next = store.next := by
  simp [fill, next]

theorem get?_alloc (store : Store) (a : Nat) : store.alloc.get? a = store.get? a := by
  simp only [alloc, get?, Array.getElem?_push]
  by_cases ha : a = store.slots.size
  · simp [ha]
  · simp [ha]

theorem get?_fill (store : Store) (a b : Nat) (v : Value) : (store.fill a v).get? b =
    if a = b ∧ b < store.next then (store.get? b).or (some v) else store.get? b := by
  simp only [fill, get?, next, Array.getElem?_modify]
  by_cases hab : a = b
  · subst hab
    by_cases ha : a < store.slots.size
    · rw [Array.getElem?_eq_getElem ha]
      cases store.slots[a] with
      | none => simp [ha]
      | some w => simp [ha]
    · simp [ha]
  · simp [hab]

theorem lt_next_of_get? {a : Nat} {v : Value} (h : store.get? a = some v) : a < store.next := by
  refine Classical.byContradiction (fun ha => ?_)
  simp [get?, Array.getElem?_eq_none (Nat.le_of_not_lt ha)] at h

theorem get?_next (store : Store) : store.get? store.next = none := by
  cases h : store.get? store.next with
  | none => rfl
  | some v => exact absurd (lt_next_of_get? h) (Nat.lt_irrefl _)

theorem get?_fill_of_some {a b : Nat} {v w : Value} (h : store.get? b = some w) :
    (store.fill a v).get? b = some w := by
  rw [get?_fill, h]
  split <;> rfl

/-- The slots of a store are kept as they are in a later one. -/
structure Grows (store store' : Store) : Prop where
  le : store.next ≤ store'.next
  keeps : ∀ a < store.next, store'.get? a = store.get? a

/-- The slots that have been made since are filled. -/
def Filled (store store' : Store) : Prop :=
  ∀ a, store.next ≤ a → a < store'.next → ∃ v, store'.get? a = some v

namespace Grows

theorem refl (store : Store) : store.Grows store := ⟨Nat.le_refl _, fun _ _ => rfl⟩

theorem trans (h : store.Grows store') (h' : store'.Grows store'') : store.Grows store'' where
  le := Nat.le_trans h.le h'.le
  keeps a ha := (h'.keeps a (Nat.lt_of_lt_of_le ha h.le)).trans (h.keeps a ha)

theorem fill (h : store.Grows store') {a : Nat} (ha : store.next ≤ a) (v : Value) :
    store.Grows (store'.fill a v) where
  le := by rw [next_fill]; exact h.le
  keeps b hb := by
    rw [get?_fill, if_neg (by omega)]
    exact h.keeps b hb

theorem get? (h : store.Grows store') {a : Nat} {v : Value} (ha : store.get? a = some v) :
    store'.get? a = some v := by
  rw [h.keeps a (lt_next_of_get? ha), ha]

end Grows

theorem grows_alloc (store : Store) : store.Grows store.alloc where
  le := by rw [next_alloc]; omega
  keeps a _ := store.get?_alloc a

theorem Grows.get?_fill_next (h : store.alloc.Grows store') (v : Value) :
    (store'.fill store.next v).get? store.next = some v := by
  have hlt : store.next < store.alloc.next := by rw [next_alloc]; omega
  have hempty : store'.get? store.next = none := by
    rw [h.keeps _ hlt, get?_alloc, get?_next]
  rw [get?_fill, if_pos ⟨rfl, Nat.lt_of_lt_of_le hlt h.le⟩, hempty]
  rfl

namespace Filled

theorem refl (store : Store) : store.Filled store := fun a ha ha' => by omega

theorem fill (h : store.alloc.Filled store') (v : Value) :
    store.Filled (store'.fill store.next v) := by
  intro a ha ha'
  rw [next_fill] at ha'
  rw [get?_fill]
  by_cases heq : store.next = a
  · rw [if_pos ⟨heq, ha'⟩]
    cases store'.get? a with
    | none => exact ⟨v, rfl⟩
    | some w => exact ⟨w, rfl⟩
  · rw [if_neg (fun h => heq h.1)]
    exact h a (by rw [next_alloc]; omega) ha'

theorem trans (h : store.Filled store') (hg : store'.Grows store'') (h' : store'.Filled store'') :
    store.Filled store'' := by
  intro a ha ha'
  by_cases hlt : a < store'.next
  · obtain ⟨v, hv⟩ := h a ha hlt
    exact ⟨v, hg.get? hv⟩
  · exact h' a (by omega) ha'

end Filled

end Store

namespace EvalM

/-- A sequence ends with its second part, or fails with its first. -/
theorem bind_cases {m : EvalM α} {f : α → EvalM β} {r : Except RuntimeError β}
    (h : (m >>= f) store = some (r, store')) :
    (∃ a store₁, m store = some (.ok a, store₁) ∧ f a store₁ = some (r, store')) ∨
      ∃ e, m store = some (.error e, store') ∧ r = .error e := by
  have hrun : (m >>= f) store = (m store).bind (fun p => ExceptT.bindCont f p.1 p.2) := rfl
  rw [hrun] at h
  cases hm : m store with
  | none => rw [hm] at h; cases h
  | some p =>
    obtain ⟨e | a, store₁⟩ := p
    · rw [hm] at h
      cases h
      exact Or.inr ⟨e, rfl, rfl⟩
    · rw [hm] at h
      exact Or.inl ⟨a, store₁, rfl, h⟩

/-- Work that keeps the slots there are and, where it succeeds, fills those it makes. -/
def Growing (m : EvalM α) : Prop := ∀ store r store', m store = some (r, store') →
  store.Grows store' ∧ ∀ a, r = .ok a → store.Filled store'

theorem growing_pure (a : α) : Growing (pure a) := by
  intro store r store' h
  cases h
  exact ⟨.refl store, fun _ _ => .refl store⟩

theorem growing_throw (e : RuntimeError) : Growing (throw e : EvalM α) := by
  intro store r store' h
  cases h
  exact ⟨.refl store, fun _ h => by cases h⟩

theorem growing_ofExcept (r : Except RuntimeError α) : Growing (ofExcept r) := by
  cases r with
  | error e => exact growing_throw e
  | ok a => exact growing_pure a

theorem growing_outOfFuel : Growing (outOfFuel : EvalM α) := by
  intro store r store' h
  cases h

theorem Growing.bind {m : EvalM α} {f : α → EvalM β} (hm : Growing m) (hf : ∀ a, Growing (f a)) :
    Growing (m >>= f) := by
  intro store r store' h
  obtain ⟨a, store₁, hrun, h⟩ | ⟨e, hrun, rfl⟩ := bind_cases h
  · obtain ⟨hg₁, hf₁⟩ := hm _ _ _ hrun
    obtain ⟨hg₂, hf₂⟩ := hf a _ _ _ h
    exact ⟨hg₁.trans hg₂, fun b hb => (hf₁ a rfl).trans hg₂ (hf₂ b hb)⟩
  · exact ⟨(hm _ _ _ hrun).1, fun b hb => by cases hb⟩

theorem growing_mapM {f : α → EvalM β} (hf : ∀ a, Growing (f a)) (as : List α) :
    Growing (as.mapM f) := by
  induction as with
  | nil =>
    rw [List.mapM_nil]
    exact growing_pure []
  | cons a as ih =>
    rw [List.mapM_cons]
    exact (hf a).bind (fun b => ih.bind (fun bs => growing_pure (b :: bs)))

end EvalM

open EvalM

/-- The value of a recursive definition is evaluated with an empty slot for its name, which it then
fills. -/
theorem eval_letRec_cases {n : Nat} {ρ : Env} {x : String} {v b : Expr}
    {r : Except RuntimeError Value} (h : eval (n + 1) ρ (.letRec x v b) store = some (r, store')) :
    (∃ a store₁, eval n (.slot x store.next ρ) v store.alloc = some (.ok a, store₁) ∧
      eval n (.slot x store.next ρ) b (store₁.fill store.next a) = some (r, store')) ∨
      ∃ e, eval n (.slot x store.next ρ) v store.alloc = some (.error e, store') ∧
        r = .error e := by
  have hrun : (eval n (.slot x store.next ρ) v >>= fun v =>
      modify (fun σ => (Env.slot x store.next ρ).fillHead v σ) >>= fun _ =>
        eval n (.slot x store.next ρ) b) store.alloc = some (r, store') := h
  obtain ⟨a, store₁, hv, hb⟩ | hfail := bind_cases hrun
  · exact Or.inl ⟨a, store₁, hv, hb⟩
  · exact Or.inr hfail

theorem growing_eval (n : Nat) (ρ : Env) (e : Expr) : Growing (eval n ρ e) := by
  induction n generalizing ρ e with
  | zero => exact growing_outOfFuel
  | succ n ih =>
    cases e with
    | lit l => exact growing_pure _
    | var x =>
      refine Growing.bind (fun store r store' h => ?_) (fun σ => growing_ofExcept (ρ.lookup σ x))
      cases h
      exact ⟨.refl store, fun _ _ => .refl store⟩
    | abs x b => exact growing_pure _
    | app f a =>
      refine (ih ρ f).bind (fun f => (ih ρ a).bind (fun a => ?_))
      cases f with
      | closure x b ρ' => exact ih _ b
      | _ => exact growing_throw _
    | letIn x v b => exact (ih ρ v).bind (fun v => ih _ b)
    | letRec x v b =>
      intro store r store' h
      obtain ⟨a, store₁, hv, hb⟩ | ⟨e, hv, rfl⟩ := eval_letRec_cases h
      · obtain ⟨hg₁, hf₁⟩ := ih _ v _ _ _ hv
        obtain ⟨hg₂, hf₂⟩ := ih _ b _ _ _ hb
        exact ⟨((store.grows_alloc.trans hg₁).fill (Nat.le_refl _) a).trans hg₂,
          fun w hw => ((hf₁ a rfl).fill a).trans hg₂ (hf₂ w hw)⟩
      · exact ⟨store.grows_alloc.trans (ih _ v _ _ _ hv).1, fun _ h => by cases h⟩
    | cond c t e =>
      refine (ih ρ c).bind (fun v => ?_)
      cases v with
      | bool b => cases b with
        | true => exact ih ρ t
        | false => exact ih ρ e
      | _ => exact growing_throw _
    | bin op l r =>
      exact (ih ρ l).bind (fun l => (ih ρ r).bind (fun r => growing_ofExcept (op.apply l r)))
    | nil => exact growing_pure _
    | cons h t => exact (ih ρ h).bind (fun h => (ih ρ t).bind (fun t => growing_pure _))
    | list es => exact (growing_mapM (ih ρ) es).bind (fun vs => growing_pure _)
    | case e arms =>
      refine (ih ρ e).bind (fun v => ?_)
      cases selectArm v arms with
      | none => exact growing_throw _
      | some p => exact ih _ p.2

end LetML
