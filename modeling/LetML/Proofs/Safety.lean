import LetML.Proofs.Soundness
import LetML.Proofs.ValueTyping

namespace LetML

/-- The failures that types do not exclude. -/
def RuntimeError.BeyondTypes : RuntimeError → Prop
  | noMatch _ | overflow _ _ _ | notReady _ => True
  | unbound _ | notFunction _ | notBool _ | operands _ _ _ => False

structure Store.Meets (store : Store) (S : Layout) : Prop where
  bounded : ∀ a t, S a t → a < store.next
  held : ∀ a t v, S a t → store.get? a = some v → v.HasType S t

/-- A later store, where only slots made since then have been given types. -/
structure Layout.Extends (store : Store) (S : Layout) (store' : Store) (S' : Layout) : Prop where
  le : store.next ≤ store'.next
  keeps : ∀ a t, S a t → S' a t
  fresh : ∀ a t, S' a t → S a t ∨ store.next ≤ a
  meets : store'.Meets S'

/-- Work that ends with a failure beyond types, or with a result and types of the slots for which
`Q` holds. -/
def Safe {α : Type} (m : EvalM α) (store : Store) (S : Layout) (Q : α → Layout → Prop) : Prop :=
  ∀ r store', m store = some (r, store') → match r with
    | .ok a => ∃ S', Layout.Extends store S store' S' ∧ Q a S'
    | .error e => e.BeyondTypes

variable {α β : Type} {store store' : Store} {S S' : Layout} {Γ : TypeEnv} {ρ : Env} {e : Expr}
  {t : Ty}

theorem Layout.Extends.refl (h : store.Meets S) : Extends store S store S :=
  ⟨Nat.le_refl _, fun _ _ h => h, fun _ _ h => Or.inl h, h⟩

theorem Layout.Extends.trans {store'' : Store} {S'' : Layout} (h : Extends store S store' S')
    (h' : Extends store' S' store'' S'') : Extends store S store'' S'' where
  le := Nat.le_trans h.le h'.le
  keeps a t hat := h'.keeps a t (h.keeps a t hat)
  fresh a t hat := by
    obtain hat | hle := h'.fresh a t hat
    · exact h.fresh a t hat
    · exact Or.inr (Nat.le_trans h.le hle)
  meets := h'.meets

namespace Safe

theorem pure {Q : α → Layout → Prop} {a : α} (h : store.Meets S) (ha : Q a S) :
    Safe (Pure.pure a) store S Q := by
  intro r store' hrun
  cases hrun
  exact ⟨S, .refl h, ha⟩

theorem throw {Q : α → Layout → Prop} {e : RuntimeError} (he : e.BeyondTypes) :
    Safe (throw e) store S Q := by
  intro r store' hrun
  cases hrun
  exact he

theorem of_result {Q : α → Layout → Prop} {r : Except RuntimeError α} (h : store.Meets S)
    (hr : (∃ a, r = .ok a ∧ Q a S) ∨ ∃ e, r = .error e ∧ e.BeyondTypes) :
    Safe (ofExcept r) store S Q := by
  obtain ⟨a, rfl, ha⟩ | ⟨e, rfl, he⟩ := hr
  · exact Safe.pure h ha
  · exact Safe.throw he

theorem bind {m : EvalM α} {f : α → EvalM β} {Q : α → Layout → Prop} {R : β → Layout → Prop}
    (hm : Safe m store S Q)
    (hf : ∀ a store' S', Layout.Extends store S store' S' → Q a S' → Safe (f a) store' S' R) :
    Safe (m >>= f) store S R := by
  intro r store' hrun
  obtain ⟨a, store₁, hrun₁, hrun₂⟩ | ⟨e, hfail, rfl⟩ := EvalM.bind_cases hrun
  · obtain ⟨S₁, hext, ha⟩ := hm _ _ hrun₁
    have hr := hf a store₁ S₁ hext ha r store' hrun₂
    cases r with
    | ok b =>
      obtain ⟨S₂, hext₂, hb⟩ := hr
      exact ⟨S₂, hext.trans hext₂, hb⟩
    | error e => exact hr
  · exact hm _ _ hfail

/-- A run that is safe for each of some types is safe for all of them at once: the slots are given
all the types that they are given for one of them. -/
theorem all {m : EvalM Value} {T : Ty → Prop} {S : Ty → Layout} (hT : ∃ t, T t)
    (h : ∀ t, T t → Safe m store (S t) (fun v S' => v.HasType S' t)) :
    Safe m store (fun a u => ∃ t, T t ∧ S t a u) (fun v S' => ∀ t, T t → v.HasType S' t) := by
  intro r store' hrun
  obtain ⟨t₀, ht₀⟩ := hT
  cases r with
  | error e => exact h t₀ ht₀ _ _ hrun
  | ok v =>
    have hS : ∀ t, T t → ∃ S', Layout.Extends store (S t) store' S' ∧ v.HasType S' t :=
      fun t ht => h t ht _ _ hrun
    let U : Layout := fun a u => ∃ t, T t ∧ ∃ S', Layout.Extends store (S t) store' S' ∧
      v.HasType S' t ∧ S' a u
    have hU : ∀ t, T t → ∀ S', Layout.Extends store (S t) store' S' → v.HasType S' t →
        ∀ a u, S' a u → U a u := fun t ht S' hext hv a u hau => ⟨t, ht, S', hext, hv, hau⟩
    refine ⟨U, ⟨?_, ?_, ?_, ?_, ?_⟩, fun t ht => ?_⟩
    · obtain ⟨S', hext, -⟩ := hS t₀ ht₀
      exact hext.le
    · intro a u ⟨t, ht, hau⟩
      obtain ⟨S', hext, hv⟩ := hS t ht
      exact hU t ht S' hext hv a u (hext.keeps a u hau)
    · intro a u ⟨t, ht, S', hext, hv, hau⟩
      exact (hext.fresh a u hau).imp_left (fun hau => ⟨t, ht, hau⟩)
    · intro a u ⟨t, ht, S', hext, hv, hau⟩
      exact hext.meets.bounded a u hau
    · intro a u w ⟨t, ht, S', hext, hv, hau⟩ hw
      exact (hext.meets.held a u w hau hw).mono (hU t ht S' hext hv)
    · obtain ⟨S', hext, hv⟩ := hS t ht
      exact hv.mono (hU t ht S' hext hv)

theorem forall_types {m : EvalM Value} {T : Ty → Prop} (hT : ∃ t, T t)
    (h : ∀ t, T t → Safe m store S (fun v S' => v.HasType S' t)) :
    Safe m store S (fun v S' => ∀ t, T t → v.HasType S' t) := by
  have hS : (fun a u => ∃ t, T t ∧ S a u) = S := by
    funext a u
    obtain ⟨t, ht⟩ := hT
    exact propext ⟨fun ⟨_, _, hau⟩ => hau, fun hau => ⟨t, ht, hau⟩⟩
  have hall := all (S := fun _ => S) hT h
  rwa [hS] at hall

end Safe

theorem Value.HasType.ofLit (l : Lit) : (Value.ofLit l).HasType S l.ty := by
  cases l with
  | int n => exact .int n
  | bool b => exact .bool b

theorem BinOp.checked_safe (op : BinOp) (a b : Int64) (result : Int) :
    (∃ v, op.checked a b result = .ok v ∧ v.HasType S .int) ∨
      ∃ e, op.checked a b result = .error e ∧ e.BeyondTypes := by
  rw [checked]
  split
  · exact Or.inl ⟨_, rfl, .int _⟩
  · exact Or.inr ⟨_, rfl, trivial⟩

theorem BinOp.apply_safe (op : BinOp) {l r : Value} (hl : l.HasType S op.operandTy)
    (hr : r.HasType S op.operandTy) :
    (∃ v, op.apply l r = .ok v ∧ v.HasType S op.resultTy) ∨
      ∃ e, op.apply l r = .error e ∧ e.BeyondTypes := by
  cases op with
  | add | sub | mul =>
    cases hl
    cases hr
    exact checked_safe _ _ _ _
  | eq | ne | lt | le | gt | ge =>
    cases hl
    cases hr
    exact Or.inl ⟨_, rfl, .bool _⟩
  | and | or =>
    cases hl
    cases hr
    exact Or.inl ⟨_, rfl, .bool _⟩

theorem exists_of_selectArm {v : Value} {arms : List (Pattern × Expr)}
    {vs : List (String × Value)} {b : Expr} (h : selectArm v arms = some (vs, b)) :
    ∃ p, (p, b) ∈ arms ∧ p.match? v = some vs := by
  induction arms with
  | nil => cases h
  | cons arm arms ih =>
    obtain ⟨p, e⟩ := arm
    rw [selectArm] at h
    cases hm : p.match? v with
    | none =>
      rw [hm] at h
      obtain ⟨q, hq, hqm⟩ := ih h
      exact ⟨q, List.mem_cons_of_mem _ hq, hqm⟩
    | some ws =>
      rw [hm] at h
      cases h
      exact ⟨p, List.mem_cons_self, hm⟩

theorem Value.HasType.ofList {vs : List Value} (h : ∀ v ∈ vs, v.HasType S t) :
    (Value.ofList vs).HasType S (.list t) := by
  induction vs with
  | nil => exact .nil t
  | cons v vs ih => exact .cons (h v (by simp)) (ih (fun v hv => h v (by simp [hv])))

theorem Safe.mapM {f : Expr → EvalM Value} {es : List Expr}
    (hf : ∀ e ∈ es, ∀ {store' S'}, Layout.Extends store S store' S' →
      Safe (f e) store' S' (fun v S' => v.HasType S' t)) (h : store.Meets S) :
    Safe (es.mapM f) store S (fun vs S' => ∀ v ∈ vs, v.HasType S' t) := by
  induction es generalizing store S with
  | nil =>
    rw [List.mapM_nil]
    exact Safe.pure h (by simp)
  | cons e es ih =>
    rw [List.mapM_cons]
    refine (hf e (by simp) (.refl h)).bind (fun v store₁ S₁ hext₁ hv => ?_)
    refine (ih (fun e he _ _ hext => hf e (by simp [he]) (hext₁.trans hext)) hext₁.meets).bind
      (fun vs store₂ S₂ hext₂ hvs => Safe.pure hext₂.meets (fun w hw => ?_))
    obtain rfl | hw := List.mem_cons.mp hw
    · exact hv.mono hext₂.keeps
    · exact hvs w hw

theorem Store.Meets.alloc (h : store.Meets S) (t : Ty) : store.alloc.Meets (S.add store.next t) where
  bounded a u hau := by
    rw [Store.next_alloc]
    obtain hau | ⟨rfl, rfl⟩ := hau
    · exact Nat.lt_succ_of_lt (h.bounded a u hau)
    · exact Nat.lt_succ_self _
  held a u v hau hv := by
    rw [Store.get?_alloc] at hv
    obtain hau | ⟨rfl, rfl⟩ := hau
    · exact (h.held a u v hau hv).mono (fun _ _ => Or.inl)
    · exact (Nat.lt_irrefl _ (Store.lt_next_of_get? hv)).elim

theorem Layout.Extends.fill {T : Ty → Prop} {v : Value} (h : store.Meets S) (hT : ∃ t, T t)
    (hext : Extends store.alloc (fun a u => ∃ t, T t ∧ S.add store.next t a u) store' S')
    (hv : ∀ t, T t → v.HasType S' t) : Extends store S (store'.fill store.next v) S' where
  le := by
    have hle := hext.le
    rw [Store.next_alloc] at hle
    rw [Store.next_fill]
    omega
  keeps a u hau := by
    obtain ⟨t, ht⟩ := hT
    exact hext.keeps a u ⟨t, ht, Or.inl hau⟩
  fresh a u hau := by
    obtain ⟨t, -, hau | ⟨rfl, -⟩⟩ | hle := hext.fresh a u hau
    · exact Or.inl hau
    · exact Or.inr (Nat.le_refl _)
    · rw [Store.next_alloc] at hle
      exact Or.inr (by omega)
  meets.bounded a u hau := by
    rw [Store.next_fill]
    exact hext.meets.bounded a u hau
  meets.held a u w hau hw := by
    rw [Store.get?_fill] at hw
    split at hw
    next ha =>
      obtain ⟨rfl, -⟩ := ha
      cases hold : store'.get? store.next with
      | some w' =>
        rw [hold] at hw
        cases hw
        exact hext.meets.held _ u _ hau hold
      | none =>
        rw [hold] at hw
        cases hw
        -- before, the slot was given the types in question and no other
        obtain ⟨t, ht, hau | ⟨-, rfl⟩⟩ | hle := hext.fresh _ u hau
        · exact (Nat.lt_irrefl _ (h.bounded _ u hau)).elim
        · exact hv u ht
        · rw [Store.next_alloc] at hle
          omega
    next => exact hext.meets.held a u w hau hw

theorem Safe.letRec {n : Nat} {x : String} {v b : Expr} {T : Ty → Prop} {Q : Value → Layout → Prop}
    (h : store.Meets S) (hT : ∃ t, T t)
    (hv : ∀ t, T t → Safe (eval n (.slot x store.next ρ) v) store.alloc (S.add store.next t)
      (fun v S' => v.HasType S' t))
    (hb : ∀ store' S', Layout.Extends store S store' S' → (∀ t, T t → S' store.next t) →
      Safe (eval n (.slot x store.next ρ) b) store' S' Q) :
    Safe (eval (n + 1) ρ (.letRec x v b)) store S Q := by
  have hall := Safe.all hT hv
  intro r store' hrun
  obtain ⟨w, store₁, hw, hrun⟩ | ⟨e, hfail, rfl⟩ := eval_letRec_cases hrun
  · obtain ⟨S₁, hext, hwt⟩ := hall _ _ hw
    have hext' := Layout.Extends.fill h hT hext hwt
    have hslot : ∀ t, T t → S₁ store.next t := fun t ht =>
      hext.keeps _ t ⟨t, ht, Or.inr ⟨rfl, rfl⟩⟩
    have hr := hb _ S₁ hext' hslot r store' hrun
    cases r with
    | error e => exact hr
    | ok a =>
      obtain ⟨S₂, hext₂, ha⟩ := hr
      exact ⟨S₂, hext'.trans hext₂, ha⟩
  · exact hall _ _ hfail

/-- An expression that has a type is safe to evaluate where its names have types. -/
theorem eval_safe (n : Nat) : ∀ {Γ ρ e t store S}, store.Meets S → ρ.HasTypes S Γ → Typing Γ e t →
    Safe (eval n ρ e) store S (fun v S' => v.HasType S' t) := by
  induction n with
  | zero =>
    intro Γ ρ e t store S _ _ _ r store' hrun
    cases hrun
  | succ n ih =>
    intro Γ ρ e t store S hm hρ h
    cases h with
    | lit Γ l => exact Safe.pure hm (.ofLit l)
    | @var _ x σ _ hx ht =>
      have hlookup := hρ.lookup hx ht (fun a v hat hv => hm.held a t v hat hv)
      have hsafe : Safe (ofExcept (ρ.lookup store x)) store S (fun v S' => v.HasType S' t) :=
        Safe.of_result hm (hlookup.imp_right (fun h => ⟨.notReady x, h, trivial⟩))
      exact fun r store' hrun => hsafe r store' hrun
    | abs hb => exact Safe.pure hm (.closure hρ hb)
    | app hf ha =>
      refine (ih hm hρ hf).bind (fun f store₁ S₁ hext₁ hf => ?_)
      refine (ih hext₁.meets (hρ.mono hext₁.keeps) ha).bind (fun a store₂ S₂ hext₂ ha => ?_)
      cases hf with
      | @closure x _ _ _ _ _ hρ' hb =>
        exact ih hext₂.meets ((hρ'.mono hext₂.keeps).insert_mono ha x) hb
    | @letIn _ x _ _ _ _ σ hv hσ hb =>
      -- the one run of the definition is safe for every type of its scheme
      have hT : ∃ t, σ.Instance t := ⟨_, σ.instance_ty⟩
      have hall := Safe.forall_types hT (fun t ht => ih hm hρ (hv.instance hσ ht))
      refine hall.bind (fun v store₁ S₁ hext hv => ?_)
      exact ih hext.meets ((hρ.mono hext.keeps).insert hv x) hb
    | @letRec _ x _ _ _ _ σ hv hσ hb =>
      have hT : ∃ t, σ.Instance t := ⟨_, σ.instance_ty⟩
      refine Safe.letRec hm hT (fun t ht => ?_) (fun store₁ S₁ hext hslot => ?_)
      · have hself : ∀ u, (Scheme.mono t).Instance u → S.add store.next t store.next u :=
          fun u hu => Or.inr ⟨rfl, by simpa [Scheme.Instance] using hu⟩
        exact ih (hm.alloc t) ((hρ.mono (fun _ _ => Or.inl)).insert_slot hself x)
          (hv.instance_rec hσ ht)
      · exact ih hext.meets ((hρ.mono hext.keeps).insert_slot hslot x) hb
    | cond hc hy hn =>
      refine (ih hm hρ hc).bind (fun v store₁ S₁ hext hv => ?_)
      cases hv with
      | bool b => cases b with
        | true => exact ih hext.meets (hρ.mono hext.keeps) hy
        | false => exact ih hext.meets (hρ.mono hext.keeps) hn
    | @bin _ op _ _ hl hr =>
      refine (ih hm hρ hl).bind (fun l store₁ S₁ hext₁ hl => ?_)
      refine (ih hext₁.meets (hρ.mono hext₁.keeps) hr).bind (fun r store₂ S₂ hext₂ hr => ?_)
      exact Safe.of_result hext₂.meets (op.apply_safe (hl.mono hext₂.keeps) hr)
    | nil Γ a => exact Safe.pure hm (.nil a)
    | cons hh hl =>
      refine (ih hm hρ hh).bind (fun h store₁ S₁ hext₁ hh => ?_)
      refine (ih hext₁.meets (hρ.mono hext₁.keeps) hl).bind (fun l store₂ S₂ hext₂ hl => ?_)
      exact Safe.pure hext₂.meets (.cons (hh.mono hext₂.keeps) hl)
    | list hes =>
      refine (Safe.mapM (fun e he store₁ S₁ hext => ?_) hm).bind
        (fun vs store₁ S₁ hext hvs => Safe.pure hext.meets (.ofList hvs))
      exact ih hext.meets (hρ.mono hext.keeps) (hes e he)
    | @case _ _ arms _ _ names he hp hb =>
      refine (ih hm hρ he).bind (fun v store₁ S₁ hext hv => ?_)
      cases hsel : selectArm v arms with
      | none => exact Safe.throw trivial
      | some arm =>
        obtain ⟨vs, b⟩ := arm
        obtain ⟨p, hpb, hmatch⟩ := exists_of_selectArm hsel
        exact ih hext.meets ((hp p b hpb).bindAll hv hmatch (hρ.mono hext.keeps)) (hb p b hpb)

theorem Store.meets_layout (store : Store) : store.Meets store.layout where
  bounded a t hat := by
    obtain ⟨v, hv, -⟩ := store.supports_layout a t hat
    exact Store.lt_next_of_get? hv
  held a t v hat hv := by
    obtain ⟨w, hw, hwt⟩ := store.supports_layout a t hat
    obtain rfl := Option.some.inj (hw.symm.trans hv)
    exact hwt

theorem Layout.Extends.supports (h : Extends store S store' S') (hS : store.Supports S)
    (hg : store.Grows store') (hf : store.Filled store') : store'.Supports S' := by
  have hfilled : ∀ a t, S' a t → ∃ v, store'.get? a = some v := by
    intro a t hat
    obtain hat' | hle := h.fresh a t hat
    · obtain ⟨v, hv, -⟩ := hS a t hat'
      exact ⟨v, hg.get? hv⟩
    · exact hf a hle (h.meets.bounded a t hat)
  intro a t hat
  obtain ⟨v, hv⟩ := hfilled a t hat
  exact ⟨v, hv, h.meets.held a t v hat hv⟩

namespace Env.Provides

variable {fuel : Nat} {v : Value}

theorem ofType_of_eval (hρ : ρ.Provides store Γ) (h : Typing Γ e t)
    (hrun : eval fuel ρ e store = some (.ok v, store')) : v.OfType store' t := by
  obtain ⟨S', hext, hv⟩ := eval_safe fuel store.meets_layout hρ.hasTypes h _ _ hrun
  obtain ⟨hg, hf⟩ := growing_eval fuel ρ e _ _ _ hrun
  exact ⟨S', hext.supports store.supports_layout hg (hf v rfl), hv⟩

end Env.Provides

end LetML
