import LetML.Proofs.Evaluation

namespace LetML

/-- What happens to a slot: it is made for a name, it is filled, or its name is looked up while it
is empty. -/
inductive SlotEvent where
  | made (name : String) (address : Nat)
  | filled (address : Nat)
  | missed (name : String) (address : Nat)

def SlotEvent.filled? : SlotEvent → Option Nat
  | filled a => some a
  | _ => none

structure Journal where
  store : Store
  events : List SlotEvent

namespace Journal

def bindSlot (ρ : Env) (x : String) (j : Journal) : Env × Journal :=
  let (ρ', store) := ρ.bindSlot x j.store
  (ρ', ⟨store, .made x j.store.next :: j.events⟩)

/-- Fill the slot of the innermost binding, if it has one. It counts as filled again if it is. -/
def fillHead (v : Value) (j : Journal) (ρ : Env) : Journal where
  store := ρ.fillHead v j.store
  events := match ρ with
    | .slot _ a _ => .filled a :: j.events
    | _ => j.events

def lookup (x : String) (j : Journal) (ρ : Env) : Except RuntimeError Value × Journal :=
  (ρ.lookup j.store x, match ρ.find? x with
    | some (.slot a) =>
      if (j.store.get? a).isNone then { j with events := .missed x a :: j.events } else j
    | _ => j)

end Journal

abbrev JournalM := ExceptT RuntimeError (StateT Journal Option)

def record : Nat → Env → Expr → JournalM Value
  | 0, _, _ => fun _ => none
  | n + 1, ρ, e => match e with
    | .lit l => return .ofLit l
    | .var x => do
      let r ← modifyGet fun j => j.lookup x ρ
      ofExcept r
    | .abs x b => return .closure x b ρ
    | .app f a => do
      let f ← record n ρ f
      let a ← record n ρ a
      match f with
      | .closure x b ρ => record n (.bind x a ρ) b
      | v => throw (.notFunction v)
    | .letIn x v b => do
      let v ← record n ρ v
      record n (.bind x v ρ) b
    | .letRec x v b => do
      let ρ ← modifyGet (Journal.bindSlot ρ x)
      let v ← record n ρ v
      modify fun j => j.fillHead v ρ
      record n ρ b
    | .cond c t e => do
      match ← record n ρ c with
      | .bool true => record n ρ t
      | .bool false => record n ρ e
      | v => throw (.notBool v)
    | .bin op l r => do
      let l ← record n ρ l
      let r ← record n ρ r
      ofExcept (op.apply l r)
    | .nil => return .nil
    | .cons h t => do
      let h ← record n ρ h
      let t ← record n ρ t
      return .cons h t
    | .list es => do
      let vs ← es.mapM (record n ρ)
      return .ofList vs
    | .case e arms => do
      let v ← record n ρ e
      match selectArm v arms with
      | some (bindings, b) => record n (ρ.bindAll bindings) b
      | none => throw (.noMatch v)

variable {α β : Type} {j j' : Journal} {store store' store'' : Store}
  {events events' : List SlotEvent} {n : Nat} {ρ : Env} {e : Expr}

namespace JournalM

theorem bind_apply (m : JournalM α) (f : α → JournalM β) (j : Journal) :
    (m >>= f) j = (m j).bind (fun p => ExceptT.bindCont f p.1 p.2) := rfl

theorem bind_cases {m : JournalM α} {f : α → JournalM β} {r : Except RuntimeError β}
    (h : (m >>= f) j = some (r, j')) :
    (∃ a j₁, m j = some (.ok a, j₁) ∧ f a j₁ = some (r, j')) ∨
      ∃ err, m j = some (.error err, j') ∧ r = .error err := by
  rw [bind_apply] at h
  cases hm : m j with
  | none => rw [hm] at h; cases h
  | some p =>
    obtain ⟨err | a, j₁⟩ := p
    · rw [hm] at h
      cases h
      exact Or.inr ⟨err, rfl, rfl⟩
    · rw [hm] at h
      exact Or.inl ⟨a, j₁, rfl, h⟩

/-- Work that does what plain work does, but for what it writes down. -/
def Erases (m : JournalM α) (m' : EvalM α) : Prop :=
  ∀ j, (m j).map (fun p => (p.1, p.2.store)) = m' j.store

theorem erases_pure (a : α) : Erases (pure a) (pure a) := fun _ => rfl

theorem erases_throw (err : RuntimeError) : Erases (throw err : JournalM α) (throw err) :=
  fun _ => rfl

theorem erases_ofExcept (r : Except RuntimeError α) : Erases (ofExcept r) (ofExcept r) := by
  cases r with
  | error err => exact erases_throw err
  | ok a => exact erases_pure a

theorem Erases.bind {m : JournalM α} {m' : EvalM α} {f : α → JournalM β} {f' : α → EvalM β}
    (hm : Erases m m') (hf : ∀ a, Erases (f a) (f' a)) : Erases (m >>= f) (m' >>= f') := by
  intro j
  change _ = (m' j.store).bind (fun p => ExceptT.bindCont f' p.1 p.2)
  rw [bind_apply, ← hm j]
  cases m j with
  | none => rfl
  | some p =>
    obtain ⟨err | a, j₁⟩ := p
    · rfl
    · exact hf a j₁

theorem Erases.mapM {f : α → JournalM β} {f' : α → EvalM β} (hf : ∀ a, Erases (f a) (f' a))
    (as : List α) : Erases (as.mapM f) (as.mapM f') := by
  induction as with
  | nil => exact erases_pure []
  | cons a as ih =>
    rw [List.mapM_cons, List.mapM_cons]
    exact (hf a).bind (fun b => ih.bind (fun bs => erases_pure (b :: bs)))

end JournalM

open JournalM

theorem Journal.lookup_cases {x : String} {r : Except RuntimeError Value}
    (h : j.lookup x ρ = (r, j')) :
    (∃ v, r = .ok v ∧ j' = j ∧ (ρ.find? x = some (.value v) ∨
      ∃ a, ρ.find? x = some (.slot a) ∧ j.store.get? a = some v)) ∨
    (r = .error (.unbound x) ∧ j' = j) ∨
    ∃ a, r = .error (.notReady x) ∧ j' = { j with events := .missed x a :: j.events } ∧
      ρ.find? x = some (.slot a) ∧ j.store.get? a = none := by
  rw [Journal.lookup, Env.lookup_eq] at h
  cases hfind : ρ.find? x with
  | none =>
    rw [hfind] at h
    cases h
    exact Or.inr (Or.inl ⟨rfl, rfl⟩)
  | some b =>
    rw [hfind] at h
    cases b with
    | value v =>
      cases h
      exact Or.inl ⟨v, rfl, rfl, Or.inl rfl⟩
    | slot a =>
      cases hget : j.store.get? a with
      | none =>
        simp only [Binding.read, hget, Option.isNone_none, if_true] at h
        cases h
        exact Or.inr (Or.inr ⟨a, rfl, rfl, rfl, hget⟩)
      | some v =>
        simp only [Binding.read, hget, Option.isNone_some, Bool.false_eq_true, if_false] at h
        cases h
        exact Or.inl ⟨v, rfl, rfl, Or.inr ⟨a, rfl, hget⟩⟩

theorem Journal.store_lookup (x : String) (ρ : Env) (j : Journal) :
    (j.lookup x ρ).2.store = j.store := by
  obtain ⟨_, -, hj, -⟩ | ⟨-, hj⟩ | ⟨_, -, hj, -⟩ := lookup_cases (Prod.eta (j.lookup x ρ)).symm
  · rw [hj]
  · rw [hj]
  · rw [hj]

theorem record_var (n : Nat) (x : String) (j : Journal) :
    record (n + 1) ρ (.var x) j = some (j.lookup x ρ) := by
  have hrun : record (n + 1) ρ (.var x) j =
      (ofExcept (j.lookup x ρ).1 : JournalM Value) (j.lookup x ρ).2 := rfl
  rw [hrun]
  generalize j.lookup x ρ = p
  obtain ⟨err | v, j₁⟩ := p
  · rfl
  · rfl

theorem record_letRec_cases {x : String} {v b : Expr} {r : Except RuntimeError Value}
    (h : record (n + 1) ρ (.letRec x v b) j = some (r, j')) :
    (∃ w j₁, record n (.slot x j.store.next ρ) v
        ⟨j.store.alloc, .made x j.store.next :: j.events⟩ = some (.ok w, j₁) ∧
      record n (.slot x j.store.next ρ) b
        ⟨j₁.store.fill j.store.next w, .filled j.store.next :: j₁.events⟩ = some (r, j')) ∨
    ∃ err, record n (.slot x j.store.next ρ) v
        ⟨j.store.alloc, .made x j.store.next :: j.events⟩ = some (.error err, j') ∧
      r = .error err := by
  have hrun : (record n (.slot x j.store.next ρ) v >>= fun v =>
      modify (fun j₁ => j₁.fillHead v (.slot x j.store.next ρ)) >>= fun _ =>
        record n (.slot x j.store.next ρ) b)
      ⟨j.store.alloc, .made x j.store.next :: j.events⟩ = some (r, j') := h
  obtain ⟨w, j₁, hv, hb⟩ | hfail := bind_cases hrun
  · exact Or.inl ⟨w, j₁, hv, hb⟩
  · exact Or.inr hfail

/-- To write down what happens to the slots does not change it. -/
theorem erases_record (n : Nat) (ρ : Env) (e : Expr) : Erases (record n ρ e) (eval n ρ e) := by
  induction n generalizing ρ e with
  | zero => exact fun _ => rfl
  | succ n ih =>
    cases e with
    | lit l => exact erases_pure _
    | var x =>
      intro j
      rw [eval_var, record_var, Option.map_some, Journal.store_lookup]
      rfl
    | abs x b => exact erases_pure _
    | app f a =>
      refine (ih ρ f).bind (fun f => (ih ρ a).bind (fun a => ?_))
      cases f with
      | closure x b ρ' => exact ih _ b
      | _ => exact erases_throw _
    | letIn x v b => exact (ih ρ v).bind (fun v => ih _ b)
    | letRec x v b =>
      refine Erases.bind (fun j => rfl) (fun ρ' => (ih ρ' v).bind (fun v => ?_))
      exact Erases.bind (fun j => rfl) (fun _ => ih ρ' b)
    | cond c t e =>
      refine (ih ρ c).bind (fun v => ?_)
      cases v with
      | bool b => cases b with
        | true => exact ih ρ t
        | false => exact ih ρ e
      | _ => exact erases_throw _
    | bin op l r =>
      exact (ih ρ l).bind (fun l => (ih ρ r).bind (fun r => erases_ofExcept (op.apply l r)))
    | nil => exact erases_pure _
    | cons h t => exact (ih ρ h).bind (fun h => (ih ρ t).bind (fun t => erases_pure _))
    | list es => exact (Erases.mapM (ih ρ) es).bind (fun vs => erases_pure _)
    | case e arms =>
      refine (ih ρ e).bind (fun v => ?_)
      cases selectArm v arms with
      | none => exact erases_throw _
      | some p => exact ih _ p.2

theorem exists_record {r : Except RuntimeError Value} (h : eval n ρ e store = some (r, store'))
    (events : List SlotEvent) :
    ∃ events', record n ρ e ⟨store, events⟩ = some (r, ⟨store', events'⟩) := by
  have hrun := erases_record n ρ e ⟨store, events⟩
  rw [h] at hrun
  obtain ⟨⟨r', store₁, events'⟩, hrecord, heq⟩ := Option.map_eq_some_iff.mp hrun
  cases heq
  exact ⟨events', hrecord⟩

/-- What happens to the slots between two stores: those of the first are not filled, and the others
are filled at most once. -/
structure Trace (store : Store) (events : List SlotEvent) (store' : Store) : Prop where
  grows : store.Grows store'
  made : ∀ x a, .made x a ∈ events → store.next ≤ a ∧ a < store'.next
  filled : ∀ a, .filled a ∈ events → store.next ≤ a ∧ ∃ v, store'.get? a = some v
  once : (events.filterMap SlotEvent.filled?).Nodup

def AllFilled (store : Store) (events : List SlotEvent) (store' : Store) : Prop :=
  ∀ a, store.next ≤ a → a < store'.next → .filled a ∈ events

theorem mem_filled? {a : Nat} : a ∈ events.filterMap SlotEvent.filled? ↔ .filled a ∈ events := by
  rw [List.mem_filterMap]
  constructor
  · rintro ⟨event, hmem, h⟩
    cases event with
    | filled b =>
      obtain rfl := Option.some.inj h
      exact hmem
    | _ => cases h
  · exact fun h => ⟨.filled a, h, rfl⟩

namespace Trace

theorem refl (store : Store) : Trace store [] store where
  grows := .refl store
  made x a h := by cases h
  filled a h := by cases h
  once := .nil

theorem missed (store : Store) (x : String) (a : Nat) : Trace store [.missed x a] store where
  grows := .refl store
  made y b h := by simp at h
  filled b h := by simp at h
  once := .nil

theorem trans (h : Trace store events store') (h' : Trace store' events' store'') :
    Trace store (events' ++ events) store'' where
  grows := h.grows.trans h'.grows
  made x a ha := by
    have := h.grows.le
    have := h'.grows.le
    obtain ha | ha := List.mem_append.mp ha
    · have := h'.made x a ha
      omega
    · have := h.made x a ha
      omega
  filled a ha := by
    obtain ha | ha := List.mem_append.mp ha
    · obtain ⟨hle, hv⟩ := h'.filled a ha
      exact ⟨Nat.le_trans h.grows.le hle, hv⟩
    · obtain ⟨hle, v, hv⟩ := h.filled a ha
      exact ⟨hle, v, h'.grows.get? hv⟩
  once := by
    rw [List.filterMap_append]
    refine List.nodup_append.mpr ⟨h'.once, h.once, fun a ha b hb => ?_⟩
    obtain ⟨hle, -⟩ := h'.filled a (mem_filled?.mp ha)
    obtain ⟨-, v, hv⟩ := h.filled b (mem_filled?.mp hb)
    have := Store.lt_next_of_get? hv
    omega

theorem made_first (h : Trace store.alloc events store') (x : String) :
    Trace store (events ++ [.made x store.next]) store' := by
  have hmade : Trace store [.made x store.next] store.alloc := by
    refine ⟨store.grows_alloc, fun y a ha => ?_, fun a ha => ?_, .nil⟩
    · cases List.mem_singleton.mp ha
      rw [Store.next_alloc]
      omega
    · cases List.mem_singleton.mp ha
  exact hmade.trans h

theorem fill (h : Trace store.alloc events store') (x : String) (v : Value) :
    Trace store (.filled store.next :: events ++ [.made x store.next])
      (store'.fill store.next v) := by
  have hfirst := h.made_first x
  refine ⟨hfirst.grows.fill (Nat.le_refl _) v, fun y a ha => ?_, fun a ha => ?_, ?_⟩
  · rw [Store.next_fill]
    exact hfirst.made y a (by simpa using ha)
  · obtain ha | ha := List.mem_cons.mp ha
    · cases ha
      exact ⟨Nat.le_refl _, v, h.grows.get?_fill_next v⟩
    · obtain ⟨hle, w, hw⟩ := hfirst.filled a ha
      exact ⟨hle, w, Store.get?_fill_of_some hw⟩
  -- what was filled in between are slots that were made later
  · refine List.nodup_cons.mpr ⟨fun ha => ?_, hfirst.once⟩
    obtain ha := mem_filled?.mp ha
    have := (h.filled store.next (by simpa using ha)).1
    rw [Store.next_alloc] at this
    omega

end Trace

namespace AllFilled

theorem trans (h : AllFilled store events store') (h' : AllFilled store' events' store'') :
    AllFilled store (events' ++ events) store'' := by
  intro a ha ha'
  by_cases hlt : a < store'.next
  · exact List.mem_append_right _ (h a ha hlt)
  · exact List.mem_append_left _ (h' a (Nat.not_lt.mp hlt) ha')

theorem fill (h : AllFilled store.alloc events store') (x : String) (v : Value) :
    AllFilled store (.filled store.next :: events ++ [.made x store.next])
      (store'.fill store.next v) := by
  intro a ha ha'
  rw [Store.next_fill] at ha'
  by_cases heq : a = store.next
  · simp [heq]
  · have := h a (by rw [Store.next_alloc]; omega) ha'
    simp [this]

end AllFilled

/-- Work that fills no slot there was and no slot twice, and fills those it makes where it
succeeds. -/
def JournalM.Traced (m : JournalM α) : Prop := ∀ j r j', m j = some (r, j') →
  ∃ events, j'.events = events ++ j.events ∧ Trace j.store events j'.store ∧
    ∀ a, r = .ok a → AllFilled j.store events j'.store

namespace JournalM

theorem traced_pure (a : α) : Traced (pure a) := by
  intro j r j' h
  cases h
  exact ⟨[], rfl, .refl _, fun _ _ b hb hb' => by omega⟩

theorem traced_throw (err : RuntimeError) : Traced (throw err : JournalM α) := by
  intro j r j' h
  cases h
  exact ⟨[], rfl, .refl _, fun _ h => by cases h⟩

theorem traced_ofExcept (r : Except RuntimeError α) : Traced (ofExcept r) := by
  cases r with
  | error err => exact traced_throw err
  | ok a => exact traced_pure a

theorem Traced.bind {m : JournalM α} {f : α → JournalM β} (hm : Traced m)
    (hf : ∀ a, Traced (f a)) : Traced (m >>= f) := by
  intro j r j' h
  obtain ⟨a, j₁, hrun, h⟩ | ⟨err, hrun, rfl⟩ := bind_cases h
  · obtain ⟨events₁, hevents₁, htrace₁, hall₁⟩ := hm _ _ _ hrun
    obtain ⟨events₂, hevents₂, htrace₂, hall₂⟩ := hf a _ _ _ h
    refine ⟨events₂ ++ events₁, ?_, htrace₁.trans htrace₂, fun b hb =>
      (hall₁ a rfl).trans (hall₂ b hb)⟩
    rw [hevents₂, hevents₁, List.append_assoc]
  · obtain ⟨events, hevents, htrace, -⟩ := hm _ _ _ hrun
    exact ⟨events, hevents, htrace, fun b hb => by cases hb⟩

theorem traced_mapM {f : α → JournalM β} (hf : ∀ a, Traced (f a)) (as : List α) :
    Traced (as.mapM f) := by
  induction as with
  | nil => exact traced_pure []
  | cons a as ih =>
    rw [List.mapM_cons]
    exact (hf a).bind (fun b => ih.bind (fun bs => traced_pure (b :: bs)))

end JournalM

theorem traced_record (n : Nat) (ρ : Env) (e : Expr) : Traced (record n ρ e) := by
  induction n generalizing ρ e with
  | zero =>
    intro j r j' h
    cases h
  | succ n ih =>
    cases e with
    | lit l => exact traced_pure _
    | var x =>
      intro j r j' h
      rw [record_var] at h
      obtain ⟨v, rfl, rfl, -⟩ | ⟨rfl, rfl⟩ | ⟨a, rfl, rfl, -⟩ :=
        Journal.lookup_cases (Option.some.inj h)
      · exact traced_pure v _ _ _ rfl
      · exact traced_throw _ _ _ _ rfl
      · exact ⟨[.missed x a], rfl, .missed _ x a, fun _ h => by cases h⟩
    | abs x b => exact traced_pure _
    | app f a =>
      refine (ih ρ f).bind (fun f => (ih ρ a).bind (fun a => ?_))
      cases f with
      | closure x b ρ' => exact ih _ b
      | _ => exact traced_throw _
    | letIn x v b => exact (ih ρ v).bind (fun v => ih _ b)
    | letRec x v b =>
      intro j r j' h
      obtain ⟨w, j₁, hv, hb⟩ | ⟨err, hv, rfl⟩ := record_letRec_cases h
      · obtain ⟨events₁, hevents₁, htrace₁, hall₁⟩ := ih _ v _ _ _ hv
        obtain ⟨events₂, hevents₂, htrace₂, hall₂⟩ := ih _ b _ _ _ hb
        refine ⟨events₂ ++ (.filled j.store.next :: events₁ ++ [.made x j.store.next]), ?_,
          (htrace₁.fill x w).trans htrace₂, fun u hu =>
          ((hall₁ w rfl).fill x w).trans (hall₂ u hu)⟩
        simp [hevents₂, hevents₁]
      · obtain ⟨events, hevents, htrace, -⟩ := ih _ v _ _ _ hv
        refine ⟨events ++ [.made x j.store.next], ?_, htrace.made_first x, fun _ h => by cases h⟩
        simp [hevents]
    | cond c t e =>
      refine (ih ρ c).bind (fun v => ?_)
      cases v with
      | bool b => cases b with
        | true => exact ih ρ t
        | false => exact ih ρ e
      | _ => exact traced_throw _
    | bin op l r =>
      exact (ih ρ l).bind (fun l => (ih ρ r).bind (fun r => traced_ofExcept (op.apply l r)))
    | nil => exact traced_pure _
    | cons h t => exact (ih ρ h).bind (fun h => (ih ρ t).bind (fun t => traced_pure _))
    | list es => exact (traced_mapM (ih ρ) es).bind (fun vs => traced_pure _)
    | case e arms =>
      refine (ih ρ e).bind (fun v => ?_)
      cases selectArm v arms with
      | none => exact traced_throw _
      | some p => exact ih _ p.2

end LetML
