import LetML.Proofs.Journal
import LetML.Proofs.Safety

namespace LetML

namespace Expr

def isAbs : Expr → Bool
  | abs _ _ => true
  | _ => false

mutual

def recValues (test : Expr → Bool) : Expr → Bool
  | lit _ | var _ | nil => true
  | abs _ b => b.recValues test
  | app f a => f.recValues test && a.recValues test
  | letIn _ v b => v.recValues test && b.recValues test
  | letRec _ v b => test v && v.recValues test && b.recValues test
  | cond c y n => c.recValues test && y.recValues test && n.recValues test
  | bin _ l r => l.recValues test && r.recValues test
  | cons h t => h.recValues test && t.recValues test
  | list es => recValuesElems test es
  | case e arms => e.recValues test && recValuesArms test arms

def recValuesElems (test : Expr → Bool) : List Expr → Bool
  | [] => true
  | e :: es => e.recValues test && recValuesElems test es

def recValuesArms (test : Expr → Bool) : List (Pattern × Expr) → Bool
  | [] => true
  | (_, e) :: arms => e.recValues test && recValuesArms test arms

end

mutual

theorem recValues_true : (e : Expr) → e.recValues (fun _ => true) = true
  | lit _ | var _ | nil => rfl
  | abs _ b => by rw [recValues, recValues_true b]
  | app f a => by rw [recValues, recValues_true f, recValues_true a, Bool.and_self]
  | letIn _ v b => by rw [recValues, recValues_true v, recValues_true b, Bool.and_self]
  | letRec _ v b => by simp only [recValues, recValues_true v, recValues_true b, Bool.and_self]
  | cond c y n => by
    simp only [recValues, recValues_true c, recValues_true y, recValues_true n, Bool.and_self]
  | bin _ l r => by rw [recValues, recValues_true l, recValues_true r, Bool.and_self]
  | cons h t => by rw [recValues, recValues_true h, recValues_true t, Bool.and_self]
  | list es => by rw [recValues, recValuesElems_true es]
  | case e arms => by rw [recValues, recValues_true e, recValuesArms_true arms, Bool.and_self]

theorem recValuesElems_true : (es : List Expr) → recValuesElems (fun _ => true) es = true
  | [] => rfl
  | e :: es => by rw [recValuesElems, recValues_true e, recValuesElems_true es, Bool.and_self]

theorem recValuesArms_true : (arms : List (Pattern × Expr)) →
    recValuesArms (fun _ => true) arms = true
  | [] => rfl
  | (_, e) :: arms => by rw [recValuesArms, recValues_true e, recValuesArms_true arms, Bool.and_self]

end

variable {test : Expr → Bool}

theorem recValues_of_mem {e : Expr} {es : List Expr} (h : recValuesElems test es = true)
    (he : e ∈ es) : e.recValues test = true := by
  induction es with
  | nil => cases he
  | cons e' es ih =>
    rw [recValuesElems, Bool.and_eq_true] at h
    obtain rfl | he := List.mem_cons.mp he
    · exact h.1
    · exact ih h.2 he

theorem recValues_of_mem_arms {p : Pattern} {b : Expr} {arms : List (Pattern × Expr)}
    (h : recValuesArms test arms = true) (hb : (p, b) ∈ arms) : b.recValues test = true := by
  induction arms with
  | nil => cases hb
  | cons arm arms ih =>
    rw [recValuesArms, Bool.and_eq_true] at h
    obtain rfl | hb := List.mem_cons.mp hb
    · exact h.1
    · exact ih h.2 hb

end Expr

mutual

/-- A value whose functions define recursive names only by values that pass a test, and whose slots
are among those of `T`. -/
def Value.Confined (test : Expr → Bool) (T : String → Nat → Prop) : Value → Prop
  | .int _ | .bool _ | .nil => True
  | .cons h t => h.Confined test T ∧ t.Confined test T
  | .closure _ b ρ => b.recValues test = true ∧ ρ.Confined test T

def Env.Confined (test : Expr → Bool) (T : String → Nat → Prop) : Env → Prop
  | .empty => True
  | .bind _ v ρ => v.Confined test T ∧ ρ.Confined test T
  | .slot x a ρ => T x a ∧ ρ.Confined test T

end

def Store.Confined (test : Expr → Bool) (T : String → Nat → Prop) (store : Store) : Prop :=
  ∀ a v, store.get? a = some v → v.Confined test T

mutual

/-- A value leads to a slot, through functions and slots that are filled. -/
inductive Value.Reaches (store : Store) (a : Nat) : Value → Prop
  | head {h t : Value} : h.Reaches store a → Value.Reaches store a (.cons h t)
  | tail {h t : Value} : t.Reaches store a → Value.Reaches store a (.cons h t)
  | closure {x : String} {b : Expr} {ρ : Env} :
    ρ.Reaches store a → Value.Reaches store a (.closure x b ρ)

inductive Env.Reaches (store : Store) (a : Nat) : Env → Prop
  | value {x : String} {v : Value} {ρ : Env} : v.Reaches store a → Env.Reaches store a (.bind x v ρ)
  | outer {x : String} {v : Value} {ρ : Env} : ρ.Reaches store a → Env.Reaches store a (.bind x v ρ)
  | here {x : String} {ρ : Env} : Env.Reaches store a (.slot x a ρ)
  | through {x : String} {b : Nat} {v : Value} {ρ : Env} :
    store.get? b = some v → v.Reaches store a → Env.Reaches store a (.slot x b ρ)
  | beyond {x : String} {b : Nat} {ρ : Env} :
    ρ.Reaches store a → Env.Reaches store a (.slot x b ρ)

end

variable {α β : Type} {test : Expr → Bool} {T T' : String → Nat → Prop} {store store' : Store}
  {v : Value} {ρ : Env} {x : String} {a : Nat}

mutual

theorem Value.Confined.mono (hT : ∀ x a, T x a → T' x a) :
    (v : Value) → v.Confined test T → v.Confined test T'
  | .int _, _ | .bool _, _ | .nil, _ => trivial
  | .cons h t, hv => ⟨.mono hT h hv.1, .mono hT t hv.2⟩
  | .closure _ _ ρ, hv => ⟨hv.1, .mono hT ρ hv.2⟩

theorem Env.Confined.mono (hT : ∀ x a, T x a → T' x a) :
    (ρ : Env) → ρ.Confined test T → ρ.Confined test T'
  | .empty, _ => trivial
  | .bind _ v ρ, hρ => ⟨.mono hT v hρ.1, .mono hT ρ hρ.2⟩
  | .slot x a ρ, hρ => ⟨hT x a hρ.1, .mono hT ρ hρ.2⟩

end

theorem Store.Confined.mono (hT : ∀ x a, T x a → T' x a) (h : store.Confined test T) :
    store.Confined test T' := fun a v hv => .mono hT v (h a v hv)

mutual

theorem Value.Confined.of_reaches (hs : store.Confined test T) {v : Value} :
    v.Confined test T → v.Reaches store a → ∃ x, T x a
  | hv, .head h => Value.Confined.of_reaches hs hv.1 h
  | hv, .tail h => Value.Confined.of_reaches hs hv.2 h
  | hv, .closure h => Env.Confined.of_reaches hs hv.2 h

theorem Env.Confined.of_reaches (hs : store.Confined test T) {ρ : Env} :
    ρ.Confined test T → ρ.Reaches store a → ∃ x, T x a
  | hρ, .value h => Value.Confined.of_reaches hs hρ.1 h
  | hρ, .outer h => Env.Confined.of_reaches hs hρ.2 h
  | hρ, .here => ⟨_, hρ.1⟩
  | _, .through hv h => Value.Confined.of_reaches hs (hs _ _ hv) h
  | hρ, .beyond h => Env.Confined.of_reaches hs hρ.2 h

end

namespace Env.Confined

theorem find? : (ρ : Env) → ρ.Confined test T →
    (∀ v, ρ.find? x = some (.value v) → v.Confined test T) ∧
      ∀ a, ρ.find? x = some (.slot a) → T x a
  | .empty, _ => ⟨fun _ h => (by cases h), fun _ h => (by cases h)⟩
  | .bind y w ρ, hρ => by
    rw [Env.find?]
    split
    · exact ⟨fun v h => (by cases h; exact hρ.1), fun _ h => (by cases h)⟩
    · exact find? ρ hρ.2
  | .slot y b ρ, hρ => by
    rw [Env.find?]
    split
    next hyx =>
      subst hyx
      exact ⟨fun _ h => (by cases h), fun a h => (by cases h; exact hρ.1)⟩
    next => exact find? ρ hρ.2

theorem bindAll {bs : List (String × Value)} (h : ρ.Confined test T)
    (hbs : ∀ b ∈ bs, b.2.Confined test T) : (ρ.bindAll bs).Confined test T := by
  induction bs generalizing ρ with
  | nil => exact h
  | cons b bs ih => exact ih ⟨hbs b (by simp), h⟩ (fun c hc => hbs c (by simp [hc]))

end Env.Confined

namespace Value.Confined

theorem ofLit (l : Lit) : (Value.ofLit l).Confined test T := by
  cases l <;> trivial

theorem ofList {vs : List Value} (h : ∀ v ∈ vs, v.Confined test T) :
    (Value.ofList vs).Confined test T := by
  induction vs with
  | nil => trivial
  | cons v vs ih => exact ⟨h v (by simp), ih (fun w hw => h w (by simp [hw]))⟩

theorem match? {p : Pattern} {bs : List (String × Value)} (h : v.Confined test T)
    (hm : p.match? v = some bs) : ∀ b ∈ bs, b.2.Confined test T := by
  obtain ⟨f, rfl, rfl⟩ := Pattern.match?_eq_some_iff.mp hm
  clear hm
  induction f with
  | var x v =>
    intro b hb
    rw [List.mem_singleton.mp hb]
    exact h
  | wild v | lit l | nil => exact fun b hb => (List.not_mem_nil hb).elim
  | cons f g ihf ihg =>
    intro b hb
    obtain hb | hb := List.mem_append.mp hb
    · exact ihf h.1 b hb
    · exact ihg h.2 b hb

end Value.Confined

theorem BinOp.checked_confined (op : BinOp) (a b : Int64) (result : Int) :
    (∃ v, op.checked a b result = .ok v ∧ ∀ test T, v.Confined test T) ∨
      ∃ err, op.checked a b result = .error err ∧ ∀ x, err ≠ .notReady x := by
  rw [checked]
  split
  · exact Or.inl ⟨_, rfl, fun _ _ => trivial⟩
  · exact Or.inr ⟨_, rfl, by simp⟩

theorem BinOp.apply_confined (op : BinOp) (l r : Value) :
    (∃ v, op.apply l r = .ok v ∧ ∀ test T, v.Confined test T) ∨
      ∃ err, op.apply l r = .error err ∧ ∀ x, err ≠ .notReady x := by
  cases l with
  | int a =>
    cases r with
    | int b =>
      cases op with
      | add | sub | mul => exact checked_confined ..
      | and | or => exact Or.inr ⟨_, rfl, by simp⟩
      | _ => exact Or.inl ⟨_, rfl, fun _ _ => trivial⟩
    | _ => cases op <;> exact Or.inr ⟨_, rfl, by simp⟩
  | bool a =>
    cases r with
    | bool b =>
      cases op with
      | and | or => exact Or.inl ⟨_, rfl, fun _ _ => trivial⟩
      | _ => exact Or.inr ⟨_, rfl, by simp⟩
    | _ => cases op <;> exact Or.inr ⟨_, rfl, by simp⟩
  | _ => cases op <;> exact Or.inr ⟨_, rfl, by simp⟩

/-- The slots there were, and those that have been made since. -/
def Present (old : String → Nat → Prop) (events : List SlotEvent) (x : String) (a : Nat) : Prop :=
  old x a ∨ .made x a ∈ events

/-- Every slot has been filled after it was made. -/
def Prompt (events : List SlotEvent) : Prop := ∀ x a, .made x a ∈ events → .filled a ∈ events

variable {old : String → Nat → Prop} {events events' : List SlotEvent} {j j' : Journal}

theorem Present.mono (h : events <:+ events') (x : String) (a : Nat) :
    Present old events x a → Present old events' x a :=
  Or.imp_right fun hmade => h.subset hmade

/-- Values are confined to the slots that have been made, and a name is missed only at one of them.
If recursive names are functions, each slot is filled before anything else happens. -/
structure Kept (test : Expr → Bool) (old : String → Nat → Prop) (P : List SlotEvent → α → Prop)
    (j : Journal) (r : Except RuntimeError α) (j' : Journal) : Prop where
  events : j.events <:+ j'.events
  store : j'.store.Confined test (Present old j'.events)
  result : ∀ a, r = .ok a → P j'.events a
  missed : ∀ x, r = .error (.notReady x) → ∃ a events, j'.events = .missed x a :: events ∧
    Present old events x a ∧ j'.store.get? a = none
  prompt : (∀ v, test v = true → v.isAbs = true) → Prompt j.events → Prompt j'.events

def JournalM.Keeps (test : Expr → Bool) (old : String → Nat → Prop) (start : List SlotEvent)
    (P : List SlotEvent → α → Prop) (m : JournalM α) : Prop :=
  ∀ j r j', start <:+ j.events → j.store.Confined test (Present old j.events) →
    m j = some (r, j') → Kept test old P j r j'

namespace JournalM

variable {P : List SlotEvent → α → Prop} {Q : List SlotEvent → β → Prop}

theorem keeps_pure {a : α} (h : ∀ events', events <:+ events' → P events' a) :
    Keeps test old events P (pure a) := by
  intro j r j' hstart hstore hrun
  cases hrun
  refine ⟨List.suffix_rfl, hstore, fun b hb => ?_, fun x hx => (by cases hx), fun _ h => h⟩
  cases hb
  exact h _ hstart

theorem keeps_throw {err : RuntimeError} (h : ∀ x, err ≠ .notReady x) :
    Keeps test old events P (throw err) := by
  intro j r j' hstart hstore hrun
  cases hrun
  refine ⟨List.suffix_rfl, hstore, fun b hb => (by cases hb), fun x hx => ?_, fun _ h => h⟩
  cases hx
  exact (h x rfl).elim

theorem Keeps.bind {m : JournalM α} {f : α → JournalM β} (hm : Keeps test old events P m)
    (hf : ∀ a events', events <:+ events' → P events' a → Keeps test old events' Q (f a)) :
    Keeps test old events Q (m >>= f) := by
  intro j r j' hstart hstore hrun
  obtain ⟨a, j₁, hrun₁, hrun₂⟩ | ⟨err, hrun₁, rfl⟩ := bind_cases hrun
  · have h₁ := hm j _ j₁ hstart hstore hrun₁
    have h₂ := hf a j₁.events (hstart.trans h₁.events) (h₁.result a rfl) j₁ r j' List.suffix_rfl
      h₁.store hrun₂
    exact ⟨h₁.events.trans h₂.events, h₂.store, h₂.result, h₂.missed,
      fun htest h => h₂.prompt htest (h₁.prompt htest h)⟩
  · have h₁ := hm j _ j' hstart hstore hrun₁
    exact ⟨h₁.events, h₁.store, fun b hb => (by cases hb), fun x hx => h₁.missed x (by cases hx; rfl),
      h₁.prompt⟩

theorem Keeps.mono {m : JournalM α} (h : Keeps test old events P m) (hle : events <:+ events') :
    Keeps test old events' P m := fun j r j' hstart => h j r j' (hle.trans hstart)

theorem Keeps.mapM {f : Expr → JournalM Value} {es : List Expr}
    (hf : ∀ e ∈ es, Keeps test old events
      (fun events v => v.Confined test (Present old events)) (f e)) :
    Keeps test old events (fun events vs => ∀ v ∈ vs, v.Confined test (Present old events))
      (es.mapM f) := by
  induction es generalizing events with
  | nil => exact keeps_pure (fun _ _ => by simp)
  | cons e es ih =>
    rw [List.mapM_cons]
    refine (hf e (by simp)).bind (fun v events₁ hle₁ hv => ?_)
    refine (ih (fun e he => (hf e (by simp [he])).mono hle₁)).bind (fun vs events₂ hle₂ hvs => ?_)
    refine keeps_pure (fun events₃ hle₃ w hw => ?_)
    obtain rfl | hw := List.mem_cons.mp hw
    · exact .mono (Present.mono (hle₂.trans hle₃)) _ hv
    · exact .mono (Present.mono hle₃) w (hvs w hw)

end JournalM

open JournalM

theorem record_of_isAbs {n : Nat} {e : Expr} {r : Except RuntimeError Value} (he : e.isAbs = true)
    (h : record n ρ e j = some (r, j')) : (∃ v, r = .ok v) ∧ j' = j := by
  cases e with
  | abs x b =>
    cases n with
    | zero => cases h
    | succ n =>
      cases h
      exact ⟨⟨_, rfl⟩, rfl⟩
  | _ => cases he

theorem Store.Confined.fill (h : store.Confined test T) (hv : v.Confined test T) :
    (store.fill a v).Confined test T := by
  intro b w hw
  rw [Store.get?_fill] at hw
  cases hold : store.get? b with
  | none =>
    rw [hold] at hw
    split at hw
    · cases hw
      exact hv
    · cases hw
  | some u =>
    rw [hold] at hw
    have hu := h b u hold
    split at hw <;> cases hw <;> exact hu

theorem Keeps.letRec {n : Nat} {v b : Expr}
    (htest : test v = true)
    (hv : ∀ a events', events <:+ events' → .made x a ∈ events' → Keeps test old events'
      (fun events v => v.Confined test (Present old events)) (record n (.slot x a ρ) v))
    (hb : ∀ a events', events <:+ events' → .made x a ∈ events' → Keeps test old events'
      (fun events v => v.Confined test (Present old events)) (record n (.slot x a ρ) b)) :
    Keeps test old events (fun events v => v.Confined test (Present old events))
      (record (n + 1) ρ (.letRec x v b)) := by
  intro j r j' hstart hstore h
  have hmade : events <:+ .made x j.store.next :: j.events := hstart.trans (List.suffix_cons ..)
  have hstore₀ : j.store.alloc.Confined test
      (Present old (.made x j.store.next :: j.events)) := by
    intro a w hw
    rw [Store.get?_alloc] at hw
    exact .mono (Present.mono (List.suffix_cons ..)) w (hstore a w hw)
  obtain ⟨w, j₁, hrun₁, hrun₂⟩ | ⟨err, hrun₁, rfl⟩ := record_letRec_cases h
  · have h₁ := hv _ _ hmade List.mem_cons_self _ _ _ List.suffix_rfl hstore₀ hrun₁
    have hw := h₁.result w rfl
    have hle : j₁.events <:+ .filled j.store.next :: j₁.events := List.suffix_cons ..
    have hstore₁ := (h₁.store.fill (a := j.store.next) hw).mono (Present.mono hle)
    have h₂ := hb _ _ (hmade.trans (h₁.events.trans hle))
      (List.mem_cons_of_mem _ (h₁.events.subset List.mem_cons_self)) _ _ _ List.suffix_rfl hstore₁
      hrun₂
    refine ⟨((List.suffix_cons ..).trans h₁.events).trans (hle.trans h₂.events), h₂.store, h₂.result,
      h₂.missed, fun habs hprompt => h₂.prompt habs (fun y a ha => ?_)⟩
    -- a function is a value at once, so that its slot is filled right after it is made
    obtain ⟨-, rfl⟩ := record_of_isAbs (habs v htest) hrun₁
    simp only [List.mem_cons, reduceCtorEq, false_or, SlotEvent.made.injEq] at ha
    obtain ⟨-, rfl⟩ | ha := ha
    · exact List.mem_cons_self
    · exact List.mem_cons_of_mem _ (List.mem_cons_of_mem _ (hprompt y a ha))
  · have h₁ := hv _ _ hmade List.mem_cons_self _ _ _ List.suffix_rfl hstore₀ hrun₁
    refine ⟨(List.suffix_cons ..).trans h₁.events, h₁.store, fun _ h => (by cases h), h₁.missed,
      fun habs => ?_⟩
    obtain ⟨⟨_, hok⟩, -⟩ := record_of_isAbs (habs v htest) hrun₁
    cases hok

theorem keeps_var (n : Nat) (hρ : ρ.Confined test (Present old events)) :
    Keeps test old events (fun events v => v.Confined test (Present old events))
      (record (n + 1) ρ (.var x)) := by
  intro j r j' hstart hstore h
  rw [record_var] at h
  have hfind := Env.Confined.find? (x := x) ρ (.mono (Present.mono hstart) ρ hρ)
  obtain ⟨v, rfl, rfl, hv⟩ | ⟨rfl, rfl⟩ | ⟨a, rfl, rfl, ha, hempty⟩ :=
    Journal.lookup_cases (Option.some.inj h)
  · refine keeps_pure (fun _ hle => .mono (Present.mono hle) v ?_) _ _ _ List.suffix_rfl hstore rfl
    obtain hv | ⟨a, -, hv⟩ := hv
    · exact hfind.1 v hv
    · exact hstore a v hv
  · exact keeps_throw (by simp) _ _ _ hstart hstore rfl
  · have hle : j.events <:+ .missed x a :: j.events := List.suffix_cons ..
    refine ⟨hle, hstore.mono (Present.mono hle), fun _ h => (by cases h), fun y hy => ?_,
      fun _ hprompt y b hb => ?_⟩
    · cases hy
      exact ⟨a, j.events, rfl, hfind.2 a ha, hempty⟩
    · simp only [List.mem_cons, reduceCtorEq, false_or] at hb ⊢
      exact hprompt y b hb

theorem keeps_record (n : Nat) : ∀ {ρ : Env} {e : Expr} {events : List SlotEvent},
    e.recValues test = true → ρ.Confined test (Present old events) →
    Keeps test old events (fun events v => v.Confined test (Present old events))
      (record n ρ e) := by
  induction n with
  | zero =>
    intro ρ e events _ _ j r j' _ _ h
    cases h
  | succ n ih =>
    intro ρ e events he hρ
    have hlater : ∀ {events'}, events <:+ events' → ρ.Confined test (Present old events') :=
      fun hle => .mono (Present.mono hle) ρ hρ
    cases e with
    | lit l => exact keeps_pure (fun _ _ => .ofLit l)
    | var x => exact keeps_var n hρ
    | abs x b => exact keeps_pure (fun _ hle => ⟨he, hlater hle⟩)
    | app f a =>
      rw [Expr.recValues, Bool.and_eq_true] at he
      refine (ih he.1 hρ).bind (fun f events₁ hle₁ hf => ?_)
      refine (ih he.2 (hlater hle₁)).bind (fun a events₂ hle₂ ha => ?_)
      cases f with
      | closure x b ρ' => exact ih hf.1 ⟨ha, .mono (Present.mono hle₂) ρ' hf.2⟩
      | _ => exact keeps_throw (by simp)
    | letIn x v b =>
      rw [Expr.recValues, Bool.and_eq_true] at he
      exact (ih he.1 hρ).bind (fun v events₁ hle₁ hv => ih he.2 ⟨hv, hlater hle₁⟩)
    | letRec x v b =>
      simp only [Expr.recValues, Bool.and_eq_true] at he
      exact Keeps.letRec he.1.1 (fun a events₁ hle₁ ha => ih he.1.2 ⟨Or.inr ha, hlater hle₁⟩)
        (fun a events₁ hle₁ ha => ih he.2 ⟨Or.inr ha, hlater hle₁⟩)
    | cond c t e =>
      simp only [Expr.recValues, Bool.and_eq_true] at he
      refine (ih he.1.1 hρ).bind (fun v events₁ hle₁ hv => ?_)
      cases v with
      | bool b => cases b with
        | true => exact ih he.1.2 (hlater hle₁)
        | false => exact ih he.2 (hlater hle₁)
      | _ => exact keeps_throw (by simp)
    | bin op l r =>
      rw [Expr.recValues, Bool.and_eq_true] at he
      refine (ih he.1 hρ).bind (fun l events₁ hle₁ hl => ?_)
      refine (ih he.2 (hlater hle₁)).bind (fun r events₂ hle₂ hr => ?_)
      obtain ⟨v, hv, hconfined⟩ | ⟨err, herr, hne⟩ := op.apply_confined l r
      · rw [hv]
        exact keeps_pure (fun _ _ => hconfined _ _)
      · rw [herr]
        exact keeps_throw hne
    | nil => exact keeps_pure (fun _ _ => trivial)
    | cons h t =>
      rw [Expr.recValues, Bool.and_eq_true] at he
      refine (ih he.1 hρ).bind (fun h events₁ hle₁ hh => ?_)
      refine (ih he.2 (hlater hle₁)).bind (fun t events₂ hle₂ ht => ?_)
      exact keeps_pure (fun _ hle₃ => ⟨.mono (Present.mono (hle₂.trans hle₃)) h hh,
        .mono (Present.mono hle₃) t ht⟩)
    | list es =>
      rw [Expr.recValues] at he
      refine (Keeps.mapM (fun e hmem => ih (Expr.recValues_of_mem he hmem) hρ)).bind
        (fun vs events₁ hle₁ hvs => keeps_pure (fun _ hle₂ => .ofList (fun v hv => ?_)))
      exact .mono (Present.mono hle₂) v (hvs v hv)
    | case e arms =>
      rw [Expr.recValues, Bool.and_eq_true] at he
      refine (ih he.1 hρ).bind (fun v events₁ hle₁ hv => ?_)
      cases hsel : selectArm v arms with
      | none => exact keeps_throw (by simp)
      | some arm =>
        obtain ⟨p, hp, hmatch⟩ := exists_of_selectArm hsel
        exact ih (Expr.recValues_of_mem_arms he.2 hp) ((hlater hle₁).bindAll (hv.match? hmatch))

end LetML
