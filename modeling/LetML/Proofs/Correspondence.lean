import LetML.Proofs.Simulation
import LetML.Proofs.Slots

namespace LetML

/-- What is known of two stores: slots that correspond to each other, and values that slots of the
second hold. -/
structure Link where
  slots : Nat → Nat → Prop
  held : Nat → Value → Prop

instance : Preorder Link where
  le L L' := (∀ a b, L.slots a b → L'.slots a b) ∧ ∀ a v, L.held a v → L'.held a v
  le_refl _ := ⟨fun _ _ h => h, fun _ _ h => h⟩
  le_trans _ _ _ h h' := ⟨fun a b hab => h'.1 a b (h.1 a b hab), fun a v hav => h'.2 a v (h.2 a v hav)⟩

mutual

/-- The same value, up to slots that correspond to each other. -/
inductive Value.Same (L : Link) : Value → Value → Prop
  | int (n : Int64) : Value.Same L (.int n) (.int n)
  | bool (b : Bool) : Value.Same L (.bool b) (.bool b)
  | nil : Value.Same L .nil .nil
  | cons {h h' t t' : Value} : Value.Same L h h' → Value.Same L t t' →
    Value.Same L (.cons h t) (.cons h' t')
  | closure {x : String} {b : Expr} {ρ ρ' : Env} :
    (∀ y ∈ (Expr.abs x b).free, Binding.Same L (ρ.find? y) (ρ'.find? y)) →
    Value.Same L (.closure x b ρ) (.closure x b ρ')

/-- The same binding of a name. A value may also stand for a slot that is known to hold it. -/
inductive Binding.Same (L : Link) : Option Binding → Option Binding → Prop
  | none : Binding.Same L none none
  | value {v v' : Value} : Value.Same L v v' → Binding.Same L (some (.value v)) (some (.value v'))
  | slot {a b : Nat} : L.slots a b → Binding.Same L (some (.slot a)) (some (.slot b))
  | held {b : Nat} {v v' : Value} : L.held b v' → Value.Same L v v' →
    Binding.Same L (some (.value v)) (some (.slot b))

end

/-- The same bindings of the names of which `N` holds. -/
def Env.Same (L : Link) (N : String → Prop) (ρ ρ' : Env) : Prop :=
  ∀ y, N y → Binding.Same L (ρ.find? y) (ρ'.find? y)

/-- The same values in slots that correspond to each other. As long as it is empty, a slot corresponds
to one slot only, so that both are filled at once. -/
structure Store.Same (L : Link) (store store' : Store) : Prop where
  made : ∀ {a b}, L.slots a b → a < store.next ∧ b < store'.next
  slots : ∀ {a b}, L.slots a b → Option.Rel (Value.Same L) (store.get? a) (store'.get? b)
  left : ∀ {a b b'}, L.slots a b → L.slots a b' → store.get? a = none → b = b'
  right : ∀ {a a' b}, L.slots a b → L.slots a' b → store.get? a = none → a = a'
  held : ∀ {b v}, L.held b v → store'.get? b = some v

variable {L L' : Link} {v v' : Value} {ρ ρ' : Env} {N : String → Prop} {store store' : Store}
  {x : String}

mutual

theorem Value.Same.mono (hL : L ≤ L') {v v' : Value} : v.Same L v' → v.Same L' v'
  | .int n => .int n
  | .bool b => .bool b
  | .nil => .nil
  | .cons hh ht => .cons (hh.mono hL) (ht.mono hL)
  | .closure hρ => .closure (fun y hy => (hρ y hy).mono hL)

theorem Binding.Same.mono (hL : L ≤ L') {b b' : Option Binding} :
    Binding.Same L b b' → Binding.Same L' b b'
  | .none => .none
  | .value hv => .value (hv.mono hL)
  | .slot hab => .slot (hL.1 _ _ hab)
  | .held hb hv => .held (hL.2 _ _ hb) (hv.mono hL)

end

theorem Value.same_iff : v.Same L v' ↔ Value.Layer (Value.Same L) (Env.Same L) v v' := by
  constructor
  · intro h
    cases h with
    | int n => exact .int n
    | bool b => exact .bool b
    | nil => exact .nil
    | cons hh ht => exact .cons hh ht
    | closure hρ => exact .closure hρ
  · intro h
    cases h with
    | int n => exact .int n
    | bool b => exact .bool b
    | nil => exact .nil
    | cons hh ht => exact .cons hh ht
    | closure hρ => exact .closure hρ

mutual

theorem Value.Same.refl {test : Expr → Bool} {T : String → Nat → Prop}
    (hL : ∀ x a, T x a → L.slots a a) : (v : Value) → v.Confined test T → v.Same L v
  | .int n, _ => .int n
  | .bool b, _ => .bool b
  | .nil, _ => .nil
  | .cons h t, hv => .cons (.refl hL h hv.1) (.refl hL t hv.2)
  | .closure _ _ ρ, hv => .closure (fun y _ => Env.Same.refl hL ρ hv.2 y)

theorem Env.Same.refl {test : Expr → Bool} {T : String → Nat → Prop}
    (hL : ∀ x a, T x a → L.slots a a) :
    (ρ : Env) → ρ.Confined test T → ∀ y, Binding.Same L (ρ.find? y) (ρ.find? y)
  | .empty, _, _ => .none
  | .bind x v ρ, hρ, y => by
    rw [Env.find?]
    split
    · exact .value (.refl hL v hρ.1)
    · exact Env.Same.refl hL ρ hρ.2 y
  | .slot x a ρ, hρ, y => by
    rw [Env.find?]
    split
    · exact .slot (hL x a hρ.1)
    · exact Env.Same.refl hL ρ hρ.2 y

end

theorem Binding.Same.read {b b' : Option Binding} (h : Binding.Same L b b')
    (hs : store.Same L store') :
    ResultLift (Value.Same L) (Value.Same L) (Binding.read store x b) (Binding.read store' x b') := by
  cases h with
  | none => exact .error (.unbound x)
  | value hv => exact .ok hv
  | @slot a b hab =>
    have hslots := hs.slots hab
    rw [Binding.read, Binding.read]
    generalize store.get? a = u, store'.get? b = u' at hslots
    cases hslots with
    | none => exact .error (.notReady x)
    | some hv => exact .ok hv
  | held hb hv =>
    rw [Binding.read, Binding.read, hs.held hb]
    exact .ok hv

namespace Env.Same

theorem bind (hv : v.Same L v') (h : Env.Same L (fun y => N y ∧ y ≠ x) ρ ρ') :
    Env.Same L N (.bind x v ρ) (.bind x v' ρ') := by
  intro y hy
  rw [find?, find?]
  split
  · exact .value hv
  next hxy => exact h y ⟨hy, Ne.symm hxy⟩

theorem slot {a b : Nat} (hab : L.slots a b) (h : Env.Same L (fun y => N y ∧ y ≠ x) ρ ρ') :
    Env.Same L N (.slot x a ρ) (.slot x b ρ') := by
  intro y hy
  rw [find?, find?]
  split
  · exact .slot hab
  next hxy => exact h y ⟨hy, Ne.symm hxy⟩

theorem held {b : Nat} (hb : L.held b v') (hv : v.Same L v')
    (h : Env.Same L (fun y => N y ∧ y ≠ x) ρ ρ') : Env.Same L N (.bind x v ρ) (.slot x b ρ') := by
  intro y hy
  rw [find?, find?]
  split
  · exact .held hb hv
  next hxy => exact h y ⟨hy, Ne.symm hxy⟩

end Env.Same

def Link.add (L : Link) (a b : Nat) : Link where
  slots a' b' := L.slots a' b' ∨ (a' = a ∧ b' = b)
  held := L.held

def Link.know (L : Link) (b : Nat) (v : Value) : Link where
  slots := L.slots
  held b' v' := L.held b' v' ∨ (b' = b ∧ v' = v)

theorem Link.le_add (L : Link) (a b : Nat) : L ≤ L.add a b := ⟨fun _ _ => Or.inl, fun _ _ h => h⟩

theorem Link.le_know (L : Link) (b : Nat) (v : Value) : L ≤ L.know b v :=
  ⟨fun _ _ h => h, fun _ _ => Or.inl⟩

namespace Store.Same

theorem mono_slots (h : store.Same L store') (hL : L ≤ L') {a b : Nat} (hab : L.slots a b) :
    Option.Rel (Value.Same L') (store.get? a) (store'.get? b) := by
  have hrel := h.slots hab
  generalize store.get? a = u, store'.get? b = u' at hrel
  cases hrel with
  | none => exact .none
  | some hv => exact .some (hv.mono hL)

theorem alloc (h : store.Same L store') :
    store.alloc.Same (L.add store.next store'.next) store'.alloc := by
  have hold : ∀ {a b}, L.slots a b → a ≠ store.next ∧ b ≠ store'.next := fun hab =>
    ⟨Nat.ne_of_lt (h.made hab).1, Nat.ne_of_lt (h.made hab).2⟩
  refine ⟨fun hab => ?_, fun hab => ?_, fun hab hab' hnone => ?_, fun hab hab' hnone => ?_,
    fun hb => ?_⟩
  · rw [next_alloc, next_alloc]
    obtain hab | ⟨rfl, rfl⟩ := hab
    · have := h.made hab
      omega
    · omega
  · rw [get?_alloc, get?_alloc]
    obtain hab | ⟨rfl, rfl⟩ := hab
    · exact h.mono_slots (L.le_add ..) hab
    · rw [get?_next, get?_next]
      exact .none
  · rw [get?_alloc] at hnone
    obtain hab | ⟨ha, hb⟩ := hab <;> obtain hab' | ⟨ha', hb'⟩ := hab'
    · exact h.left hab hab' hnone
    · exact absurd ha' (hold hab).1
    · exact absurd ha (hold hab').1
    · rw [hb, hb']
  · rw [get?_alloc] at hnone
    obtain hab | ⟨ha, hb⟩ := hab <;> obtain hab' | ⟨ha', hb'⟩ := hab'
    · exact h.right hab hab' hnone
    · exact absurd hb' (hold hab).2
    · exact absurd hb (hold hab').2
    · rw [ha, ha']
  · rw [get?_alloc]
    exact h.held hb

theorem fill {a b : Nat} (h : store.Same L store') (hab : L.slots a b) (hv : v.Same L v') :
    (store.fill a v).Same L (store'.fill b v') := by
  have hnone : ∀ {c}, (store.fill a v).get? c = none → store.get? c = none := by
    intro c hc
    cases hget : store.get? c with
    | none => rfl
    | some u => cases hc.symm.trans (get?_fill_of_some hget)
  refine ⟨fun hcd => ?_, fun {c d} hcd => ?_, fun hcd hcd' hc => h.left hcd hcd' (hnone hc),
    fun hcd hcd' hc => h.right hcd hcd' (hnone hc), fun hb => get?_fill_of_some (h.held hb)⟩
  · rw [next_fill, next_fill]
    exact h.made hcd
  -- slots that hold values keep them; empty ones are the pair that is filled, or none of it is
  · have hrel := h.slots hcd
    cases hc : store.get? c with
    | some u =>
      rw [hc] at hrel
      generalize hd : store'.get? d = u' at hrel
      cases hrel with
      | some hu =>
        rw [get?_fill_of_some hc, get?_fill_of_some hd]
        exact .some hu
    | none =>
      rw [hc] at hrel
      generalize hd : store'.get? d = u' at hrel
      cases hrel
      by_cases hac : a = c
      · subst hac
        obtain rfl := h.left hab hcd hc
        rw [get?_fill, get?_fill, if_pos ⟨rfl, (h.made hab).1⟩, if_pos ⟨rfl, (h.made hab).2⟩, hc, hd]
        exact .some hv
      · have hbd : b ≠ d := by
          rintro rfl
          exact hac (h.right hcd hab hc).symm
        rw [get?_fill, get?_fill, if_neg (fun h => hac h.1), if_neg (fun h => hbd h.1), hc, hd]
        exact .none

theorem know {b : Nat} (h : store.Same L store') (hb : store'.get? b = some v) :
    store.Same (L.know b v) store' := by
  refine ⟨h.made, h.mono_slots (L.le_know b v), h.left, h.right, fun hd => ?_⟩
  obtain hd | ⟨rfl, rfl⟩ := hd
  · exact h.held hd
  · exact hb

end Store.Same

def sameness : Simulation Link where
  value := Value.Same
  env := Env.Same
  store := Store.Same
  value_iff := Value.same_iff
  value_mono hL h := h.mono hL
  env_mono hL hM h y hy := (h y (hM y hy)).mono hL
  lookup {L N ρ ρ' σ σ' x} h hs hx := by
    rw [Env.lookup_eq, Env.lookup_eq]
    exact (h x hx).read hs
  bind := Env.Same.bind
  alloc {L store store'} h := by
    refine ⟨_, L.le_add store.next store'.next, h.alloc, fun hL hρ => ?_, fun hL hs hv => ?_⟩
    · exact .slot (hL.1 _ _ (Or.inr ⟨rfl, rfl⟩)) hρ
    · exact hs.fill (hL.1 _ _ (Or.inr ⟨rfl, rfl⟩)) hv

theorem Value.Same.text_eq {v v' : Value} :
    v.Same L v' → v.text = v'.text ∧ v.restText = v'.restText
  | .int _ | .bool _ | .nil | .closure _ => ⟨rfl, rfl⟩
  | .cons hh ht => by
    simp only [Value.text, Value.restText, hh.text_eq.1, ht.text_eq.2, and_self]

end LetML
