import LetML.Proofs.Clauses
import LetML.Proofs.Simulation

namespace LetML

open Clause

mutual

/-- The same value, up to synthetic names that the second has captured besides. -/
inductive Value.Like : Value → Value → Prop
  | int (n : Int64) : Value.Like (.int n) (.int n)
  | bool (b : Bool) : Value.Like (.bool b) (.bool b)
  | nil : Value.Like .nil .nil
  | cons {h h' t t' : Value} : Value.Like h h' → Value.Like t t' →
    Value.Like (.cons h t) (.cons h' t')
  | closure {x : String} {b : Expr} {ρ ρ' : Env} :
    Env.Like (· ∈ (Expr.abs x b).free) ρ ρ' → Value.Like (.closure x b ρ) (.closure x b ρ')

/-- The same bindings, up to further synthetic names of the second. None of these hides a name of
which `N` holds. -/
inductive Env.Like : (String → Prop) → Env → Env → Prop
  | empty {N : String → Prop} : Env.Like N .empty .empty
  | bind {N : String → Prop} {x : String} {v v' : Value} {ρ ρ' : Env} :
    Value.Like v v' → Env.Like (fun y => N y ∧ y ≠ x) ρ ρ' →
    Env.Like N (.bind x v ρ) (.bind x v' ρ')
  | slot {N : String → Prop} {x : String} {a : Nat} {ρ ρ' : Env} :
    Env.Like (fun y => N y ∧ y ≠ x) ρ ρ' → Env.Like N (.slot x a ρ) (.slot x a ρ')
  | extra {N : String → Prop} {x : String} {v : Value} {ρ ρ' : Env} :
    Synthetic x → ¬N x → Env.Like N ρ ρ' → Env.Like N ρ (.bind x v ρ')

end

inductive RuntimeError.Like : RuntimeError → RuntimeError → Prop
  | unbound (x : String) : Like (.unbound x) (.unbound x)
  | notFunction {v v' : Value} : v.Like v' → Like (.notFunction v) (.notFunction v')
  | noMatch {v v' : Value} : v.Like v' → Like (.noMatch v) (.noMatch v')
  | notBool {v v' : Value} : v.Like v' → Like (.notBool v) (.notBool v')
  | operands (op : BinOp) {l l' r r' : Value} : l.Like l' → r.Like r' →
    Like (.operands op l r) (.operands op l' r')
  | overflow (op : BinOp) (a b : Int64) : Like (.overflow op a b) (.overflow op a b)
  | notReady (x : String) : Like (.notReady x) (.notReady x)

inductive ResultLike {α : Type} (R : α → α → Prop) :
    Except RuntimeError α → Except RuntimeError α → Prop
  | ok {a b : α} : R a b → ResultLike R (.ok a) (.ok b)
  | error {e f : RuntimeError} : e.Like f → ResultLike R (.error e) (.error f)

structure Store.Like (store store' : Store) : Prop where
  next : store.next = store'.next
  slots : ∀ a, Option.Rel Value.Like (store.get? a) (store'.get? a)

variable {v v' : Value} {N : String → Prop} {ρ ρ' : Env} {store store' : Store}
  {x : String}

mutual

theorem Value.Like.refl : (v : Value) → v.Like v
  | .int n => .int n
  | .bool b => .bool b
  | .nil => .nil
  | .cons h t => .cons (.refl h) (.refl t)
  | .closure _ _ ρ => .closure (.refl _ ρ)

theorem Env.Like.refl (N : String → Prop) : (ρ : Env) → Env.Like N ρ ρ
  | .empty => .empty
  | .bind _ v ρ => .bind (.refl v) (.refl _ ρ)
  | .slot _ _ ρ => .slot (.refl _ ρ)

end

namespace Env.Like

theorem mono {N M : String → Prop} {ρ ρ' : Env} (h : ∀ y, M y → N y) :
    Env.Like N ρ ρ' → Env.Like M ρ ρ'
  | .empty => .empty
  | .bind hv hρ => .bind hv (hρ.mono (fun y hy => ⟨h y hy.1, hy.2⟩))
  | .slot hρ => .slot (hρ.mono (fun y hy => ⟨h y hy.1, hy.2⟩))
  | .extra hx hNx hρ => .extra hx (fun hMx => hNx (h _ hMx)) (hρ.mono h)

theorem lookup_bind {y : String} (hv : v.Like v') (h : y ≠ x →
      ResultLift Value.Like Value.Like (ρ.lookup store x) (ρ'.lookup store' x)) :
    ResultLift Value.Like Value.Like ((Env.bind y v ρ).lookup store x)
      ((Env.bind y v' ρ').lookup store' x) := by
  rw [Env.lookup, Env.lookup]
  by_cases hyx : y = x
  · rw [if_pos hyx, if_pos hyx]
    exact .ok hv
  · rw [if_neg hyx, if_neg hyx]
    exact h hyx

theorem lookup_slot {y : String} {a : Nat} (hs : store.Like store') (h : y ≠ x →
      ResultLift Value.Like Value.Like (ρ.lookup store x) (ρ'.lookup store' x)) :
    ResultLift Value.Like Value.Like ((Env.slot y a ρ).lookup store x)
      ((Env.slot y a ρ').lookup store' x) := by
  rw [Env.lookup, Env.lookup]
  by_cases hyx : y = x
  · rw [if_pos hyx, if_pos hyx]
    have ha := hs.slots a
    generalize store.get? a = u, store'.get? a = u' at ha
    cases ha with
    | none => exact .error (.notReady x)
    | some hv => exact .ok hv
  · rw [if_neg hyx, if_neg hyx]
    exact h hyx

theorem lookup_extra {y : String} (hyx : y ≠ x)
    (h : ResultLift Value.Like Value.Like (ρ.lookup store x) (ρ'.lookup store' x)) :
    ResultLift Value.Like Value.Like (ρ.lookup store x) ((Env.bind y v ρ').lookup store' x) := by
  rw [Env.lookup.eq_def store' x (.bind y v ρ')]
  simp only [if_neg hyx]
  exact h

theorem lookup {N : String → Prop} {ρ ρ' : Env} (hs : store.Like store') (hx : N x) :
    Env.Like N ρ ρ' → ResultLift Value.Like Value.Like (ρ.lookup store x) (ρ'.lookup store' x)
  | .empty => .error (.unbound x)
  | .bind hv hρ => lookup_bind hv (fun hyx => hρ.lookup hs ⟨hx, Ne.symm hyx⟩)
  | .slot hρ => lookup_slot hs (fun hyx => hρ.lookup hs ⟨hx, Ne.symm hyx⟩)
  | .extra _ hNy hρ => lookup_extra (fun hyx => hNy (hyx ▸ hx)) (hρ.lookup hs hx)

end Env.Like

namespace Store.Like

theorem refl (store : Store) : store.Like store := by
  refine ⟨rfl, fun a => ?_⟩
  cases store.get? a with
  | none => exact .none
  | some v => exact .some (.refl v)

theorem alloc (h : store.Like store') : store.alloc.Like store'.alloc where
  next := by rw [next_alloc, next_alloc, h.next]
  slots a := by
    rw [get?_alloc, get?_alloc]
    exact h.slots a

theorem fill (h : store.Like store') (a : Nat) (hv : v.Like v') :
    (store.fill a v).Like (store'.fill a v') where
  next := by rw [next_fill, next_fill, h.next]
  slots b := by
    rw [get?_fill, get?_fill, h.next]
    have hb := h.slots b
    generalize store.get? b = u, store'.get? b = u' at hb
    split
    · cases hb with
      | none => exact .some hv
      | some hw => exact .some hw
    · exact hb

end Store.Like

theorem Value.like_iff : v.Like v' ↔ Value.Layer Value.Like Env.Like v v' := by
  constructor
  · intro h
    cases h with
    | int n => exact .int n
    | bool b => exact .bool b
    | nil => exact .nil
    | cons hh ht => exact .cons hh ht
    | closure hρ => exact .closure hρ
  · intro h
    cases h with
    | int n => exact .int n
    | bool b => exact .bool b
    | nil => exact .nil
    | cons hh ht => exact .cons hh ht
    | closure hρ => exact .closure hρ

def likeness (W : Type) [Preorder W] : Simulation W where
  value _ := Value.Like
  env _ := Env.Like
  store _ := Store.Like
  value_iff := Value.like_iff
  value_mono _ h := h
  env_mono _ hM h := h.mono hM
  lookup h hs hx := h.lookup hs hx
  bind := .bind
  alloc {w store store'} h := by
    refine ⟨w, le_refl w, h.alloc, fun {w N ρ ρ' x} _ hρ => ?_, fun _ hs hv => ?_⟩
    · rw [← h.next]
      exact .slot hρ
    · rw [← h.next]
      exact hs.fill store.next hv

theorem ResultLift.like {r r' : Except RuntimeError Value}
    (h : ResultLift Value.Like Value.Like r r') : ResultLike Value.Like r r' := by
  cases h with
  | ok h => exact .ok h
  | error h =>
    cases h with
    | unbound x => exact .error (.unbound x)
    | notFunction hv => exact .error (.notFunction hv)
    | noMatch hv => exact .error (.noMatch hv)
    | notBool hv => exact .error (.notBool hv)
    | operands op hl hr => exact .error (.operands op hl hr)
    | overflow op a b => exact .error (.overflow op a b)
    | notReady x => exact .error (.notReady x)

/-- Two ways to go on that end alike, or both do not end. -/
structure EndsLike (P Q : Except RuntimeError Value → Store → Prop) : Prop where
  forth : ∀ r store, P r store → ∃ r' store', Q r' store' ∧ ResultLike Value.Like r r' ∧
    store.Like store'
  back : ∀ r' store', Q r' store' → ∃ r store, P r store ∧ ResultLike Value.Like r r' ∧
    store.Like store'

theorem endsLike_evaluates {e : Expr} (hρ : Env.Like (· ∈ e.free) ρ ρ') (store : Store) :
    EndsLike (Evaluates ρ e store) (Evaluates ρ' e store) := by
  have hs : (likeness Unit).store () store store := .refl store
  constructor
  · intro r store₁ h
    obtain ⟨_, r', store₁', -, h', hr, hs₁⟩ := (likeness Unit).evaluates_forth hρ hs h
    exact ⟨r', store₁', h', hr.like, hs₁⟩
  · intro r store₁ h
    obtain ⟨_, r', store₁', -, h', hr, hs₁⟩ := (likeness Unit).evaluates_back hρ hs h
    exact ⟨r', store₁', h', hr.like, hs₁⟩

end LetML
