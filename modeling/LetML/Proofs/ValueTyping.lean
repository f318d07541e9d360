import LetML.Proofs.Evaluation
import LetML.Proofs.Filling
import LetML.Proofs.Typing
import Mathlib.Data.List.Forall2

namespace LetML

abbrev Layout := Nat → Ty → Prop

def Layout.add (S : Layout) (a : Nat) (t : Ty) : Layout := fun b u => S b u ∨ b = a ∧ u = t

mutual

/-- The types of a value. A function has the types that its body has where the names it captured
have types. -/
inductive Value.HasType (S : Layout) : Value → Ty → Prop
  | int (n : Int64) : Value.HasType S (.int n) .int
  | bool (b : Bool) : Value.HasType S (.bool b) .bool
  | nil (a : Ty) : Value.HasType S .nil (.list a)
  | cons {h t : Value} {a : Ty} :
    Value.HasType S h a → Value.HasType S t (.list a) → Value.HasType S (.cons h t) (.list a)
  | closure {x : String} {b : Expr} {ρ : Env} {Γ : TypeEnv} {a t : Ty} :
    Env.HasTypes S ρ Γ → Typing (Γ.insert x (.mono a)) b t →
    Value.HasType S (.closure x b ρ) (.arrow a t)

/-- Each name of `Γ` is bound to a value of every type of its scheme, or to a slot for one. -/
inductive Env.HasTypes (S : Layout) : Env → TypeEnv → Prop
  | empty {Γ : TypeEnv} : (∀ x, Γ.get? x = none) → Env.HasTypes S .empty Γ
  | bind {x : String} {v : Value} {ρ : Env} {Γ : TypeEnv} :
    (∀ σ t, Γ.get? x = some σ → σ.Instance t → Value.HasType S v t) →
    Env.HasTypes S ρ (Γ.erase x) → Env.HasTypes S (.bind x v ρ) Γ
  | slot {x : String} {a : Nat} {ρ : Env} {Γ : TypeEnv} :
    (∀ σ t, Γ.get? x = some σ → σ.Instance t → S a t) →
    Env.HasTypes S ρ (Γ.erase x) → Env.HasTypes S (.slot x a ρ) Γ

end

/-- Every slot that has types is filled, with a value of these types. -/
def Store.Supports (store : Store) (S : Layout) : Prop :=
  ∀ a t, S a t → ∃ v, store.get? a = some v ∧ v.HasType S t

def Value.OfType (store : Store) (v : Value) (t : Ty) : Prop :=
  ∃ S, store.Supports S ∧ v.HasType S t

def Env.Provides (store : Store) (ρ : Env) (Γ : TypeEnv) : Prop := ∀ x σ, Γ.get? x = some σ →
  ∃ v, ρ.lookup store x = .ok v ∧ ∀ t, σ.Instance t → v.OfType store t

variable {S S' : Layout} {v : Value} {t : Ty} {ρ ρ' : Env} {Γ Γ' : TypeEnv} {x : String} {σ : Scheme}
  {store store' : Store}

mutual

theorem Value.HasType.mono (hS : ∀ a t, S a t → S' a t) {v : Value} {t : Ty} :
    v.HasType S t → v.HasType S' t
  | .int n => .int n
  | .bool b => .bool b
  | .nil a => .nil a
  | .cons hh ht => .cons (hh.mono hS) (ht.mono hS)
  | .closure hρ hb => .closure (hρ.mono hS) hb

theorem Env.HasTypes.mono (hS : ∀ a t, S a t → S' a t) {ρ : Env} {Γ : TypeEnv} :
    ρ.HasTypes S Γ → ρ.HasTypes S' Γ
  | .empty hΓ => .empty hΓ
  | .bind hv hρ => .bind (fun σ t hx ht => (hv σ t hx ht).mono hS) (hρ.mono hS)
  | .slot ha hρ => .slot (fun σ t hx ht => hS _ _ (ha σ t hx ht)) (hρ.mono hS)

end

def TypeEnv.Within (Γ' Γ : TypeEnv) : Prop := ∀ x σ, Γ'.get? x = some σ → Γ.get? x = some σ

theorem TypeEnv.Within.erase (h : Γ'.Within Γ) (x : String) :
    TypeEnv.Within (Γ'.erase x) (Γ.erase x) := by
  intro y σ hy
  obtain ⟨hyx, hy⟩ := Table.get?_erase_eq_some_iff.mp hy
  exact Table.get?_erase_eq_some_iff.mpr ⟨hyx, h y σ hy⟩

theorem TypeEnv.within_erase_insert (Γ : TypeEnv) (x : String) (σ : Scheme) :
    TypeEnv.Within ((Γ.insert x σ).erase x) Γ := by
  intro y ς hy
  obtain ⟨hyx, hy⟩ := Table.get?_erase_eq_some_iff.mp hy
  simpa [hyx] using hy

namespace Env.HasTypes

theorem weaken {ρ : Env} {Γ Γ' : TypeEnv} : ρ.HasTypes S Γ → Γ'.Within Γ → ρ.HasTypes S Γ'
  | .empty hΓ, h => .empty (fun x => Option.eq_none_iff_forall_ne_some.mpr (fun σ hx => by
      have := h x σ hx
      rw [hΓ x] at this
      cases this))
  | .bind hv hρ, h => .bind (fun σ t hx ht => hv σ t (h _ σ hx) ht) (hρ.weaken (h.erase _))
  | .slot ha hρ, h => .slot (fun σ t hx ht => ha σ t (h _ σ hx) ht) (hρ.weaken (h.erase _))

theorem insert (h : ρ.HasTypes S Γ) (hv : ∀ t, σ.Instance t → v.HasType S t) (x : String) :
    (Env.bind x v ρ).HasTypes S (Γ.insert x σ) := by
  refine .bind (fun ς t hx ht => ?_) (h.weaken (Γ.within_erase_insert x σ))
  rw [Table.get?_insert, if_pos rfl] at hx
  obtain rfl := Option.some.inj hx
  exact hv t ht

theorem insert_slot (h : ρ.HasTypes S Γ) {a : Nat} (ha : ∀ t, σ.Instance t → S a t) (x : String) :
    (Env.slot x a ρ).HasTypes S (Γ.insert x σ) := by
  refine .slot (fun ς t hx ht => ?_) (h.weaken (Γ.within_erase_insert x σ))
  rw [Table.get?_insert, if_pos rfl] at hx
  obtain rfl := Option.some.inj hx
  exact ha t ht

theorem insert_mono (h : ρ.HasTypes S Γ) {a : Ty} (hv : v.HasType S a) (x : String) :
    (Env.bind x v ρ).HasTypes S (Γ.insert x (.mono a)) :=
  h.insert (fun t ht => by
    have hta : t = a := by simpa [Scheme.Instance] using ht
    rwa [hta]) x

/-- A name that has types is found, or its slot is still empty. -/
theorem lookup (hx : Γ.get? x = some σ) (ht : σ.Instance t)
    (hS : ∀ a v, S a t → store.get? a = some v → v.HasType S t) (h : ρ.HasTypes S Γ) :
    (∃ v, ρ.lookup store x = .ok v ∧ v.HasType S t) ∨ ρ.lookup store x = .error (.notReady x) := by
  induction ρ using Env.find?.induct (x := x) generalizing Γ with
  | case1 =>
    cases h with
    | empty hΓ =>
      rw [hΓ x] at hx
      cases hx
  | case2 v ρ =>
    cases h with
    | bind hv _ => exact Or.inl ⟨v, if_pos rfl, hv σ t hx ht⟩
  | case3 y v ρ hyx ih =>
    cases h with
    | bind _ hρ =>
      rw [Env.lookup, if_neg hyx]
      exact ih (by simpa [Ne.symm hyx] using hx) hρ
  | case4 a ρ =>
    cases h with
    | slot ha _ =>
      rw [Env.lookup, if_pos rfl]
      cases hget : store.get? a with
      | none => exact Or.inr rfl
      | some v => exact Or.inl ⟨v, rfl, hS a v (ha σ t hx ht) hget⟩
  | case5 y a ρ hyx ih =>
    cases h with
    | slot _ hρ =>
      rw [Env.lookup, if_neg hyx]
      exact ih (by simpa [Ne.symm hyx] using hx) hρ

end Env.HasTypes

/-- What a pattern binds in a value of its type has the types that it gives its names. -/
theorem Pattern.Binds.forall₂ {p : Pattern} {bs : List (String × Ty)}
    {vs : List (String × Value)} (h : p.Binds t bs) (hv : v.HasType S t)
    (hm : p.match? v = some vs) :
    List.Forall₂ (fun b c => b.1 = c.1 ∧ c.2.HasType S b.2) bs vs := by
  obtain ⟨f, rfl, rfl⟩ := match?_eq_some_iff.mp hm
  clear hm
  induction f generalizing t bs with
  | var x v =>
    cases h
    exact .cons ⟨rfl, hv⟩ .nil
  | wild v | lit l | nil =>
    cases h
    exact .nil
  | cons f g ihf ihg =>
    cases h with
    | cons hp hq =>
      cases hv with
      | cons hf hg => exact List.rel_append (ihf hp hf) (ihg hq hg)

theorem Env.HasTypes.bindAll {bs : List (String × Ty)} {vs : List (String × Value)}
    (h : List.Forall₂ (fun b c => b.1 = c.1 ∧ c.2.HasType S b.2) bs vs) (hρ : ρ.HasTypes S Γ) :
    (ρ.bindAll vs).HasTypes S (Γ.bindAll bs) := by
  induction h generalizing ρ Γ with
  | nil => exact hρ
  | @cons b c bs vs hbc _ ih =>
    obtain ⟨hname, hty⟩ := hbc
    rw [TypeEnv.bindAll_cons, hname]
    exact ih (hρ.insert_mono hty c.1)

theorem Pattern.Binds.bindAll {p : Pattern} {bs : List (String × Ty)} (h : p.Binds t bs)
    (hv : v.HasType S t) {vs : List (String × Value)} (hm : p.match? v = some vs)
    (hρ : ρ.HasTypes S Γ) : (ρ.bindAll vs).HasTypes S (Γ.bindAll bs) :=
  hρ.bindAll (h.forall₂ hv hm)

def Store.layout (store : Store) : Layout := fun a t => ∃ S, store.Supports S ∧ S a t

theorem Store.supports_layout (store : Store) : store.Supports store.layout := by
  intro a t ⟨S, hS, hat⟩
  obtain ⟨v, hv, hvt⟩ := hS a t hat
  exact ⟨v, hv, hvt.mono (fun b u hbu => ⟨S, hS, hbu⟩)⟩

theorem Value.ofType_iff : v.OfType store t ↔ v.HasType store.layout t :=
  ⟨fun ⟨S, hS, hv⟩ => hv.mono (fun _ _ h => ⟨S, hS, h⟩), fun h => ⟨_, store.supports_layout, h⟩⟩

theorem Store.layout_of_get? {a : Nat} (ha : store.get? a = some v)
    (hv : v.HasType store.layout t) : store.layout a t := by
  have hS : ∀ b u, store.layout b u → store.layout.add a t b u := fun _ _ => Or.inl
  refine ⟨store.layout.add a t, fun b u hbu => ?_, Or.inr ⟨rfl, rfl⟩⟩
  obtain hbu | ⟨rfl, rfl⟩ := hbu
  · obtain ⟨w, hw, hwt⟩ := store.supports_layout b u hbu
    exact ⟨w, hw, hwt.mono hS⟩
  · exact ⟨v, ha, hv.mono hS⟩

theorem Value.OfType.grow (h : v.OfType store t) (hg : store.Grows store') : v.OfType store' t := by
  obtain ⟨S, hS, hv⟩ := h
  refine ⟨S, fun a u hau => ?_, hv⟩
  obtain ⟨w, hw, hwu⟩ := hS a u hau
  exact ⟨w, hg.get? hw, hwu⟩

namespace Env.Provides

theorem outer (h : ρ'.Provides store Γ) {y : String}
    (hρ : ∀ x, y ≠ x → ρ'.lookup store x = ρ.lookup store x) : ρ.Provides store (Γ.erase y) := by
  intro x σ hx
  obtain ⟨hxy, hx⟩ := Table.get?_erase_eq_some_iff.mp hx
  obtain ⟨v, hv, hty⟩ := h x σ hx
  exact ⟨v, by rw [← hρ x (Ne.symm hxy), hv], hty⟩

theorem hasTypes {Γ : TypeEnv} : {ρ : Env} → ρ.Provides store Γ → ρ.HasTypes store.layout Γ
  | .empty, h => .empty (fun x => Option.eq_none_iff_forall_ne_some.mpr (fun σ hx => by
      obtain ⟨v, hv, -⟩ := h x σ hx
      cases hv))
  | .bind y v ρ, h => by
    have houter : ρ.Provides store (Γ.erase y) :=
      h.outer (fun x hyx => by rw [Env.lookup, if_neg hyx])
    refine .bind (fun σ t hy ht => ?_) houter.hasTypes
    obtain ⟨w, hw, hty⟩ := h y σ hy
    rw [Env.lookup, if_pos rfl] at hw
    cases hw
    exact Value.ofType_iff.mp (hty t ht)
  | .slot y a ρ, h => by
    have houter : ρ.Provides store (Γ.erase y) :=
      h.outer (fun x hyx => by rw [Env.lookup, if_neg hyx])
    refine .slot (fun σ t hy ht => ?_) houter.hasTypes
    obtain ⟨w, hw, hty⟩ := h y σ hy
    rw [Env.lookup, if_pos rfl] at hw
    cases hget : store.get? a with
    | none => rw [hget] at hw; cases hw
    | some u =>
      rw [hget] at hw
      cases hw
      exact Store.layout_of_get? hget (Value.ofType_iff.mp (hty t ht))

theorem grow (h : ρ.Provides store Γ) (hg : store.Grows store') : ρ.Provides store' Γ := by
  intro x σ hx
  obtain ⟨v, hv, hty⟩ := h x σ hx
  exact ⟨v, hg.lookup hv, fun t ht => (hty t ht).grow hg⟩

end Env.Provides

end LetML
