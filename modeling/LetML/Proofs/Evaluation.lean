import LetML.Proofs.Growth

namespace LetML

variable {α β : Type} {store store' : Store} {ρ : Env} {e : Expr} {x : String}

namespace EvalM

theorem bind_of_ok {m : EvalM α} {f : α → EvalM β} {a : α} (h : m store = some (.ok a, store')) :
    (m >>= f) store = f a store' := by
  change (m store).bind (fun p => ExceptT.bindCont f p.1 p.2) = _
  rw [h]
  rfl

theorem bind_of_error {m : EvalM α} {f : α → EvalM β} {err : RuntimeError}
    (h : m store = some (.error err, store')) : (m >>= f) store = some (.error err, store') := by
  change (m store).bind (fun p => ExceptT.bindCont f p.1 p.2) = _
  rw [h]
  rfl

def Refines (m m' : EvalM α) : Prop := ∀ store r, m store = some r → m' store = some r

theorem Refines.refl (m : EvalM α) : Refines m m := fun _ _ h => h

theorem Refines.bind {m m' : EvalM α} {f f' : α → EvalM β} (hm : Refines m m')
    (hf : ∀ a, Refines (f a) (f' a)) : Refines (m >>= f) (m' >>= f') := by
  rintro store ⟨r, store'⟩ h
  obtain ⟨a, store₁, hrun, h⟩ | ⟨err, hrun, rfl⟩ := bind_cases h
  · rw [bind_of_ok (hm _ _ hrun)]
    exact hf a _ _ h
  · exact bind_of_error (hm _ _ hrun)

theorem Refines.mapM {f f' : α → EvalM β} (hf : ∀ a, Refines (f a) (f' a)) (as : List α) :
    Refines (as.mapM f) (as.mapM f') := by
  induction as with
  | nil => exact .refl _
  | cons a as ih =>
    rw [List.mapM_cons, List.mapM_cons]
    exact (hf a).bind (fun b => ih.bind (fun bs => .refl _))

end EvalM

open EvalM

theorem refines_call {n : Nat} (h : ∀ ρ e, Refines (eval n ρ e) (eval (n + 1) ρ e)) (f a : Value) :
    Refines (f.call (eval n) a) (f.call (eval (n + 1)) a) := by
  cases f with
  | closure x b ρ => exact h _ b
  | _ => exact .refl _

theorem refines_eval_succ (n : Nat) (ρ : Env) (e : Expr) :
    Refines (eval n ρ e) (eval (n + 1) ρ e) := by
  induction n generalizing ρ e with
  | zero =>
    intro store r h
    cases h
  | succ n ih =>
    cases e with
    | lit l => exact .refl _
    | var x => exact .refl _
    | abs x b => exact .refl _
    | app f a => exact (ih ρ f).bind (fun f => (ih ρ a).bind (fun a => refines_call ih f a))
    | letIn x v b => exact (ih ρ v).bind (fun v => ih _ b)
    | letRec x v b =>
      refine (Refines.refl (modifyGet (ρ.bindSlot x))).bind (fun ρ' => (ih ρ' v).bind (fun v => ?_))
      exact (Refines.refl (modify fun σ => ρ'.fillHead v σ)).bind (fun _ => ih ρ' b)
    | cond c t e =>
      refine (ih ρ c).bind (fun v => ?_)
      cases v with
      | bool b => cases b with
        | true => exact ih ρ t
        | false => exact ih ρ e
      | _ => exact .refl _
    | bin op l r => exact (ih ρ l).bind (fun l => (ih ρ r).bind (fun r => .refl _))
    | nil => exact .refl _
    | cons h t => exact (ih ρ h).bind (fun h => (ih ρ t).bind (fun t => .refl _))
    | list es => exact (Refines.mapM (ih ρ) es).bind (fun vs => .refl _)
    | case e arms =>
      refine (ih ρ e).bind (fun v => ?_)
      cases selectArm v arms with
      | none => exact .refl _
      | some p => exact ih _ p.2

/-- More fuel changes nothing where evaluation ends. -/
theorem eval_of_le {n m : Nat} {r : Except RuntimeError Value × Store} (hle : n ≤ m)
    (h : eval n ρ e store = some r) : eval m ρ e store = some r := by
  induction hle with
  | refl => exact h
  | step _ ih => exact refines_eval_succ _ ρ e store r ih

/-- Evaluation ends with a result and a store, given enough fuel. -/
def Evaluates (ρ : Env) (e : Expr) (store : Store) (r : Except RuntimeError Value) (store' : Store) :
    Prop := ∃ n, eval n ρ e store = some (r, store')

variable {r : Except RuntimeError Value}

theorem eval_var (n : Nat) : eval (n + 1) ρ (.var x) store = some (ρ.lookup store x, store) := by
  have hrun : eval (n + 1) ρ (.var x) store =
      (ofExcept (ρ.lookup store x) : EvalM Value) store := rfl
  rw [hrun]
  cases ρ.lookup store x with
  | error err => rfl
  | ok v => rfl

theorem eval_letRec (n : Nat) {v b : Expr} : eval (n + 1) ρ (.letRec x v b) store =
    (eval n (.slot x store.next ρ) v >>= fun w => modify (fun σ => σ.fill store.next w) >>= fun _ =>
      eval n (.slot x store.next ρ) b) store.alloc := rfl

inductive Binding where
  | value (v : Value)
  | slot (address : Nat)

/-- Read the binding of a name, if it has one. -/
def Binding.read (store : Store) (x : String) : Option Binding → Except RuntimeError Value
  | none => .error (.unbound x)
  | some (value v) => .ok v
  | some (slot a) => match store.get? a with
    | some v => .ok v
    | none => .error (.notReady x)

namespace Env

def find? (x : String) : Env → Option Binding
  | empty => none
  | bind y v outer => if y = x then some (.value v) else outer.find? x
  | slot y a outer => if y = x then some (.slot a) else outer.find? x

theorem lookup_eq (store : Store) (x : String) (ρ : Env) :
    ρ.lookup store x = Binding.read store x (ρ.find? x) := by
  induction ρ using find?.induct (x := x) with
  | case1 => rfl
  | case2 v ρ => rw [lookup, find?, if_pos rfl, if_pos rfl, Binding.read]
  | case3 y v ρ hyx ih => rw [lookup, find?, if_neg hyx, if_neg hyx, ih]
  | case4 a ρ =>
    rw [lookup, find?, if_pos rfl, if_pos rfl]
    cases hget : store.get? a <;> simp only [Binding.read, hget]
  | case5 y a ρ hyx ih => rw [lookup, find?, if_neg hyx, if_neg hyx, ih]

theorem lookup_bindAll {bs : List (String × Value)} (hx : x ∉ bs.map (·.1)) :
    (ρ.bindAll bs).lookup store x = ρ.lookup store x := by
  induction bs generalizing ρ with
  | nil => rfl
  | cons b bs ih =>
    rw [List.map_cons, List.mem_cons, not_or] at hx
    exact (ih hx.2).trans (if_neg (Ne.symm hx.1))

/-- A name that is found is found also where every slot that is filled keeps its value. -/
theorem lookup_of_keeps {v : Value}
    (h : ∀ a w, store.get? a = some w → store'.get? a = some w) (hx : ρ.lookup store x = .ok v) :
    ρ.lookup store' x = .ok v := by
  rw [lookup_eq] at hx ⊢
  cases hfind : ρ.find? x with
  | none =>
    rw [hfind] at hx
    cases hx
  | some binding =>
    rw [hfind] at hx
    cases binding with
    | value w => exact hx
    | slot a =>
      rw [Binding.read] at hx ⊢
      cases ha : store.get? a with
      | none =>
        rw [ha] at hx
        cases hx
      | some w =>
        rw [ha] at hx
        rw [h a w ha]
        exact hx

end Env

theorem Store.Grows.lookup {v : Value} (hg : store.Grows store') (hx : ρ.lookup store x = .ok v) :
    ρ.lookup store' x = .ok v :=
  Env.lookup_of_keeps (fun _ _ => hg.get?) hx

theorem Evaluates.unique {r' : Except RuntimeError Value} {store₁ store₂ : Store}
    (h : Evaluates ρ e store r store₁) (h' : Evaluates ρ e store r' store₂) :
    r = r' ∧ store₁ = store₂ := by
  obtain ⟨n, hn⟩ := h
  obtain ⟨m, hm⟩ := h'
  have hn := eval_of_le (Nat.le_max_left n m) hn
  have hm := eval_of_le (Nat.le_max_right n m) hm
  cases hn.symm.trans hm
  exact ⟨rfl, rfl⟩

theorem evaluates_var :
    Evaluates ρ (.var x) store r store' ↔ ρ.lookup store x = r ∧ store = store' := by
  constructor
  · rintro ⟨n, hn⟩
    have hn := eval_of_le (Nat.le_succ n) hn
    rw [eval_var] at hn
    cases hn
    exact ⟨rfl, rfl⟩
  · rintro ⟨rfl, rfl⟩
    exact ⟨1, eval_var 0⟩

/-- A definition gives a value where its value does, and its scope after it. -/
theorem evaluates_letIn {v b : Expr} {u : Value} :
    Evaluates ρ (.letIn x v b) store (.ok u) store' ↔ ∃ w store₁,
      Evaluates ρ v store (.ok w) store₁ ∧ Evaluates (.bind x w ρ) b store₁ (.ok u) store' := by
  constructor
  · rintro ⟨_ | n, hn⟩
    · cases hn
    · obtain ⟨w, store₁, hv, hb⟩ | ⟨err, -, herr⟩ := bind_cases hn
      · exact ⟨w, store₁, ⟨n, hv⟩, ⟨n, hb⟩⟩
      · cases herr
  · rintro ⟨w, store₁, ⟨n, hn⟩, ⟨m, hm⟩⟩
    refine ⟨max n m + 1, (bind_of_ok (eval_of_le (Nat.le_max_left n m) hn)).trans ?_⟩
    exact eval_of_le (Nat.le_max_right n m) hm

theorem evaluates_letRec {v b : Expr} {u : Value} :
    Evaluates ρ (.letRec x v b) store (.ok u) store' ↔ ∃ w store₁,
      Evaluates (.slot x store.next ρ) v store.alloc (.ok w) store₁ ∧
      Evaluates (.slot x store.next ρ) b (store₁.fill store.next w) (.ok u) store' := by
  constructor
  · rintro ⟨_ | n, hn⟩
    · cases hn
    · obtain ⟨w, store₁, hv, hb⟩ | ⟨err, -, herr⟩ := eval_letRec_cases hn
      · exact ⟨w, store₁, ⟨n, hv⟩, ⟨n, hb⟩⟩
      · cases herr
  · rintro ⟨w, store₁, ⟨n, hn⟩, ⟨m, hm⟩⟩
    refine ⟨max n m + 1, ?_⟩
    rw [eval_letRec, bind_of_ok (eval_of_le (Nat.le_max_left n m) hn)]
    exact eval_of_le (Nat.le_max_right n m) hm

theorem evaluates_case_var {arms : List (Pattern × Expr)} {v : Value}
    (hx : ρ.lookup store x = .ok v) :
    Evaluates ρ (.case (.var x) arms) store r store' ↔ match selectArm v arms with
      | some (bs, b) => Evaluates (ρ.bindAll bs) b store r store'
      | none => r = .error (.noMatch v) ∧ store' = store := by
  have hrun : ∀ n, eval (n + 2) ρ (.case (.var x) arms) store = (match selectArm v arms with
      | some (bs, b) => eval (n + 1) (ρ.bindAll bs) b
      | none => throw (RuntimeError.noMatch v)) store := fun n =>
    bind_of_ok (m := eval (n + 1) ρ (.var x)) (by rw [eval_var, hx])
  constructor
  · rintro ⟨n, hn⟩
    have hn := eval_of_le (Nat.le_add_right n 2) hn
    rw [hrun] at hn
    cases hsel : selectArm v arms with
    | none =>
      rw [hsel] at hn
      cases hn
      exact ⟨rfl, rfl⟩
    | some arm =>
      rw [hsel] at hn
      exact ⟨n + 1, hn⟩
  · intro h
    cases hsel : selectArm v arms with
    | none =>
      rw [hsel] at h
      obtain ⟨rfl, rfl⟩ := h
      exact ⟨2, by rw [hrun 0, hsel]; rfl⟩
    | some arm =>
      rw [hsel] at h
      obtain ⟨n, hn⟩ := h
      refine ⟨n + 2, ?_⟩
      rw [hrun, hsel]
      exact eval_of_le (Nat.le_succ n) hn

theorem evaluates_letIn_abs {y : String} {b c : Expr} :
    Evaluates ρ (.letIn x (.abs y b) c) store r store' ↔
      Evaluates (.bind x (.closure y b ρ) ρ) c store r store' := by
  have hrun : ∀ n, eval (n + 2) ρ (.letIn x (.abs y b) c) store =
      eval (n + 1) (.bind x (.closure y b ρ) ρ) c store := fun n => bind_of_ok rfl
  constructor
  · rintro ⟨n, hn⟩
    exact ⟨n + 1, by rw [← hrun]; exact eval_of_le (Nat.le_add_right n 2) hn⟩
  · rintro ⟨n, hn⟩
    exact ⟨n + 2, by rw [hrun]; exact eval_of_le (Nat.le_succ n) hn⟩

theorem evaluates_app_var {y : String} {b : Expr} {ρ' : Env} {l : Lit}
    (hx : ρ.lookup store x = .ok (.closure y b ρ')) :
    Evaluates ρ (.app (.var x) (.lit l)) store r store' ↔
      Evaluates (.bind y (.ofLit l) ρ') b store r store' := by
  have hrun : ∀ n, eval (n + 2) ρ (.app (.var x) (.lit l)) store =
      eval (n + 1) (.bind y (.ofLit l) ρ') b store := fun n =>
    (bind_of_ok (m := eval (n + 1) ρ (.var x)) (by rw [eval_var, hx])).trans (bind_of_ok rfl)
  constructor
  · rintro ⟨n, hn⟩
    exact ⟨n + 1, by rw [← hrun]; exact eval_of_le (Nat.le_add_right n 2) hn⟩
  · rintro ⟨n, hn⟩
    exact ⟨n + 2, by rw [hrun]; exact eval_of_le (Nat.le_succ n) hn⟩

/-- An expression is evaluated and its value is applied to arguments one after another. -/
def AppliedTo (ρ : Env) (e : Expr) (vs : List Value) (store : Store)
    (r : Except RuntimeError Value) (store' : Store) : Prop :=
  ∃ n, (do let f ← eval n ρ e; vs.foldlM (apply n) f) store = some (r, store')

theorem run_lambda {xs : List String} {b : Expr} {vs : List Value} (n : Nat)
    (hlen : xs.length = vs.length) (ρ : Env) :
    (do let f ← eval (n + 1) ρ (.lambda xs b); vs.foldlM (apply (n + 1)) f) =
      eval (n + 1) (ρ.bindAll (xs.zip vs)) b := by
  induction xs generalizing vs ρ with
  | nil =>
    obtain rfl := List.length_eq_zero_iff.mp hlen.symm
    exact bind_pure _
  | cons x xs ih =>
    cases vs with
    | nil => cases hlen
    | cons v vs => exact ih (Nat.succ.inj hlen) (.bind x v ρ)

theorem appliedTo_lambda {xs : List String} {b : Expr} {vs : List Value}
    (hlen : xs.length = vs.length) : AppliedTo ρ (.lambda xs b) vs store r store' ↔
      Evaluates (ρ.bindAll (xs.zip vs)) b store r store' := by
  constructor
  · rintro ⟨n, hn⟩
    cases n with
    | zero => cases hn
    | succ n => exact ⟨n + 1, by rw [← run_lambda n hlen]; exact hn⟩
  · rintro ⟨n, hn⟩
    refine ⟨n + 1, ?_⟩
    rw [run_lambda n hlen]
    exact eval_of_le (Nat.le_succ n) hn

end LetML
