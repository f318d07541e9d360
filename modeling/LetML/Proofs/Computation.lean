import LetML.Proofs.Evaluation
import Mathlib.Data.List.Forall2

namespace LetML

variable {α β : Type} {store store₁ store' : Store}

theorem EvalM.refines_apply (f a : Value) (n : Nat) : Refines (apply n f a) (apply (n + 1) f a) :=
  refines_call (refines_eval_succ n) f a

theorem EvalM.growing_apply (f a : Value) (n : Nat) : Growing (apply n f a) := by
  cases f with
  | closure x b ρ => exact growing_eval n _ b
  | _ => exact growing_throw _

/-- Work to any depth. Where it ends at some depth, it ends in the same way at greater ones, and it
keeps the slots there are. -/
structure Computation (α : Type) where
  run : Nat → EvalM α
  refines : ∀ n, EvalM.Refines (run n) (run (n + 1))
  growing : ∀ n, EvalM.Growing (run n)

namespace Computation

instance : Monad Computation where
  pure a := ⟨fun _ => pure a, fun _ => .refl _, fun _ => EvalM.growing_pure a⟩
  bind c f := ⟨fun n => c.run n >>= fun a => (f a).run n,
    fun n => (c.refines n).bind (fun a => (f a).refines n),
    fun n => (c.growing n).bind (fun a => (f a).growing n)⟩

def failing (e : RuntimeError) : Computation α :=
  ⟨fun _ => MonadExcept.throw e, fun _ => .refl _, fun _ => EvalM.growing_throw e⟩

def evaluation (ρ : Env) (e : Expr) : Computation Value :=
  ⟨fun n => eval n ρ e, fun n => refines_eval_succ n ρ e, fun n => growing_eval n ρ e⟩

def application (f a : Value) : Computation Value :=
  ⟨fun n => apply n f a, EvalM.refines_apply f a, EvalM.growing_apply f a⟩

def applyAll (f : Value) (vs : List Value) : Computation Value := vs.foldlM application f

def truth : Value → Computation Bool
  | .bool b => pure b
  | v => failing (.notBool v)

def ofResult : Except RuntimeError α → Computation α
  | .ok a => pure a
  | .error e => failing e

theorem ext {c c' : Computation α} (h : ∀ n, c.run n = c'.run n) : c = c' := by
  obtain ⟨run, _, _⟩ := c
  obtain ⟨run', _, _⟩ := c'
  obtain rfl : run = run' := funext h
  rfl

instance : LawfulMonad Computation := .mk' Computation
  (fun c => ext fun n => id_map (c.run n))
  (fun a f => ext fun n => pure_bind a fun a => (f a).run n)
  (fun c f g => ext fun n => bind_assoc (c.run n) (fun a => (f a).run n) fun b => (g b).run n)

variable {c c' : Computation α} {f f' : α → Computation β} {r : Except RuntimeError β}

/-- The work ends with a result and a store, at some depth. -/
def Ends (c : Computation α) (store : Store) (r : Except RuntimeError α) (store' : Store) : Prop :=
  ∃ n, c.run n store = some (r, store')

theorem run_of_le {n m : Nat} {p : Except RuntimeError α × Store} (hle : n ≤ m)
    (h : c.run n store = some p) : c.run m store = some p := by
  induction hle with
  | refl => exact h
  | step _ ih => exact c.refines _ store p ih

theorem Ends.grows {r : Except RuntimeError α} (h : c.Ends store r store') :
    store.Grows store' := by
  obtain ⟨n, hn⟩ := h
  exact (c.growing n _ _ _ hn).1

theorem ends_bind : (c >>= f).Ends store r store' ↔
    (∃ a store₁, c.Ends store (.ok a) store₁ ∧ (f a).Ends store₁ r store') ∨
      ∃ e, c.Ends store (.error e) store' ∧ r = .error e := by
  constructor
  · rintro ⟨n, hn⟩
    obtain ⟨a, store₁, hc, hf⟩ | ⟨e, hc, rfl⟩ := EvalM.bind_cases hn
    · exact Or.inl ⟨a, store₁, ⟨n, hc⟩, ⟨n, hf⟩⟩
    · exact Or.inr ⟨e, ⟨n, hc⟩, rfl⟩
  · rintro (⟨a, store₁, ⟨n, hn⟩, ⟨m, hm⟩⟩ | ⟨e, ⟨n, hn⟩, rfl⟩)
    · refine ⟨max n m, (EvalM.bind_of_ok (run_of_le (Nat.le_max_left n m) hn)).trans ?_⟩
      exact run_of_le (Nat.le_max_right n m) hm
    · exact ⟨n, EvalM.bind_of_error hn⟩

/-- Work ends in the same way as other work that is a few levels deeper. -/
theorem ends_eq_of_run (k : Nat) (h : ∀ n, c.run (n + k) store = c'.run n store) :
    c.Ends store = c'.Ends store := by
  funext r store'
  refine propext ⟨fun ⟨n, hn⟩ => ⟨n, ?_⟩, fun ⟨n, hn⟩ => ⟨n + k, (h n).trans hn⟩⟩
  rw [← h]
  exact run_of_le (Nat.le_add_right n k) hn

/-- From a store and from all that grow from it, two computations end in the same ways. -/
structure Agree (store : Store) (c c' : Computation α) : Prop where
  ends_eq : ∀ store₁, store.Grows store₁ → c.Ends store₁ = c'.Ends store₁

theorem agree_of_run (k : Nat) (h : ∀ n, c.run (n + k) = c'.run n) : Agree store c c' :=
  ⟨fun store₁ _ => ends_eq_of_run k fun n => congrFun (h n) store₁⟩

namespace Agree

theorem refl (c : Computation α) : Agree store c c := ⟨fun _ _ => rfl⟩

theorem symm (h : Agree store c c') : Agree store c' c :=
  ⟨fun store₁ hg => (h.ends_eq store₁ hg).symm⟩

theorem trans {c'' : Computation α} (h : Agree store c c') (h' : Agree store c' c'') :
    Agree store c c'' := ⟨fun store₁ hg => (h.ends_eq store₁ hg).trans (h'.ends_eq store₁ hg)⟩

theorem ends_iff {r : Except RuntimeError α} (h : Agree store c c') :
    c.Ends store r store' ↔ c'.Ends store r store' := by
  rw [h.ends_eq store (.refl store)]

theorem later (h : Agree store c c') (hg : store.Grows store₁) : Agree store₁ c c' :=
  ⟨fun store₂ hg₂ => h.ends_eq store₂ (hg.trans hg₂)⟩

theorem bind (hc : Agree store c c') (hf : ∀ a, Agree store (f a) (f' a)) :
    Agree store (c >>= f) (c' >>= f') := by
  refine ⟨fun store₁ hg => funext fun r => funext fun store' => ?_⟩
  rw [eq_iff_iff, ends_bind, ends_bind, hc.ends_eq store₁ hg]
  refine or_congr (exists_congr fun a => exists_congr fun store₂ => and_congr_right fun ha => ?_)
    Iff.rfl
  rw [(hf a).ends_eq store₂ (hg.trans ha.grows)]

theorem bind_left (hc : Agree store c c') : Agree store (c >>= f) (c' >>= f) :=
  hc.bind fun a => .refl (f a)

theorem bind_right (hf : ∀ a, Agree store (f a) (f' a)) : Agree store (c >>= f) (c >>= f') :=
  (refl c).bind hf

theorem foldlM {γ : Type} {g g' : α → γ → Computation α} (xs : List γ) {a : α}
    (h : ∀ a x, Agree store (g a x) (g' a x)) :
    Agree store (xs.foldlM g a) (xs.foldlM g' a) := by
  induction xs generalizing a with
  | nil => exact .refl _
  | cons x xs ih =>
    rw [List.foldlM_cons, List.foldlM_cons]
    exact (h a x).bind fun a => ih

end Agree

section Rules

variable {ρ : Env} {e₁ e₂ e₃ : Expr} {c₁ c₂ c₃ : Computation Value}

theorem run_mapM {γ : Type} (g : γ → Computation α) (xs : List γ) (n : Nat) :
    (xs.mapM g).run n = xs.mapM fun x => (g x).run n := by
  induction xs with
  | nil => rfl
  | cons x xs ih =>
    rw [List.mapM_cons, List.mapM_cons, ← ih]
    rfl

theorem agree_lit (l : Lit) : Agree store (evaluation ρ (.lit l)) (pure (.ofLit l)) :=
  agree_of_run 1 fun _ => rfl

theorem agree_abs (x : String) (b : Expr) :
    Agree store (evaluation ρ (.abs x b)) (pure (.closure x b ρ)) :=
  agree_of_run 1 fun _ => rfl

theorem agree_nil : Agree store (evaluation ρ .nil) (pure .nil) :=
  agree_of_run 1 fun _ => rfl

theorem agree_cons (h₁ : Agree store (evaluation ρ e₁) c₁) (h₂ : Agree store (evaluation ρ e₂) c₂) :
    Agree store (evaluation ρ (.cons e₁ e₂)) (do let h ← c₁; let t ← c₂; pure (.cons h t)) :=
  .trans (agree_of_run 1 fun _ => rfl) (h₁.bind fun _ => h₂.bind_left)

theorem agree_app (h₁ : Agree store (evaluation ρ e₁) c₁) (h₂ : Agree store (evaluation ρ e₂) c₂) :
    Agree store (evaluation ρ (.app e₁ e₂)) (do let f ← c₁; let a ← c₂; application f a) :=
  .trans (agree_of_run 1 fun _ => rfl) (h₁.bind fun _ => h₂.bind_left)

theorem agree_list (es : List Expr) :
    Agree store (evaluation ρ (.list es)) (Value.ofList <$> es.mapM (evaluation ρ)) := by
  refine agree_of_run 1 fun n => ?_
  rw [map_eq_pure_bind]
  change es.mapM (eval n ρ) >>= _ = (es.mapM (evaluation ρ)).run n >>= _
  rw [run_mapM]
  rfl

theorem agree_mapM_pure {es : List Expr} {vs : List Value}
    (h : List.Forall₂ (fun e v => Agree store (evaluation ρ e) (pure v)) es vs) :
    Agree store (es.mapM (evaluation ρ)) (pure vs) := by
  induction h with
  | nil => exact .refl _
  | cons hv _ ih =>
    rw [List.mapM_cons]
    have hcons := hv.bind fun v => ih.bind_left (f := fun vs => pure (v :: vs))
    simpa only [pure_bind] using hcons

theorem agree_list_pure {es : List Expr} {vs : List Value}
    (h : List.Forall₂ (fun e v => Agree store (evaluation ρ e) (pure v)) es vs) :
    Agree store (evaluation ρ (.list es)) (pure (.ofList vs)) := by
  refine (agree_list es).trans ?_
  rw [map_eq_pure_bind, ← pure_bind vs fun vs => pure (Value.ofList vs)]
  exact (agree_mapM_pure h).bind_left

theorem agree_bin (op : BinOp) (h₁ : Agree store (evaluation ρ e₁) c₁)
    (h₂ : Agree store (evaluation ρ e₂) c₂) : Agree store (evaluation ρ (.bin op e₁ e₂))
      (do let l ← c₁; let r ← c₂; ofResult (op.apply l r)) := by
  refine .trans (agree_of_run 1 fun n => ?_) (h₁.bind fun _ => h₂.bind_left)
  refine congrArg (eval n ρ e₁ >>= ·) (funext fun l => ?_)
  refine congrArg (eval n ρ e₂ >>= ·) (funext fun r => ?_)
  change MonadExcept.ofExcept (op.apply l r) = (ofResult (op.apply l r)).run n
  cases op.apply l r <;> rfl

theorem agree_cond (h₁ : Agree store (evaluation ρ e₁) c₁) (h₂ : Agree store (evaluation ρ e₂) c₂)
    (h₃ : Agree store (evaluation ρ e₃) c₃) : Agree store (evaluation ρ (.cond e₁ e₂ e₃))
      (do let b ← c₁ >>= truth; if b then c₂ else c₃) := by
  have hbranch : ∀ b : Bool, Agree store
      (if b then evaluation ρ e₂ else evaluation ρ e₃) (if b then c₂ else c₃) := fun b => by
    cases b with
    | true => exact h₂
    | false => exact h₃
  refine .trans (agree_of_run 1 fun n => ?_) ((h₁.bind_left (f := truth)).bind hbranch)
  rw [bind_assoc]
  refine congrArg (eval n ρ e₁ >>= ·) (funext fun v => ?_)
  cases v with
  | bool b => cases b <;> rfl
  | _ => rfl

theorem agree_var {x : String} {v : Value} (hx : ρ.lookup store x = .ok v) :
    Agree store (evaluation ρ (.var x)) (pure v) := by
  refine ⟨fun store₁ hg => ends_eq_of_run 1 fun n => ?_⟩
  exact (eval_var n).trans (by rw [hg.lookup hx]; rfl)

theorem run_applyAll (f : Value) (vs : List Value) (n : Nat) :
    (applyAll f vs).run n = vs.foldlM (apply n) f := by
  induction vs generalizing f with
  | nil => rfl
  | cons v vs ih => exact congrArg (apply n f v >>= ·) (funext ih)

theorem applyAll_cons (f v : Value) (vs : List Value) :
    applyAll f (v :: vs) = application f v >>= fun g => applyAll g vs := rfl

theorem applyAll_one (f v : Value) : applyAll f [v] = application f v := bind_pure _

theorem agree_apps {es : List Expr} {vs : List Value} (h₁ : Agree store (evaluation ρ e₁) c₁)
    (hvs : List.Forall₂ (fun e v => Agree store (evaluation ρ e) (pure v)) es vs) :
    Agree store (evaluation ρ (es.foldl .app e₁)) (c₁ >>= fun f => applyAll f vs) := by
  induction hvs generalizing e₁ c₁ with
  | nil => rwa [show (fun f => applyAll f []) = pure from rfl, bind_pure]
  | cons hv _ ih =>
    have happ := ih (agree_app h₁ hv)
    simp only [pure_bind, bind_assoc] at happ
    exact happ

theorem agree_call {es : List Expr} {vs : List Value} {f : Value}
    (h₁ : Agree store (evaluation ρ e₁) (pure f))
    (hvs : List.Forall₂ (fun e v => Agree store (evaluation ρ e) (pure v)) es vs) :
    Agree store (evaluation ρ (es.foldl .app e₁)) (applyAll f vs) := by
  have happs := agree_apps h₁ hvs
  rwa [pure_bind] at happs

end Rules

theorem ends_ofResult {r r' : Except RuntimeError α} :
    (ofResult r).Ends store r' store' ↔ r' = r ∧ store' = store := by
  have hrun : ∀ n, (ofResult r).run n store = some (r, store) := fun n => by cases r <;> rfl
  simp only [Ends, hrun, exists_const, Option.some.injEq, Prod.mk.injEq, eq_comm]

theorem ofResult_bind (r : Except RuntimeError Value) (f : Value → Except RuntimeError Value) :
    ofResult (r.bind f) = ofResult r >>= fun v => ofResult (f v) := by
  cases r with
  | ok v => exact (pure_bind v fun v => ofResult (f v)).symm
  | error e => exact ext fun _ => rfl

theorem ofResult_map (r : Except RuntimeError Value) (f : Value → Value) :
    ofResult (r.map f) = ofResult r >>= fun v => pure (f v) := by
  cases r with
  | ok v => exact (pure_bind v fun v => pure (f v)).symm
  | error e => exact ext fun _ => rfl

end Computation

end LetML
