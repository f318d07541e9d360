import LetML.Proofs.Evaluation
import LetML.Proofs.Filling
import LetML.Proofs.FreeNames
import Mathlib.Data.List.Forall2
import Mathlib.Order.Basic

namespace LetML

/-- Values of one form, of which the parts and the surroundings are related. -/
inductive Value.Layer (R : Value → Value → Prop) (E : (String → Prop) → Env → Env → Prop) :
    Value → Value → Prop
  | int (n : Int64) : Layer R E (.int n) (.int n)
  | bool (b : Bool) : Layer R E (.bool b) (.bool b)
  | nil : Layer R E .nil .nil
  | cons {h h' t t' : Value} : R h h' → R t t' → Layer R E (.cons h t) (.cons h' t')
  | closure {x : String} {b : Expr} {ρ ρ' : Env} : E (· ∈ (Expr.abs x b).free) ρ ρ' →
    Layer R E (.closure x b ρ) (.closure x b ρ')

inductive RuntimeError.Lift (R : Value → Value → Prop) : RuntimeError → RuntimeError → Prop
  | unbound (x : String) : Lift R (.unbound x) (.unbound x)
  | notFunction {v v' : Value} : R v v' → Lift R (.notFunction v) (.notFunction v')
  | noMatch {v v' : Value} : R v v' → Lift R (.noMatch v) (.noMatch v')
  | notBool {v v' : Value} : R v v' → Lift R (.notBool v) (.notBool v')
  | operands (op : BinOp) {l l' r r' : Value} : R l l' → R r r' →
    Lift R (.operands op l r) (.operands op l' r')
  | overflow (op : BinOp) (a b : Int64) : Lift R (.overflow op a b) (.overflow op a b)
  | notReady (x : String) : Lift R (.notReady x) (.notReady x)

inductive ResultLift {α : Type} (R : Value → Value → Prop) (P : α → α → Prop) :
    Except RuntimeError α → Except RuntimeError α → Prop
  | ok {a b : α} : P a b → ResultLift R P (.ok a) (.ok b)
  | error {e f : RuntimeError} : e.Lift R f → ResultLift R P (.error e) (.error f)

/-- Relations that evaluation keeps. Environments are related on the names of which `N` holds, and
what is related depends on a state of knowledge, which grows when slots are made. -/
structure Simulation (W : Type) [Preorder W] where
  value : W → Value → Value → Prop
  env : W → (String → Prop) → Env → Env → Prop
  store : W → Store → Store → Prop
  value_iff : ∀ {w v v'}, value w v v' ↔ Value.Layer (value w) (env w) v v'
  value_mono : ∀ {w w' v v'}, w ≤ w' → value w v v' → value w' v v'
  env_mono : ∀ {w w' N M ρ ρ'}, w ≤ w' → (∀ y, M y → N y) → env w N ρ ρ' → env w' M ρ ρ'
  lookup : ∀ {w N ρ ρ' σ σ' x}, env w N ρ ρ' → store w σ σ' → N x →
    ResultLift (value w) (value w) (ρ.lookup σ x) (ρ'.lookup σ' x)
  bind : ∀ {w N ρ ρ' x v v'}, value w v v' → env w (fun y => N y ∧ y ≠ x) ρ ρ' →
    env w N (.bind x v ρ) (.bind x v' ρ')
  alloc : ∀ {w σ σ'}, store w σ σ' → ∃ w', w ≤ w' ∧ store w' σ.alloc σ'.alloc ∧
    (∀ {w₁ N ρ ρ' x}, w' ≤ w₁ → env w₁ (fun y => N y ∧ y ≠ x) ρ ρ' →
      env w₁ N (.slot x σ.next ρ) (.slot x σ'.next ρ')) ∧
    ∀ {w₁ τ τ' v v'}, w' ≤ w₁ → store w₁ τ τ' → value w₁ v v' →
      store w₁ (τ.fill σ.next v) (τ'.fill σ'.next v')

theorem RuntimeError.Lift.mono {R R' : Value → Value → Prop} {e f : RuntimeError}
    (hR : ∀ v v', R v v' → R' v v') (h : e.Lift R f) : e.Lift R' f := by
  cases h with
  | unbound x => exact .unbound x
  | notFunction hv => exact .notFunction (hR _ _ hv)
  | noMatch hv => exact .noMatch (hR _ _ hv)
  | notBool hv => exact .notBool (hR _ _ hv)
  | operands op hl hr => exact .operands op (hR _ _ hl) (hR _ _ hr)
  | overflow op a b => exact .overflow op a b
  | notReady x => exact .notReady x

namespace Simulation

variable {W : Type} [Preorder W] (S : Simulation W) {w : W} {v v' : Value} {ρ ρ' : Env}
  {N : String → Prop} {α β : Type}

def binding (w : W) (b c : String × Value) : Prop := b.1 = c.1 ∧ S.value w b.2 c.2

variable {S}

theorem ofLit (l : Lit) : S.value w (.ofLit l) (.ofLit l) := by
  cases l with
  | int n => exact S.value_iff.mpr (.int n)
  | bool b => exact S.value_iff.mpr (.bool b)

theorem ofList {vs ws : List Value} (h : List.Forall₂ (S.value w) vs ws) :
    S.value w (.ofList vs) (.ofList ws) := by
  induction h with
  | nil => exact S.value_iff.mpr .nil
  | cons hv _ ih => exact S.value_iff.mpr (.cons hv ih)

theorem isLit (h : S.value w v v') (l : Lit) : v.isLit l = v'.isLit l := by
  cases S.value_iff.mp h <;> cases l <;> rfl

theorem match? (h : S.value w v v') (p : Pattern) :
    Option.Rel (List.Forall₂ (S.binding w)) (p.match? v) (p.match? v') := by
  induction p generalizing v v' with
  | var x => exact .some (.cons ⟨rfl, h⟩ .nil)
  | wild => exact .some .nil
  | lit l =>
    rw [Pattern.match?, Pattern.match?, isLit h l]
    split
    · exact .some .nil
    · exact .none
  | nil =>
    cases S.value_iff.mp h with
    | nil => exact .some .nil
    | _ => exact .none
  | cons p q ihp ihq =>
    cases S.value_iff.mp h with
    | @cons hd hd' tl tl' hh ht =>
      simp only [Pattern.match?]
      have hp := ihp hh
      generalize p.match? hd = left, p.match? hd' = left' at hp
      cases hp with
      | none => exact .none
      | some hleft =>
        have hq := ihq ht
        generalize q.match? tl = right, q.match? tl' = right' at hq
        cases hq with
        | none => exact .none
        | some hright => exact .some (List.rel_append hleft hright)
    | _ => exact .none

theorem selectArm (h : S.value w v v') (arms : List (Pattern × Expr)) :
    (LetML.selectArm v arms = none ∧ LetML.selectArm v' arms = none) ∨
      ∃ p b bs cs, (p, b) ∈ arms ∧ bs.map (·.1) = p.names ∧ List.Forall₂ (S.binding w) bs cs ∧
        LetML.selectArm v arms = some (bs, b) ∧ LetML.selectArm v' arms = some (cs, b) := by
  induction arms with
  | nil => exact Or.inl ⟨rfl, rfl⟩
  | cons arm arms ih =>
    obtain ⟨p, b⟩ := arm
    have hp := match? h p
    rw [LetML.selectArm, LetML.selectArm]
    cases hm : p.match? v with
    | none =>
      rw [hm] at hp
      generalize p.match? v' = u at hp
      cases hp
      obtain hnone | ⟨q, c, bs, cs, hq, hrest⟩ := ih
      · exact Or.inl hnone
      · exact Or.inr ⟨q, c, bs, cs, List.mem_cons_of_mem _ hq, hrest⟩
    | some bs =>
      rw [hm] at hp
      generalize p.match? v' = u at hp
      cases hp with
      | @some _ cs hbs =>
        exact Or.inr ⟨p, b, bs, cs, List.mem_cons_self, Pattern.map_fst_match? hm, hbs, rfl, rfl⟩

theorem bindAll {bs cs : List (String × Value)} (h : List.Forall₂ (S.binding w) bs cs)
    (hρ : S.env w (fun y => N y ∧ y ∉ bs.map (·.1)) ρ ρ') :
    S.env w N (ρ.bindAll bs) (ρ'.bindAll cs) := by
  induction h generalizing ρ ρ' with
  | nil => exact S.env_mono (le_refl w) (fun y hy => ⟨hy, by simp⟩) hρ
  | @cons b c bs cs hbc _ ih =>
    obtain ⟨x, v⟩ := b
    obtain ⟨_, v'⟩ := c
    obtain ⟨rfl, hv⟩ := hbc
    refine ih (S.bind hv (S.env_mono (le_refl w) (fun y hy => ⟨hy.1.1, ?_⟩) hρ))
    rw [List.map_cons, List.mem_cons, not_or]
    exact ⟨hy.2, hy.1.2⟩

theorem checked (op : BinOp) (a b : Int64) (result : Int) :
    ResultLift (S.value w) (S.value w) (op.checked a b result) (op.checked a b result) := by
  rw [BinOp.checked]
  split
  · exact .ok (S.value_iff.mpr (.int _))
  · exact .error (.overflow op a b)

theorem binOp (op : BinOp) {l l' r r' : Value} (hl : S.value w l l') (hr : S.value w r r') :
    ResultLift (S.value w) (S.value w) (op.apply l r) (op.apply l' r') := by
  have hfail := ResultLift.error (P := S.value w) (RuntimeError.Lift.operands op hl hr)
  cases S.value_iff.mp hl with
  | int a =>
    cases S.value_iff.mp hr with
    | int b =>
      cases op with
      | add | sub | mul => exact checked _ a b _
      | and | or => exact hfail
      | _ => exact .ok (S.value_iff.mpr (.bool _))
    | _ => cases op <;> exact hfail
  | bool a =>
    cases S.value_iff.mp hr with
    | bool b =>
      cases op with
      | and | or => exact .ok (S.value_iff.mpr (.bool _))
      | _ => exact hfail
    | _ => cases op <;> exact hfail
  | _ => cases op <;> exact hfail

variable (S) in
/-- Ends of some work that are related once more is known, or none. -/
def Ends (w : W) (P : W → α → α → Prop) (p q : Option (Except RuntimeError α × Store)) : Prop :=
  Option.Rel (fun p q => ∃ w₁, w ≤ w₁ ∧ ResultLift (S.value w₁) (P w₁) p.1 q.1 ∧
    S.store w₁ p.2 q.2) p q

variable (S) in
/-- Work that ends in related ways in related stores. -/
def Works (w : W) (P : W → α → α → Prop) (m m' : EvalM α) : Prop :=
  ∀ w₁, w ≤ w₁ → ∀ store store', S.store w₁ store store' → S.Ends w₁ P (m store) (m' store')

variable {P : W → α → α → Prop} {Q : W → β → β → Prop}

theorem Ends.of_le {w' : W} {p q : Option (Except RuntimeError α × Store)} (hw : w ≤ w')
    (h : S.Ends w' P p q) : S.Ends w P p q := by
  cases h with
  | none => exact .none
  | some h =>
    obtain ⟨w₁, hw₁, h⟩ := h
    exact .some ⟨w₁, le_trans hw hw₁, h⟩

theorem works_pure {a b : α} (h : ∀ w₁, w ≤ w₁ → P w₁ a b) : S.Works w P (pure a) (pure b) :=
  fun w₁ hw _ _ hs => .some ⟨w₁, le_refl w₁, .ok (h w₁ hw), hs⟩

theorem works_throw {e f : RuntimeError} (h : e.Lift (S.value w) f) :
    S.Works w P (throw e) (throw f) := fun w₁ hw _ _ hs =>
  .some ⟨w₁, le_refl w₁, .error (h.mono (fun _ _ => S.value_mono hw)), hs⟩

theorem works_value (h : S.value w v v') : S.Works w S.value (pure v) (pure v') :=
  works_pure fun _ hw => S.value_mono hw h

theorem works_ofExcept {r r' : Except RuntimeError Value}
    (h : ResultLift (S.value w) (S.value w) r r') : S.Works w S.value (ofExcept r) (ofExcept r') := by
  cases h with
  | ok h => exact works_value h
  | error h => exact works_throw h

theorem Works.bind {m m' : EvalM α} {f f' : α → EvalM β} (hm : S.Works w P m m')
    (hf : ∀ w₁, w ≤ w₁ → ∀ a b, P w₁ a b → S.Works w₁ Q (f a) (f' b)) :
    S.Works w Q (m >>= f) (m' >>= f') := by
  intro w₁ hw₁ store store' hs
  change S.Ends w₁ Q ((m store).bind (fun p => ExceptT.bindCont f p.1 p.2))
    ((m' store').bind (fun p => ExceptT.bindCont f' p.1 p.2))
  have hrun := hm w₁ hw₁ _ _ hs
  generalize m store = p, m' store' = q at hrun
  cases hrun with
  | none => exact .none
  | @some p q h =>
    obtain ⟨r, store₁⟩ := p
    obtain ⟨r', store₁'⟩ := q
    obtain ⟨w₂, hw₂, hr, hs₁⟩ := h
    cases hr with
    | error he => exact .some ⟨w₂, hw₂, .error he, hs₁⟩
    | ok hab =>
      exact .of_le hw₂ (hf w₂ (le_trans hw₁ hw₂) _ _ hab w₂ (le_refl w₂) _ _ hs₁)

theorem Works.mono {w' : W} {m m' : EvalM α} (h : S.Works w P m m') (hw : w ≤ w') :
    S.Works w' P m m' := fun w₁ hw₁ => h w₁ (le_trans hw hw₁)

theorem Works.mapM {f f' : α → EvalM Value} {as : List α}
    (hf : ∀ a ∈ as, S.Works w S.value (f a) (f' a)) :
    S.Works w (fun w => List.Forall₂ (S.value w)) (as.mapM f) (as.mapM f') := by
  induction as generalizing w with
  | nil => exact works_pure (fun _ _ => .nil)
  | cons a as ih =>
    rw [List.mapM_cons, List.mapM_cons]
    refine (hf a (by simp)).bind (fun w₁ hw₁ v v' hv => ?_)
    refine (ih (fun a ha => (hf a (by simp [ha])).mono hw₁)).bind (fun w₂ hw₂ vs vs' hvs => ?_)
    refine works_pure (fun w₃ hw₃ => .cons (S.value_mono (le_trans hw₂ hw₃) hv) ?_)
    exact hvs.imp (fun _ _ => S.value_mono hw₃)

theorem Works.letRec {n : Nat} {x : String} {v b : Expr}
    (ih : ∀ {w₁ ρ ρ' e}, S.env w₁ (· ∈ e.free) ρ ρ' →
      S.Works w₁ S.value (eval n ρ e) (eval n ρ' e))
    (hρ : S.env w (· ∈ (Expr.letRec x v b).free) ρ ρ') :
    S.Works w S.value (eval (n + 1) ρ (.letRec x v b)) (eval (n + 1) ρ' (.letRec x v b)) := by
  intro w₁ hw₁ store store' hs
  obtain ⟨w₂, hw₂, hs₂, hslot, hfill⟩ := S.alloc hs
  have hscope : ∀ {e : Expr}, (∀ y ∈ e.free, y ≠ x → y ∈ (Expr.letRec x v b).free) →
      S.Works w₂ S.value (eval n (.slot x store.next ρ) e) (eval n (.slot x store'.next ρ') e) :=
    fun he => ih (hslot (le_refl w₂) (S.env_mono (le_trans hw₁ hw₂) (fun y hy => he y hy.1 hy.2) hρ))
  have hv := hscope (fun y hy hyx => Expr.mem_free_letRec.mpr (Or.inl ⟨hy, hyx⟩))
  have hb := hscope (fun y hy hyx => Expr.mem_free_letRec.mpr (Or.inr ⟨hy, hyx⟩))
  rw [eval_letRec, eval_letRec]
  refine .of_le hw₂ (hv.bind (fun w₃ hw₃ u u' hu w₄ hw₄ σ σ' hσ => ?_) w₂ (le_refl w₂) _ _ hs₂)
  exact hb w₄ (le_trans hw₃ hw₄) _ _ (hfill (le_trans hw₃ hw₄) hσ (S.value_mono hw₄ hu))

variable (S) in
/-- An expression evaluates in related ways where its names are related. -/
theorem works_eval (n : Nat) : ∀ {w : W} {ρ ρ' : Env} {e : Expr}, S.env w (· ∈ e.free) ρ ρ' →
    S.Works w S.value (eval n ρ e) (eval n ρ' e) := by
  induction n with
  | zero =>
    intro w ρ ρ' e _ w₁ _ store store' _
    exact .none
  | succ n ih =>
    intro w ρ ρ' e hρ
    -- the names of a part are among those of the whole, and stay related
    have hpart : ∀ {e' : Expr} {w₁ : W}, (∀ y ∈ e'.free, y ∈ e.free) → w ≤ w₁ →
        S.Works w₁ S.value (eval n ρ e') (eval n ρ' e') :=
      fun he hw => ih (S.env_mono hw he hρ)
    cases e with
    | lit l => exact works_value (ofLit l)
    | var x =>
      intro w₁ hw₁ store store' hs
      rw [eval_var, eval_var]
      have hρ₁ := S.env_mono hw₁ (fun _ hy => hy) hρ
      exact .some ⟨w₁, le_refl w₁, S.lookup hρ₁ hs (List.mem_singleton_self x), hs⟩
    | abs x b => exact works_value (S.value_iff.mpr (.closure hρ))
    | app f a =>
      refine (hpart (fun y hy => List.mem_append_left _ hy) (le_refl w)).bind
        (fun w₁ hw₁ f f' hf => ?_)
      refine (hpart (fun y hy => List.mem_append_right _ hy) hw₁).bind (fun w₂ hw₂ a a' ha => ?_)
      have hfail := RuntimeError.Lift.notFunction (S.value_mono hw₂ hf)
      cases S.value_iff.mp hf with
      | closure hclosure =>
        refine ih (S.bind ha (S.env_mono hw₂ (fun y hy => Expr.mem_free_abs.mpr hy) hclosure))
      | _ => exact works_throw hfail
    | letIn x v b =>
      refine (hpart (fun y hy => Expr.mem_free_letIn.mpr (Or.inl hy)) (le_refl w)).bind
        (fun w₁ hw₁ u u' hu => ih (S.bind hu ?_))
      exact S.env_mono hw₁ (fun y hy => Expr.mem_free_letIn.mpr (Or.inr hy)) hρ
    | letRec x v b => exact .letRec ih hρ
    | cond c y z =>
      refine (hpart (fun u hu => by simp [Expr.free, hu]) (le_refl w)).bind
        (fun w₁ hw₁ u u' hu => ?_)
      have hfail := RuntimeError.Lift.notBool hu
      cases S.value_iff.mp hu with
      | bool b => cases b with
        | true => exact hpart (fun u hu => by simp [Expr.free, hu]) hw₁
        | false => exact hpart (fun u hu => by simp [Expr.free, hu]) hw₁
      | _ => exact works_throw hfail
    | bin op l r =>
      refine (hpart (fun y hy => List.mem_append_left _ hy) (le_refl w)).bind
        (fun w₁ hw₁ l l' hl => ?_)
      refine (hpart (fun y hy => List.mem_append_right _ hy) hw₁).bind (fun w₂ hw₂ r r' hr => ?_)
      exact works_ofExcept (binOp op (S.value_mono hw₂ hl) hr)
    | nil => exact works_value (S.value_iff.mpr .nil)
    | cons h t =>
      refine (hpart (fun y hy => List.mem_append_left _ hy) (le_refl w)).bind
        (fun w₁ hw₁ h h' hh => ?_)
      refine (hpart (fun y hy => List.mem_append_right _ hy) hw₁).bind (fun w₂ hw₂ t t' ht => ?_)
      exact works_value (S.value_iff.mpr (.cons (S.value_mono hw₂ hh) ht))
    | list es =>
      refine (Works.mapM (fun e he => ?_)).bind (fun w₁ hw₁ vs vs' hvs => works_value (ofList hvs))
      exact hpart (fun y hy => Expr.mem_free_list.mpr ⟨e, he, hy⟩) (le_refl w)
    | case e arms =>
      refine (hpart (fun y hy => Expr.mem_free_case.mpr (Or.inl hy)) (le_refl w)).bind
        (fun w₁ hw₁ u u' hu => ?_)
      obtain ⟨hnone, hnone'⟩ | ⟨p, b, bs, cs, hpb, hnames, hbs, hsel, hsel'⟩ := selectArm hu arms
      · rw [hnone, hnone']
        exact works_throw (.noMatch hu)
      · rw [hsel, hsel']
        refine ih (bindAll hbs (S.env_mono hw₁ (fun y hy => ?_) hρ))
        rw [hnames] at hy
        exact Expr.mem_free_case.mpr (Or.inr ⟨p, b, hpb, hy⟩)

variable {e : Expr} {store store' store₁ : Store} {r : Except RuntimeError Value}

theorem evaluates_forth (hρ : S.env w (· ∈ e.free) ρ ρ') (hs : S.store w store store')
    (h : Evaluates ρ e store r store₁) : ∃ w₁ r' store₁', w ≤ w₁ ∧ Evaluates ρ' e store' r' store₁' ∧
      ResultLift (S.value w₁) (S.value w₁) r r' ∧ S.store w₁ store₁ store₁' := by
  obtain ⟨n, hn⟩ := h
  have hends := S.works_eval n hρ w (le_refl w) _ _ hs
  rw [hn] at hends
  generalize hrun : eval n ρ' e store' = res at hends
  cases hends with
  | @some _ q hq =>
    obtain ⟨w₁, hw₁, hr, hs₁⟩ := hq
    exact ⟨w₁, q.1, q.2, hw₁, ⟨n, hrun⟩, hr, hs₁⟩

theorem evaluates_back (hρ : S.env w (· ∈ e.free) ρ ρ') (hs : S.store w store store')
    (h : Evaluates ρ' e store' r store₁) : ∃ w₁ r' store₁', w ≤ w₁ ∧ Evaluates ρ e store r' store₁' ∧
      ResultLift (S.value w₁) (S.value w₁) r' r ∧ S.store w₁ store₁' store₁ := by
  obtain ⟨n, hn⟩ := h
  have hends := S.works_eval n hρ w (le_refl w) _ _ hs
  rw [hn] at hends
  generalize hrun : eval n ρ e store = res at hends
  cases hends with
  | @some p _ hp =>
    obtain ⟨w₁, hw₁, hr, hs₁⟩ := hp
    exact ⟨w₁, p.1, p.2, hw₁, ⟨n, hrun⟩, hr, hs₁⟩

end Simulation

end LetML
