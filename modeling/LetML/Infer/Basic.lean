import LetML.Infer.Derivation
import LetML.Infer.Supply
import LetML.Signature

namespace LetML

open InferM

structure Inferred where
  subst : Subst
  ty : Ty
  derivation : Derivation

/-- What inference finds for a pattern. The types of the names it binds are still to be put through
the substitution. -/
structure InferredPattern where
  subst : Subst
  bindings : List (String × Ty)
  derivation : Derivation

def inferPattern : Pattern → Ty → InferM InferredPattern
  | .var x, t => return ⟨.empty, [(x, t)], .matching (.var x) t .empty []⟩
  | .wild, t => return ⟨.empty, [], .matching .wild t .empty []⟩
  | .lit l, t => do
    let s ← solve l.ty t
    return ⟨s, [], .matching (.lit l) t s [.solving l.ty t]⟩
  | .nil, t => do
    let list := Ty.list (← fresh)
    let s ← solve list t
    return ⟨s, [], .matching .nil t s [.solving list t]⟩
  | .cons head tail, t => do
    let elem ← fresh
    let list := Ty.list elem
    let s₁ ← solve list t
    let h ← inferPattern head (elem.apply s₁)
    let s₂ := h.subst.compose s₁
    let r ← inferPattern tail (list.apply s₂)
    let s₃ := r.subst.compose s₂
    return ⟨s₃, h.bindings ++ r.bindings,
      .matching (.cons head tail) t s₃ [.solving list t, h.derivation, r.derivation]⟩

def TypeEnv.bindAll (Γ : TypeEnv) (bindings : List (String × Ty)) : TypeEnv :=
  bindings.foldl (fun Γ b => Γ.insert b.1 (.mono b.2)) Γ

mutual

/-- The most general type of an expression. Only what `let` and `let rec` define is generalised,
over the variables that the environment leaves free. -/
def infer (Γ : TypeEnv) : Expr → InferM Inferred
  | .lit l => return ⟨.empty, l.ty, .typing Γ (.lit l) l.ty []⟩
  | .var x => do
    match Γ.get? x with
    | none => throw (.unbound x)
    | some σ =>
      let t ← instantiate σ
      return ⟨.empty, t, .typing Γ (.var x) t []⟩
  | .abs x b => do
    let param ← fresh
    let r ← infer (Γ.insert x (.mono param)) b
    let t := Ty.arrow (param.apply r.subst) r.ty
    return ⟨r.subst, t, .typing Γ (.abs x b) t [r.derivation]⟩
  | .app f a => do
    let r₁ ← infer Γ f
    let r₂ ← infer (Γ.apply r₁.subst) a
    let result ← fresh
    let fn := r₁.ty.apply r₂.subst
    let s ← solve fn (.arrow r₂.ty result)
    let t := result.apply s
    return ⟨s.compose (r₂.subst.compose r₁.subst), t, .typing Γ (.app f a) t
      [r₁.derivation, r₂.derivation, .solving fn (.arrow r₂.ty result)]⟩
  | .letIn x v b => do
    let r₁ ← infer Γ v
    let Γ₁ := Γ.apply r₁.subst
    let r₂ ← infer (Γ₁.insert x (Γ₁.generalize (r₁.ty.apply r₁.subst))) b
    return ⟨r₂.subst.compose r₁.subst, r₂.ty, .typing Γ (.letIn x v b) r₂.ty
      [r₁.derivation, r₂.derivation]⟩
  | .letRec x v b => do
    let self ← fresh
    let r₁ ← infer (Γ.insert x (.mono self)) v
    let used := self.apply r₁.subst
    let found := r₁.ty.apply r₁.subst
    let s ← solve used found
    let s₁ := s.compose r₁.subst
    let Γ₁ := Γ.apply s₁
    let r₂ ← infer (Γ₁.insert x (Γ₁.generalize (self.apply s₁))) b
    return ⟨r₂.subst.compose s₁, r₂.ty, .typing Γ (.letRec x v b) r₂.ty
      [r₁.derivation, .solving used found, r₂.derivation]⟩
  | .cond c t e => do
    let r₁ ← infer Γ c
    let s ← solve .bool r₁.ty
    let s₁ := s.compose r₁.subst
    let r₂ ← infer (Γ.apply s₁) t
    let s₂ := r₂.subst.compose s₁
    let r₃ ← infer (Γ.apply s₂) e
    let s₃ := r₃.subst.compose s₂
    let yes := r₂.ty.apply s₃
    let no := r₃.ty.apply s₃
    let s₄ := (← solve yes no).compose s₃
    let result := r₃.ty.apply s₄
    return ⟨s₄, result, .typing Γ (.cond c t e) result
      [r₁.derivation, .solving .bool r₁.ty, r₂.derivation, r₃.derivation, .solving yes no]⟩
  | .bin op l r => do
    let r₁ ← infer Γ l
    let s ← solve op.operandTy r₁.ty
    let s₁ := s.compose r₁.subst
    let r₂ ← infer (Γ.apply s₁) r
    let s₂ := r₂.subst.compose s₁
    let right := r₂.ty.apply s₂
    let s₃ := (← solve op.operandTy right).compose s₂
    return ⟨s₃, op.resultTy, .typing Γ (.bin op l r) op.resultTy
      [r₁.derivation, .solving op.operandTy r₁.ty, r₂.derivation, .solving op.operandTy right]⟩
  | .nil => do
    let t := Ty.list (← fresh)
    return ⟨.empty, t, .typing Γ .nil t []⟩
  | .cons h t => do
    let r₁ ← infer Γ h
    let r₂ ← infer (Γ.apply r₁.subst) t
    let s₁ := r₂.subst.compose r₁.subst
    let list := Ty.list (r₁.ty.apply s₁)
    let tail := r₂.ty.apply s₁
    let s ← solve list tail
    let result := list.apply s
    return ⟨s.compose s₁, result, .typing Γ (.cons h t) result
      [r₁.derivation, r₂.derivation, .solving list tail]⟩
  | .list es => do
    let elem ← fresh
    let (s, premises) ← inferElems Γ elem .empty es
    let t := Ty.list (elem.apply s)
    return ⟨s, t, .typing Γ (.list es) t premises⟩
  | .case e arms => do
    let r ← infer Γ e
    let result ← fresh
    let (s, premises) ← inferArms Γ r.ty result r.subst arms
    let t := result.apply s
    return ⟨s, t, .typing Γ (.case e arms) t (r.derivation :: premises)⟩

def inferElems (Γ : TypeEnv) (elem : Ty) (s : Subst) : List Expr → InferM (Subst × List Derivation)
  | [] => return (s, [])
  | e :: es => do
    let r ← infer (Γ.apply s) e
    let s₁ := r.subst.compose s
    let expected := elem.apply s₁
    let found := r.ty.apply s₁
    let s₂ := (← solve expected found).compose s₁
    let (s₃, premises) ← inferElems Γ elem s₂ es
    return (s₃, r.derivation :: .solving expected found :: premises)

def inferArms (Γ : TypeEnv) (scrutinee result : Ty) (s : Subst) :
    List (Pattern × Expr) → InferM (Subst × List Derivation)
  | [] => return (s, [])
  | (p, b) :: arms => do
    let m ← inferPattern p (scrutinee.apply s)
    let s₁ := m.subst.compose s
    let bindings := m.bindings.map fun b => (b.1, b.2.apply s₁)
    let r ← infer ((Γ.apply s₁).bindAll bindings) b
    let s₂ := r.subst.compose s₁
    let expected := result.apply s₂
    let found := r.ty.apply s₂
    let s₃ := (← solve expected found).compose s₂
    let (s₄, premises) ← inferArms Γ scrutinee result s₃ arms
    return (s₄, m.derivation :: r.derivation :: .solving expected found :: premises)

end

def inferScheme (Γ : TypeEnv) (e : Expr) : InferM (Scheme × Derivation) := do
  let r ← infer Γ e
  return ((Γ.apply r.subst).generalize (r.ty.apply r.subst), r.derivation)

/-- The state in which no variable of the environment can be taken for an unused one. -/
def TypeEnv.unused (Γ : TypeEnv) : Supply := ⟨Γ.supply, []⟩

def schemeOf (Γ : TypeEnv) (e : Expr) : Except TypeError Scheme :=
  ((inferScheme Γ e).run Γ.unused).1.map (·.1)

end LetML
