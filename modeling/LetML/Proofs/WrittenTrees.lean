import LetML.Infer.Basic

namespace LetML

open InferM

structure Written where
  subst : Subst
  ty : Ty
  tree : Outline

structure WrittenPattern where
  subst : Subst
  bindings : List (String × Ty)
  tree : Outline

/-- The node of a judgement on an expression. Its texts are written only if they are asked for. -/
def writeJudgement (traced : Bool) (Γ : TypeEnv) (e : Expr) (t : Ty) (premises : List Outline) :
    Outline :=
  .node e.rule (if traced then Γ.text ++ " ⊢ " ++ e.text ++ " ⇒" else "")
    (if traced then t.text else "") premises

def writeMatching (p : Pattern) (t : Ty) (s : Subst) (premises : List Outline) : Outline :=
  .node p.rule (p.text ++ " : " ++ t.text) (matchingText p t s) premises

def writeSolve (t₁ t₂ : Ty) : InferM (Subst × Outline) := do
  let s ← solve t₁ t₂
  return (s, unifyOutline t₁ t₂)

def writePattern : Pattern → Ty → InferM WrittenPattern
  | .var x, t => return ⟨.empty, [(x, t)], writeMatching (.var x) t .empty []⟩
  | .wild, t => return ⟨.empty, [], writeMatching .wild t .empty []⟩
  | .lit l, t => do
    let (s, tree) ← writeSolve l.ty t
    return ⟨s, [], writeMatching (.lit l) t s [tree]⟩
  | .nil, t => do
    let elem ← fresh
    let (s, tree) ← writeSolve (.list elem) t
    return ⟨s, [], writeMatching .nil t s [tree]⟩
  | .cons head tail, t => do
    let elem ← fresh
    let (s₁, tree) ← writeSolve (.list elem) t
    let h ← writePattern head (elem.apply s₁)
    let s₂ := h.subst.compose s₁
    let r ← writePattern tail ((Ty.list elem).apply s₂)
    let s₃ := r.subst.compose s₂
    return ⟨s₃, h.bindings ++ r.bindings,
      writeMatching (.cons head tail) t s₃ [tree, h.tree, r.tree]⟩

mutual

/-- Inference that writes its tree while it goes. -/
def write (traced : Bool) (Γ : TypeEnv) : Expr → InferM Written
  | .lit l => return ⟨.empty, l.ty, writeJudgement traced Γ (.lit l) l.ty []⟩
  | .var x => do
    match Γ.get? x with
    | none => throw (.unbound x)
    | some σ =>
      let t ← instantiate σ
      return ⟨.empty, t, writeJudgement traced Γ (.var x) t []⟩
  | .abs x b => do
    let param ← fresh
    let r ← write traced (Γ.insert x (.mono param)) b
    let t := Ty.arrow (param.apply r.subst) r.ty
    return ⟨r.subst, t, writeJudgement traced Γ (.abs x b) t [r.tree]⟩
  | .app f a => do
    let r₁ ← write traced Γ f
    let r₂ ← write traced (Γ.apply r₁.subst) a
    let result ← fresh
    let (s, tree) ← writeSolve (r₁.ty.apply r₂.subst) (.arrow r₂.ty result)
    let t := result.apply s
    return ⟨s.compose (r₂.subst.compose r₁.subst), t,
      writeJudgement traced Γ (.app f a) t [r₁.tree, r₂.tree, tree]⟩
  | .letIn x v b => do
    let r₁ ← write traced Γ v
    let Γ₁ := Γ.apply r₁.subst
    let r₂ ← write traced (Γ₁.insert x (Γ₁.generalize (r₁.ty.apply r₁.subst))) b
    return ⟨r₂.subst.compose r₁.subst, r₂.ty,
      writeJudgement traced Γ (.letIn x v b) r₂.ty [r₁.tree, r₂.tree]⟩
  | .letRec x v b => do
    let self ← fresh
    let r₁ ← write traced (Γ.insert x (.mono self)) v
    let (s, tree) ← writeSolve (self.apply r₁.subst) (r₁.ty.apply r₁.subst)
    let s₁ := s.compose r₁.subst
    let Γ₁ := Γ.apply s₁
    let r₂ ← write traced (Γ₁.insert x (Γ₁.generalize (self.apply s₁))) b
    return ⟨r₂.subst.compose s₁, r₂.ty,
      writeJudgement traced Γ (.letRec x v b) r₂.ty [r₁.tree, tree, r₂.tree]⟩
  | .cond c t e => do
    let r₁ ← write traced Γ c
    let (s, tree₁) ← writeSolve .bool r₁.ty
    let s₁ := s.compose r₁.subst
    let r₂ ← write traced (Γ.apply s₁) t
    let s₂ := r₂.subst.compose s₁
    let r₃ ← write traced (Γ.apply s₂) e
    let s₃ := r₃.subst.compose s₂
    let (s', tree₂) ← writeSolve (r₂.ty.apply s₃) (r₃.ty.apply s₃)
    let s₄ := s'.compose s₃
    let result := r₃.ty.apply s₄
    return ⟨s₄, result, writeJudgement traced Γ (.cond c t e) result
      [r₁.tree, tree₁, r₂.tree, r₃.tree, tree₂]⟩
  | .bin op l r => do
    let r₁ ← write traced Γ l
    let (s, tree₁) ← writeSolve op.operandTy r₁.ty
    let s₁ := s.compose r₁.subst
    let r₂ ← write traced (Γ.apply s₁) r
    let s₂ := r₂.subst.compose s₁
    let (s', tree₂) ← writeSolve op.operandTy (r₂.ty.apply s₂)
    return ⟨s'.compose s₂, op.resultTy, writeJudgement traced Γ (.bin op l r) op.resultTy
      [r₁.tree, tree₁, r₂.tree, tree₂]⟩
  | .nil => do
    let t := Ty.list (← fresh)
    return ⟨.empty, t, writeJudgement traced Γ .nil t []⟩
  | .cons h t => do
    let r₁ ← write traced Γ h
    let r₂ ← write traced (Γ.apply r₁.subst) t
    let s₁ := r₂.subst.compose r₁.subst
    let list := Ty.list (r₁.ty.apply s₁)
    let (s, tree) ← writeSolve list (r₂.ty.apply s₁)
    let result := list.apply s
    return ⟨s.compose s₁, result, writeJudgement traced Γ (.cons h t) result
      [r₁.tree, r₂.tree, tree]⟩
  | .list es => do
    let elem ← fresh
    let (s, trees) ← writeElems traced Γ elem .empty es
    let t := Ty.list (elem.apply s)
    return ⟨s, t, writeJudgement traced Γ (.list es) t trees⟩
  | .case e arms => do
    let r ← write traced Γ e
    let result ← fresh
    let (s, trees) ← writeArms traced Γ r.ty result r.subst arms
    let t := result.apply s
    return ⟨s, t, writeJudgement traced Γ (.case e arms) t (r.tree :: trees)⟩

def writeElems (traced : Bool) (Γ : TypeEnv) (elem : Ty) (s : Subst) :
    List Expr → InferM (Subst × List Outline)
  | [] => return (s, [])
  | e :: es => do
    let r ← write traced (Γ.apply s) e
    let s₁ := r.subst.compose s
    let (s', tree) ← writeSolve (elem.apply s₁) (r.ty.apply s₁)
    let (s₃, trees) ← writeElems traced Γ elem (s'.compose s₁) es
    return (s₃, r.tree :: tree :: trees)

def writeArms (traced : Bool) (Γ : TypeEnv) (scrutinee result : Ty) (s : Subst) :
    List (Pattern × Expr) → InferM (Subst × List Outline)
  | [] => return (s, [])
  | (p, b) :: arms => do
    let m ← writePattern p (scrutinee.apply s)
    let s₁ := m.subst.compose s
    let bindings := m.bindings.map fun b => (b.1, b.2.apply s₁)
    let r ← write traced ((Γ.apply s₁).bindAll bindings) b
    let s₂ := r.subst.compose s₁
    let (s', tree) ← writeSolve (result.apply s₂) (r.ty.apply s₂)
    let (s₄, trees) ← writeArms traced Γ scrutinee result (s'.compose s₂) arms
    return (s₄, m.tree :: r.tree :: tree :: trees)

end

def Inferred.written (traced : Bool) (r : Inferred) : Written :=
  ⟨r.subst, r.ty, r.derivation.outline traced⟩

def InferredPattern.written (traced : Bool) (r : InferredPattern) : WrittenPattern :=
  ⟨r.subst, r.bindings, r.derivation.outline traced⟩

theorem outline_typing (traced : Bool) (Γ : TypeEnv) (e : Expr) (t : Ty) (premises : List Derivation) :
    (Derivation.typing Γ e t premises).outline traced =
      writeJudgement traced Γ e t (Derivation.outlines traced premises) := by
  cases traced <;> rfl

theorem outline_matching (traced : Bool) (p : Pattern) (t : Ty) (s : Subst)
    (premises : List Derivation) : (Derivation.matching p t s premises).outline traced =
      writeMatching p t s (Derivation.outlines traced premises) := by
  rw [Derivation.outline, writeMatching]

theorem outline_solving (traced : Bool) (t₁ t₂ : Ty) :
    (Derivation.solving t₁ t₂).outline traced = unifyOutline t₁ t₂ := by
  rw [Derivation.outline]

theorem writeSolve_eq (t₁ t₂ : Ty) :
    writeSolve t₁ t₂ = (fun s => (s, unifyOutline t₁ t₂)) <$> solve t₁ t₂ := rfl

section

-- makes the equations of both kinds of inference here, once for all the rules below
attribute [local simp] write infer writeElems inferElems writeArms inferArms writePattern inferPattern
  Inferred.written InferredPattern.written outline_typing outline_matching outline_solving
  Derivation.outlines writeSolve_eq

theorem writePattern_eq (traced : Bool) (p : Pattern) (t : Ty) :
    writePattern p t = InferredPattern.written traced <$> inferPattern p t := by
  induction p generalizing t with
  | var x => simp
  | wild => simp
  | lit l => simp
  | nil => simp
  | cons p q ihp ihq => simp [ihp, ihq]

mutual

theorem write_eq (traced : Bool) (Γ : TypeEnv) : (e : Expr) →
    write traced Γ e = Inferred.written traced <$> infer Γ e
  | .lit l => by simp
  | .var x => by
    simp only [write, infer]
    cases Γ.get? x with
    | none => rfl
    | some σ => simp
  | .abs x b => by simp [write_eq traced _ b]
  | .app f a => by simp [write_eq traced _ f, write_eq traced _ a]
  | .letIn x v b => by simp [write_eq traced _ v, write_eq traced _ b]
  | .letRec x v b => by simp [write_eq traced _ v, write_eq traced _ b]
  | .cond c y n => by simp [write_eq traced _ c, write_eq traced _ y, write_eq traced _ n]
  | .bin op l r => by simp [write_eq traced _ l, write_eq traced _ r]
  | .nil => by simp
  | .cons h t => by simp [write_eq traced _ h, write_eq traced _ t]
  | .list es => by simp [writeElems_eq traced _ _ _ es]
  | .case e arms => by simp [write_eq traced _ e, writeArms_eq traced _ _ _ _ arms]

theorem writeElems_eq (traced : Bool) (Γ : TypeEnv) (elem : Ty) (s : Subst) : (es : List Expr) →
    writeElems traced Γ elem s es =
      (fun p => (p.1, Derivation.outlines traced p.2)) <$> inferElems Γ elem s es
  | [] => by simp
  | e :: es => by simp [write_eq traced _ e, writeElems_eq traced _ _ _ es]

theorem writeArms_eq (traced : Bool) (Γ : TypeEnv) (scrutinee result : Ty) (s : Subst) :
    (arms : List (Pattern × Expr)) → writeArms traced Γ scrutinee result s arms =
      (fun p => (p.1, Derivation.outlines traced p.2)) <$> inferArms Γ scrutinee result s arms
  | [] => by simp
  | (p, b) :: arms => by
    simp [writePattern_eq traced, write_eq traced _ b, writeArms_eq traced _ _ _ _ arms]

end

end

namespace Outline

def isJudgement (rule : String) : Bool := "T-".toList.isPrefixOf rule.toList

mutual

/-- The same tree, in which judgements on expressions have no texts. -/
def withoutJudgements : Outline → Outline
  | node rule input output children =>
    if isJudgement rule then node rule "" "" (allWithoutJudgements children)
    else node rule input output (allWithoutJudgements children)

def allWithoutJudgements : List Outline → List Outline
  | [] => []
  | o :: os => o.withoutJudgements :: allWithoutJudgements os

end

theorem allWithoutJudgements_eq (os : List Outline) :
    allWithoutJudgements os = os.map withoutJudgements := by
  induction os with
  | nil => rfl
  | cons o os ih => rw [allWithoutJudgements, ih, List.map_cons]

end Outline

theorem isJudgement_exprRule (e : Expr) : Outline.isJudgement e.rule = true := by
  cases e with
  | lit l => cases l <;> simp [Expr.rule, Outline.isJudgement]
  | _ => simp [Expr.rule, Outline.isJudgement]

theorem isJudgement_patternRule (p : Pattern) : Outline.isJudgement p.rule = false := by
  cases p <;> simp [Pattern.rule, Outline.isJudgement, List.isPrefixOf]

theorem isJudgement_unifyRule (t₁ t₂ : Ty) : Outline.isJudgement (unifyRule t₁ t₂) = false := by
  unfold unifyRule
  split
  · split <;> simp [Outline.isJudgement, List.isPrefixOf]
  all_goals simp [Outline.isJudgement, List.isPrefixOf]

theorem withoutJudgements_unifyOutline (t₁ t₂ : Ty) :
    (unifyOutline t₁ t₂).withoutJudgements = unifyOutline t₁ t₂ := by
  rw [unifyOutline, Outline.withoutJudgements, isJudgement_unifyRule, Outline.allWithoutJudgements_eq,
    List.map_map]
  refine congrArg (Outline.node _ _ _) (List.map_congr_left (fun p _ => ?_))
  exact withoutJudgements_unifyOutline p.1.1 p.1.2
termination_by (distinctVars t₁ t₂, t₁.size + t₂.size)
decreasing_by exact subproblems_lt p.2

mutual

theorem outline_false : (d : Derivation) → d.outline false = (d.outline true).withoutJudgements
  | .typing Γ e t premises => by
    rw [outline_typing, outline_typing, writeJudgement, writeJudgement, Outline.withoutJudgements,
      isJudgement_exprRule, outlines_false premises]
    rfl
  | .matching p t s premises => by
    rw [outline_matching, outline_matching, writeMatching, writeMatching, Outline.withoutJudgements,
      isJudgement_patternRule, outlines_false premises]
    rfl
  | .solving t₁ t₂ => by
    rw [outline_solving, outline_solving, withoutJudgements_unifyOutline]

theorem outlines_false : (ds : List Derivation) →
    Derivation.outlines false ds = Outline.allWithoutJudgements (Derivation.outlines true ds)
  | [] => rfl
  | d :: ds => by
    rw [Derivation.outlines, Derivation.outlines, Outline.allWithoutJudgements, outline_false d,
      outlines_false ds]

end

def Written.withoutJudgements (r : Written) : Written :=
  { r with tree := r.tree.withoutJudgements }

/-- To write no judgements makes no difference but for the tree, where they are missing. -/
theorem write_false (Γ : TypeEnv) (e : Expr) :
    write false Γ e = Written.withoutJudgements <$> write true Γ e := by
  rw [write_eq, write_eq, Functor.map_map]
  refine congrArg (· <$> infer Γ e) (funext fun r => ?_)
  simp only [Inferred.written, Written.withoutJudgements, outline_false]

end LetML
