import LetML.Proofs.ClauseSemantics
import LetML.Proofs.Computation
import LetML.Proofs.PreludeText

namespace LetML

open Clause

variable {ρ ρ' : Env} {store store₁ : Store} {v : Value} {vs : List Value} {x : String} {b : Expr}

namespace Equations

/-- A function that equations define in an environment. If they are recursive, it finds itself in
a slot. -/
inductive Function (E : Equations) (store : Store) (ρ : Env) : Value → Prop
  | plain {name x : String} {b : Expr} : E.recursive = false →
    desugar E.clauses = .ok (name, .abs x b) → E.Function store ρ (.closure x b ρ)
  | recursive {name x : String} {b : Expr} {a : Nat} : E.recursive = true →
    desugar E.clauses = .ok (name, .abs x b) →
    store.get? a = some (.closure x b (.slot name a ρ)) →
    E.Function store ρ (.closure x b (.slot name a ρ))

def scope (E : Equations) (ρ : Env) (v : Value) : Env :=
  if E.recursive then .bind E.first.name v ρ else ρ

theorem Function.grows {E : Equations} (h : E.Function store ρ v) (hg : store.Grows store₁) :
    E.Function store₁ ρ v := by
  cases h with
  | plain hplain hdef => exact .plain hplain hdef
  | recursive hrec hdef hslot => exact .recursive hrec hdef (hg.get? hslot)

end Equations

def Clause.tidy (c : Clause) : Bool :=
  (c.params.flatMap Pattern.names ++ c.body.free).all fun x => x.toList.head? ≠ some '_'

theorem Clause.hygienic_of_tidy {c : Clause} (h : c.tidy = true) : c.Hygienic := by
  simp only [tidy, List.all_eq_true, decide_eq_true_eq] at h
  refine ⟨fun p hp x hx => not_synthetic (h x ?_), fun x hx => not_synthetic (h x ?_)⟩
  · exact List.mem_append_left _ (List.mem_flatMap.mpr ⟨p, hp, hx⟩)
  · exact List.mem_append_right _ hx

theorem Env.lookup_bindAll_congr {bs : List (String × Value)}
    (h : ∀ x, ρ.lookup store x = ρ'.lookup store x) (x : String) :
    (ρ.bindAll bs).lookup store x = (ρ'.bindAll bs).lookup store x := by
  induction bs generalizing ρ ρ' with
  | nil => exact h x
  | cons b bs ih => exact ih (fun x => by rw [lookup, lookup, h])

namespace Computation

theorem ends_applyAll {r : Except RuntimeError Value} {store' : Store} :
    (applyAll (.closure x b ρ) vs).Ends store r store' ↔
      AppliedTo ρ (.abs x b) vs store r store' := by
  have hrun : ∀ n, (evaluation ρ (.abs x b) >>= fun f => applyAll f vs).run n =
      eval n ρ (.abs x b) >>= fun f => vs.foldlM (apply n) f := fun n =>
    congrArg (eval n ρ (.abs x b) >>= ·) (funext fun f => run_applyAll f vs n)
  have habs : Agree store (evaluation ρ (.abs x b)) (pure (.closure x b ρ)) := agree_abs x b
  have hagree := habs.bind_left (f := fun f => applyAll f vs)
  rw [pure_bind] at hagree
  rw [← hagree.ends_iff, Ends, AppliedTo]
  simp only [hrun]

theorem agree_of_select {first : Clause} {rest : List Clause} {name : String} {e : Expr}
    {bs : List (String × Value)} {c : Computation Value}
    (hdef : desugar (first :: rest) = .ok (name, .abs x b))
    (hhyg : ∀ c ∈ first :: rest, c.Hygienic) (hlen : vs.length = first.params.length)
    (hpos : 0 < vs.length) (hsel : select vs (first :: rest) = some (bs, e))
    (hc : ∀ ρ', (ρ.bindAll bs).Padded ρ' → Agree store (evaluation ρ' e) c) :
    Agree store (applyAll (.closure x b ρ) vs) c := by
  refine ⟨fun store₁ hg => funext fun r => funext fun store' => ?_⟩
  have himpl : Implements (AppliedTo ρ (.abs x b) vs store₁) (first :: rest) ρ vs store₁ :=
    implements_desugar hdef hhyg hlen hpos
  rw [Implements, hsel] at himpl
  obtain ⟨ρ', hpadded, hends⟩ := himpl
  rw [eq_iff_iff, ends_applyAll, hends, ← (hc ρ' hpadded).ends_eq store₁ hg]
  rfl

end Computation

open LetML.Computation

namespace Equations.Function

variable {E : Equations} {e : Expr} {bs : List (String × Value)} {c : Computation Value}

/-- To apply a function is to evaluate the body of the first clause that matches, which sees what
its patterns bind, the function and the names around it. -/
theorem agree (h : E.Function store ρ v) (htidy : ∀ c ∈ E.clauses, c.tidy = true)
    (hlen : vs.length = E.first.params.length) (hpos : 0 < vs.length)
    (hsel : select vs E.clauses = some (bs, e))
    (hc : ∀ ρ', (∀ x, x.toList.head? ≠ some '_' →
      ρ'.lookup store x = ((E.scope ρ v).bindAll bs).lookup store x) →
      Agree store (evaluation ρ' e) c) :
    Agree store (applyAll v vs) c := by
  have hhyg : ∀ c ∈ E.clauses, c.Hygienic := fun c hc => hygienic_of_tidy (htidy c hc)
  cases h with
  | plain hplain hdef =>
    refine agree_of_select hdef hhyg hlen hpos hsel fun ρ' hpadded => hc ρ' fun x hx => ?_
    rw [hpadded.lookup store (not_synthetic hx), scope, hplain]
    rfl
  | @recursive name y b a hrec hdef hslot =>
    obtain rfl : E.first.name = name := ((of_desugar hdef).1 E.first List.mem_cons_self).1
    refine agree_of_select hdef hhyg hlen hpos hsel fun ρ' hpadded => hc ρ' fun x hx => ?_
    rw [hpadded.lookup store (not_synthetic hx), scope, hrec]
    refine Env.lookup_bindAll_congr (fun z => ?_) x
    rw [Env.lookup, hslot]
    rfl

theorem exists_application (h : E.Function store ρ v)
    (hE : ∃ name x y b, desugar E.clauses = .ok (name, .abs x (.abs y b))) (w : Value) :
    ∃ g, Agree store (application v w) (pure g) := by
  obtain ⟨name, x, y, b, hE⟩ := hE
  cases h with
  | plain _ hdef =>
    cases hdef.symm.trans hE
    exact ⟨_, agree_abs y b⟩
  | recursive _ hdef _ =>
    cases hdef.symm.trans hE
    exact ⟨_, agree_abs y b⟩

end Equations.Function

end LetML
