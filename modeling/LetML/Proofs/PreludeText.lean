import LetML.Parser.Basic
import LetML.Session.Prelude

namespace LetML

namespace Expr

mutual

def same : Expr → Expr → Bool
  | lit l, lit l' => l = l'
  | var x, var x' => x = x'
  | abs x b, abs x' b' => x = x' && b.same b'
  | app f a, app f' a' => f.same f' && a.same a'
  | letIn x v b, letIn x' v' b' => x = x' && v.same v' && b.same b'
  | letRec x v b, letRec x' v' b' => x = x' && v.same v' && b.same b'
  | cond c t e, cond c' t' e' => c.same c' && t.same t' && e.same e'
  | bin op l r, bin op' l' r' => op = op' && l.same l' && r.same r'
  | nil, nil => true
  | cons h t, cons h' t' => h.same h' && t.same t'
  | list es, list es' => sameElems es es'
  | case e arms, case e' arms' => e.same e' && sameArms arms arms'
  | _, _ => false

def sameElems : List Expr → List Expr → Bool
  | [], [] => true
  | e :: es, e' :: es' => e.same e' && sameElems es es'
  | _, _ => false

def sameArms : List (Pattern × Expr) → List (Pattern × Expr) → Bool
  | [], [] => true
  | (p, e) :: arms, (p', e') :: arms' => p = p' && e.same e' && sameArms arms arms'
  | _, _ => false

end

mutual

theorem eq_of_same : ∀ {e e' : Expr}, e.same e' = true → e = e'
  | lit l, e', h => by
    cases e' with
    | lit l' => simp_all [same]
    | _ => cases h
  | var x, e', h => by
    cases e' with
    | var x' => simp_all [same]
    | _ => cases h
  | abs x b, e', h => by
    cases e' with
    | abs x' b' =>
      simp only [same, Bool.and_eq_true, decide_eq_true_eq] at h
      rw [h.1, eq_of_same h.2]
    | _ => cases h
  | app f a, e', h => by
    cases e' with
    | app f' a' =>
      simp only [same, Bool.and_eq_true] at h
      rw [eq_of_same h.1, eq_of_same h.2]
    | _ => cases h
  | letIn x v b, e', h => by
    cases e' with
    | letIn x' v' b' =>
      simp only [same, Bool.and_eq_true, decide_eq_true_eq] at h
      rw [h.1.1, eq_of_same h.1.2, eq_of_same h.2]
    | _ => cases h
  | letRec x v b, e', h => by
    cases e' with
    | letRec x' v' b' =>
      simp only [same, Bool.and_eq_true, decide_eq_true_eq] at h
      rw [h.1.1, eq_of_same h.1.2, eq_of_same h.2]
    | _ => cases h
  | cond c t e, e', h => by
    cases e' with
    | cond c' t' e' =>
      simp only [same, Bool.and_eq_true] at h
      rw [eq_of_same h.1.1, eq_of_same h.1.2, eq_of_same h.2]
    | _ => cases h
  | bin op l r, e', h => by
    cases e' with
    | bin op' l' r' =>
      simp only [same, Bool.and_eq_true, decide_eq_true_eq] at h
      rw [h.1.1, eq_of_same h.1.2, eq_of_same h.2]
    | _ => cases h
  | nil, e', h => by
    cases e' with
    | nil => rfl
    | _ => cases h
  | cons a b, e', h => by
    cases e' with
    | cons a' b' =>
      simp only [same, Bool.and_eq_true] at h
      rw [eq_of_same h.1, eq_of_same h.2]
    | _ => cases h
  | list es, e', h => by
    cases e' with
    | list es' => rw [eq_of_sameElems h]
    | _ => cases h
  | case e arms, e', h => by
    cases e' with
    | case e' arms' =>
      simp only [same, Bool.and_eq_true] at h
      rw [eq_of_same h.1, eq_of_sameArms h.2]
    | _ => cases h

theorem eq_of_sameElems : ∀ {es es' : List Expr}, sameElems es es' = true → es = es'
  | [], [], _ => rfl
  | e :: es, e' :: es', h => by
    simp only [sameElems, Bool.and_eq_true] at h
    rw [eq_of_same h.1, eq_of_sameElems h.2]

theorem eq_of_sameArms : ∀ {arms arms' : List (Pattern × Expr)},
    sameArms arms arms' = true → arms = arms'
  | [], [], _ => rfl
  | (p, e) :: arms, (p', e') :: arms', h => by
    simp only [sameArms, Bool.and_eq_true, decide_eq_true_eq] at h
    rw [h.1.1, eq_of_same h.1.2, eq_of_sameArms h.2]

end

end Expr

namespace Decl

def same : Decl → Decl → Bool
  | define r x v, define r' x' v' => r = r' && x = x' && v.same v'
  | eval e, eval e' => e.same e'
  | _, _ => false

theorem eq_of_same {d d' : Decl} (h : d.same d' = true) : d = d' := by
  cases d with
  | define r x v =>
    cases d' with
    | define r' x' v' =>
      simp only [same, Bool.and_eq_true, decide_eq_true_eq] at h
      rw [h.1.1, h.1.2, Expr.eq_of_same h.2]
    | eval e' => cases h
  | eval e =>
    cases d' with
    | define r' x' v' => cases h
    | eval e' => rw [Expr.eq_of_same h]

def sameAll : List Decl → List Decl → Bool
  | [], [] => true
  | d :: ds, d' :: ds' => d.same d' && sameAll ds ds'
  | _, _ => false

theorem eq_of_sameAll : ∀ {ds ds' : List Decl}, sameAll ds ds' = true → ds = ds'
  | [], [], _ => rfl
  | d :: ds, d' :: ds', h => by
    simp only [sameAll, Bool.and_eq_true] at h
    rw [eq_of_same h.1, eq_of_sameAll h.2]

end Decl

/-- The clauses of one definition, which may be recursive. -/
structure Equations where
  recursive : Bool
  first : Clause
  rest : List Clause

def Equations.clauses (E : Equations) : List Clause := E.first :: E.rest

def Equations.decl (E : Equations) : Except Fault Decl := letDecl E.recursive E.clauses

namespace Prelude

def equation (name : String) (params : List Pattern) (body : Expr) : Equations :=
  ⟨false, ⟨name, params, body⟩, []⟩

def map : Equations where
  recursive := true
  first := ⟨"map", [.var "f", .nil], .nil⟩
  rest := [⟨"map", [.var "f", .cons (.var "h") (.var "t")],
    .cons (.app (.var "f") (.var "h")) (.app (.app (.var "map") (.var "f")) (.var "t"))⟩]

def filter : Equations where
  recursive := true
  first := ⟨"filter", [.var "p", .nil], .nil⟩
  rest := [⟨"filter", [.var "p", .cons (.var "h") (.var "t")],
    .cond (.app (.var "p") (.var "h"))
      (.cons (.var "h") (.app (.app (.var "filter") (.var "p")) (.var "t")))
      (.app (.app (.var "filter") (.var "p")) (.var "t"))⟩]

def foldl : Equations where
  recursive := true
  first := ⟨"foldl", [.var "f", .var "acc", .nil], .var "acc"⟩
  rest := [⟨"foldl", [.var "f", .var "acc", .cons (.var "h") (.var "t")],
    .app (.app (.app (.var "foldl") (.var "f"))
      (.app (.app (.var "f") (.var "acc")) (.var "h"))) (.var "t")⟩]

def foldr : Equations where
  recursive := true
  first := ⟨"foldr", [.var "f", .var "z", .nil], .var "z"⟩
  rest := [⟨"foldr", [.var "f", .var "z", .cons (.var "h") (.var "t")],
    .app (.app (.var "f") (.var "h"))
      (.app (.app (.app (.var "foldr") (.var "f")) (.var "z")) (.var "t"))⟩]

def length : Equations where
  recursive := true
  first := ⟨"length", [.nil], .lit (.int 0)⟩
  rest := [⟨"length", [.cons .wild (.var "t")],
    .bin .add (.lit (.int 1)) (.app (.var "length") (.var "t"))⟩]

def append : Equations where
  recursive := true
  first := ⟨"append", [.nil, .var "ys"], .var "ys"⟩
  rest := [⟨"append", [.cons (.var "h") (.var "t"), .var "ys"],
    .cons (.var "h") (.app (.app (.var "append") (.var "t")) (.var "ys"))⟩]

/-- `name xs = foldl (\\acc x -> body) start xs` -/
def folding (name acc x : String) (body start : Expr) : Equations :=
  equation name [.var "xs"]
    (.app (.app (.app (.var "foldl") (.abs acc (.abs x body))) start) (.var "xs"))

def reverse : Equations := folding "reverse" "acc" "x" (.cons (.var "x") (.var "acc")) .nil

def range : Equations where
  recursive := true
  first := ⟨"range", [.var "lo", .var "hi"],
    .cond (.bin .gt (.var "lo") (.var "hi")) .nil
      (.cons (.var "lo") (.app (.app (.var "range")
        (.bin .add (.var "lo") (.lit (.int 1)))) (.var "hi")))⟩
  rest := []

def all : List Equations :=
  [equation "id" [.var "x"] (.var "x"),
    equation "const" [.var "x", .wild] (.var "x"),
    equation "flip" [.var "f", .var "x", .var "y"] (.app (.app (.var "f") (.var "y")) (.var "x")),
    equation "compose" [.var "f", .var "g", .var "x"]
      (.app (.var "f") (.app (.var "g") (.var "x"))),
    ⟨false, ⟨"not", [.lit (.bool true)], .lit (.bool false)⟩,
      [⟨"not", [.lit (.bool false)], .lit (.bool true)⟩]⟩,
    map, filter, foldl, foldr, length, append, reverse,
    folding "sum" "a" "b" (.bin .add (.var "a") (.var "b")) (.lit (.int 0)),
    folding "product" "a" "b" (.bin .mul (.var "a") (.var "b")) (.lit (.int 1)),
    range,
    equation "null" [.var "xs"]
      (.case (.var "xs") [(.nil, .lit (.bool true)), (.wild, .lit (.bool false))]),
    equation "head" [.cons (.var "h") .wild] (.var "h"),
    equation "tail" [.cons .wild (.var "t")] (.var "t")]

def readAs (Es : List Equations) : Except ParseError (List Decl) → Bool
  | .ok ds => match Es.mapM Equations.decl with
    | .ok ds' => Decl.sameAll ds ds'
    | .error _ => false
  | .error _ => false

theorem exists_of_readAs {Es : List Equations} {r : Except ParseError (List Decl)}
    (h : readAs Es r = true) : ∃ ds, r = .ok ds ∧ Es.mapM Equations.decl = .ok ds := by
  cases r with
  | error e => cases h
  | ok ds =>
    rw [readAs] at h
    split at h
    · rename_i ds' hds'
      exact ⟨ds', by rw [Decl.eq_of_sameAll h], hds'⟩
    · cases h

end Prelude

theorem toList_of_eq_ofList {s : String} {cs : List Char} (h : s = String.ofList cs) :
    s.toList = cs := by
  rw [h, String.toList_ofList]

set_option maxRecDepth 100000 in
theorem readAs_prelude : Prelude.readAs Prelude.all (parse .program preludeSource) = true := by
  unfold parse scan
  -- the characters of a literal are taken apart before the text is read
  rw [toList_of_eq_ofList (show preludeSource = String.ofList _ from rfl)]
  decide +kernel

theorem parse_prelude :
    ∃ ds, parse .program preludeSource = .ok ds ∧ Prelude.all.mapM Equations.decl = .ok ds :=
  Prelude.exists_of_readAs readAs_prelude

end LetML
