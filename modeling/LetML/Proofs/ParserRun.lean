import LetML.Proofs.Unambiguous

namespace LetML

variable {α : Type} {g : Goal α} {st st' : State} {t : Token} {ts us : List Token}
  {done : List Decl} {stack : List Frame} {left : Pending} {e : Expr}

/-- The state after a text, if every token of it can be taken and none reports a fault. -/
def run (g : Goal α) : State → List Token → Option State
  | st, [] => some st
  | st, t :: ts => match shift g st t with
    | some (.ok st') => run g st' ts
    | _ => none

theorem run_cons (h : shift g st t = some (.ok st')) : run g st (t :: ts) = run g st' ts := by
  rw [run, h]

theorem run_append (h : run g st ts = some st') : run g st (ts ++ us) = run g st' us := by
  induction ts generalizing st with
  | nil =>
    obtain rfl : st = st' := by simpa [run] using h
    rfl
  | cons t ts ih =>
    rw [run] at h
    split at h
    case h_1 st₁ hst₁ => rw [List.cons_append, run_cons hst₁, ih h]
    case h_2 => cases h

theorem run_concat : run g st (ts ++ [t]) = some st' ↔
    ∃ st₁, run g st ts = some st₁ ∧ shift g st₁ t = some (.ok st') := by
  induction ts generalizing st with
  | nil =>
    simp only [List.nil_append, run, Option.some.injEq, exists_eq_left']
    split <;> simp_all
  | cons u ts ih =>
    rw [List.cons_append, run, run]
    split <;> simp [ih]

theorem parseFrom_eq_ok {offset : Nat} {invalid : Option Nat} {ls : List Lexeme} {a : α} :
    parseFrom g st offset invalid ls = .ok a ↔
      invalid = none ∧ ∃ st', run g st (ls.map (·.token)) = some st' ∧
        finish g st' = some (.ok a) := by
  induction ls generalizing st offset with
  | nil =>
    cases invalid with
    | some n => simp [parseFrom]
    | none =>
      simp only [parseFrom, List.map_nil, run, Option.some.injEq, true_and, exists_eq_left']
      split <;> simp_all
  | cons l ls ih =>
    rw [parseFrom, List.map_cons, run]
    split <;> simp_all

theorem ne_of_starts {n : Nonterminal} {u : Token} (hu : n.starts u = false)
    (ht : n.starts t = true) : t ≠ u := by
  rintro rfl
  cases hu.symm.trans ht

/-- Two states read a text of a nonterminal alike if they take the tokens alike with which it
starts. -/
theorem run_congr {n : Nonterminal} (T : ParseTree n) (hn : n.nullable = false)
    (h : ∀ t, n.starts t = true → shift g st t = shift g st' t) :
    run g st (T.tokens ++ us) = run g st' (T.tokens ++ us) := by
  obtain ⟨t, ts, hT, ht⟩ := T.exists_first hn
  rw [hT, List.cons_append, run, run, h t ht]

theorem run_congr_tokens {n : Nonterminal} (T : ParseTree n) (hn : n.nullable = false)
    (h : ∀ t, n.starts t = true → shift g st t = shift g st' t) :
    run g st T.tokens = run g st' T.tokens := by
  rw [← List.append_nil T.tokens]
  exact run_congr T hn h

def Chains (site : PatternSite) (within : List PatternFrame) : Prop :=
  within = [] → ∃ left scrutinee done, site = .arm left scrutinee done

section Starts

theorem shift_elem (es : List Expr) (ht : t ≠ .symbol .rbracket) :
    shift g ⟨done, stack, .elem left es⟩ t = shift g ⟨done, .elem left es :: stack, .expr⟩ t := by
  cases t with
  | number | ident => rfl
  | symbol s => cases s <;> first | rfl | exact (ht rfl).elim

theorem shift_expr (ht : t.tier = 0) :
    shift g ⟨done, stack, .expr⟩ t = shift g ⟨done, stack, .operand .nothing⟩ t := by
  cases t with
  | number | ident => rfl
  | symbol s => cases s <;> first | rfl | cases ht

theorem shift_operator (ht : t.tier = 0) :
    shift g ⟨done, stack, .operator left (.ok e)⟩ t =
      shift g ⟨done, stack, .operand (left.apply e)⟩ t := by
  cases t with
  | number | ident => rfl
  | symbol s => cases s <;> first | rfl | cases ht

variable {site : PatternSite} {within : List PatternFrame} {heads ps : List Pattern} {p : Pattern}

theorem shift_pattern (ht : Nonterminal.atomPattern.starts t = true) :
    shift g ⟨done, stack, .pattern site within heads⟩ t =
      (patternStart t).map fun k => .ok ⟨done, stack, k site within heads⟩ := by
  cases site <;> cases within <;> cases heads <;> cases t with
  | number | ident => rfl
  | symbol s => cases s <;> first | rfl | cases ht

theorem shift_patternElem (ht : t ≠ .symbol .rbracket) :
    shift g ⟨done, stack, .patternElem site within heads ps⟩ t =
      shift g ⟨done, stack, .pattern site (.elem heads ps :: within) []⟩ t := by
  cases site <;> cases t with
  | number | ident => rfl
  | symbol s => cases s <;> first | rfl | exact (ht rfl).elim

theorem shift_firstArm {scrutinee : Expr} (ht : t ≠ .symbol .bar) :
    shift g ⟨done, stack, .firstArm left scrutinee⟩ t =
      shift g ⟨done, stack, .pattern (.arm left scrutinee []) [] []⟩ t := by
  cases t with
  | number | ident => rfl
  | symbol s => cases s <;> first | rfl | exact (ht rfl).elim

theorem shift_afterLet (ht : t ≠ .symbol .kwRec) :
    shift g ⟨done, stack, .afterLet⟩ t = shift g ⟨done, stack, .clauseName false []⟩ t := by
  cases t with
  | number | ident => rfl
  | symbol s => cases s <;> first | rfl | exact (ht rfl).elim

theorem shift_patternEnd_param {rec : Bool} {cs : List Clause} {name : String} :
    shift g ⟨done, stack, .patternEnd (.param rec cs name ps) [] heads (.ok p)⟩ t =
      shift g ⟨done, stack, .pattern (.param rec cs name (ps ++ [p])) [] []⟩ t := by
  simp only [shift, patternEndShift, Option.map_map]
  rfl

end Starts

theorem not_continues_of_frameShift {frame : Frame} {s : Symbol} {l : Pending}
    {k : Expr → List Frame → List Frame × Focus} (h : frameShift frame s = some k) :
    operandStart (.symbol s) = none ∧ l.operator? s = none ∧ s ≠ .semi := by
  cases frame <;> cases s <;> first | exact ⟨rfl, rfl, by decide⟩ | cases h

theorem closeShift_frame {v w : Except Fault Expr} {frame : Frame} {stack' : List Frame}
    {s : Symbol} (hs : s ≠ .semi) (h : settle stack v = (frame :: stack', w)) :
    closeShift g done stack v (.symbol s) = (frameShift frame s).map fun k =>
      w.map fun e => ⟨done, (k e stack').1, (k e stack').2⟩ := by
  unfold closeShift
  rw [h]
  cases s <;> first | rfl | exact (hs rfl).elim

end LetML
