import LetML.Clause
import LetML.Proofs.FreeNames

namespace LetML

namespace Clause

/-- The names that a definition by clauses uses for itself. -/
def Synthetic (x : String) : Prop := x = nextName ∨ x = unitName ∨ ∃ i, x = argName i

/-- No pattern of a clause binds a synthetic name, and none is free in its body. -/
structure Hygienic (c : Clause) : Prop where
  params : ∀ p ∈ c.params, ∀ x ∈ p.names, ¬Synthetic x
  body : ∀ x ∈ c.body.free, ¬Synthetic x

theorem synthetic_nextName : Synthetic nextName := Or.inl rfl

theorem synthetic_unitName : Synthetic unitName := Or.inr (Or.inl rfl)

theorem synthetic_argName (i : Nat) : Synthetic (argName i) := Or.inr (Or.inr ⟨i, rfl⟩)

theorem not_synthetic {x : String} (h : x.toList.head? ≠ some '_') : ¬Synthetic x := by
  rintro (rfl | rfl | ⟨i, rfl⟩)
  · exact h rfl
  · exact h rfl
  · exact h (by simp [argName])

theorem argName_inj {i j : Nat} (h : argName i = argName j) : i = j := by
  have hdigits : Nat.toDigits 10 i = Nat.toDigits 10 j := by
    simpa [argName, Nat.toList_repr] using congrArg String.toList h
  rw [← Nat.ofDigitChars_ten_toDigits (n := i), hdigits, Nat.ofDigitChars_ten_toDigits]

theorem argName_not_mem (k n : Nat) : argName k ∉ (List.range' (k + 1) n).map argName := by
  intro hmem
  obtain ⟨j, hj, hjk⟩ := List.mem_map.mp hmem
  have hle := (List.mem_range'_1.mp hj).1
  have heq := argName_inj hjk
  omega

theorem argName_ne_nextName (i : Nat) : argName i ≠ nextName := by
  intro h
  have hlist := congrArg (fun s => s.toList[2]?) h
  simp [argName, nextName] at hlist

theorem argName_ne_unitName (i : Nat) : argName i ≠ unitName := by
  intro h
  have hlist := congrArg (fun s => s.toList[2]?) h
  simp [argName, unitName] at hlist

def arms (cs : List Clause) : List (Pattern × Expr) :=
  cs.flatMap (fun c => c.params.map (fun p => (p, c.body)))

variable {first : Clause} {rest : List Clause} {name : String} {e : Expr}

theorem of_desugar (h : desugar (first :: rest) = .ok (name, e)) :
    (∀ c ∈ first :: rest, c.name = name ∧ c.params.length = first.params.length) ∧
      combine first rest = .ok e := by
  rw [desugar] at h
  split at h
  · cases h
  · rename_i hnames
    split at h
    · cases h
    · rename_i hlens
      cases hcomb : combine first rest with
      | error err =>
        rw [hcomb] at h
        cases h
      | ok e' =>
        rw [hcomb] at h
        cases h
        simp only [List.any_eq_true, decide_eq_true_eq, ne_eq, not_exists, not_and,
          Decidable.not_not] at hnames hlens
        refine ⟨fun c hc => ?_, rfl⟩
        rcases List.mem_cons.mp hc with rfl | hc
        · exact ⟨rfl, rfl⟩
        · exact ⟨hnames c hc, hlens c hc⟩

theorem combine_cases (h : combine first rest = .ok e) (hpos : 0 < first.params.length) :
    (rest = [] ∧ (∀ p ∈ first.params, p.irrefutable) ∧ e = first.curried) ∨
    (first.params.length = 1 ∧
      e = .lambda [argName 0] (.case (.var (argName 0)) (arms (first :: rest)))) ∨
    (2 ≤ first.params.length ∧
      e = .lambda ((List.range first.params.length).map argName) (tryInOrder first rest)) := by
  unfold combine at h
  split at h
  · omega
  · omega
  · rename_i arity _ harity
    split at h
    · rename_i hirr
      rw [Bool.and_eq_true, List.isEmpty_iff, List.all_eq_true] at hirr
      exact Or.inl ⟨hirr.1, hirr.2, (Except.ok.inj h).symm⟩
    · split at h
      · rename_i hzero
        exact Or.inr (Or.inl ⟨by omega, (Except.ok.inj h).symm⟩)
      · rename_i hzero
        rw [harity]
        exact Or.inr (Or.inr ⟨by omega, (Except.ok.inj h).symm⟩)

end Clause

end LetML
