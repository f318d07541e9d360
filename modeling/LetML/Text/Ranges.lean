namespace LetML

def withinRanges (ranges : List (Nat × Nat)) (c : Char) : Bool :=
  ranges.any fun r => r.1 ≤ c.toNat && c.toNat ≤ r.2

theorem withinRanges_iff {ranges : List (Nat × Nat)} {c : Char} :
    withinRanges ranges c = true ↔ ∃ r ∈ ranges, r.1 ≤ c.toNat ∧ c.toNat ≤ r.2 := by
  simp [withinRanges]

end LetML
