import LetML.Value.Match

namespace LetML

theorem Value.isLit_iff {v : Value} {l : Lit} : v.isLit l = true ↔ v = .ofLit l := by
  cases v <;> cases l <;> simp [isLit, ofLit]

namespace Pattern

/-- Values in the place of the names and the wildcards of a pattern. -/
inductive Filling : Pattern → Type
  | var (x : String) (v : Value) : Filling (.var x)
  | wild (v : Value) : Filling .wild
  | lit (l : Lit) : Filling (.lit l)
  | nil : Filling .nil
  | cons {p q : Pattern} (head : Filling p) (tail : Filling q) : Filling (.cons p q)

namespace Filling

def value {p : Pattern} : p.Filling → Value
  | var _ v | wild v => v
  | lit l => .ofLit l
  | nil => .nil
  | cons f g => .cons f.value g.value

def bindings {p : Pattern} : p.Filling → List (String × Value)
  | var x v => [(x, v)]
  | wild _ | lit _ | nil => []
  | cons f g => f.bindings ++ g.bindings

end Filling

variable {p q : Pattern} {v : Value} {w : List (String × Value)}

theorem match?_cons_eq_some_iff : (cons p q).match? v = some w ↔ ∃ h t left right,
    v = .cons h t ∧ p.match? h = some left ∧ q.match? t = some right ∧ left ++ right = w := by
  cases v with
  | cons h t =>
    simp only [match?, Option.bind_eq_bind, Option.bind_eq_some_iff, Value.cons.injEq]
    constructor
    · rintro ⟨left, hleft, right, hright, hw⟩
      exact ⟨h, t, left, right, ⟨rfl, rfl⟩, hleft, hright, Option.some.inj hw⟩
    · rintro ⟨_, _, left, right, ⟨rfl, rfl⟩, hleft, hright, rfl⟩
      exact ⟨left, hleft, right, hright, rfl⟩
  | _ => simp [match?]

theorem match?_value (f : p.Filling) : p.match? f.value = some f.bindings := by
  induction f with
  | var x v | wild v | nil => rfl
  | lit l => exact if_pos (Value.isLit_iff.mpr rfl)
  | cons f g ihf ihg =>
    exact match?_cons_eq_some_iff.mpr ⟨f.value, g.value, _, _, rfl, ihf, ihg, rfl⟩

/-- A pattern matches the values that it gives where its names and wildcards are filled. -/
theorem match?_eq_some_iff :
    p.match? v = some w ↔ ∃ f : p.Filling, f.value = v ∧ f.bindings = w := by
  constructor
  · intro h
    induction p generalizing v w with
    | var x => exact ⟨.var x v, rfl, Option.some.inj h⟩
    | wild => exact ⟨.wild v, rfl, Option.some.inj h⟩
    | lit l =>
      rw [match?] at h
      split at h
      · next hl => exact ⟨.lit l, (Value.isLit_iff.mp hl).symm, Option.some.inj h⟩
      · cases h
    | nil =>
      cases v with
      | nil => exact ⟨.nil, rfl, Option.some.inj h⟩
      | _ => cases h
    | cons p q ihp ihq =>
      obtain ⟨_, _, _, _, rfl, hp, hq, rfl⟩ := match?_cons_eq_some_iff.mp h
      obtain ⟨f, rfl, rfl⟩ := ihp hp
      obtain ⟨g, rfl, rfl⟩ := ihq hq
      exact ⟨.cons f g, rfl, rfl⟩
  · rintro ⟨f, rfl, rfl⟩
    exact match?_value f

theorem map_fst_match? (h : p.match? v = some w) : w.map (·.1) = p.names := by
  obtain ⟨f, rfl, rfl⟩ := match?_eq_some_iff.mp h
  clear h
  induction f with
  | var x v | wild v | lit l | nil => rfl
  | cons f g ihf ihg => rw [Filling.bindings, List.map_append, ihf, ihg, names]

end Pattern

end LetML
