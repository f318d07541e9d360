namespace LetML

/-- A finite map, listed in ascending order of its keys. Two tables with the same look-ups are
equal, so equality of tables is equality of maps. -/
structure Table (κ : Type) [Ord κ] (α : Type) where
  entries : List (κ × α)
  ascending : entries.Pairwise (fun p q => compare p.1 q.1 = .lt)

namespace Table

variable {κ α β : Type} [Ord κ]

def empty : Table κ α := ⟨[], .nil⟩

def isEmpty (t : Table κ α) : Bool := t.entries.isEmpty

@[simp] theorem isEmpty_iff {t : Table κ α} : t.isEmpty = true ↔ t = empty := by
  obtain ⟨l, hl⟩ := t
  simp [isEmpty, empty]

instance [DecidableEq κ] [DecidableEq α] : DecidableEq (Table κ α) := fun t u =>
  decidable_of_iff (t.entries = u.entries) (by cases t; cases u; simp)

def keys (t : Table κ α) : List κ := t.entries.map (·.1)

def values (t : Table κ α) : List α := t.entries.map (·.2)

def map (f : α → β) (t : Table κ α) : Table κ β :=
  ⟨t.entries.map (fun p => (p.1, f p.2)), by simpa [List.pairwise_map] using t.ascending⟩

def restrict (p : κ → Bool) (t : Table κ α) : Table κ α :=
  ⟨t.entries.filter (fun e => p e.1), t.ascending.filter _⟩

def place (k : κ) (v : α) : List (κ × α) → List (κ × α)
  | [] => [(k, v)]
  | (k', v') :: rest => match compare k k' with
    | .lt => (k, v) :: (k', v') :: rest
    | .eq => (k, v) :: rest
    | .gt => (k', v') :: place k v rest

theorem mem_place {k : κ} {v : α} {l : List (κ × α)} {e : κ × α} (h : e ∈ place k v l) :
    e = (k, v) ∨ e ∈ l := by
  induction l with
  | nil => simpa [place] using h
  | cons p rest ih =>
    obtain ⟨k', v'⟩ := p
    simp only [place] at h
    split at h <;> grind

theorem pairwise_place [Std.TransOrd κ] [Std.LawfulEqOrd κ] (k : κ) (v : α) {l : List (κ × α)}
    (h : l.Pairwise (fun p q => compare p.1 q.1 = .lt)) :
    (place k v l).Pairwise (fun p q => compare p.1 q.1 = .lt) := by
  induction l with
  | nil => simp [place]
  | cons p rest ih =>
    obtain ⟨k', v'⟩ := p
    obtain ⟨hp, hr⟩ := List.pairwise_cons.mp h
    simp only [place]
    split
    · rename_i hlt
      refine List.pairwise_cons.mpr ⟨?_, h⟩
      intro e he
      rcases List.mem_cons.mp he with rfl | he
      · exact hlt
      · exact Std.TransCmp.lt_trans hlt (hp e he)
    · rename_i heq
      have hk : k = k' := Std.LawfulEqCmp.eq_of_compare heq
      subst hk
      exact List.pairwise_cons.mpr ⟨fun e he => hp e he, hr⟩
    · rename_i hgt
      refine List.pairwise_cons.mpr ⟨?_, ih hr⟩
      intro e he
      rcases mem_place he with rfl | he
      · exact Std.OrientedCmp.gt_iff_lt.mp hgt
      · exact hp e he

def insert [Std.TransOrd κ] [Std.LawfulEqOrd κ] (t : Table κ α) (k : κ) (v : α) : Table κ α :=
  ⟨place k v t.entries, pairwise_place k v t.ascending⟩

/-- The table of a list of entries, where a later entry of the same key replaces an earlier one. -/
def ofList [Std.TransOrd κ] [Std.LawfulEqOrd κ] (l : List (κ × α)) : Table κ α :=
  l.foldl (fun t e => t.insert e.1 e.2) empty

/-- The entries of `t`, and those of `u` for the keys that `t` lacks. -/
def orElse [Std.TransOrd κ] [Std.LawfulEqOrd κ] (t u : Table κ α) : Table κ α :=
  t.entries.foldr (fun e acc => acc.insert e.1 e.2) u

variable [DecidableEq κ]

def lookup (k : κ) : List (κ × α) → Option α
  | [] => none
  | (k', v) :: rest => if k = k' then some v else lookup k rest

def get? (t : Table κ α) (k : κ) : Option α := lookup k t.entries

def erase (t : Table κ α) (k : κ) : Table κ α := t.restrict (· ≠ k)

@[simp] theorem get?_empty (k : κ) : (empty : Table κ α).get? k = none := rfl

@[simp] theorem get?_map (f : α → β) (t : Table κ α) (k : κ) :
    (t.map f).get? k = (t.get? k).map f := by
  obtain ⟨l, hl⟩ := t
  simp only [get?, map]
  clear hl
  induction l with
  | nil => rfl
  | cons p rest ih => simp only [List.map_cons, lookup]; split <;> simp_all

@[simp] theorem get?_restrict (p : κ → Bool) (t : Table κ α) (k : κ) :
    (t.restrict p).get? k = if p k then t.get? k else none := by
  obtain ⟨l, hl⟩ := t
  simp only [get?, restrict]
  clear hl
  induction l with
  | nil => simp [lookup]
  | cons e rest ih =>
    obtain ⟨k', v⟩ := e
    by_cases hk : k = k'
    · subst hk
      by_cases hp : p k <;> simp_all [lookup]
    · by_cases hp : p k' <;> simp_all [lookup]

@[simp] theorem get?_erase (t : Table κ α) (k j : κ) :
    (t.erase k).get? j = if j = k then none else t.get? j := by
  by_cases h : j = k <;> simp [erase, h]

theorem get?_erase_eq_some_iff {t : Table κ α} {k j : κ} {v : α} :
    (t.erase k).get? j = some v ↔ j ≠ k ∧ t.get? j = some v := by
  by_cases h : j = k <;> simp [h]

theorem lookup_place [Std.LawfulEqOrd κ] (k j : κ) (v : α) (l : List (κ × α)) :
    lookup j (place k v l) = if j = k then some v else lookup j l := by
  induction l with
  | nil => simp [place, lookup]
  | cons p rest ih =>
    obtain ⟨k', v'⟩ := p
    simp only [place]
    split
    · simp [lookup]
    · rename_i heq
      have hk : k = k' := Std.LawfulEqCmp.eq_of_compare heq
      subst hk
      by_cases hj : j = k <;> simp [lookup, hj]
    · rename_i hgt
      have hne : k ≠ k' := by
        rintro rfl
        simp at hgt
      simp only [lookup, ih]
      by_cases hj : j = k
      · subst hj; simp [hne]
      · simp [hj]

theorem lookup_eq_none_of_lt [Std.LawfulEqOrd κ] {k : κ} {l : List (κ × α)}
    (h : ∀ e ∈ l, compare k e.1 = .lt) : lookup k l = none := by
  induction l with
  | nil => rfl
  | cons e rest ih =>
    have hne : k ≠ e.1 := by
      intro hk
      have hlt := h e (by simp)
      rw [hk] at hlt
      simp at hlt
    simp only [lookup, hne, if_false]
    exact ih (fun e he => h e (by simp [he]))

variable [Std.TransOrd κ] [Std.LawfulEqOrd κ]

@[simp] theorem get?_insert (t : Table κ α) (k j : κ) (v : α) :
    (t.insert k v).get? j = if j = k then some v else t.get? j :=
  lookup_place k j v t.entries

theorem get?_insert_eq_some_iff {t : Table κ α} {k j : κ} {v w : α} :
    (t.insert k v).get? j = some w ↔ j = k ∧ v = w ∨ j ≠ k ∧ t.get? j = some w := by
  by_cases h : j = k <;> simp [h]

@[simp] theorem get?_orElse (t u : Table κ α) (k : κ) :
    (t.orElse u).get? k = (t.get? k).or (u.get? k) := by
  obtain ⟨l, hl⟩ := t
  simp only [orElse, get?]
  clear hl
  induction l with
  | nil => simp [lookup]
  | cons e rest ih =>
    simp only [List.foldr_cons]
    have h := get?_insert (rest.foldr (fun e acc => acc.insert e.1 e.2) u) e.1 k e.2
    simp only [get?] at h
    rw [h, ih]
    by_cases hk : k = e.1 <;> simp [lookup, hk]

theorem head_key_eq {d e : κ × α} {l m : List (κ × α)}
    (he : ∀ f ∈ m, compare e.1 f.1 = .lt)
    (h : lookup d.1 (d :: l) = lookup d.1 (e :: m)) : compare d.1 e.1 ≠ .lt := by
  intro hc
  have hn : lookup d.1 (e :: m) = none := by
    refine lookup_eq_none_of_lt (fun f hf => ?_)
    rcases List.mem_cons.mp hf with rfl | hf
    · exact hc
    · exact Std.TransCmp.lt_trans hc (he f hf)
  rw [hn] at h
  simp [lookup] at h

theorem eq_of_lookup_eq {l m : List (κ × α)}
    (hl : l.Pairwise (fun p q => compare p.1 q.1 = .lt))
    (hm : m.Pairwise (fun p q => compare p.1 q.1 = .lt))
    (h : ∀ k, lookup k l = lookup k m) : l = m := by
  induction l generalizing m with
  | nil =>
    cases m with
    | nil => rfl
    | cons e m => have he := h e.1; simp [lookup] at he
  | cons d l ih =>
    cases m with
    | nil => have hd := h d.1; simp [lookup] at hd
    | cons e m =>
      obtain ⟨hd, hl⟩ := List.pairwise_cons.mp hl
      obtain ⟨he, hm⟩ := List.pairwise_cons.mp hm
      have hde : d.1 = e.1 := by
        cases hc : compare d.1 e.1 with
        | eq => exact Std.LawfulEqCmp.eq_of_compare hc
        | lt => exact absurd hc (head_key_eq he (h d.1))
        | gt => exact absurd (Std.OrientedCmp.gt_iff_lt.mp hc) (head_key_eq hd (h e.1).symm)
      have hv : d.2 = e.2 := by
        have hk := h d.1
        simpa [lookup, hde] using hk
      have hrest : l = m := by
        refine ih hl hm (fun k => ?_)
        by_cases hk : k = d.1
        · subst hk
          rw [lookup_eq_none_of_lt hd, lookup_eq_none_of_lt (fun f hf => hde ▸ he f hf)]
        · have hk' := h k
          simpa [lookup, hk, hde ▸ hk] using hk'
      exact congr (congrArg List.cons (Prod.ext hde hv)) hrest

@[ext] theorem ext {t u : Table κ α} (h : ∀ k, t.get? k = u.get? k) : t = u := by
  obtain ⟨l, hl⟩ := t
  obtain ⟨m, hm⟩ := u
  have hlm : l = m := eq_of_lookup_eq hl hm h
  subst hlm
  rfl

end Table

end LetML
