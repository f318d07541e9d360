import LetML.Proofs.Environment
import LetML.Proofs.Normalize
import LetML.Proofs.Unification

namespace LetML

def Ty.shift (c : Nat) (t : Ty) : Ty := t.rename (· + c)

def TypeError.shift (c : Nat) : TypeError → TypeError
  | unbound x => unbound x
  | mismatch t₁ t₂ => mismatch (t₁.shift c) (t₂.shift c)
  | infinite v t => infinite (v + c) (t.shift c)

def Subst.shift (c : Nat) (s : Subst) : Subst where
  entries := s.entries.map fun e => (e.1 + c, e.2.shift c)
  ascending := by
    refine List.pairwise_map.mpr (s.ascending.imp fun h => ?_)
    rw [Nat.compare_eq_lt] at h ⊢
    omega

def Scheme.shift (c : Nat) (σ : Scheme) : Scheme := ⟨σ.vars.map (· + c), σ.ty.shift c⟩

variable {c n v : Nat} {t t' t₁ t₂ : Ty} {s s' s₁ s₂ : Subst} {σ σ' : Scheme} {Γ Γ' : TypeEnv}

namespace Ty

@[simp] theorem shift_var (c v : Nat) : (var v).shift c = var (v + c) := rfl

@[simp] theorem shift_int (c : Nat) : int.shift c = int := rfl

@[simp] theorem shift_bool (c : Nat) : bool.shift c = bool := rfl

@[simp] theorem shift_arrow (c : Nat) (a b : Ty) :
    (arrow a b).shift c = arrow (a.shift c) (b.shift c) := rfl

@[simp] theorem shift_list (c : Nat) (a : Ty) : (list a).shift c = list (a.shift c) := rfl

@[simp] theorem leaves_shift (c : Nat) (t : Ty) : (t.shift c).leaves = t.leaves.map (· + c) :=
  Scheme.leaves_rename _ t

@[simp] theorem shift_eq_var : t.shift c = var (v + c) ↔ t = var v := by
  cases t <;> simp

theorem ascending_map_add (c : Nat) (l : List Nat) :
    ascending (l.map (· + c)) = (ascending l).map (· + c) := by
  have hinsert : ∀ n (l : List Nat), insertAscending (n + c) (l.map (· + c)) =
      (insertAscending n l).map (· + c) := by
    intro n l
    induction l with
    | nil => rfl
    | cons m l ih =>
      simp only [List.map_cons, insertAscending, Nat.add_lt_add_iff_right, Nat.add_right_cancel_iff, ih]
      split
      · rfl
      · split <;> rfl
  induction l with
  | nil => rfl
  | cons n l ih =>
    change insertAscending (n + c) (ascending (l.map (· + c))) = _
    rw [ih, hinsert]
    rfl

theorem freeVars_shift (c : Nat) (t : Ty) : (t.shift c).freeVars = t.freeVars.map (· + c) := by
  rw [freeVars, leaves_shift, ascending_map_add, freeVars]

end Ty

namespace Subst

theorem get?_shift_add (c : Nat) (s : Subst) (v : Nat) :
    (s.shift c).get? (v + c) = (s.get? v).map (Ty.shift c) := by
  obtain ⟨l, hl⟩ := s
  change Table.lookup (v + c) (l.map fun e => (e.1 + c, e.2.shift c)) = (Table.lookup v l).map _
  clear hl
  induction l with
  | nil => rfl
  | cons e l ih =>
    by_cases hv : v = e.1
    · simp [Table.lookup, hv]
    · simp [Table.lookup, hv, ih]

theorem get?_shift_of_lt (s : Subst) (hv : v < c) : (s.shift c).get? v = none := by
  cases hs : (s.shift c).get? v with
  | none => rfl
  | some t =>
    obtain ⟨e, -, he⟩ := List.mem_map.mp (Table.mem_of_lookup hs)
    obtain ⟨rfl, -⟩ := Prod.mk.inj he
    omega

/-- A substitution is the shifted one if it maps nothing below `c` and what is above as that does. -/
theorem eq_shift (hbelow : ∀ v < c, s₁.get? v = none)
    (hadd : ∀ v, s₁.get? (v + c) = (s.get? v).map (Ty.shift c)) : s₁ = s.shift c := by
  apply Table.ext
  intro v
  by_cases hv : v < c
  · rw [hbelow v hv, get?_shift_of_lt s hv]
  · obtain ⟨u, rfl⟩ := Nat.exists_eq_add_of_le' (Nat.le_of_not_lt hv)
    rw [hadd, get?_shift_add]

theorem fn_shift_add (c : Nat) (s : Subst) (v : Nat) : (s.shift c).fn (v + c) = (s.fn v).shift c := by
  rw [fn, fn, get?_shift_add]
  cases s.get? v <;> rfl

end Subst

@[simp] theorem Ty.shift_apply (c : Nat) (s : Subst) (t : Ty) :
    (t.apply s).shift c = (t.shift c).apply (s.shift c) := by
  induction t with
  | var v => exact (s.fn_shift_add c v).symm
  | int | bool => rfl
  | arrow a b iha ihb => simp only [apply, shift_arrow, iha, ihb]
  | list a ih => simp only [apply, shift_list, ih]

namespace Subst

@[simp] theorem shift_compose (c : Nat) (s₂ s₁ : Subst) :
    (s₂.compose s₁).shift c = (s₂.shift c).compose (s₁.shift c) := by
  refine (eq_shift (fun v hv => ?_) fun v => ?_).symm
  · rw [get?_compose, get?_shift_of_lt s₁ hv, get?_shift_of_lt s₂ hv]
    rfl
  · rw [get?_compose, get?_compose, get?_shift_add, get?_shift_add]
    cases s₁.get? v <;> simp

theorem shift_without (c : Nat) (vs : List Nat) (s : Subst) :
    (s.without vs).shift c = (s.shift c).without (vs.map (· + c)) := by
  refine (eq_shift (fun v hv => ?_) fun v => ?_).symm
  · simp [without, get?_shift_of_lt s hv]
  · by_cases hv : v ∈ vs <;> simp [without, get?_shift_add, hv]

end Subst

theorem get?_foldl_zipIdx_add {f : Nat → Nat} (hf : Function.Injective f) (vs : List Nat)
    (s s' : Subst) (h : s'.get? (f v) = (s.get? v).map (Ty.shift c)) :
    ((((vs.map f).zipIdx (n + c)).map fun e => (e.1, Ty.var e.2)).foldl
      (fun s e => s.insert e.1 e.2) s').get? (f v) =
    ((((vs.zipIdx n).map fun e => (e.1, Ty.var e.2)).foldl
      (fun s e => s.insert e.1 e.2) s).get? v).map (Ty.shift c) := by
  induction vs generalizing n s s' with
  | nil => exact h
  | cons w vs ih =>
    have hn : n + c + 1 = n + 1 + c := by omega
    simp only [List.map_cons, List.zipIdx_cons, List.foldl_cons, hn]
    refine ih _ _ ?_
    by_cases hv : v = w
    · simp [hv]
    · simp [hv, hf.ne hv, h]

/-- The numbers given to quantified variables follow the number that comes first, whether these
variables are renamed meanwhile or not. -/
theorem get?_ofList_zipIdx_add {f : Nat → Nat} (hf : Function.Injective f) (vs : List Nat)
    (n c v : Nat) :
    (Table.ofList (((vs.map f).zipIdx (n + c)).map fun e => (e.1, Ty.var e.2))).get? (f v) =
      ((Table.ofList ((vs.zipIdx n).map fun e => (e.1, Ty.var e.2))).get? v).map (Ty.shift c) :=
  get?_foldl_zipIdx_add hf vs .empty .empty rfl

namespace Scheme

/-- What a scheme becomes where inference starts at a greater number: one that the run has made has
greater numbers too, one that is closed stays as it was given. -/
def Shifted (c : Nat) (σ σ' : Scheme) : Prop := σ' = σ.shift c ∨ σ' = σ ∧ σ.Closed

theorem free_shift : (σ.shift c).Free v ↔ ∃ u, σ.Free u ∧ u + c = v := by
  simp only [Free, shift, Ty.leaves_shift, List.mem_map]
  constructor
  · rintro ⟨⟨u, hu, rfl⟩, hq⟩
    exact ⟨u, ⟨hu, fun hq' => hq ⟨u, hq', rfl⟩⟩, rfl⟩
  · rintro ⟨u, ⟨hu, hq⟩, rfl⟩
    refine ⟨⟨u, hu, rfl⟩, ?_⟩
    rintro ⟨w, hw, hwu⟩
    obtain rfl : w = u := by omega
    exact hq hw

theorem instantiate_shift (σ : Scheme) (c n : Nat) :
    (σ.shift c).instantiate (n + c) = (σ.instantiate n).shift c := by
  rw [instantiate, instantiate, Ty.shift_apply, Ty.apply_eq_subst, Ty.apply_eq_subst]
  refine Ty.subst_congr (fun u hu => ?_)
  obtain ⟨v, -, rfl⟩ := List.mem_map.mp (Ty.leaves_shift c σ.ty ▸ hu)
  have hadd := get?_ofList_zipIdx_add (f := (· + c)) (fun _ _ => Nat.add_right_cancel) σ.vars n c v
  rw [Subst.fn, Subst.fn, Subst.get?_shift_add, ← hadd, shift]

theorem Closed.instantiate_add (h : σ.Closed) (c n : Nat) :
    σ.instantiate (n + c) = (σ.instantiate n).shift c := by
  rw [instantiate, instantiate, Ty.shift, rename_eq_subst, Ty.apply_eq_subst, Ty.apply_eq_subst,
    Ty.subst_subst]
  refine Ty.subst_congr (fun v hv => ?_)
  have hq : v ∈ σ.vars := Classical.byContradiction fun hq => closed_iff.mp h v ⟨hv, hq⟩
  obtain ⟨i, -, hi⟩ := (get?_foldl_zipIdx σ.vars n .empty v).2 hq
  have hadd := get?_ofList_zipIdx_add Function.injective_id σ.vars n c v
  have hsome : (Table.ofList ((σ.vars.zipIdx n).map fun e => (e.1, Ty.var e.2))).get? v =
      some (.var (n + i)) := hi
  rw [List.map_id, hsome, id] at hadd
  rw [Subst.fn_of_some hsome, Subst.fn_of_some hadd]
  rfl

namespace Shifted

theorem free_iff (h : σ.Shifted c σ') : σ'.Free v ↔ ∃ u, σ.Free u ∧ u + c = v := by
  obtain rfl | ⟨rfl, hσ⟩ := h
  · exact free_shift
  · have hno := closed_iff.mp hσ
    exact ⟨fun hv => (hno v hv).elim, fun ⟨u, hu, _⟩ => (hno u hu).elim⟩

theorem apply (h : σ.Shifted c σ') (s : Subst) : (σ.apply s).Shifted c (σ'.apply (s.shift c)) := by
  obtain rfl | ⟨rfl, hσ⟩ := h
  · left
    rw [Scheme.apply, Scheme.apply, shift, shift, Ty.shift_apply, Subst.shift_without]
  · right
    rw [apply_of_closed hσ, apply_of_closed hσ]
    exact ⟨rfl, hσ⟩

theorem length_eq (h : σ.Shifted c σ') : σ'.vars.length = σ.vars.length := by
  obtain rfl | ⟨rfl, -⟩ := h
  · exact List.length_map _
  · rfl

theorem instantiate (h : σ.Shifted c σ') (n : Nat) :
    σ'.instantiate (n + c) = (σ.instantiate n).shift c := by
  obtain rfl | ⟨rfl, hσ⟩ := h
  · exact σ.instantiate_shift c n
  · exact hσ.instantiate_add c n

end Shifted

end Scheme

namespace TypeEnv

def Shifted (c : Nat) (Γ Γ' : TypeEnv) : Prop :=
  ∀ x, Option.Rel (Scheme.Shifted c) (Γ.get? x) (Γ'.get? x)

theorem Closed.shifted (h : Γ.Closed) (c : Nat) : Γ.Shifted c Γ := by
  intro x
  cases hx : Γ.get? x with
  | none => exact .none
  | some σ => exact .some (Or.inr ⟨rfl, h x σ hx⟩)

namespace Shifted

theorem apply (h : Γ.Shifted c Γ') (hs : s' = s.shift c) :
    (Γ.apply s).Shifted c (Γ'.apply s') := by
  intro x
  rw [get?_apply, get?_apply, hs]
  have hx := h x
  generalize Γ.get? x = σ at hx
  generalize Γ'.get? x = σ' at hx
  cases hx with
  | none => exact .none
  | some hσ => exact .some (hσ.apply s)

theorem insert (h : Γ.Shifted c Γ') (x : String) (hσ : σ' = σ.shift c) :
    Shifted c (Γ.insert x σ) (Γ'.insert x σ') := by
  intro y
  rw [Table.get?_insert, Table.get?_insert, hσ]
  split
  · exact .some (Or.inl rfl)
  · exact h y

theorem bindAll (h : Γ.Shifted c Γ') (bs : List (String × Ty)) :
    (Γ.bindAll bs).Shifted c (Γ'.bindAll (bs.map fun b => (b.1, b.2.shift c))) := by
  induction bs generalizing Γ Γ' with
  | nil => exact h
  | cons b bs ih => exact ih (h.insert b.1 rfl)

theorem mem_freeVars (h : Γ.Shifted c Γ') : v + c ∈ Γ'.freeVars ↔ v ∈ Γ.freeVars := by
  rw [TypeEnv.mem_freeVars, TypeEnv.mem_freeVars]
  constructor
  · rintro ⟨x, σ', hx, hv⟩
    have hrel := h x
    rw [hx] at hrel
    cases hx' : Γ.get? x with
    | none => rw [hx'] at hrel; cases hrel
    | some σ =>
      rw [hx'] at hrel
      obtain ⟨u, hu, huv⟩ := (Option.rel_some_some.mp hrel).free_iff.mp hv
      obtain rfl : u = v := by omega
      exact ⟨x, σ, hx', hu⟩
  · rintro ⟨x, σ, hx, hv⟩
    have hrel := h x
    rw [hx] at hrel
    cases hx' : Γ'.get? x with
    | none => rw [hx'] at hrel; cases hrel
    | some σ' =>
      rw [hx'] at hrel
      exact ⟨x, σ', hx', (Option.rel_some_some.mp hrel).free_iff.mpr ⟨v, hv, rfl⟩⟩

theorem generalize (h : Γ.Shifted c Γ') (ht : t' = t.shift c) :
    Γ'.generalize t' = (Γ.generalize t).shift c := by
  have hvars : (t.freeVars.map (· + c)).filter (· ∉ Γ'.freeVars) =
      (t.freeVars.filter (· ∉ Γ.freeVars)).map (· + c) := by
    rw [List.filter_map]
    congr 1
    refine List.filter_congr (fun v _ => ?_)
    simp [h.mem_freeVars]
  simp only [TypeEnv.generalize, ht, Ty.freeVars_shift, hvars, Scheme.shift]

end Shifted

end TypeEnv

section Unify

def shiftSolution (c : Nat) (r : Except TypeError Subst) : Except TypeError Subst :=
  (r.map (Subst.shift c)).mapError (TypeError.shift c)

theorem bindVar_shift (c v : Nat) (t : Ty) :
    bindVar (v + c) (t.shift c) = shiftSolution c (bindVar v t) := by
  have hoccurs : (t.shift c).occurs (v + c) = t.occurs v := by
    rw [Bool.eq_iff_iff, Ty.occurs_iff, Ty.occurs_iff]
    simp
  unfold bindVar
  rw [hoccurs]
  simp only [Ty.shift_eq_var]
  split
  · rfl
  · split <;> rfl

theorem Clash.shift (h : Clash t₁ t₂) (c : Nat) : Clash (t₁.shift c) (t₂.shift c) := by
  cases t₁ <;> cases t₂ <;> exact h

/-- Which numbers the variables have makes no difference to unification. -/
theorem unify_shift (c : Nat) (t₁ t₂ : Ty) :
    unify (t₁.shift c) (t₂.shift c) = shiftSolution c (unify t₁ t₂) := by
  induction t₁, t₂ using unify_induction with
  | left v t => rw [Ty.shift_var, unify_var_left, unify_var_left, bindVar_shift]
  | right t v hv =>
    obtain hvar | ⟨u, hu⟩ := unify_var_right (t.shift c) (v + c)
    · rw [Ty.shift_var, hvar, hv, bindVar_shift]
    · cases t with
      | var w => rw [Ty.shift_var, Ty.shift_var, unify_var_left, unify_var_left, ← bindVar_shift]; rfl
      | _ => cases hu
  | int | bool => rfl
  | arrow a₁ a₂ b₁ b₂ ih₁ ih₂ =>
    rw [Ty.shift_arrow, Ty.shift_arrow, unify_arrow, unify_arrow, ih₁]
    cases h₁ : unify a₁ b₁ with
    | error e => rfl
    | ok s =>
      have hrest := ih₂ s h₁
      rw [Ty.shift_apply, Ty.shift_apply] at hrest
      change (unify ((a₂.shift c).apply (s.shift c)) ((b₂.shift c).apply (s.shift c)) >>= _) =
        shiftSolution c (unify (a₂.apply s) (b₂.apply s) >>= _)
      rw [hrest]
      cases unify (a₂.apply s) (b₂.apply s) with
      | error e => rfl
      | ok s' => exact congrArg Except.ok (Subst.shift_compose c s' s).symm
  | list a b ih => rw [Ty.shift_list, Ty.shift_list, unify_list, unify_list, ih]
  | clash t₁ t₂ h => rw [unify_clash h, unify_clash (h.shift c)]; rfl

end Unify

end LetML
