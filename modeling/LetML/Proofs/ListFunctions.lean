import LetML.Proofs.Equations

namespace LetML

open Clause LetML.Computation

variable {ρ : Env} {store : Store} {v : Value}

theorem filterM_cons {m : Type → Type} [Monad m] [LawfulMonad m] {α : Type} (p : α → m Bool) (a : α)
    (as : List α) : (a :: as).filterM p = (do
      let keep ← p a
      let kept ← as.filterM p
      pure (if keep then a :: kept else kept)) := by
  have hacc : ∀ (as acc : List α),
      as.filterAuxM p acc = (do let kept ← as.filterAuxM p []; pure (kept ++ acc)) := by
    intro as acc
    induction as generalizing acc with
    | nil => simp [List.filterAuxM]
    | cons a as ih =>
      simp only [List.filterAuxM, bind_assoc]
      refine bind_congr fun keep => ?_
      rw [ih, ih (cond keep [a] [])]
      cases keep <;> simp
  simp only [List.filterM, List.filterAuxM, bind_assoc]
  refine bind_congr fun keep => ?_
  rw [hacc]
  cases keep <;> simp

theorem Value.ofList_append (xs ys : List Value) :
    ofList (xs ++ ys) = xs.foldr cons (ofList ys) := List.foldr_append

namespace Prelude

theorem agree_map (h : map.Function store ρ v) (f : Value) (xs : List Value) :
    Agree store (applyAll v [f, .ofList xs]) (Value.ofList <$> xs.mapM (application f)) := by
  induction xs with
  | nil =>
    rw [List.mapM_nil, map_pure]
    exact h.agree (by decide) rfl Nat.two_pos rfl fun ρ' _ => agree_nil
  | cons x xs ih =>
    refine h.agree (by decide) rfl Nat.two_pos rfl fun ρ' hsees => ?_
    have hmap := agree_var (hsees "map" (by decide))
    have hf := agree_var (hsees "f" (by decide))
    have hx := agree_var (hsees "h" (by decide))
    have hxs := agree_var (hsees "t" (by decide))
    have hhead := agree_call hf (.cons hx .nil)
    have htail := (agree_call hmap (.cons hf (.cons hxs .nil))).trans ih
    refine (agree_cons hhead htail).trans ?_
    simp only [applyAll_one, List.mapM_cons, map_bind, map_pure, bind_map_left]
    exact .refl _

theorem agree_filter (h : filter.Function store ρ v) (p : Value) (xs : List Value) :
    Agree store (applyAll v [p, .ofList xs])
      (Value.ofList <$> xs.filterM fun x => application p x >>= truth) := by
  induction xs with
  | nil => exact h.agree (by decide) rfl Nat.two_pos rfl fun ρ' _ => agree_nil
  | cons x xs ih =>
    refine h.agree (by decide) rfl Nat.two_pos rfl fun ρ' hsees => ?_
    have hfilter := agree_var (hsees "filter" (by decide))
    have hp := agree_var (hsees "p" (by decide))
    have hx := agree_var (hsees "h" (by decide))
    have hxs := agree_var (hsees "t" (by decide))
    have hrest := (agree_call hfilter (.cons hp (.cons hxs .nil))).trans ih
    refine (agree_cond (agree_call hp (.cons hx .nil)) (agree_cons hx hrest) hrest).trans ?_
    simp only [applyAll_one, filterM_cons, pure_bind, map_bind, map_pure, bind_map_left]
    refine .bind_right fun b => ?_
    cases b with
    | true => exact .refl _
    | false => exact .refl _

theorem agree_foldl (h : foldl.Function store ρ v) (f z : Value) (xs : List Value) :
    Agree store (applyAll v [f, z, .ofList xs])
      (xs.foldlM (fun acc x => applyAll f [acc, x]) z) := by
  obtain ⟨g, hg⟩ := h.exists_application ⟨_, _, _, _, rfl⟩ f
  induction xs generalizing z with
  | nil =>
    exact h.agree (by decide) rfl (Nat.succ_pos 2) rfl fun ρ' hsees =>
      agree_var (hsees "acc" (by decide))
  | cons x xs ih =>
    refine h.agree (by decide) rfl (Nat.succ_pos 2) rfl fun ρ' hsees => ?_
    have hfoldl := agree_var (hsees "foldl" (by decide))
    have hf := agree_var (hsees "f" (by decide))
    have hz := agree_var (hsees "acc" (by decide))
    have hx := agree_var (hsees "h" (by decide))
    have hxs := agree_var (hsees "t" (by decide))
    -- `foldl` takes its first argument before the next accumulator is made
    have hfirst := (agree_call hfoldl (.cons hf .nil)).trans ((applyAll_one v f).symm ▸ hg)
    have hcall := agree_apps (agree_app hfirst (agree_call hf (.cons hz (.cons hx .nil))))
      (.cons hxs .nil)
    simp only [pure_bind, bind_assoc] at hcall
    refine hcall.trans (.bind_right fun acc => .trans ?_ (ih acc))
    have hrest := (hg.bind_left (f := fun g => applyAll g [acc, .ofList xs])).symm
    rwa [pure_bind] at hrest

theorem agree_foldr (h : foldr.Function store ρ v) (f z : Value) (xs : List Value) :
    Agree store (applyAll v [f, z, .ofList xs])
      (xs.foldr (fun x rest => do let g ← application f x; let w ← rest; application g w)
        (pure z)) := by
  induction xs with
  | nil =>
    exact h.agree (by decide) rfl (Nat.succ_pos 2) rfl fun ρ' hsees =>
      agree_var (hsees "z" (by decide))
  | cons x xs ih =>
    refine h.agree (by decide) rfl (Nat.succ_pos 2) rfl fun ρ' hsees => ?_
    have hfoldr := agree_var (hsees "foldr" (by decide))
    have hf := agree_var (hsees "f" (by decide))
    have hz := agree_var (hsees "z" (by decide))
    have hx := agree_var (hsees "h" (by decide))
    have hxs := agree_var (hsees "t" (by decide))
    have hrest := (agree_call hfoldr (.cons hf (.cons hz (.cons hxs .nil)))).trans ih
    have happ := agree_app (agree_call hf (.cons hx .nil)) hrest
    rwa [applyAll_one] at happ

def count (n : Nat) : Except RuntimeError Value :=
  if n ≤ Int64.maxValue.toInt then .ok (.int (.ofInt n))
  else .error (.overflow .add 1 Int64.maxValue)

theorem toInt_add_one {a : Int64} (ha : a ≠ Int64.maxValue) :
    (Int64.ofInt (a.toInt + 1)).toInt = a.toInt + 1 := by
  have hmax := Int64.toInt_maxValue
  have hne : a.toInt ≠ Int64.maxValue.toInt := fun h => ha (Int64.toInt_inj.mp h)
  have hle := a.toInt_le
  have hge := a.le_toInt
  exact Int64.toInt_ofInt_of_le (by omega) (by omega)

theorem apply_add_one (a : Int64) : BinOp.apply .add (.int a) (.int 1) =
    if a = Int64.maxValue then .error (.overflow .add Int64.maxValue 1)
    else .ok (.int (.ofInt (a.toInt + 1))) := by
  have hmax := Int64.toInt_maxValue
  have hmin := Int64.toInt_minValue
  have hle := a.toInt_le
  have hge := a.le_toInt
  change BinOp.checked .add a 1 (a.toInt + Int64.toInt 1) = _
  rw [Int64.toInt_one, BinOp.checked]
  by_cases ha : a = Int64.maxValue
  · rw [if_pos ha, if_neg (by rw [ha]; omega), ha]
  · have hne : a.toInt ≠ Int64.maxValue.toInt := fun h => ha (Int64.toInt_inj.mp h)
    rw [if_neg ha, if_pos (by omega)]

theorem count_succ (n : Nat) : count (n + 1) = (count n).bind (BinOp.apply .add (.int 1)) := by
  have hmax := Int64.toInt_maxValue
  have hmin := Int64.toInt_minValue
  rw [count, count]
  by_cases hn : n ≤ Int64.maxValue.toInt
  · have htoInt : (Int64.ofInt n).toInt = n := Int64.toInt_ofInt_of_le (by omega) (by omega)
    rw [if_pos hn]
    change _ = BinOp.checked .add 1 (.ofInt n) (Int64.toInt 1 + (Int64.ofInt n).toInt)
    rw [Int64.toInt_one, htoInt, BinOp.checked, Int.add_comm]
    by_cases hlast : n = Int64.maxValue.toInt
    · rw [if_neg (by omega), if_neg (by omega), hlast, Int64.ofInt_toInt]
    · rw [if_pos (by omega), if_pos (by omega)]
      rfl
  · rw [if_neg hn, if_neg (by omega)]
    rfl

theorem agree_length (h : length.Function store ρ v) (xs : List Value) :
    Agree store (applyAll v [.ofList xs]) (ofResult (count xs.length)) := by
  induction xs with
  | nil => exact h.agree (by decide) rfl Nat.one_pos rfl fun ρ' _ => agree_lit (.int 0)
  | cons x xs ih =>
    refine h.agree (by decide) rfl Nat.one_pos rfl fun ρ' hsees => ?_
    have hlength := agree_var (hsees "length" (by decide))
    have hxs := agree_var (hsees "t" (by decide))
    have hrest := (agree_call hlength (.cons hxs .nil)).trans ih
    refine (agree_bin .add (agree_lit (.int 1)) hrest).trans ?_
    rw [List.length_cons, count_succ, pure_bind, ofResult_bind]
    exact .refl _

theorem agree_append (h : append.Function store ρ v) (xs : List Value) (w : Value) :
    Agree store (applyAll v [.ofList xs, w]) (pure (xs.foldr .cons w)) := by
  induction xs with
  | nil =>
    exact h.agree (by decide) rfl Nat.two_pos rfl fun ρ' hsees => agree_var (hsees "ys" (by decide))
  | cons x xs ih =>
    refine h.agree (by decide) rfl Nat.two_pos rfl fun ρ' hsees => ?_
    have happend := agree_var (hsees "append" (by decide))
    have hx := agree_var (hsees "h" (by decide))
    have hxs := agree_var (hsees "t" (by decide))
    have hw := agree_var (hsees "ys" (by decide))
    have hrest := (agree_call happend (.cons hxs (.cons hw .nil))).trans ih
    have hcons := agree_cons hx hrest
    rwa [pure_bind, pure_bind] at hcons

theorem agree_folding {name acc x : String} {body start : Expr} {ρ₀ : Env} {g z : Value}
    {f : Value → Value → Computation Value}
    (h : (folding name acc x body start).Function store ρ v)
    (htidy : ∀ c ∈ (folding name acc x body start).clauses, c.tidy = true)
    (hg : foldl.Function store ρ₀ g) (hfoldl : ρ.lookup store "foldl" = .ok g)
    (hstart : ∀ ρ, Agree store (evaluation ρ start) (pure z))
    (hbody : ∀ ρ a b, Agree store (evaluation (.bind x b (.bind acc a ρ)) body) (f a b))
    (xs : List Value) : Agree store (applyAll v [.ofList xs]) (xs.foldlM f z) := by
  refine h.agree htidy rfl Nat.one_pos rfl fun ρ' hsees => ?_
  have hfoldl := agree_var ((hsees "foldl" (by decide)).trans hfoldl)
  have hxs := agree_var (hsees "xs" (by decide))
  have hstep : Agree store (evaluation ρ' (.abs acc (.abs x body)))
      (pure (.closure acc (.abs x body) ρ')) := agree_abs acc _
  refine (agree_call hfoldl (.cons hstep (.cons (hstart ρ') (.cons hxs .nil)))).trans ?_
  refine (agree_foldl hg _ z xs).trans (.foldlM xs fun a b => ?_)
  have habs : Agree store (evaluation (.bind acc a ρ') (.abs x body))
      (pure (.closure x body (.bind acc a ρ'))) := agree_abs x body
  have hfirst := habs.bind_left (f := fun g => applyAll g [b])
  rw [pure_bind, applyAll_one] at hfirst
  exact .trans hfirst (hbody ρ' a b)

theorem agree_reverse {ρ₀ : Env} {g : Value} (h : reverse.Function store ρ v)
    (hg : foldl.Function store ρ₀ g) (hfoldl : ρ.lookup store "foldl" = .ok g) (xs : List Value) :
    Agree store (applyAll v [.ofList xs]) (pure (.ofList xs.reverse)) := by
  have hpush : ∀ ρ acc x, Agree store
      (evaluation (.bind "x" x (.bind "acc" acc ρ)) (.cons (.var "x") (.var "acc")))
      (pure (.cons x acc)) := fun ρ acc x => by
    have hx : Agree store (evaluation (.bind "x" x (.bind "acc" acc ρ)) (.var "x")) (pure x) :=
      agree_var rfl
    have hacc : Agree store (evaluation (.bind "x" x (.bind "acc" acc ρ)) (.var "acc"))
        (pure acc) := agree_var rfl
    have hcons := agree_cons hx hacc
    rwa [pure_bind, pure_bind] at hcons
  refine (agree_folding h (by decide) hg hfoldl (fun _ => agree_nil) hpush xs).trans ?_
  rw [List.foldlM_pure, Value.ofList, List.foldr_reverse]
  exact .refl _

def between (lo hi : Int64) : List Value :=
  (List.range (hi.toInt + 1 - lo.toInt).toNat).map fun i : Nat => .int (.ofInt (lo.toInt + i))

theorem between_of_lt {lo hi : Int64} (h : hi < lo) : between lo hi = [] := by
  have hlt := Int64.lt_iff_toInt_lt.mp h
  rw [between, Int.toNat_of_nonpos (by omega)]
  rfl

theorem between_of_le {lo hi : Int64} (h : lo ≤ hi) (hlo : lo ≠ Int64.maxValue) :
    between lo hi = .int lo :: between (.ofInt (lo.toInt + 1)) hi := by
  have hle := Int64.le_iff_toInt_le.mp h
  have hlen : (hi.toInt + 1 - lo.toInt).toNat = (hi.toInt + 1 - (lo.toInt + 1)).toNat + 1 := by
    omega
  rw [between, between, toInt_add_one hlo, hlen, List.range_succ_eq_map, List.map_cons,
    List.map_map]
  refine congrArg₂ _ (by simp) (List.map_congr_left fun i _ => ?_)
  rw [Function.comp_apply, Nat.succ_eq_add_one, Int.natCast_add, Int.add_assoc, Int.add_comm 1]
  rfl

/-- The integers from one to another. To go past the last of them fails if it is the greatest of
all. -/
def interval (lo hi : Int64) : Except RuntimeError Value :=
  if hi < lo ∨ hi ≠ Int64.maxValue then .ok (.ofList (between lo hi))
  else .error (.overflow .add Int64.maxValue 1)

theorem interval_of_lt {lo hi : Int64} (h : hi < lo) : interval lo hi = .ok .nil := by
  rw [interval, if_pos (Or.inl h), between_of_lt h]
  rfl

theorem interval_of_le {lo hi : Int64} (h : lo ≤ hi) (hlo : lo ≠ Int64.maxValue) :
    interval lo hi = (interval (.ofInt (lo.toInt + 1)) hi).map (.cons (.int lo)) := by
  have hle := Int64.le_iff_toInt_le.mp h
  have hnext := toInt_add_one hlo
  rw [interval, interval, between_of_le h hlo]
  by_cases hhi : hi = Int64.maxValue
  · have hmax := (Int64.ofInt (lo.toInt + 1)).toInt_le
    rw [if_neg, if_neg]
    · rfl
    · rw [Int64.lt_iff_toInt_lt, hhi]
      exact fun h => h.elim (fun h => by omega) (fun h => h rfl)
    · rw [Int64.lt_iff_toInt_lt]
      exact fun h => h.elim (fun h => by omega) (fun h => h hhi)
  · rw [if_pos (Or.inr hhi), if_pos (Or.inr hhi)]
    rfl

theorem eq_max_of_le {hi : Int64} (h : Int64.maxValue ≤ hi) : hi = Int64.maxValue :=
  Int64.toInt_inj.mp (Int.le_antisymm hi.toInt_le (Int64.le_iff_toInt_le.mp h))

theorem interval_max : interval Int64.maxValue Int64.maxValue =
    .error (.overflow .add Int64.maxValue 1) :=
  if_neg fun h => h.elim Int64.lt_irrefl fun h => h rfl

/-- `range` compares, and counts on before it calls itself. -/
theorem agree_range_step (h : range.Function store ρ v) (lo hi : Int64) :
    Agree store (applyAll v [.int lo, .int hi])
      (if hi < lo then pure .nil else do
        let next ← ofResult (BinOp.apply .add (.int lo) (.int 1))
        let rest ← applyAll v [next, .int hi]
        pure (.cons (.int lo) rest)) := by
  refine h.agree (by decide) rfl Nat.two_pos rfl fun ρ' hsees => ?_
  have hrange := agree_var (hsees "range" (by decide))
  have hlo := agree_var (hsees "lo" (by decide))
  have hhi := agree_var (hsees "hi" (by decide))
  have hnext := agree_app hrange (agree_bin .add hlo (agree_lit (.int 1)))
  have hbody := agree_cond (agree_bin .gt hlo hhi) agree_nil
    (agree_cons hlo (agree_apps hnext (.cons hhi .nil)))
  have htest : ofResult (BinOp.apply .gt (.int lo) (.int hi)) >>= truth =
      pure (decide (hi < lo)) := pure_bind _ _
  simp only [pure_bind, bind_assoc] at hbody
  rw [← bind_assoc, htest, pure_bind] at hbody
  by_cases hlt : hi < lo
  · rw [if_pos hlt]
    rwa [if_pos (decide_eq_true hlt)] at hbody
  · rw [if_neg (by simpa using hlt)] at hbody
    simp only [if_neg hlt, applyAll_cons v, bind_assoc]
    exact hbody

theorem agree_range (h : range.Function store ρ v) (lo hi : Int64) :
    Agree store (applyAll v [.int lo, .int hi]) (ofResult (interval lo hi)) := by
  refine .trans (agree_range_step h lo hi) ?_
  -- on how many integers are left: the last call has none, unless it would have to start past the
  -- greatest of all
  induction hn : (hi.toInt + 1 - lo.toInt).toNat generalizing lo with
  | zero =>
    have hlt : hi < lo := Int64.lt_iff_toInt_lt.mpr (by omega)
    rw [if_pos hlt, interval_of_lt hlt]
    exact .refl _
  | succ n ih =>
    have hle : lo ≤ hi := Int64.le_iff_toInt_le.mpr (by omega)
    rw [if_neg (Int64.not_lt.mpr hle), apply_add_one]
    by_cases hlo : lo = Int64.maxValue
    · obtain rfl : hi = Int64.maxValue := eq_max_of_le (hlo ▸ hle)
      rw [if_pos hlo, hlo, interval_max]
      exact .refl _
    · have hnext := toInt_add_one hlo
      have hrest := (agree_range_step h _ hi).trans (ih (.ofInt (lo.toInt + 1)) (by omega))
      rw [if_neg hlo, interval_of_le hle hlo, ofResult_map]
      exact hrest.bind_left

end Prelude

end LetML
