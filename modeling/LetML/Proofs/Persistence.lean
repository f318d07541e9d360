import LetML.Proofs.Evaluation
import Mathlib.Data.List.Basic
import Mathlib.Data.List.Induction

namespace LetML

theorem idxOf_lt_of_filter {α : Type} [DecidableEq α] {a x y : α} (hx : x ≠ a) (hy : y ≠ a)
    {l : List α}
    (h : (l.filter (fun b => !b == a)).idxOf x < (l.filter (fun b => !b == a)).idxOf y) :
    l.idxOf x < l.idxOf y := by
  induction l with
  | nil => exact h
  | cons b l ih =>
    by_cases hb : b = a
    · subst hb
      rw [List.filter_cons_of_neg (by simp)] at h
      rw [List.idxOf_cons_ne _ hx.symm, List.idxOf_cons_ne _ hy.symm]
      exact Nat.succ_lt_succ (ih h)
    · rw [List.filter_cons_of_pos (by simpa using hb)] at h
      by_cases hbx : b = x
      · subst hbx
        have hby : b ≠ y := by
          rintro rfl
          exact Nat.lt_irrefl _ h
        rw [List.idxOf_cons_self, List.idxOf_cons_ne _ hby]
        exact Nat.succ_pos _
      · by_cases hby : b = y
        · subst hby
          rw [List.idxOf_cons_self] at h
          cases h
        · rw [List.idxOf_cons_ne _ hbx, List.idxOf_cons_ne _ hby] at h ⊢
          exact Nat.succ_lt_succ (ih (Nat.lt_of_succ_lt_succ h))

theorem pairwise_idxOf_eraseDups {α : Type} [DecidableEq α] (l : List α) :
    l.eraseDups.Pairwise (fun x y => l.idxOf x < l.idxOf y) := by
  match l with
  | [] => simp
  | a :: l =>
    rw [List.eraseDups_cons]
    have hne : ∀ b ∈ (l.filter (fun b => !b == a)).eraseDups, b ≠ a := fun b hb => by
      simpa using (List.mem_filter.mp (List.mem_eraseDups.mp hb)).2
    refine List.pairwise_cons.mpr ⟨fun b hb => ?_, ?_⟩
    · rw [List.idxOf_cons_self, List.idxOf_cons_ne _ (hne b hb).symm]
      exact Nat.succ_pos _
    · refine (pairwise_idxOf_eraseDups (l.filter (fun b => !b == a))).imp_of_mem ?_
      intro x y hx hy h
      rw [List.idxOf_cons_ne _ (hne x hx).symm, List.idxOf_cons_ne _ (hne y hy).symm]
      exact Nat.succ_lt_succ (idxOf_lt_of_filter (hne x hx) (hne y hy) h)
termination_by l.length
decreasing_by exact Nat.lt_succ_of_le (List.length_filter_le ..)

theorem lookup_cons_eq_ite {α β : Type} [DecidableEq α] (a k : α) (b : β) (l : List (α × β)) :
    ((k, b) :: l).lookup a = if a = k then some b else l.lookup a := by
  rw [List.lookup_cons]
  by_cases h : a = k
  · rw [beq_iff_eq.mpr h, if_pos h]
  · rw [beq_false_of_ne h, if_neg h]

namespace Env

def frames : Env → List Env
  | empty => []
  | bind x v outer => .bind x v outer :: outer.frames
  | slot x a outer => .slot x a outer :: outer.frames

def name? : Env → Option String
  | empty => none
  | bind x _ _ | slot x _ _ => some x

def head? : Env → Option Binding
  | empty => none
  | bind _ v _ => some (.value v)
  | slot _ a _ => some (.slot a)

/-- The innermost binding of a name, with those outside it. -/
def innermost? (x : String) (ρ : Env) : Option Env := ρ.frames.find? (fun φ => φ.name? = some x)

variable {ρ φ : Env} {x : String} {a : Nat} {store store' : Store}

theorem find?_eq (x : String) (ρ : Env) : ρ.find? x = (ρ.innermost? x).bind head? := by
  induction ρ using find?.induct (x := x) with
  | case1 => rfl
  | case2 v ρ => simp [find?, innermost?, frames, name?, head?]
  | case3 y v ρ hyx ih => simpa [find?, innermost?, frames, name?, hyx] using ih
  | case4 a ρ => simp [find?, innermost?, frames, name?, head?]
  | case5 y a ρ hyx ih => simpa [find?, innermost?, frames, name?, hyx] using ih

theorem mem_frames_of_innermost? (h : ρ.innermost? x = some φ) : φ ∈ ρ.frames :=
  List.mem_of_find?_eq_some h

theorem name?_of_innermost? (h : ρ.innermost? x = some φ) : φ.name? = some x := by
  simpa using List.find?_some h

theorem exists_head? (h : φ.name? = some x) : ∃ b, φ.head? = some b := by
  cases φ with
  | empty => cases h
  | bind y v outer => exact ⟨.value v, rfl⟩
  | slot y a outer => exact ⟨.slot a, rfl⟩

theorem map_name?_frames (ρ : Env) : ρ.frames.map name? = ρ.bound.map some := by
  induction ρ using frames.induct with
  | case1 => rfl
  | case2 x v outer ih => simp [frames, bound, name?, ih]
  | case3 x a outer ih => simp [frames, bound, name?, ih]

theorem innermost?_eq_none_iff : ρ.innermost? x = none ↔ x ∉ ρ.bound := by
  have hmem : x ∈ ρ.bound ↔ ∃ φ ∈ ρ.frames, φ.name? = some x := by
    rw [← List.mem_map, map_name?_frames, List.mem_map]
    simp
  simp [innermost?, hmem]

theorem bindAll_concat (ρ : Env) (bs : List (String × Value)) (b : String × Value) :
    ρ.bindAll (bs ++ [b]) = .bind b.1 b.2 (ρ.bindAll bs) := by
  rw [bindAll, List.foldl_concat, bindAll]

theorem lookup_bind (y : String) (v : Value) (ρ : Env) (store : Store) (x : String) :
    (bind y v ρ).lookup store x = if x = y then .ok v else ρ.lookup store x := by
  simp only [lookup, eq_comm]

theorem innermost?_of_frames {outer : Env} {y : String} (h : φ.frames = φ :: outer.frames)
    (hy : φ.name? = some y) (x : String) :
    φ.innermost? x = if x = y then some φ else outer.innermost? x := by
  by_cases hx : x = y
  · rw [if_pos hx, innermost?, h, List.find?_cons_of_pos (by simp [hy, hx])]
  · rw [if_neg hx, innermost?, h, List.find?_cons_of_neg (by simp [hy, Ne.symm hx]), innermost?]

/-- What a look-up finds of a list of bindings, innermost first. -/
def found (bs : List (String × Value)) : List (String × Except RuntimeError Value) :=
  bs.reverse.map (fun b => (b.1, .ok b.2))

theorem found_concat (bs : List (String × Value)) (b : String × Value) :
    found (bs ++ [b]) = (b.1, .ok b.2) :: found bs := by
  rw [found, List.reverse_concat, List.map_cons, found]

theorem bound_bindAll (ρ : Env) (bs : List (String × Value)) :
    (ρ.bindAll bs).bound = (found bs).map (·.1) ++ ρ.bound := by
  induction bs using List.reverseRecOn with
  | nil => rfl
  | append_singleton bs b ih =>
    rw [bindAll_concat, bound, ih, found_concat, List.map_cons, List.cons_append]

theorem lookup_found_concat (bs : List (String × Value)) (b : String × Value) (x : String) :
    (found (bs ++ [b])).lookup x = if x = b.1 then some (.ok b.2) else (found bs).lookup x := by
  rw [found_concat, lookup_cons_eq_ite]

theorem lookup_bindAll_eq (ρ : Env) (bs : List (String × Value)) (store : Store) (x : String) :
    (ρ.bindAll bs).lookup store x = ((found bs).lookup x).getD (ρ.lookup store x) := by
  induction bs using List.reverseRecOn with
  | nil => rfl
  | append_singleton bs b ih =>
    rw [bindAll_concat, lookup_bind, lookup_found_concat]
    by_cases hx : x = b.1
    · rw [if_pos hx, if_pos hx, Option.getD_some]
    · rw [if_neg hx, if_neg hx, ih]

theorem innermost?_bindAll {bs : List (String × Value)} (h : (found bs).lookup x = none) :
    (ρ.bindAll bs).innermost? x = ρ.innermost? x := by
  induction bs using List.reverseRecOn with
  | nil => rfl
  | append_singleton bs b ih =>
    rw [lookup_found_concat] at h
    by_cases hx : x = b.1
    · rw [if_pos hx] at h
      cases h
    · rw [if_neg hx] at h
      rw [bindAll_concat, innermost?_of_frames rfl rfl, if_neg hx, ih h]

theorem mem_frames_bindAll {bs : List (String × Value)} (h : φ ∈ (ρ.bindAll bs).frames)
    (ha : φ.head? = some (.slot a)) : φ ∈ ρ.frames := by
  induction bs generalizing ρ with
  | nil => exact h
  | cons b bs ih =>
    obtain rfl | h := List.mem_cons.mp (ih h)
    · cases ha
    · exact h

theorem lookup_congr (h : ∀ a, store'.get? a = store.get? a) (ρ : Env) (x : String) :
    ρ.lookup store' x = ρ.lookup store x := by
  rw [lookup_eq, lookup_eq]
  cases ρ.find? x with
  | none => rfl
  | some b =>
    cases b with
    | value v => rfl
    | slot a => simp only [Binding.read, h a]

theorem next_fillHead (v : Value) (store : Store) (ρ : Env) :
    (ρ.fillHead v store).next = store.next := by
  cases ρ with
  | slot x a outer => exact store.next_fill a v
  | _ => rfl

end Env

theorem Binding.read_ne_unbound (store : Store) (x : String) (b : Binding) (y : String) :
    read store x (some b) ≠ .error (.unbound y) := by
  intro h
  cases b with
  | value v => cases h
  | slot a =>
    rw [read] at h
    split at h <;> cases h

inductive EnvOp where
  | extend (x : String) (v : Value)
  | extendMany (bs : List (String × Value))
  | extendRec (x : String)
  | backpatch (v : Value)

def EnvOp.isExtension : EnvOp → Bool
  | backpatch _ => false
  | _ => true

/-- What a look-up finds of the names that are bound, innermost first. -/
def EnvOp.binds : EnvOp → List (String × Except RuntimeError Value)
  | extend x v => [(x, .ok v)]
  | extendMany bs => Env.found bs
  | extendRec x => [(x, .error (.notReady x))]
  | backpatch _ => []

/-- The environments built so far, the oldest first, and the store of their slots. -/
structure Forest where
  store : Store
  envs : List Env

namespace Forest

def start : Forest := ⟨.empty, [.empty]⟩

def env (F : Forest) (i : Nat) : Env := F.envs.getD i .empty

/-- Do something with the environment numbered `i`. What is built is numbered next. -/
def perform (F : Forest) (i : Nat) : EnvOp → Forest
  | .extend x v => { F with envs := F.envs ++ [.bind x v (F.env i)] }
  | .extendMany bs => { F with envs := F.envs ++ [(F.env i).bindAll bs] }
  | .extendRec x =>
    let (ρ, store) := (F.env i).bindSlot x F.store
    ⟨store, F.envs ++ [ρ]⟩
  | .backpatch v => { F with store := (F.env i).fillHead v F.store }

def performAll (F : Forest) (ops : List (Nat × EnvOp)) : Forest :=
  ops.foldl (fun F op => F.perform op.1 op.2) F

def Built (F : Forest) : Prop := ∃ ops, F = start.performAll ops

def lookup (F : Forest) (i : Nat) (x : String) : Except RuntimeError Value :=
  (F.env i).lookup F.store x

def contains (F : Forest) (i : Nat) (x : String) : Bool := (F.env i).contains x

def names (F : Forest) (i : Nat) : List String := (F.env i).names

/-- The innermost binding of an environment is a slot that is still empty. -/
def Unfilled (F : Forest) (i : Nat) : Prop :=
  ∃ x a ρ, F.env i = .slot x a ρ ∧ F.store.get? a = none

/-- The environment that is numbered next binds what `op` binds in front of what the one numbered
`i` binds, and a recursive name to an empty slot that no other environment sees. -/
structure Extends (F : Forest) (i : Nat) (op : EnvOp) (G : Forest) : Prop where
  length : G.envs.length = F.envs.length + 1
  bound : (G.env F.envs.length).bound = op.binds.map (·.1) ++ (F.env i).bound
  lookup : ∀ x, G.lookup F.envs.length x = (op.binds.lookup x).getD (F.lookup i x)
  outer : ∀ x, op.binds.lookup x = none →
    (G.env F.envs.length).innermost? x = (F.env i).innermost? x
  slot : ∀ x, op = .extendRec x → G.Unfilled F.envs.length ∧
    (G.env F.envs.length).innermost? x = some (G.env F.envs.length) ∧
    ∀ j < F.envs.length, ∀ y, (G.env j).innermost? y ≠ some (G.env F.envs.length)

def HasFrame (F : Forest) (φ : Env) : Prop := ∃ ρ ∈ F.envs, φ ∈ ρ.frames

/-- Every slot that is bound has been made, and it is bound in one place. -/
structure Sound (F : Forest) : Prop where
  made : ∀ φ a, F.HasFrame φ → φ.head? = some (.slot a) → a < F.store.next
  single : ∀ φ ψ a, F.HasFrame φ → F.HasFrame ψ → φ.head? = some (.slot a) →
    ψ.head? = some (.slot a) → φ = ψ

variable {F : Forest} {i j : Nat} {φ ρ : Env} {x : String} {v : Value} {op : EnvOp} {store : Store}

theorem hasFrame_of_mem (h : φ ∈ (F.env i).frames) : F.HasFrame φ := by
  rw [env, List.getD_eq_getElem?_getD] at h
  cases hi : F.envs[i]? with
  | none => rw [hi] at h; exact (List.not_mem_nil h).elim
  | some ρ => rw [hi] at h; exact ⟨ρ, List.mem_of_getElem? hi, h⟩

theorem Unfilled.hasFrame (hi : F.Unfilled i) : F.HasFrame (F.env i) := by
  obtain ⟨x, a, ρ, hρ, -⟩ := hi
  refine hasFrame_of_mem (i := i) ?_
  rw [hρ, Env.frames]
  exact List.mem_cons_self

theorem start_sound : start.Sound where
  made φ a h := by
    obtain ⟨ρ, hρ, hφ⟩ := h
    rw [List.mem_singleton.mp hρ] at hφ
    exact (List.not_mem_nil hφ).elim
  single φ ψ a h := by
    obtain ⟨ρ, hρ, hφ⟩ := h
    rw [List.mem_singleton.mp hρ] at hφ
    exact (List.not_mem_nil hφ).elim

theorem Sound.add (hF : F.Sound) (hle : F.store.next ≤ store.next)
    (hρ : ∀ φ ∈ ρ.frames, ∀ a, φ.head? = some (.slot a) →
      F.HasFrame φ ∨ φ = ρ ∧ F.store.next ≤ a ∧ a < store.next) :
    Sound ⟨store, F.envs ++ [ρ]⟩ := by
  have hcases : ∀ φ a, HasFrame ⟨store, F.envs ++ [ρ]⟩ φ → φ.head? = some (.slot a) →
      F.HasFrame φ ∧ a < F.store.next ∨ φ = ρ ∧ F.store.next ≤ a ∧ a < store.next := by
    rintro φ a ⟨ρ', hρ', hφ⟩ ha
    obtain hρ' | hρ' := List.mem_append.mp hρ'
    · exact Or.inl ⟨⟨ρ', hρ', hφ⟩, hF.made φ a ⟨ρ', hρ', hφ⟩ ha⟩
    · rw [List.mem_singleton.mp hρ'] at hφ
      exact (hρ φ hφ a ha).imp_left (fun h => ⟨h, hF.made φ a h ha⟩)
  constructor
  · intro φ a hφ ha
    obtain ⟨-, hlt⟩ | ⟨-, -, hlt⟩ := hcases φ a hφ ha
    · exact Nat.lt_of_lt_of_le hlt hle
    · exact hlt
  · intro φ ψ a hφ hψ haφ haψ
    obtain ⟨hφ, hltφ⟩ | ⟨rfl, hleφ, -⟩ := hcases φ a hφ haφ
    · obtain ⟨hψ, -⟩ | ⟨-, hleψ, -⟩ := hcases ψ a hψ haψ
      · exact hF.single φ ψ a hφ hψ haφ haψ
      · omega
    · obtain ⟨-, hltψ⟩ | ⟨hψ, -, -⟩ := hcases ψ a hψ haψ
      · omega
      · exact hψ.symm

theorem Sound.perform (hF : F.Sound) (i : Nat) (op : EnvOp) : (F.perform i op).Sound := by
  cases op with
  | extend x v =>
    refine hF.add (Nat.le_refl _) (fun φ hφ a ha => ?_)
    obtain rfl | hφ := List.mem_cons.mp hφ
    · cases ha
    · exact Or.inl (hasFrame_of_mem hφ)
  | extendMany bs =>
    exact hF.add (Nat.le_refl _) (fun φ hφ a ha =>
      Or.inl (hasFrame_of_mem (Env.mem_frames_bindAll hφ ha)))
  | extendRec x =>
    have hnext := F.store.next_alloc
    refine hF.add (by omega) (fun φ hφ a ha => ?_)
    obtain rfl | hφ := List.mem_cons.mp hφ
    · cases ha
      exact Or.inr ⟨rfl, Nat.le_refl _, by omega⟩
    · exact Or.inl (hasFrame_of_mem hφ)
  | backpatch v =>
    refine ⟨fun φ a hφ ha => ?_, hF.single⟩
    exact (Env.next_fillHead v F.store (F.env i)).symm ▸ hF.made φ a hφ ha

theorem Built.sound (hF : F.Built) : F.Sound := by
  have hrun : ∀ (ops : List (Nat × EnvOp)) {F : Forest}, F.Sound → (F.performAll ops).Sound := by
    intro ops
    induction ops with
    | nil => exact fun hF => hF
    | cons op ops ih => exact fun hF => ih (hF.perform op.1 op.2)
  obtain ⟨ops, rfl⟩ := hF
  exact hrun ops start_sound

theorem env_perform (i : Nat) (op : EnvOp) (hj : j < F.envs.length) :
    (F.perform i op).env j = F.env j := by
  have happend : ∀ ρ, (F.envs ++ [ρ]).getD j .empty = F.envs.getD j .empty := fun ρ => by
    rw [List.getD_eq_getElem?_getD, List.getElem?_append_left hj, List.getD_eq_getElem?_getD]
  cases op with
  | backpatch v => rfl
  | _ => exact happend _

theorem length_perform (i : Nat) (op : EnvOp) : F.envs.length ≤ (F.perform i op).envs.length := by
  cases op <;> simp [perform]

theorem env_concat (store : Store) (F : Forest) (ρ : Env) :
    env ⟨store, F.envs ++ [ρ]⟩ F.envs.length = ρ := by
  simp [env]

theorem get?_perform (i : Nat) (h : op.isExtension = true) (a : Nat) :
    (F.perform i op).store.get? a = F.store.get? a := by
  cases op with
  | extendRec x => exact F.store.get?_alloc a
  | backpatch v => cases h
  | _ => rfl

theorem get?_perform_of_some (i : Nat) (op : EnvOp) {a : Nat} {w : Value}
    (h : F.store.get? a = some w) : (F.perform i op).store.get? a = some w := by
  cases op with
  | backpatch v =>
    change ((F.env i).fillHead v F.store).get? a = some w
    cases F.env i with
    | slot x b outer => exact Store.get?_fill_of_some h
    | _ => exact h
  | extendRec x => exact (F.store.get?_alloc a).trans h
  | _ => exact h

theorem lookup_perform_of_ok (i : Nat) (op : EnvOp) (hj : j < F.envs.length)
    (h : F.lookup j x = .ok v) : (F.perform i op).lookup j x = .ok v := by
  rw [lookup, env_perform i op hj]
  exact Env.lookup_of_keeps (fun _ _ => get?_perform_of_some i op) h

theorem get?_performAll_of_some (ops : List (Nat × EnvOp)) {a : Nat} {w : Value}
    (h : F.store.get? a = some w) : (F.performAll ops).store.get? a = some w := by
  induction ops generalizing F with
  | nil => exact h
  | cons op ops ih => exact ih (get?_perform_of_some op.1 op.2 h)

theorem lookup_performAll_of_ok (ops : List (Nat × EnvOp)) (hj : j < F.envs.length)
    (h : F.lookup j x = .ok v) : (F.performAll ops).lookup j x = .ok v := by
  induction ops generalizing F with
  | nil => exact h
  | cons op ops ih =>
    exact ih (Nat.lt_of_lt_of_le hj (length_perform op.1 op.2))
      (lookup_perform_of_ok op.1 op.2 hj h)

theorem lookup_eq_read (F : Forest) (i : Nat) (x : String) :
    F.lookup i x = Binding.read F.store x (((F.env i).innermost? x).bind Env.head?) := by
  rw [lookup, Env.lookup_eq, Env.find?_eq]

theorem lookup_of_unfilled (hi : F.Unfilled i) (h : (F.env j).innermost? x = some (F.env i)) :
    F.lookup j x = .error (.notReady x) := by
  obtain ⟨y, a, ρ, hρ, ha⟩ := hi
  simp [lookup_eq_read, h, hρ, Env.head?, Binding.read, ha]

theorem lookup_backpatch (hF : F.Sound) (hi : F.Unfilled i)
    (h : (F.env j).innermost? x = some (F.env i)) (v : Value) :
    (F.perform i (.backpatch v)).lookup j x = .ok v := by
  have hframe := hi.hasFrame
  obtain ⟨y, a, ρ, hρ, ha⟩ := hi
  have hlt : a < F.store.next := hF.made (F.env i) a hframe (by rw [hρ]; rfl)
  have hget : (F.perform i (.backpatch v)).store.get? a = some v := by
    change ((F.env i).fillHead v F.store).get? a = some v
    rw [hρ, Env.fillHead, Store.get?_fill, if_pos ⟨rfl, hlt⟩, ha]
    rfl
  have henv : (F.perform i (.backpatch v)).env j = F.env j := rfl
  simp [lookup_eq_read, henv, h, hρ, Env.head?, Binding.read, hget]

theorem lookup_backpatch_of_ne (hF : F.Sound) (hi : F.Unfilled i)
    (h : (F.env j).innermost? x ≠ some (F.env i)) (v : Value) :
    (F.perform i (.backpatch v)).lookup j x = F.lookup j x := by
  have hframe := hi.hasFrame
  obtain ⟨y, a, ρ, hρ, ha⟩ := hi
  have henv : (F.perform i (.backpatch v)).env j = F.env j := rfl
  rw [lookup_eq_read, lookup_eq_read, henv]
  cases hx : (F.env j).innermost? x with
  | none => rfl
  | some φ =>
    rw [Option.bind_some]
    cases hb : φ.head? with
    | none => rfl
    | some b =>
      cases b with
      | value w => rfl
      | slot b =>
        have hne : a ≠ b := by
          rintro rfl
          refine h (hx.trans (congrArg some ?_))
          exact hF.single φ (F.env i) a (hasFrame_of_mem (Env.mem_frames_of_innermost? hx))
            hframe hb (by rw [hρ]; rfl)
        have hget : (F.perform i (.backpatch v)).store.get? b = F.store.get? b := by
          change ((F.env i).fillHead v F.store).get? b = F.store.get? b
          rw [hρ, Env.fillHead, Store.get?_fill, if_neg (fun h => hne h.1)]
        simp only [Binding.read, hget]

theorem lookup_backpatch_of_filled (hi : ¬F.Unfilled i) (v : Value) (j : Nat) (x : String) :
    (F.perform i (.backpatch v)).lookup j x = F.lookup j x := by
  refine Env.lookup_congr (fun b => ?_) (F.env j) x
  change ((F.env i).fillHead v F.store).get? b = F.store.get? b
  cases hρ : F.env i with
  | slot y a ρ =>
    rw [Env.fillHead, Store.get?_fill]
    cases hb : F.store.get? b with
    | some w => simp
    | none =>
      refine if_neg (fun h => hi ⟨y, a, ρ, hρ, ?_⟩)
      rw [h.1, hb]
  | _ => rfl

theorem extends_extendMany (F : Forest) (i : Nat) (bs : List (String × Value)) :
    F.Extends i (.extendMany bs) (F.perform i (.extendMany bs)) := by
  have henv : (F.perform i (.extendMany bs)).env F.envs.length = (F.env i).bindAll bs :=
    F.env_concat F.store _
  refine ⟨List.length_append, ?_, fun x => ?_, fun x hx => ?_, fun x hx => ?_⟩
  · rw [henv, Env.bound_bindAll, EnvOp.binds]
  · rw [lookup, henv]
    exact Env.lookup_bindAll_eq (F.env i) bs F.store x
  · rw [henv, Env.innermost?_bindAll hx]
  · cases hx

theorem Sound.extends_extendRec (hF : F.Sound) (i : Nat) (x : String) :
    F.Extends i (.extendRec x) (F.perform i (.extendRec x)) := by
  have henv : (F.perform i (.extendRec x)).env F.envs.length = .slot x F.store.next (F.env i) :=
    F.env_concat F.store.alloc _
  have hget : ∀ a, (F.perform i (.extendRec x)).store.get? a = F.store.get? a := F.store.get?_alloc
  have hinner : ∀ y, (Env.slot x F.store.next (F.env i)).innermost? y =
      if y = x then some (.slot x F.store.next (F.env i)) else (F.env i).innermost? y :=
    Env.innermost?_of_frames rfl rfl
  have hempty : F.store.get? F.store.next = none := F.store.get?_next
  refine ⟨List.length_append, by rw [henv]; rfl, fun y => ?_, fun y hy => ?_, fun y hy => ?_⟩
  · rw [lookup, henv, Env.lookup, EnvOp.binds, lookup_cons_eq_ite]
    by_cases hy : x = y
    · rw [if_pos hy, if_pos hy.symm, hget, hempty, hy, Option.getD_some]
    · rw [if_neg hy, if_neg (Ne.symm hy)]
      exact Env.lookup_congr hget (F.env i) y
  · have hne : y ≠ x := fun h => by
      rw [EnvOp.binds, lookup_cons_eq_ite, if_pos h] at hy
      cases hy
    rw [henv, hinner, if_neg hne]
  · cases hy
    refine ⟨⟨x, F.store.next, F.env i, henv, (hget _).trans hempty⟩, ?_, fun j hj y hy => ?_⟩
    · rw [henv, hinner, if_pos rfl]
    · rw [henv, env_perform i _ hj] at hy
      exact Nat.lt_irrefl _
        (hF.made _ _ (hasFrame_of_mem (Env.mem_frames_of_innermost? hy)) rfl)

theorem Sound.extends_perform (hF : F.Sound) (i : Nat) (h : op.isExtension = true) :
    F.Extends i op (F.perform i op) := by
  cases op with
  | extend x v =>
    have hmany := F.extends_extendMany i [(x, v)]
    exact ⟨hmany.length, hmany.bound, hmany.lookup, hmany.outer, fun y hy => by cases hy⟩
  | extendMany bs => exact F.extends_extendMany i bs
  | extendRec x => exact hF.extends_extendRec i x
  | backpatch v => cases h

theorem contains_iff (F : Forest) (j : Nat) (x : String) :
    F.contains j x = true ↔ x ∈ (F.env j).bound := by
  simp [contains, Env.contains, Env.names]

theorem contains_iff_lookup (F : Forest) (j : Nat) (x : String) :
    F.contains j x = true ↔ ∀ y, F.lookup j x ≠ .error (.unbound y) := by
  rw [contains_iff, lookup_eq_read]
  cases hx : (F.env j).innermost? x with
  | none => exact iff_of_false (Env.innermost?_eq_none_iff.mp hx) (fun h => h x rfl)
  | some φ =>
    have hmem : x ∈ (F.env j).bound := Classical.byContradiction fun hn => by
      rw [Env.innermost?_eq_none_iff.mpr hn] at hx
      cases hx
    obtain ⟨b, hb⟩ := Env.exists_head? (Env.name?_of_innermost? hx)
    rw [Option.bind_some, hb]
    exact iff_of_true hmem (Binding.read_ne_unbound F.store x b)

/-- Environments are persistent: what is seen of one changes only where a recursive name is given
its value, in the look-ups that end at that binding, and only once. -/
theorem Built.persistent (hF : F.Built) :
    -- what is there keeps its names, and its look-ups under extensions
    (∀ i op j, j < F.envs.length →
      (F.perform i op).names j = F.names j ∧
      (∀ x, (F.perform i op).contains j x = F.contains j x) ∧
      (op.isExtension = true → ∀ x, (F.perform i op).lookup j x = F.lookup j x)) ∧
    -- an extension adds one environment, with what it binds in front
    (∀ i op, op.isExtension = true → F.Extends i op (F.perform i op)) ∧
    -- to fill an empty slot changes the look-ups that end there, and no others
    (∀ i, F.Unfilled i → ∀ v j x,
      ((F.env j).innermost? x = some (F.env i) →
        F.lookup j x = .error (.notReady x) ∧ (F.perform i (.backpatch v)).lookup j x = .ok v) ∧
      ((F.env j).innermost? x ≠ some (F.env i) →
        (F.perform i (.backpatch v)).lookup j x = F.lookup j x)) ∧
    -- nothing else is filled, and nothing is filled again
    (∀ i, ¬F.Unfilled i → ∀ v j x, (F.perform i (.backpatch v)).lookup j x = F.lookup j x) ∧
    (∀ ops, (∀ a w, F.store.get? a = some w → (F.performAll ops).store.get? a = some w) ∧
      ∀ j < F.envs.length, ∀ x w, F.lookup j x = .ok w → (F.performAll ops).lookup j x = .ok w) ∧
    -- the three ways to look at an environment agree
    ∀ j, (∀ x, F.contains j x = true ↔ ∀ y, F.lookup j x ≠ .error (.unbound y)) ∧
      (F.names j).Nodup ∧ (∀ x, x ∈ F.names j ↔ F.contains j x = true) ∧
      (F.names j).Pairwise (fun x y => (F.env j).bound.idxOf x < (F.env j).bound.idxOf y) ∧
      ∀ x, F.lookup j x = Binding.read F.store x (((F.env j).innermost? x).bind Env.head?) := by
  have hs := hF.sound
  refine ⟨fun i op j hj => ⟨?_, fun x => ?_, fun h x => ?_⟩,
    fun i op => hs.extends_perform i,
    fun i hi v j x => ⟨fun h => ⟨lookup_of_unfilled hi h, lookup_backpatch hs hi h v⟩,
      fun h => lookup_backpatch_of_ne hs hi h v⟩,
    fun i hi v j x => lookup_backpatch_of_filled hi v j x,
    fun ops => ⟨fun a w => get?_performAll_of_some ops,
      fun j hj x w => lookup_performAll_of_ok ops hj⟩,
    fun j => ⟨F.contains_iff_lookup j, ?_, fun x => ?_, pairwise_idxOf_eraseDups _,
      F.lookup_eq_read j⟩⟩
  · rw [names, env_perform i op hj, names]
  · rw [contains, env_perform i op hj, contains]
  · rw [lookup, env_perform i op hj]
    exact Env.lookup_congr (get?_perform i h) (F.env j) x
  · refine (pairwise_idxOf_eraseDups (F.env j).bound).imp ?_
    rintro x y h rfl
    exact Nat.lt_irrefl _ h
  · rw [contains_iff]
    exact List.mem_eraseDups

/-- A recursive name, a binding over it, and one that shadows it. -/
def shadowing : Forest := start.performAll
  [(0, .extendRec "f"), (1, .extend "x" (.int 1)), (1, .extendMany [("y", .nil), ("f", .int 2)])]

theorem Built.persistent_shadowing : shadowing.Built ∧ shadowing.Unfilled 1 ∧
    shadowing.lookup 2 "x" = .ok (.int 1) ∧
    shadowing.lookup 2 "f" = .error (.notReady "f") ∧
    (shadowing.perform 1 (.backpatch (.int 7))).lookup 2 "f" = .ok (.int 7) ∧
    (shadowing.perform 1 (.backpatch (.int 7))).lookup 3 "f" = .ok (.int 2) := by
  have hbuilt : shadowing.Built := ⟨_, rfl⟩
  have hunfilled : shadowing.Unfilled 1 := ⟨"f", 0, .empty, rfl, rfl⟩
  have hbefore : (start.perform 0 (.extendRec "f")).Built := ⟨[(0, .extendRec "f")], rfl⟩
  have hbound := (hbefore.persistent.2.1 1 (.extend "x" (.int 1)) rfl).lookup "x"
  have hfill := hbuilt.persistent.2.2.1 1 hunfilled (.int 7)
  obtain ⟨hempty, hfilled⟩ := (hfill 2 "f").1 rfl
  have hinner : (shadowing.env 3).innermost? "f" = some (shadowing.env 3) := rfl
  have hkept := (hfill 3 "f").2 (by rw [hinner]; exact fun h => nomatch Option.some.inj h)
  exact ⟨hbuilt, hunfilled, hbound, hempty, hfilled, hkept⟩

end Forest

end LetML
