import LetML.Proofs.Resemblance

namespace LetML

variable {ρ ρ' : Env} {store store' : Store} {r : Except RuntimeError Value} {vs : List Value}
  {x : String}

namespace Clause

def matchAll : List Pattern → List Value → Option (List (String × Value))
  | [], [] => some []
  | p :: ps, v :: vs => do
    let left ← p.match? v
    let right ← matchAll ps vs
    return left ++ right
  | _, _ => none

def rejected : List Pattern → List Value → Option Value
  | p :: ps, v :: vs => if (p.match? v).isSome then rejected ps vs else some v
  | _, _ => none

def select (vs : List Value) : List Clause → Option (List (String × Value) × Expr)
  | [] => none
  | c :: cs => match matchAll c.params vs with
    | some bs => some (bs, c.body)
    | none => select vs cs

/-- What clauses make of arguments: the body of the first clause that matches is evaluated under
its bindings. If none matches, the last clause tells which argument is at fault. -/
inductive Answers (cs : List Clause) (ρ : Env) (vs : List Value) (store : Store) :
    Except RuntimeError Value → Store → Prop
  | selected {bs : List (String × Value)} {b : Expr} {r : Except RuntimeError Value}
      {store' : Store} : select vs cs = some (bs, b) → Evaluates (ρ.bindAll bs) b store r store' →
    Answers cs ρ vs store r store'
  | unmatched {c : Clause} {v : Value} : select vs cs = none → cs.getLast? = some c →
    rejected c.params vs = some v → Answers cs ρ vs store (.error (.noMatch v)) store

theorem exists_rejected {ps : List Pattern} {vs : List Value} (hlen : ps.length = vs.length)
    (h : matchAll ps vs = none) : ∃ v, rejected ps vs = some v := by
  induction ps generalizing vs with
  | nil =>
    obtain rfl := List.length_eq_zero_iff.mp hlen.symm
    cases h
  | cons p ps ih =>
    cases vs with
    | nil => cases hlen
    | cons v vs =>
      rw [rejected]
      cases hm : p.match? v with
      | none => exact ⟨v, rfl⟩
      | some bs =>
        refine ih (Nat.succ.inj hlen) (Option.eq_none_iff_forall_ne_some.mpr (fun cs hcs => ?_))
        simp [matchAll, hm, hcs] at h

end Clause

open Clause

theorem lookup_args {k i : Nat} {v : Value} (h : vs[i]? = some v) :
    (ρ.bindAll (((List.range' k vs.length).map argName).zip vs)).lookup store (argName (k + i)) =
      .ok v := by
  induction vs generalizing k i ρ with
  | nil => cases h
  | cons w vs ih =>
    cases i with
    | succ i =>
      have hrest := ih (k := k + 1) (ρ := .bind (argName k) w ρ) h
      rwa [show k + 1 + i = k + (i + 1) by omega] at hrest
    | zero =>
      obtain rfl := Option.some.inj h
      have hlater : argName k ∉
          (((List.range' (k + 1) vs.length).map argName).zip vs).map (·.1) := by
        rw [List.map_fst_zip (by simp)]
        exact argName_not_mem k vs.length
      exact (Env.lookup_bindAll hlater).trans (if_pos rfl)

def Env.SameSynthetic (store : Store) (ρ ρ' : Env) : Prop :=
  ∀ x, Synthetic x → ρ'.lookup store x = ρ.lookup store x

theorem Env.SameSynthetic.bindAll {bs : List (String × Value)} {p : Pattern} {v : Value}
    (h : Env.SameSynthetic store ρ ρ') (hp : ∀ x ∈ p.names, ¬Synthetic x)
    (hm : p.match? v = some bs) : Env.SameSynthetic store ρ (ρ'.bindAll bs) := by
  intro x hx
  rw [Env.lookup_bindAll, h x hx]
  rw [Pattern.map_fst_match? hm]
  exact fun hmem => hp x hmem hx

/-- What happens where an argument is rejected: the clauses still to be tried are called, or the
match fails. -/
def Otherwise (further : Bool) (ρ : Env) (v : Value) (store : Store)
    (r : Except RuntimeError Value) (store' : Store) : Prop :=
  if further then Evaluates ρ callNext store r store'
  else r = .error (.noMatch v) ∧ store' = store

theorem selectArm_matchArgs (further : Bool) (body : Expr) (p : Pattern) (v : Value) :
    selectArm v ((p, body) :: if further && !p.irrefutable then [(.wild, callNext)] else []) =
      match p.match? v with
      | some bs => some (bs, body)
      | none => if further then some ([], callNext) else none := by
  rw [selectArm]
  cases hm : p.match? v with
  | some bs => rfl
  | none =>
    -- a pattern that rejects a value is refutable
    have hp : p.irrefutable = false := by
      cases p with
      | var x => cases hm
      | wild => cases hm
      | _ => rfl
    cases further <;> simp [hp, selectArm, Pattern.match?]

theorem evaluates_matchArgs_cons {further : Bool} {body : Expr} {p : Pattern} {i : Nat}
    {args : List (Pattern × Nat)} {v : Value} (hv : ρ.lookup store (argName i) = .ok v) :
    Evaluates ρ (matchArgs further body ((p, i) :: args)) store r store' ↔ match p.match? v with
      | some bs => Evaluates (ρ.bindAll bs) (matchArgs further body args) store r store'
      | none => Otherwise further ρ v store r store' := by
  rw [matchArgs, evaluates_case_var hv, selectArm_matchArgs]
  cases p.match? v with
  | some bs => rfl
  | none => cases further <;> rfl

theorem evaluates_matchArgs {further : Bool} {body : Expr} {ps : List Pattern} {k : Nat}
    {Q : Value → Prop} {ς : Env} (hlen : ps.length = vs.length)
    (hps : ∀ p ∈ ps, ∀ x ∈ p.names, ¬Synthetic x)
    (hargs : ∀ i v, vs[i]? = some v → ρ.lookup store (argName (k + i)) = .ok v)
    (hρ : Env.SameSynthetic store ρ ς)
    (hQ : ∀ ϱ v, Env.SameSynthetic store ρ ϱ → (Otherwise further ϱ v store r store' ↔ Q v)) :
    Evaluates ς (matchArgs further body (ps.zipIdx k)) store r store' ↔ match matchAll ps vs with
      | some bs => Evaluates (ς.bindAll bs) body store r store'
      | none => ∃ v, rejected ps vs = some v ∧ Q v := by
  induction ps generalizing vs k ς with
  | nil =>
    obtain rfl := List.length_eq_zero_iff.mp hlen.symm
    rfl
  | cons p ps ih =>
    cases vs with
    | nil => cases hlen
    | cons v vs =>
      have hv : ς.lookup store (argName k) = .ok v := by
        rw [hρ _ (synthetic_argName k)]
        exact hargs 0 v rfl
      rw [List.zipIdx_cons, evaluates_matchArgs_cons hv, matchAll, rejected]
      cases hm : p.match? v with
      | none => simp [hQ ς v hρ]
      | some left =>
        have hrest := ih (ς := ς.bindAll left) (Nat.succ.inj hlen)
          (fun q hq => hps q (by simp [hq]))
          (fun i w hi => by
            rw [Nat.add_assoc, Nat.add_comm 1 i]
            exact hargs (i + 1) w hi)
          (hρ.bindAll (hps p (by simp)) hm)
        refine hrest.trans ?_
        cases matchAll ps vs with
        | none => simp
        | some right => simp [Env.bindAll, List.foldl_append]

theorem evaluates_callNext {next : Expr} {ς : Env}
    (hnext : ρ.lookup store nextName = .ok (.closure unitName next ς)) :
    Evaluates ρ callNext store r store' ↔
      Evaluates (.bind unitName (.int 0) ς) next store r store' :=
  evaluates_app_var hnext

/-- The second environment has, among the bindings of the first, further ones under synthetic
names. -/
inductive Env.Padded : Env → Env → Prop
  | refl (ρ : Env) : Padded ρ ρ
  | bind {ρ ρ' : Env} (x : String) (v : Value) : Padded ρ ρ' →
    Padded (.bind x v ρ) (.bind x v ρ')
  | extra {ρ ρ' : Env} {x : String} (v : Value) : Synthetic x → Padded ρ ρ' →
    Padded ρ (.bind x v ρ')

namespace Env.Padded

theorem like (h : ρ.Padded ρ') : Env.Like (fun y => ¬Synthetic y) ρ ρ' := by
  induction h with
  | refl ρ => exact .refl _ ρ
  | bind x v _ ih => exact .bind (.refl v) (ih.mono (fun _ hy => hy.1))
  | extra v hx _ ih => exact .extra hx (fun h => h hx) ih

theorem lookup (h : ρ.Padded ρ') (store : Store) (hx : ¬Synthetic x) :
    ρ'.lookup store x = ρ.lookup store x := by
  induction h with
  | refl ρ => rfl
  | bind y v _ ih => rw [Env.lookup, Env.lookup, ih]
  | extra v hy _ ih => exact (if_neg (fun hyx : _ = x => hx (hyx ▸ hy))).trans ih

theorem bindAll {bs : List (String × Value)} (h : ρ.Padded ρ') :
    (ρ.bindAll bs).Padded (ρ'.bindAll bs) := by
  induction bs generalizing ρ ρ' with
  | nil => exact h
  | cons b bs ih => exact ih (.bind b.1 b.2 h)

theorem extras {bs : List (String × Value)} (hbs : ∀ b ∈ bs, Synthetic b.1) (h : ρ.Padded ρ') :
    ρ.Padded (ρ'.bindAll bs) := by
  induction bs generalizing ρ' with
  | nil => exact h
  | cons b bs ih => exact ih (fun c hc => hbs c (by simp [hc])) (.extra b.2 (hbs b (by simp)) h)

end Env.Padded

/-- Work that ends as clauses answer, in surroundings that may have further synthetic names. -/
def Implements (P : Except RuntimeError Value → Store → Prop) (cs : List Clause) (ρ : Env)
    (vs : List Value) (store : Store) : Prop :=
  match select vs cs with
  | some (bs, b) => ∃ ρ', (ρ.bindAll bs).Padded ρ' ∧
    ∀ r store', P r store' ↔ Evaluates ρ' b store r store'
  | none => ∃ c v, cs.getLast? = some c ∧ rejected c.params vs = some v ∧
    ∀ r store', P r store' ↔ r = .error (.noMatch v) ∧ store' = store

theorem Implements.congr {P Q : Except RuntimeError Value → Store → Prop} {cs : List Clause}
    (h : ∀ r store', P r store' ↔ Q r store') (hQ : Implements Q cs ρ vs store) :
    Implements P cs ρ vs store := by
  have hPQ : P = Q := funext (fun r => funext (fun store' => propext (h r store')))
  rwa [hPQ]

theorem implements_tryInOrder {c : Clause} {cs : List Clause} {ς : Env}
    (hc : ∀ d ∈ c :: cs, d.Hygienic ∧ d.params.length = vs.length)
    (hargs : ∀ i v, vs[i]? = some v → ς.lookup store (argName i) = .ok v)
    (hς : ρ.Padded ς) :
    Implements (Evaluates ς (tryInOrder c cs) store) (c :: cs) ρ vs store := by
  induction cs generalizing c ς with
  | nil =>
    obtain ⟨hhyg, hlen⟩ := hc c (by simp)
    have hmatch : ∀ r store', Evaluates ς (tryInOrder c []) store r store' ↔ _ := fun r store' =>
      evaluates_matchArgs (Q := fun v => r = .error (.noMatch v) ∧ store' = store) (k := 0) hlen
        hhyg.params (by simpa using hargs) (fun _ _ => rfl) (fun _ _ _ => by simp [Otherwise])
    rw [Implements, select]
    cases hm : matchAll c.params vs with
    | some bs =>
      simp only [hm] at hmatch
      exact ⟨ς.bindAll bs, hς.bindAll, hmatch⟩
    | none =>
      obtain ⟨v, hv⟩ := exists_rejected hlen hm
      simp only [hm, hv, Option.some.injEq, exists_eq_left'] at hmatch
      exact ⟨c, v, rfl, hv, hmatch⟩
  | cons d cs ih =>
    obtain ⟨hhyg, hlen⟩ := hc c (by simp)
    let next := tryInOrder d cs
    let ς' := Env.bind nextName (.closure unitName next ς) ς
    let ς'' := Env.bind unitName (.int 0) ς
    have hnotarg : ∀ i, nextName ≠ argName i := fun i h => argName_ne_nextName i h.symm
    have hmatch : ∀ r store', Evaluates ς (tryInOrder c (d :: cs)) store r store' ↔ _ :=
      fun r store' => evaluates_letIn_abs.trans (evaluates_matchArgs (k := 0)
        (ρ := ς') (ς := ς') (Q := fun _ => Evaluates ς'' next store r store') hlen hhyg.params
        (fun i v hi => by
          rw [Nat.zero_add]
          exact (if_neg (hnotarg i)).trans (hargs i v hi))
        (fun _ _ => rfl)
        (fun ϱ _ hϱ => evaluates_callNext ((hϱ _ synthetic_nextName).trans (if_pos rfl))))
    rw [Implements, select]
    cases hm : matchAll c.params vs with
    | some bs =>
      simp only [hm] at hmatch
      exact ⟨ς'.bindAll bs, .bindAll (.extra _ synthetic_nextName hς), hmatch⟩
    | none =>
      obtain ⟨v, hv⟩ := exists_rejected hlen hm
      simp only [hm, hv, Option.some.injEq, exists_eq_left'] at hmatch
      have hunit : ∀ i, unitName ≠ argName i := fun i h => argName_ne_unitName i h.symm
      have hrest := ih (c := d) (ς := ς'') (fun e he => hc e (List.mem_cons_of_mem _ he))
        (fun i v hi => (if_neg (hunit i)).trans (hargs i v hi))
        (.extra _ synthetic_unitName hς)
      rw [Implements] at hrest
      simp only [hmatch, List.getLast?_cons_cons]
      exact hrest

/-- A clause of irrefutable parameters matches. Its parameters are bound as its patterns bind them,
those without a name under synthetic ones. -/
theorem matchAll_irrefutable {ps : List Pattern} {k : Nat} {ς : Env}
    (hps : ∀ p ∈ ps, p.irrefutable) (hlen : ps.length = vs.length)
    (hς : ρ.Padded ς) : ∃ bs, matchAll ps vs = some bs ∧
      (ρ.bindAll bs).Padded (ς.bindAll (((ps.zipIdx k).map paramName).zip vs)) := by
  induction ps generalizing vs k ρ ς with
  | nil =>
    obtain rfl := List.length_eq_zero_iff.mp hlen.symm
    exact ⟨[], rfl, hς⟩
  | cons p ps ih =>
    cases vs with
    | nil => cases hlen
    | cons v vs =>
      have hrest : ∀ {ρ ς : Env}, ρ.Padded ς → _ := fun h =>
        ih (k := k + 1) (fun q hq => hps q (by simp [hq])) (Nat.succ.inj hlen) h
      have hp := hps p (by simp)
      cases p with
      | var x =>
        obtain ⟨bs, hbs, hpadded⟩ := hrest (.bind x v hς)
        exact ⟨(x, v) :: bs, by simp [matchAll, Pattern.match?, hbs], hpadded⟩
      | wild =>
        obtain ⟨bs, hbs, hpadded⟩ := hrest (.extra v (synthetic_argName k) hς)
        exact ⟨bs, by simp [matchAll, Pattern.match?, hbs], hpadded⟩
      | lit l => cases hp
      | nil => cases hp
      | cons head tail => cases hp

theorem implements_curried {c : Clause} (hirr : ∀ p ∈ c.params, p.irrefutable)
    (hlen : c.params.length = vs.length) :
    Implements (AppliedTo ρ c.curried vs store) [c] ρ vs store := by
  obtain ⟨bs, hbs, hpadded⟩ := matchAll_irrefutable (k := 0) hirr hlen (.refl ρ)
  rw [Implements, select, hbs]
  exact ⟨_, hpadded, fun r store' => appliedTo_lambda (by simpa using hlen)⟩

theorem selectArm_arms {cs : List Clause} {v : Value} (hcs : ∀ c ∈ cs, c.params.length = 1) :
    selectArm v (arms cs) = select [v] cs := by
  induction cs with
  | nil => rfl
  | cons c cs ih =>
    obtain ⟨p, hp⟩ := List.length_eq_one_iff.mp (hcs c (by simp))
    have hrest := ih (fun d hd => hcs d (by simp [hd]))
    rw [arms] at hrest
    rw [select, arms, List.flatMap_cons, hp, List.map_singleton, List.singleton_append, selectArm,
      hrest]
    cases hm : p.match? v with
    | none => simp [matchAll, hm]
    | some bs => simp [matchAll, hm]

theorem matchAll_eq_none_of_select {cs : List Clause} {c : Clause} (h : select vs cs = none)
    (hc : c ∈ cs) : matchAll c.params vs = none := by
  induction cs with
  | nil => cases hc
  | cons d cs ih =>
    rw [select] at h
    cases hm : matchAll d.params vs with
    | some bs => simp [hm] at h
    | none =>
      rcases List.mem_cons.mp hc with rfl | hc
      · exact hm
      · exact ih (by simpa [hm] using h) hc

theorem implements_case {cs : List Clause} {v : Value} (hne : cs ≠ [])
    (hcs : ∀ c ∈ cs, c.params.length = 1) :
    Implements (AppliedTo ρ (.lambda [argName 0] (.case (.var (argName 0)) (arms cs))) [v] store)
      cs ρ [v] store := by
  have harg : (ρ.bindAll [(argName 0, v)]).lookup store (argName 0) = .ok v := if_pos rfl
  have hrun : ∀ r store', AppliedTo ρ (.lambda [argName 0] (.case (.var (argName 0)) (arms cs)))
      [v] store r store' ↔ _ := fun r store' =>
    (appliedTo_lambda rfl).trans (evaluates_case_var harg)
  rw [selectArm_arms hcs] at hrun
  rw [Implements]
  cases hsel : select [v] cs with
  | some found =>
    simp only [hsel] at hrun
    exact ⟨_, .bindAll (.extra v (synthetic_argName 0) (.refl ρ)), hrun⟩
  | none =>
    simp only [hsel] at hrun
    have hlast := List.getLast_mem hne
    obtain ⟨p, hp⟩ := List.length_eq_one_iff.mp (hcs _ hlast)
    have hnone := matchAll_eq_none_of_select hsel hlast
    refine ⟨_, v, List.getLast?_eq_getLast_of_ne_nil hne, ?_, hrun⟩
    rw [hp] at hnone ⊢
    cases hm : p.match? v with
    | none => simp [rejected, hm]
    | some bs => simp [matchAll, hm] at hnone

theorem implements_lambda {c : Clause} {cs : List Clause}
    (hc : ∀ d ∈ c :: cs, d.Hygienic ∧ d.params.length = vs.length) :
    Implements
      (AppliedTo ρ (.lambda ((List.range vs.length).map argName) (tryInOrder c cs)) vs store)
      (c :: cs) ρ vs store := by
  refine .congr (fun r store' => appliedTo_lambda (by simp)) ?_
  refine implements_tryInOrder hc (fun i v hi => ?_) (.extras ?_ (.refl ρ))
  · rw [List.range_eq_range', ← Nat.zero_add i]
    exact lookup_args hi
  · rintro ⟨x, v⟩ hb
    obtain ⟨i, _, rfl⟩ := List.mem_map.mp (List.of_mem_zip hb).1
    exact synthetic_argName i

theorem implements_desugar {first : Clause} {rest : List Clause} {name : String} {e : Expr}
    (hdef : desugar (first :: rest) = .ok (name, e)) (hhyg : ∀ c ∈ first :: rest, c.Hygienic)
    (hlen : vs.length = first.params.length) (hpos : 0 < vs.length) :
    Implements (AppliedTo ρ e vs store) (first :: rest) ρ vs store := by
  obtain ⟨hsame, hcomb⟩ := of_desugar hdef
  have hlens : ∀ c ∈ first :: rest, c.params.length = vs.length := fun c hc =>
    (hsame c hc).2.trans hlen.symm
  obtain ⟨rfl, hirr, rfl⟩ | ⟨hone, rfl⟩ | ⟨_, rfl⟩ := combine_cases hcomb (hlen ▸ hpos)
  · exact implements_curried hirr hlen.symm
  · obtain ⟨v, rfl⟩ := List.length_eq_one_iff.mp (hlen.trans hone)
    exact implements_case (by simp) hlens
  · rw [← hlen]
    exact implements_lambda (fun c hc => ⟨hhyg c hc, hlens c hc⟩)

theorem select_body {cs : List Clause} {bs : List (String × Value)} {b : Expr}
    (h : select vs cs = some (bs, b)) : ∃ c ∈ cs, c.body = b := by
  induction cs with
  | nil => cases h
  | cons c cs ih =>
    rw [select] at h
    split at h
    · cases h
      exact ⟨c, by simp, rfl⟩
    · obtain ⟨d, hd, hbody⟩ := ih h
      exact ⟨d, by simp [hd], hbody⟩

theorem Implements.endsLike {P : Except RuntimeError Value → Store → Prop} {cs : List Clause}
    (hP : Implements P cs ρ vs store) (hhyg : ∀ c ∈ cs, c.Hygienic) :
    EndsLike (Answers cs ρ vs store) P := by
  rw [Implements] at hP
  cases hsel : select vs cs with
  | some found =>
    obtain ⟨bs, b⟩ := found
    rw [hsel] at hP
    obtain ⟨ρ', hpadded, hP⟩ := hP
    obtain ⟨c, hc, rfl⟩ := select_body hsel
    have hends := endsLike_evaluates (hpadded.like.mono (hhyg c hc).body) store
    constructor
    · rintro r store₁ (⟨hsel', hr⟩ | ⟨hsel', _, _⟩)
      · obtain ⟨rfl, rfl⟩ := Prod.mk.inj (Option.some.inj (hsel.symm.trans hsel'))
        simp only [hP]
        exact hends.forth r store₁ hr
      · cases hsel.symm.trans hsel'
    · intro r store₁ hr
      obtain ⟨r₀, store₀, hr₀, h⟩ := hends.back r store₁ ((hP r store₁).mp hr)
      exact ⟨r₀, store₀, .selected hsel hr₀, h⟩
  | none =>
    rw [hsel] at hP
    obtain ⟨c, v, hlast, hrej, hP⟩ := hP
    constructor
    · rintro r store₁ (⟨hsel', _⟩ | ⟨_, hlast', hrej'⟩)
      · cases hsel.symm.trans hsel'
      · obtain rfl := Option.some.inj (hlast.symm.trans hlast')
        obtain rfl := Option.some.inj (hrej.symm.trans hrej')
        exact ⟨_, _, (hP _ _).mpr ⟨rfl, rfl⟩, .error (.noMatch (.refl v)), .refl store⟩
    · intro r store₁ hr
      obtain ⟨rfl, rfl⟩ := (hP r store₁).mp hr
      exact ⟨_, _, .unmatched hsel hlast hrej, .error (.noMatch (.refl v)), .refl store₁⟩

/-- A definition by clauses that is applied to its arguments answers as its clauses say. -/
theorem desugar_preserves_semantics {first : Clause} {rest : List Clause} {name : String} {e : Expr}
    (hdef : desugar (first :: rest) = .ok (name, e)) (hhyg : ∀ c ∈ first :: rest, c.Hygienic)
    (hlen : vs.length = first.params.length) (hpos : 0 < vs.length) :
    EndsLike (Answers (first :: rest) ρ vs store) (AppliedTo ρ e vs store) :=
  (implements_desugar hdef hhyg hlen hpos).endsLike hhyg

/-- The second clause binds `x` twice, and its later binding is the one that its body sees. -/
theorem desugar_preserves_semantics_shadowed :
    ∃ e, desugar [⟨"f", [.lit (.int 1), .var "x"], .var "x"⟩,
        ⟨"f", [.var "x", .cons (.var "x") .wild], .var "x"⟩] = .ok ("f", e) ∧
      AppliedTo .empty e [.int 2, .cons (.int 5) .nil] .empty (.ok (.int 5)) .empty ∧
      EndsLike
        (Answers [⟨"f", [.lit (.int 1), .var "x"], .var "x"⟩,
          ⟨"f", [.var "x", .cons (.var "x") .wild], .var "x"⟩] .empty
          [.int 2, .cons (.int 5) .nil] .empty)
        (AppliedTo .empty e [.int 2, .cons (.int 5) .nil] .empty) := by
  have hx : ¬Synthetic "x" := not_synthetic (by decide)
  refine ⟨_, rfl, ⟨10, rfl⟩, desugar_preserves_semantics rfl ?_ rfl (by decide)⟩
  intro c hc
  rcases List.mem_cons.mp hc with rfl | hc
  · exact ⟨by simp [Pattern.names, hx], by simp [Expr.free, hx]⟩
  · obtain rfl := List.mem_singleton.mp hc
    exact ⟨by simp [Pattern.names, hx], by simp [Expr.free, hx]⟩

end LetML
