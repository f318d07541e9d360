import LetML.Proofs.Clauses
import LetML.Proofs.Completeness
import Mathlib.Data.List.Basic

namespace LetML

open Clause

inductive Pattern.BindAll : List Pattern → List Ty → List (String × Ty) → Prop
  | nil : BindAll [] [] []
  | cons {p : Pattern} {ps : List Pattern} {a : Ty} {as : List Ty} {bs cs : List (String × Ty)} :
    p.Binds a bs → BindAll ps as cs → BindAll (p :: ps) (a :: as) (bs ++ cs)

theorem Pattern.BindAll.unique {ps : List Pattern} {as : List Ty} {bs cs : List (String × Ty)}
    (h : BindAll ps as bs) (h' : BindAll ps as cs) : bs = cs := by
  induction h generalizing cs with
  | nil => cases h'; rfl
  | cons hp _ ih =>
    cases h' with
    | cons hp' hps' => rw [hp.unique hp', ih hps']

def Ty.arrows (as : List Ty) (t : Ty) : Ty := as.foldr .arrow t

namespace Clause

def Typed (Γ : TypeEnv) (as : List Ty) (c : Clause) (t : Ty) : Prop :=
  ∃ bs, Pattern.BindAll c.params as bs ∧ Typing (Γ.bindAll bs) c.body t

/-- The result of a clause is that of the clauses after it, unless it has several parameters and
none that can fail: then those after it, which no call reaches, have a result of their own. -/
inductive Chained (Γ : TypeEnv) (as : List Ty) : List Clause → Ty → Prop
  | last {c : Clause} {t : Ty} : c.Typed Γ as t → Chained Γ as [c] t
  | tied {c d : Clause} {cs : List Clause} {t : Ty} : c.Typed Γ as t → Chained Γ as (d :: cs) t →
    Chained Γ as (c :: d :: cs) t
  | cut {c d : Clause} {cs : List Clause} {t t' : Ty} : 2 ≤ as.length →
    (∀ p ∈ c.params, p.irrefutable) → c.Typed Γ as t → Chained Γ as (d :: cs) t' →
    Chained Γ as (c :: d :: cs) t

/-- Each clause but the last has a parameter that can fail to match. -/
def Refutable (cs : List Clause) : Prop := ∀ c ∈ cs.dropLast, ∃ p ∈ c.params, ¬p.irrefutable

end Clause

variable {Γ Δ Δ' : TypeEnv} {as : List Ty} {t : Ty} {cs : List Clause}

theorem Clause.Chained.typed (h : Chained Γ as cs t) (hcs : as.length < 2 ∨ Refutable cs) :
    ∀ c ∈ cs, c.Typed Γ as t := by
  induction h with
  | last hc => simpa using hc
  | @tied c d cs t hc _ ih =>
    have hrest := ih (hcs.imp_right (fun h e he => h e (List.mem_cons_of_mem c he)))
    exact List.forall_mem_cons.mpr ⟨hc, hrest⟩
  | @cut c d cs t t' hlen hirr _ _ _ =>
    obtain hlt | hcs := hcs
    · omega
    · obtain ⟨p, hp, hp'⟩ := hcs c (by simp)
      exact (hp' (hirr p hp)).elim

theorem Clause.chained_of_typed (hne : cs ≠ []) (h : ∀ c ∈ cs, c.Typed Γ as t) :
    Chained Γ as cs t := by
  induction cs with
  | nil => exact (hne rfl).elim
  | cons c cs ih =>
    obtain ⟨hc, hrest⟩ := List.forall_mem_cons.mp h
    cases cs with
    | nil => exact .last hc
    | cons d cs => exact .tied hc (ih (by simp) hrest)

theorem Clause.chained_iff_typed (hne : cs ≠ []) (hcs : as.length < 2 ∨ Refutable cs) :
    Chained Γ as cs t ↔ ∀ c ∈ cs, c.Typed Γ as t :=
  ⟨fun h => h.typed hcs, chained_of_typed hne⟩

theorem typing_abs_iff {x : String} {b : Expr} : Typing Γ (.abs x b) t ↔
    ∃ a r, t = .arrow a r ∧ Typing (Γ.insert x (.mono a)) b r := by
  constructor
  · intro h
    cases h with
    | abs hb => exact ⟨_, _, rfl, hb⟩
  · rintro ⟨a, r, rfl, hb⟩
    exact .abs hb

theorem typing_lambda_iff {xs : List String} {b : Expr} : Typing Γ (.lambda xs b) t ↔
    ∃ as r, as.length = xs.length ∧ t = Ty.arrows as r ∧ Typing (Γ.bindAll (xs.zip as)) b r := by
  induction xs generalizing Γ t with
  | nil =>
    constructor
    · exact fun h => ⟨[], t, rfl, rfl, h⟩
    · rintro ⟨as, r, hlen, rfl, h⟩
      obtain rfl := List.length_eq_zero_iff.mp hlen
      exact h
  | cons x xs ih =>
    rw [show Expr.lambda (x :: xs) b = .abs x (.lambda xs b) from rfl, typing_abs_iff]
    constructor
    · rintro ⟨a, _, rfl, h⟩
      obtain ⟨as, r, hlen, rfl, hb⟩ := ih.mp h
      exact ⟨a :: as, r, congrArg (· + 1) hlen, rfl, hb⟩
    · rintro ⟨as, r, hlen, rfl, h⟩
      cases as with
      | nil => cases hlen
      | cons a as => exact ⟨a, _, rfl, ih.mpr ⟨as, r, Nat.succ.inj hlen, rfl, h⟩⟩

theorem typing_var_mono {x : String} {a : Ty} (hx : Γ.get? x = some (.mono a)) :
    Typing Γ (.var x) t ↔ t = a := by
  constructor
  · intro h
    cases h with
    | var hx' ht =>
      obtain rfl := Option.some.inj (hx.symm.trans hx')
      simpa [Scheme.Instance, Ty.subst_var] using ht
  · rintro rfl
    exact .var hx (by simp [Scheme.Instance, Ty.subst_var])

theorem typing_callNext {σ : Scheme} (hx : Γ.get? nextName = some σ) :
    Typing Γ callNext t ↔ σ.Instance (.arrow .int t) := by
  constructor
  · intro h
    cases h with
    | app hf ha =>
      cases ha
      cases hf with
      | var hx' ht =>
        obtain rfl := Option.some.inj (hx.symm.trans hx')
        exact ht
  · exact fun h => .app (.var hx h) (.lit Γ (.int 0))

/-- Two environments that differ at most at synthetic names. -/
def TypeEnv.AlikeBut (Γ Δ : TypeEnv) : Prop := ∀ x, ¬Synthetic x → Δ.get? x = Γ.get? x

def TypeEnv.SameSynthetic (Γ Δ : TypeEnv) : Prop := ∀ x, Synthetic x → Δ.get? x = Γ.get? x

theorem TypeEnv.SameSynthetic.bindAll {bs : List (String × Ty)} {p : Pattern} {a : Ty}
    (h : SameSynthetic Γ Δ) (hp : ∀ x ∈ p.names, ¬Synthetic x) (hb : p.Binds a bs) :
    SameSynthetic Γ (Δ.bindAll bs) := by
  intro x hx
  rw [get?_bindAll, h x hx]
  rw [hb.names]
  exact fun hmem => hp x hmem hx

namespace TypeEnv.AlikeBut

theorem insert (h : AlikeBut Γ Δ) (x : String) (σ : Scheme) :
    AlikeBut (Γ.insert x σ) (Δ.insert x σ) := by
  intro y hy
  rw [Table.get?_insert, Table.get?_insert, h y hy]

theorem extra (h : AlikeBut Γ Δ) {x : String} (hx : Synthetic x) (σ : Scheme) :
    AlikeBut Γ (Δ.insert x σ) := by
  intro y hy
  have hyx : y ≠ x := fun hyx => hy (hyx ▸ hx)
  rw [Table.get?_insert, if_neg hyx, h y hy]

theorem bindAll (h : AlikeBut Γ Δ) (bs : List (String × Ty)) :
    AlikeBut (Γ.bindAll bs) (Δ.bindAll bs) := by
  induction bs generalizing Γ Δ with
  | nil => exact h
  | cons b bs ih => exact ih (h.insert b.1 (.mono b.2))

theorem extras (h : AlikeBut Γ Δ) {bs : List (String × Ty)} (hbs : ∀ b ∈ bs, Synthetic b.1) :
    AlikeBut Γ (Δ.bindAll bs) := by
  induction bs generalizing Δ with
  | nil => exact h
  | cons b bs ih =>
    exact ih (h.extra (hbs b (by simp)) (.mono b.2)) (fun c hc => hbs c (by simp [hc]))

theorem typing_iff (h : AlikeBut Γ Δ) {e : Expr} (he : ∀ x ∈ e.free, ¬Synthetic x) :
    Typing Δ e t ↔ Typing Γ e t :=
  ⟨fun ht => ht.of_agree (fun x hx => (h x (he x hx)).symm),
    fun ht => ht.of_agree (fun x hx => h x (he x hx))⟩

end TypeEnv.AlikeBut

open TypeEnv (AlikeBut SameSynthetic)

theorem typing_matchArgs_cons {further : Bool} {body : Expr} {p : Pattern} {i : Nat}
    {args : List (Pattern × Nat)} {a : Ty} (ha : Δ.get? (argName i) = some (.mono a)) :
    Typing Δ (matchArgs further body ((p, i) :: args)) t ↔
      (∃ bs, p.Binds a bs ∧ Typing (Δ.bindAll bs) (matchArgs further body args) t) ∧
        (further → ¬p.irrefutable → Typing Δ callNext t) := by
  rw [matchArgs, typing_case_iff]
  simp only [typing_var_mono ha, exists_eq_left, List.mem_cons, Prod.mk.injEq]
  constructor
  · intro h
    refine ⟨h p _ (Or.inl ⟨rfl, rfl⟩), fun hf hp => ?_⟩
    obtain ⟨bs, hbs, hnext⟩ := h .wild callNext (Or.inr (by simp [hf, hp]))
    cases hbs
    exact hnext
  · rintro ⟨hp, hnext⟩ q b (⟨rfl, rfl⟩ | hqb)
    · exact hp
    · by_cases hf : (further && !p.irrefutable) = true
      · rw [if_pos hf, List.mem_singleton, Prod.mk.injEq] at hqb
        obtain ⟨rfl, rfl⟩ := hqb
        obtain ⟨hf, hp⟩ := Bool.and_eq_true_iff.mp hf
        exact ⟨[], .wild a, hnext hf (by simpa using hp)⟩
      · rw [if_neg hf] at hqb
        cases hqb

/-- The patterns of a clause are typed from left to right. The clauses that follow are asked for
the type of the body if one of the patterns can fail. -/
theorem typing_matchArgs {further : Bool} {body : Expr} {ps : List Pattern} {k : Nat} {Q : Prop}
    (hlen : ps.length = as.length) (hps : ∀ p ∈ ps, ∀ x ∈ p.names, ¬Synthetic x)
    (hargs : ∀ i a, as[i]? = some a → Δ.get? (argName (k + i)) = some (.mono a))
    (hΔ : SameSynthetic Δ Δ')
    (hQ : further → ∀ Δ', SameSynthetic Δ Δ' → (Typing Δ' callNext t ↔ Q)) :
    Typing Δ' (matchArgs further body (ps.zipIdx k)) t ↔
      (∃ bs, Pattern.BindAll ps as bs ∧ Typing (Δ'.bindAll bs) body t) ∧
        (further → (∃ p ∈ ps, ¬p.irrefutable) → Q) := by
  induction ps generalizing as k Δ' with
  | nil =>
    obtain rfl := List.length_eq_zero_iff.mp hlen.symm
    constructor
    · exact fun h => ⟨⟨[], .nil, h⟩, by simp⟩
    · rintro ⟨⟨bs, hbs, h⟩, -⟩
      cases hbs
      exact h
  | cons p ps ih =>
    cases as with
    | nil => cases hlen
    | cons a as =>
      have ha : Δ'.get? (argName k) = some (.mono a) := by
        rw [hΔ _ (synthetic_argName k)]
        exact hargs 0 a rfl
      have hrest : ∀ {bs}, p.Binds a bs → _ := fun hbs =>
        ih (k := k + 1) (Nat.succ.inj hlen) (fun q hq => hps q (by simp [hq]))
          (fun i b hi => by
            rw [Nat.add_assoc, Nat.add_comm 1 i]
            exact hargs (i + 1) b hi)
          (hΔ.bindAll (hps p (by simp)) hbs)
      rw [List.zipIdx_cons, typing_matchArgs_cons ha]
      constructor
      · rintro ⟨⟨bs, hbs, h⟩, hp⟩
        obtain ⟨⟨cs, hcs, h⟩, hq⟩ := (hrest hbs).mp h
        refine ⟨⟨bs ++ cs, .cons hbs hcs, ?_⟩, ?_⟩
        · rwa [TypeEnv.bindAll, List.foldl_append]
        · rintro hf ⟨q, hqm, hqr⟩
          rcases List.mem_cons.mp hqm with rfl | hqm
          · exact (hQ hf Δ' hΔ).mp (hp hf hqr)
          · exact hq hf ⟨q, hqm, hqr⟩
      · rintro ⟨⟨bs, hbs, h⟩, hp⟩
        cases hbs with
        | @cons _ _ _ _ bs cs hbs hcs =>
          rw [TypeEnv.bindAll, List.foldl_append] at h
          refine ⟨⟨bs, hbs, (hrest hbs).mpr ⟨⟨cs, hcs, h⟩, ?_⟩⟩, ?_⟩
          · exact fun hf ⟨q, hqm, hqr⟩ => hp hf ⟨q, by simp [hqm], hqr⟩
          · exact fun hf hpr => (hQ hf Δ' hΔ).mpr (hp hf ⟨p, by simp, hpr⟩)

theorem TypeEnv.AlikeBut.typed_iff (h : AlikeBut Γ Δ) {c : Clause} (hc : c.Hygienic) :
    c.Typed Δ as t ↔ c.Typed Γ as t :=
  exists_congr (fun bs => and_congr_right (fun _ => (h.bindAll bs).typing_iff hc.body))

theorem typing_letIn_abs_iff {x y : String} {v b : Expr} :
    Typing Γ (.letIn x (.abs y v) b) t ↔ ∃ a r σ, Typing (Γ.insert y (.mono a)) v r ∧
      Γ.Generalizes (.arrow a r) σ ∧ Typing (Γ.insert x σ) b t := by
  constructor
  · intro h
    cases h with
    | letIn hv hσ hb =>
      obtain ⟨a, r, rfl, hr⟩ := typing_abs_iff.mp hv
      exact ⟨a, r, _, hr, hσ, hb⟩
  · rintro ⟨a, r, σ, hv, hσ, hb⟩
    exact .letIn (.abs hv) hσ hb

theorem typing_tryInOrder {c : Clause} (hc : ∀ d ∈ c :: cs, d.Hygienic ∧ d.params.length = as.length)
    (hargs : ∀ i a, as[i]? = some a → Δ.get? (argName i) = some (.mono a)) (hΔ : AlikeBut Γ Δ)
    (htwo : 2 ≤ as.length) : Typing Δ (tryInOrder c cs) t ↔ Chained Γ as (c :: cs) t := by
  induction cs generalizing c Δ t with
  | nil =>
    obtain ⟨hhyg, hlen⟩ := hc c (by simp)
    have hmatch : Typing Δ (tryInOrder c []) t ↔ c.Typed Δ as t ∧ (false → _ → False) :=
      typing_matchArgs (k := 0) hlen hhyg.params (by simpa using hargs) (fun _ _ => rfl) (by simp)
    rw [hmatch, hΔ.typed_iff hhyg]
    constructor
    · exact fun h => .last h.1
    · intro h
      cases h with
      | last h => exact ⟨h, by simp⟩
  | cons d cs ih =>
    obtain ⟨hhyg, hlen⟩ := hc c (by simp)
    -- the clauses that follow, in the scope of their dummy argument
    have hnext : ∀ {a r : Ty}, Typing (Δ.insert unitName (.mono a)) (tryInOrder d cs) r ↔
        Chained Γ as (d :: cs) r := by
      refine ih (fun e he => hc e (List.mem_cons_of_mem _ he)) (fun i b hi => ?_)
        (hΔ.extra synthetic_unitName _)
      rw [Table.get?_insert, if_neg (argName_ne_unitName i)]
      exact hargs i b hi
    -- this clause, in the scope of those
    have hclause : ∀ {σ : Scheme},
        Typing (Δ.insert nextName σ) (matchArgs true c.body c.params.zipIdx) t ↔
          c.Typed (Δ.insert nextName σ) as t ∧
            (true → (∃ p ∈ c.params, ¬p.irrefutable) → σ.Instance (.arrow .int t)) := by
      intro σ
      refine typing_matchArgs (k := 0) hlen hhyg.params (fun i b hi => ?_) (fun _ _ => rfl)
        (fun _ Δ' hΔ' => typing_callNext ?_)
      · rw [Nat.zero_add, Table.get?_insert, if_neg (argName_ne_nextName i)]
        exact hargs i b hi
      · rw [hΔ' _ synthetic_nextName, Table.get?_insert, if_pos rfl]
    have hsame : ∀ {σ : Scheme}, c.Typed (Δ.insert nextName σ) as t ↔ c.Typed Γ as t :=
      (hΔ.extra synthetic_nextName _).typed_iff hhyg
    rw [tryInOrder, typing_letIn_abs_iff]
    simp only [hnext, hclause, hsame]
    constructor
    · rintro ⟨a, r, σ, hr, hσ, htyped, hcall⟩
      by_cases hirr : ∀ p ∈ c.params, p.irrefutable
      · exact .cut htwo hirr htyped hr
      · have hinst := hcall trivial (by simpa using hirr)
        obtain ⟨_, _, ht, hr⟩ := typing_abs_iff.mp ((Typing.abs (hnext.mpr hr)).instance hσ hinst)
        cases ht
        exact .tied htyped (hnext.mp hr)
    · have hgen : ∀ r, Δ.Generalizes (.arrow .int r) (Δ.generalize (.arrow .int r)) := fun r =>
        Δ.generalizes_generalize _
      intro h
      cases h with
      | tied htyped hr =>
        exact ⟨.int, t, _, hr, hgen t, htyped, fun _ _ => Scheme.instance_ty _⟩
      | cut _ hirr htyped hr =>
        refine ⟨.int, _, _, hr, hgen _, htyped, fun _ hex => ?_⟩
        obtain ⟨p, hp, hp'⟩ := hex
        exact (hp' (hirr p hp)).elim

theorem get?_args {k i : Nat} {a : Ty} (h : as[i]? = some a) :
    (Γ.bindAll (((List.range' k as.length).map argName).zip as)).get? (argName (k + i)) =
      some (.mono a) := by
  induction as generalizing k i Γ with
  | nil => cases h
  | cons b as ih =>
    cases i with
    | succ i =>
      have hrest := ih (k := k + 1) (Γ := Γ.insert (argName k) (.mono b)) h
      rwa [show k + 1 + i = k + (i + 1) by omega] at hrest
    | zero =>
      obtain rfl := Option.some.inj h
      have hlater : argName k ∉
          (((List.range' (k + 1) as.length).map argName).zip as).map (·.1) := by
        rw [List.map_fst_zip (by simp)]
        exact argName_not_mem k as.length
      exact (TypeEnv.get?_bindAll hlater).trans (by rw [Table.get?_insert, if_pos rfl])

theorem typing_lambda_args {c : Clause} {n : Nat}
    (hc : ∀ d ∈ c :: cs, d.Hygienic ∧ d.params.length = n) (htwo : 2 ≤ n) :
    Typing Γ (.lambda ((List.range n).map argName) (tryInOrder c cs)) t ↔
      ∃ as r, as.length = n ∧ t = Ty.arrows as r ∧ Chained Γ as (c :: cs) r := by
  rw [typing_lambda_iff, List.length_map, List.length_range]
  refine exists_congr (fun as => exists_congr (fun r => and_congr_right (fun hlen => ?_)))
  subst hlen
  refine and_congr_right (fun _ => typing_tryInOrder hc (fun i a hi => ?_) ?_ htwo)
  · rw [List.range_eq_range', ← Nat.zero_add i]
    exact get?_args hi
  · refine TypeEnv.AlikeBut.extras (fun _ _ => rfl) ?_
    rintro ⟨x, a⟩ hb
    obtain ⟨i, _, rfl⟩ := List.mem_map.mp (List.of_mem_zip hb).1
    exact synthetic_argName i

theorem exists_bindAll_irrefutable {ps : List Pattern} {k : Nat} (hps : ∀ p ∈ ps, p.irrefutable)
    (hlen : as.length = ps.length) (hΔ : AlikeBut Γ Δ) :
    ∃ bs, Pattern.BindAll ps as bs ∧
      AlikeBut (Γ.bindAll bs) (Δ.bindAll (((ps.zipIdx k).map paramName).zip as)) := by
  induction ps generalizing as k Γ Δ with
  | nil =>
    obtain rfl := List.length_eq_zero_iff.mp hlen
    exact ⟨[], .nil, hΔ⟩
  | cons p ps ih =>
    cases as with
    | nil => cases hlen
    | cons a as =>
      have hrest : ∀ {Γ Δ : TypeEnv}, AlikeBut Γ Δ → _ := fun h =>
        ih (k := k + 1) (fun q hq => hps q (by simp [hq])) (Nat.succ.inj hlen) h
      have hp := hps p (by simp)
      cases p with
      | var x =>
        obtain ⟨bs, hbs, hlike⟩ := hrest (hΔ.insert x (.mono a))
        exact ⟨(x, a) :: bs, .cons (.var x a) hbs, hlike⟩
      | wild =>
        obtain ⟨bs, hbs, hlike⟩ := hrest (hΔ.extra (synthetic_argName k) (.mono a))
        exact ⟨bs, .cons (.wild a) hbs, hlike⟩
      | lit l => cases hp
      | nil => cases hp
      | cons head tail => cases hp

theorem typing_curried {c : Clause} (hc : c.Hygienic) (hirr : ∀ p ∈ c.params, p.irrefutable) :
    Typing Γ c.curried t ↔
      ∃ as r, as.length = c.params.length ∧ t = Ty.arrows as r ∧ Chained Γ as [c] r := by
  rw [curried, typing_lambda_iff, List.length_map, List.length_zipIdx]
  refine exists_congr (fun as => exists_congr (fun r => and_congr_right (fun hlen =>
    and_congr_right (fun _ => ?_))))
  obtain ⟨bs, hbs, hlike⟩ := exists_bindAll_irrefutable (Γ := Γ) (k := 0) hirr hlen (fun _ _ => rfl)
  rw [hlike.typing_iff hc.body]
  constructor
  · exact fun h => .last ⟨bs, hbs, h⟩
  · intro h
    cases h with
    | last h =>
      obtain ⟨bs', hbs', h⟩ := h
      rwa [hbs'.unique hbs] at h

theorem typed_singleton {c : Clause} {p : Pattern} {a : Ty} (hp : c.params = [p]) :
    c.Typed Γ [a] t ↔ ∃ bs, p.Binds a bs ∧ Typing (Γ.bindAll bs) c.body t := by
  rw [Typed, hp]
  refine exists_congr (fun bs => and_congr_left (fun _ => ⟨fun h => ?_, fun h => ?_⟩))
  · cases h with
    | cons hbs hnil =>
      cases hnil
      rwa [List.append_nil]
  · rw [← List.append_nil bs]
    exact .cons h .nil

theorem typing_case_arms (hne : cs ≠ []) (hcs : ∀ c ∈ cs, c.Hygienic ∧ c.params.length = 1) :
    Typing Γ (.lambda [argName 0] (.case (.var (argName 0)) (arms cs))) t ↔
      ∃ as r, as.length = 1 ∧ t = Ty.arrows as r ∧ Chained Γ as cs r := by
  rw [typing_lambda_iff]
  refine exists_congr (fun as => exists_congr (fun r => and_congr_right (fun hlen =>
    and_congr_right (fun _ => ?_))))
  obtain ⟨a, rfl⟩ := List.length_eq_one_iff.mp hlen
  let Δ := Γ.insert (argName 0) (.mono a)
  have harg : Δ.get? (argName 0) = some (.mono a) := by
    rw [Table.get?_insert, if_pos rfl]
  have hΔ : AlikeBut Γ Δ := TypeEnv.AlikeBut.extra (fun _ _ => rfl) (synthetic_argName 0) _
  rw [chained_iff_typed hne (Or.inl (by simp))]
  change Typing Δ _ r ↔ _
  simp only [typing_case_iff, typing_var_mono harg, exists_eq_left]
  constructor
  · intro h c hc
    obtain ⟨hhyg, hone⟩ := hcs c hc
    obtain ⟨p, hp⟩ := List.length_eq_one_iff.mp hone
    rw [← hΔ.typed_iff hhyg, typed_singleton hp]
    exact h p c.body (List.mem_flatMap.mpr ⟨c, hc, by simp [hp]⟩)
  · intro h q b hqb
    obtain ⟨c, hc, hqb⟩ := List.mem_flatMap.mp hqb
    obtain ⟨hhyg, hone⟩ := hcs c hc
    obtain ⟨p, hp⟩ := List.length_eq_one_iff.mp hone
    rw [hp, List.map_singleton, List.mem_singleton, Prod.mk.injEq] at hqb
    obtain ⟨rfl, rfl⟩ := hqb
    have htyped := h c hc
    rwa [← hΔ.typed_iff hhyg, typed_singleton hp] at htyped

theorem typing_desugar {first : Clause} {rest : List Clause} {name : String} {e : Expr}
    (hdef : desugar (first :: rest) = .ok (name, e)) (hhyg : ∀ c ∈ first :: rest, c.Hygienic)
    (hpos : 0 < first.params.length) : Typing Γ e t ↔ ∃ as r, as.length = first.params.length ∧
      t = Ty.arrows as r ∧ Chained Γ as (first :: rest) r := by
  obtain ⟨hsame, hcomb⟩ := of_desugar hdef
  have hcs : ∀ c ∈ first :: rest, c.Hygienic ∧ c.params.length = first.params.length :=
    fun c hc => ⟨hhyg c hc, (hsame c hc).2⟩
  obtain ⟨rfl, hirr, rfl⟩ | ⟨hone, rfl⟩ | ⟨htwo, rfl⟩ := combine_cases hcomb hpos
  · exact typing_curried (hhyg first (by simp)) hirr
  · rw [hone] at hcs ⊢
    exact typing_case_arms (by simp) hcs
  · exact typing_lambda_args hcs htwo

/-- A definition by clauses has the types at which its clauses are chained: one result for all of
them, apart from what no call can reach. -/
theorem desugar_typed_by_clauses {first : Clause} {rest : List Clause} {name : String} {e : Expr}
    (hdef : desugar (first :: rest) = .ok (name, e)) (hhyg : ∀ c ∈ first :: rest, c.Hygienic)
    (hpos : 0 < first.params.length) (hΓ : Γ.Closed) :
    ((∃ σ, schemeOf Γ e = .ok σ) ↔
        ∃ as r, as.length = first.params.length ∧ Chained Γ as (first :: rest) r) ∧
      (∀ σ, schemeOf Γ e = .ok σ → ∀ t, σ.Instance t ↔
        ∃ as r, as.length = first.params.length ∧ t = Ty.arrows as r ∧
          Chained Γ as (first :: rest) r) ∧
      (first.params.length = 1 ∨ Refutable (first :: rest) →
        ∀ as r, as.length = first.params.length →
          (Chained Γ as (first :: rest) r ↔ ∀ c ∈ first :: rest, c.Typed Γ as r)) := by
  have htyping : ∀ {t}, Typing Γ e t ↔ _ := typing_desugar hdef hhyg hpos
  refine ⟨⟨?_, ?_⟩, ?_, ?_⟩
  · rintro ⟨σ, hσ⟩
    obtain ⟨as, r, hlen, -, h⟩ := htyping.mp (hΓ.typing_of_schemeOf hσ σ.instance_ty)
    exact ⟨as, r, hlen, h⟩
  · rintro ⟨as, r, hlen, h⟩
    obtain ⟨σ, hσ, -⟩ := hΓ.exists_schemeOf (htyping.mpr ⟨as, r, hlen, rfl, h⟩)
    exact ⟨σ, hσ⟩
  · intro σ hσ t
    rw [← htyping]
    refine ⟨fun ht => hΓ.typing_of_schemeOf hσ ht, fun ht => ?_⟩
    obtain ⟨σ', hσ', ht⟩ := hΓ.exists_schemeOf ht
    obtain rfl := Except.ok.inj (hσ.symm.trans hσ')
    exact ht
  · intro h as r hlen
    exact chained_iff_typed (by simp) (h.imp_left (by omega))

theorem eq_ok_of_toOption {ε α : Type} {x : Except ε α} {a : α} (h : x.toOption = some a) :
    x = .ok a := by
  cases x with
  | error err => cases h
  | ok b => exact congrArg Except.ok (Option.some.inj h)

/-- `f 0 x = x | f n _ = n` -/
def orElse : List Clause :=
  [⟨"f", [.lit (.int 0), .var "x"], .var "x"⟩, ⟨"f", [.var "n", .wild], .var "n"⟩]

def orElseExpr : Expr :=
  .lambda ["__arg0", "__arg1"] <|
    .letIn "__next"
      (.abs "__unit" (.case (.var "__arg0")
        [(.var "n", .case (.var "__arg1") [(.wild, .var "n")])]))
      (.case (.var "__arg0")
        [(.lit (.int 0), .case (.var "__arg1") [(.var "x", .var "x")]), (.wild, callNext)])

theorem desugar_typed_by_clauses_orElse : desugar orElse = .ok ("f", orElseExpr) ∧
    schemeOf .empty orElseExpr = .ok ⟨[], .arrow .int (.arrow .int .int)⟩ ∧
    ∀ c ∈ orElse, c.Typed .empty [.int, .int] .int := by
  have hdef : desugar orElse = .ok ("f", orElseExpr) := rfl
  have hscheme : schemeOf .empty orElseExpr = .ok ⟨[], .arrow .int (.arrow .int .int)⟩ :=
    eq_ok_of_toOption (by decide +kernel)
  have hname : ∀ x ∈ ["x", "n"], ¬Synthetic x := by
    simp only [List.forall_mem_cons]
    exact ⟨not_synthetic (by decide), not_synthetic (by decide), by simp⟩
  have hhyg : ∀ c ∈ orElse, c.Hygienic := by
    intro c hc
    rcases List.mem_cons.mp hc with rfl | hc
    · exact ⟨by simp [Pattern.names, hname], by simp [Expr.free, hname]⟩
    · obtain rfl := List.mem_singleton.mp hc
      exact ⟨by simp [Pattern.names, hname], by simp [Expr.free, hname]⟩
  obtain ⟨-, hinst, hall⟩ := desugar_typed_by_clauses hdef hhyg (by decide) TypeEnv.closed_empty
  obtain ⟨as, r, hlen, ht, h⟩ := (hinst _ hscheme _).mp (Scheme.instance_ty _)
  obtain ⟨a, b, rfl⟩ := List.length_eq_two.mp hlen
  simp only [Ty.arrows, List.foldr_cons, List.foldr_nil, Ty.arrow.injEq] at ht
  obtain ⟨rfl, rfl, rfl⟩ := ht
  refine ⟨hdef, hscheme, (hall (Or.inr ?_) _ _ rfl).mp h⟩
  intro c hc
  obtain rfl := List.mem_singleton.mp hc
  exact ⟨.lit (.int 0), by simp, by decide⟩

/-- `f x y = 1 | f a b = true` -/
def twoResults : List Clause :=
  [⟨"f", [.var "x", .var "y"], .lit (.int 1)⟩, ⟨"f", [.var "a", .var "b"], .lit (.bool true)⟩]

def twoResultsExpr : Expr :=
  .lambda ["__arg0", "__arg1"] <|
    .letIn "__next"
      (.abs "__unit" (.case (.var "__arg0")
        [(.var "a", .case (.var "__arg1") [(.var "b", .lit (.bool true))])]))
      (.case (.var "__arg0") [(.var "x", .case (.var "__arg1") [(.var "y", .lit (.int 1))])])

/-- A definition is given a type although no type is the result of both of its clauses. -/
theorem schemeOf_twoResults : desugar twoResults = .ok ("f", twoResultsExpr) ∧
    schemeOf .empty twoResultsExpr = .ok ⟨[0, 1], .arrow (.var 0) (.arrow (.var 1) .int)⟩ ∧
    ¬∃ as r, ∀ c ∈ twoResults, c.Typed .empty as r := by
  refine ⟨rfl, eq_ok_of_toOption (by decide +kernel), ?_⟩
  rintro ⟨as, r, h⟩
  obtain ⟨_, _, hone⟩ := h ⟨"f", [.var "x", .var "y"], .lit (.int 1)⟩ (by simp [twoResults])
  obtain ⟨_, _, htrue⟩ := h ⟨"f", [.var "a", .var "b"], .lit (.bool true)⟩ (by simp [twoResults])
  cases hone
  cases htrue

end LetML
