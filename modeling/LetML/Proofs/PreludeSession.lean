import LetML.Proofs.ListFunctions
import LetML.Proofs.NestedLet
import LetML.Proofs.Tracing

namespace LetML

open Clause LetML.Computation

variable {Γ : TypeEnv} {ρ : Env} {store store₁ : Store} {v : Value} {E : Equations}
  {Es Fs : List Equations} {x : String} {b : Expr} {d : Decl} {ds : List Decl}

/-- The environment that definitions make one after another, the latest of them first. -/
inductive Env.Defines (store : Store) : List Equations → Env → Prop
  | empty : Defines store [] .empty
  | bind {E : Equations} {Es : List Equations} {ρ : Env} {v : Value} : E.Function store ρ v →
    Defines store Es ρ → Defines store (E :: Es) (.bind E.first.name v ρ)

namespace Env.Defines

theorem grows (h : ρ.Defines store Es) (hg : store.Grows store₁) : ρ.Defines store₁ Es := by
  induction h with
  | empty => exact .empty
  | bind hv _ ih => exact .bind (hv.grows hg) ih

/-- A name has the value of the latest definition of it, in the environment that those before it
have made. -/
theorem lookup (h : ρ.Defines store Es)
    (hE : Es.dropWhile (fun E => E.first.name ≠ x) = E :: Fs) :
    ∃ v ρ', ρ.lookup store x = .ok v ∧ E.Function store ρ' v ∧ ρ'.Defines store Fs := by
  induction h with
  | empty => cases hE
  | @bind F Es ρ v hv hρ ih =>
    rw [List.dropWhile_cons] at hE
    by_cases hname : F.first.name = x
    · rw [if_neg (by simpa using hname)] at hE
      cases hE
      exact ⟨v, ρ, if_pos hname, hv, hρ⟩
    · rw [if_pos (by simpa using hname)] at hE
      obtain ⟨w, ρ', hlookup, hw⟩ := ih hE
      exact ⟨w, ρ', (if_neg hname).trans hlookup, hw⟩

end Env.Defines

theorem Expr.exists_lambda_eq_abs {xs : List String} (h : 0 < xs.length) (b : Expr) :
    ∃ x b', lambda xs b = .abs x b' := by
  cases xs with
  | nil => cases h
  | cons x xs => exact ⟨x, lambda xs b, rfl⟩

namespace Equations

theorem exists_abs (hpos : 0 < E.first.params.length) (h : E.decl = .ok d) :
    ∃ x b, d = .define E.recursive E.first.name (.abs x b) ∧
      desugar E.clauses = .ok (E.first.name, .abs x b) := by
  rw [decl, letDecl] at h
  cases hdef : desugar E.clauses with
  | error err =>
    rw [hdef] at h
    cases h
  | ok p =>
    obtain ⟨name, e⟩ := p
    rw [hdef] at h
    cases h
    obtain ⟨hname, hcomb⟩ := of_desugar hdef
    obtain rfl : E.first.name = name := (hname E.first List.mem_cons_self).1
    suffices ∃ x b, e = .abs x b by
      obtain ⟨x, b, rfl⟩ := this
      exact ⟨x, b, rfl, rfl⟩
    obtain ⟨-, -, rfl⟩ | ⟨-, rfl⟩ | ⟨-, rfl⟩ := combine_cases hcomb hpos
    · exact Expr.exists_lambda_eq_abs (by simpa using hpos) _
    · exact ⟨_, _, rfl⟩
    · exact Expr.exists_lambda_eq_abs (by simpa using hpos) _

theorem exists_function (hdef : desugar E.clauses = .ok (E.first.name, .abs x b)) (ρ : Env)
    (store : Store) : ∃ v store₁, store.Grows store₁ ∧ E.Function store₁ ρ v ∧
      Evaluates ρ (Decl.define E.recursive E.first.name (.abs x b)).toExpr store (.ok v)
        store₁ := by
  cases hrec : E.recursive with
  | false => exact ⟨_, store, .refl store, .plain hrec hdef, 1, rfl⟩
  | true =>
    let ς := Env.slot E.first.name store.next ρ
    have hslot := (Store.Grows.refl store.alloc).get?_fill_next (.closure x b ς)
    refine ⟨_, _, store.grows_alloc.fill (Nat.le_refl _) (.closure x b ς),
      .recursive hrec hdef hslot, evaluates_letRec.mpr ⟨_, store.alloc, ⟨1, rfl⟩, ?_⟩⟩
    refine evaluates_var.mpr ⟨?_, rfl⟩
    rw [Env.lookup, if_pos rfl, hslot]

end Equations

def TypeEnv.admits : TypeEnv → List Decl → Bool
  | _, [] => true
  | Γ, d :: ds => match schemeOf Γ d.toExpr with
    | .ok σ => admits (match d.name? with
      | some x => Γ.insert x σ.normalize
      | none => Γ) ds
    | .error _ => false

namespace Session

variable {s t : Session} {fuel n m : Nat} {config : Config}

theorem exists_succeeds_of_admits (hds : Fs.mapM Equations.decl = .ok ds)
    (hpos : ∀ E ∈ Fs, 0 < E.first.params.length) (htypes : s.types.admits ds = true)
    (hs : s.values.Defines s.store Es) :
    ∃ fuel reports t, s.Succeeds fuel ds reports t ∧
      t.values.Defines t.store (Fs.reverse ++ Es) := by
  induction Fs generalizing s ds Es with
  | nil =>
    cases hds
    exact ⟨0, [], s, .nil s, hs⟩
  | cons E Fs ih =>
    rw [List.mapM_cons] at hds
    obtain ⟨d, ds, hd, hrest, ⟨⟩⟩ := bind₂_eq_ok.mp hds
    obtain ⟨x, b, rfl, hdef⟩ := Equations.exists_abs (hpos E (by simp)) hd
    obtain ⟨v, store₁, hg, hfun, hv⟩ := Equations.exists_function hdef s.values s.store
    rw [TypeEnv.admits] at htypes
    cases hσ : schemeOf s.types (Decl.define E.recursive E.first.name (.abs x b)).toExpr with
    | error err =>
      simp only [hσ] at htypes
      cases htypes
    | ok σ =>
      simp only [hσ] at htypes
      obtain ⟨n, r, report, hrun, hr, hsession⟩ := exists_run hσ hv
      have hdefines : r.session.values.Defines r.session.store (E :: Es) := by
        rw [hsession]
        exact .bind hfun (hs.grows hg)
      obtain ⟨m, reports, t, hall, ht⟩ := ih hrest (fun F hF => hpos F (by simp [hF]))
        (by rwa [hsession]) hdefines
      refine ⟨max n m, report :: reports, t,
        .cons (run_of_le (Nat.le_max_left n m) hrun) hr (hall.of_le (Nat.le_max_right n m)), ?_⟩
      rwa [List.reverse_cons, List.append_assoc]

theorem runAll_of_le {r : Reply (List Report)} (hle : n ≤ m) (h : s.runAll n ds = some r) :
    s.runAll m ds = some r := by
  induction ds generalizing s r with
  | nil => exact h
  | cons d ds ih =>
    rw [runAll] at h ⊢
    obtain ⟨r₁, hrun, h⟩ := Option.bind_eq_some_iff.mp h
    refine Option.bind_eq_some_iff.mpr ⟨r₁, run_of_le hle hrun, ?_⟩
    cases hr : r₁.result with
    | ok report =>
      simp only [hr] at h ⊢
      obtain ⟨rest, hrest, h⟩ := Option.bind_eq_some_iff.mp h
      exact Option.bind_eq_some_iff.mpr ⟨rest, ih hrest, h⟩
    | error err =>
      simp only [hr] at h ⊢
      split at h
      · rename_i hgo
        obtain ⟨rest, hrest, h⟩ := Option.map_eq_some_iff.mp h
        rw [if_pos hgo]
        exact Option.map_eq_some_iff.mpr ⟨rest, ih hrest, h⟩
      · rename_i hstop
        rw [if_neg hstop]
        exact h

theorem admits_prelude (hds : Prelude.all.mapM Equations.decl = .ok ds) :
    TypeEnv.admits .empty ds = true := by
  have hall : (Prelude.all.mapM Equations.decl).toOption.any (TypeEnv.admits .empty) = true := by
    decide +kernel
  rwa [hds] at hall

/-- The prelude loads, and makes what its equations define. -/
theorem exists_load_prelude (config : Config) : ∃ fuel reports t log,
    (bare config).load fuel preludeSource = some ⟨.ok reports, t, log⟩ ∧
      t.values.Defines t.store Prelude.all.reverse := by
  obtain ⟨ds, hparse, hds⟩ := parse_prelude
  obtain ⟨fuel, reports, t, hall, ht⟩ := exists_succeeds_of_admits (s := bare config) hds
    (by decide) (admits_prelude hds) .empty
  obtain ⟨log, hrun⟩ := runAll_of_succeeds hall
  rw [List.append_nil] at ht
  exact ⟨fuel, reports, t, log, (load_of_parse hparse).trans hrun, ht⟩

theorem exists_new (config : Config) : ∃ fuel r, Session.new fuel config = some r := by
  obtain ⟨fuel, reports, t, log, hload, -⟩ := exists_load_prelude config
  refine ⟨fuel, ?_⟩
  unfold Session.new
  split
  · rw [hload]
    exact ⟨_, rfl⟩
  · exact ⟨_, rfl⟩

theorem defines_of_new {r : Reply Unit} (hprelude : config.prelude = true)
    (hnew : Session.new fuel config = some r) :
    r.result = .ok () ∧ r.session.values.Defines r.session.store Prelude.all.reverse := by
  obtain ⟨ds, hparse, -⟩ := parse_prelude
  obtain ⟨n, reports, t, log, hload, ht⟩ := exists_load_prelude config
  rw [Session.new, if_pos hprelude] at hnew
  obtain ⟨r', hload', rfl⟩ := Option.map_eq_some_iff.mp hnew
  rw [load_of_parse hparse] at hload hload'
  -- the prelude may load with other fuel than is known to be enough
  have hsame := (runAll_of_le (Nat.le_max_left n fuel) hload).symm.trans
    (runAll_of_le (Nat.le_max_right n fuel) hload')
  obtain rfl := Option.some.inj hsame
  exact ⟨rfl, ht⟩

theorem grows_of_run {r : Reply Report} (h : s.run fuel d = some r) :
    s.store.Grows r.session.store := by
  obtain ⟨_, -, hsession, -⟩ | ⟨_, v, store, _, heval, -, hsession⟩ := run_ends h
  · rw [hsession]
    exact .refl _
  · rw [hsession]
    cases d.name? with
    | none => exact .refl _
    | some x => exact (growing_eval _ _ _ _ _ _ heval).1

theorem grows_of_call {c : Call} {r : Reply (List Report)} (h : s.call fuel c = some r) :
    s.store.Grows r.session.store := by
  cases c with
  | statement d =>
    obtain ⟨r, hrun, rfl⟩ := Option.map_eq_some_iff.mp h
    exact grows_of_run hrun
  | line source =>
    obtain ⟨r, hline, rfl⟩ := Option.map_eq_some_iff.mp h
    unfold runLine at hline
    split at hline
    · cases hline
      exact .refl _
    next d _ => exact grows_of_run hline
  | program source =>
    exact load_invariant (I := fun t => s.store.Grows t.store) (P := fun _ => True)
      (fun hg _ hrun => hg.trans (grows_of_run hrun)) (fun _ _ _ _ => trivial) (.refl _) h

theorem grows_of_calls {cs : List Call} {results : List (Except SessionError (List Report))}
    (h : s.calls fuel cs = some (results, t)) : s.store.Grows t.store := by
  induction cs generalizing s results with
  | nil =>
    cases h
    exact .refl _
  | cons c cs ih =>
    rw [calls] at h
    obtain ⟨r, hcall, h⟩ := Option.bind_eq_some_iff.mp h
    obtain ⟨⟨rest, t'⟩, hrest, ⟨⟩⟩ := Option.bind_eq_some_iff.mp h
    exact (grows_of_call hcall).trans (ih hrest)

def value (s : Session) (x : String) : Value :=
  match s.values.lookup s.store x with
  | .ok v => v
  | .error _ => .nil

theorem function_of_new {r : Reply Unit} (hprelude : config.prelude = true)
    (hnew : Session.new fuel config = some r)
    (hE : Prelude.all.reverse.dropWhile (fun E => E.first.name ≠ x) = E :: Fs) :
    ∃ ρ, r.session.values.lookup r.session.store x = .ok (r.session.value x) ∧
      E.Function r.session.store ρ (r.session.value x) ∧ ρ.Defines r.session.store Fs := by
  obtain ⟨v, ρ, hlookup, hv, hρ⟩ := (defines_of_new hprelude hnew).2.lookup hE
  have hvalue : r.session.value x = v := by rw [value, hlookup]
  rw [hvalue]
  exact ⟨ρ, hlookup, hv, hρ⟩

end Session

end LetML
