import LetML.Proofs.Normalize
import LetML.Proofs.Safety
import LetML.Session.Basic

namespace LetML

variable {s : Session} {fuel : Nat} {d : Decl} {e : Expr} {Γ : TypeEnv} {σ : Scheme} {t : Ty}
  {x : String} {v : Value} {ρ : Env} {store : Store}

theorem Env.mem_names {x : String} : x ∈ ρ.names ↔ x ∈ ρ.bound := List.mem_eraseDups

theorem Env.mem_names_bind {y : String} : y ∈ (Env.bind x v ρ).names ↔ y = x ∨ y ∈ ρ.names := by
  rw [mem_names, mem_names, bound, List.mem_cons]

namespace Env.Provides

theorem bind (h : ρ.Provides store Γ) (hv : ∀ t, σ.Instance t → v.OfType store t) (x : String) :
    (Env.bind x v ρ).Provides store (Γ.insert x σ) := by
  intro y ς hy
  obtain ⟨rfl, rfl⟩ | ⟨hyx, hy⟩ := Table.get?_insert_eq_some_iff.mp hy
  · exact ⟨v, by rw [lookup, if_pos rfl], hv⟩
  · obtain ⟨w, hw, hty⟩ := h y ς hy
    exact ⟨w, by rw [lookup, if_neg (Ne.symm hyx), hw], hty⟩

theorem bind_erase (h : ρ.Provides store Γ) (v : Value) (x : String) :
    (Env.bind x v ρ).Provides store (Γ.erase x) := by
  intro y ς hy
  obtain ⟨hyx, hy⟩ := Table.get?_erase_eq_some_iff.mp hy
  obtain ⟨w, hw, hty⟩ := h y ς hy
  exact ⟨w, by rw [lookup, if_neg (Ne.symm hyx), hw], hty⟩

end Env.Provides

theorem TypeEnv.Closed.closed_schemeOf (hΓ : Γ.Closed) (h : schemeOf Γ e = .ok σ) : σ.Closed := by
  obtain ⟨s, t, u', hf, rfl⟩ := found_of_schemeOf h
  rw [hΓ.apply_eq]
  refine Scheme.closed_iff.mpr (fun v hv => ?_)
  exact hΓ.not_free v ((Γ.generalizes_generalize _).free_iff.mp hv).2

namespace Session

/-- The types of a session are closed and normal, its names have them, and in a strict session each
of its names has one. -/
structure Sound (s : Session) : Prop where
  closed : s.types.Closed
  normal : ∀ x σ, s.types.get? x = some σ → σ.normalize = σ
  provides : s.values.Provides s.store s.types
  visible : ∀ x ∈ s.values.names, ∃ v, s.values.lookup s.store x = .ok v
  strict : s.config.strict = true → ∀ x ∈ s.values.names, ∃ σ, s.types.get? x = some σ

theorem infer_ok {derivation : Derivation} (h : (s.infer e).1 = .ok (σ, derivation)) :
    ∃ σ₀, schemeOf s.types e = .ok σ₀ ∧ σ = σ₀.normalize := by
  unfold infer at h
  unfold schemeOf
  cases hrun : (inferScheme s.types e).run s.types.unused with
  | mk r u =>
    rw [hrun] at h
    cases r with
    | error err => cases h
    | ok p =>
      cases h
      exact ⟨p.1, rfl, rfl⟩

theorem evaluate_cases {ς : Option Scheme} {derivation : Option Derivation} {r : Reply Report}
    (h : s.evaluate fuel d ς derivation = some r) :
    (∃ err store, eval fuel s.values d.toExpr s.store = some (.error err, store) ∧
      r.result = .error (.runtime err) ∧ r.session = s) ∨
    ∃ v store, eval fuel s.values d.toExpr s.store = some (.ok v, store) ∧
      r.result = .ok ⟨d.name?, ς, v, derivation⟩ ∧
      r.session = match d.name? with
        | some x => s.define x ς v store
        | none => s := by
  unfold evaluate at h
  cases hrun : eval fuel s.values d.toExpr s.store with
  | none => rw [hrun] at h; cases h
  | some p =>
    obtain ⟨err | v, store⟩ := p
    · rw [hrun] at h
      cases h
      exact Or.inl ⟨err, store, rfl, rfl, rfl⟩
    · rw [hrun] at h
      cases h
      exact Or.inr ⟨v, store, rfl, rfl, rfl⟩

theorem run_cases {r : Reply Report} (h : s.run fuel d = some r) :
    (∃ σ derivation trace r', (s.infer d.toExpr).1 = .ok (σ, derivation) ∧
      s.evaluate fuel d (some σ) trace = some r' ∧ r.result = r'.result ∧ r.session = r'.session) ∨
    (∃ err, (s.infer d.toExpr).1 = .error err ∧ s.config.strict = true ∧
      r.result = .error (.type err) ∧ r.session = s) ∨
    ∃ err r', (s.infer d.toExpr).1 = .error err ∧ s.config.strict = false ∧
      s.evaluate fuel d none none = some r' ∧ r.result = r'.result ∧ r.session = r'.session := by
  unfold run at h
  cases hinfer : s.infer d.toExpr with
  | mk inferred tried =>
    rw [hinfer] at h
    cases inferred with
    | ok p =>
      obtain ⟨r', hr', rfl⟩ := Option.map_eq_some_iff.mp h
      exact Or.inl ⟨p.1, p.2, _, r', rfl, hr', rfl, rfl⟩
    | error err =>
      cases hstrict : s.config.strict with
      | true =>
        simp only [hstrict, if_true] at h
        obtain rfl := Option.some.inj h
        exact Or.inr (Or.inl ⟨err, rfl, rfl, rfl, rfl⟩)
      | false =>
        simp only [hstrict, Bool.false_eq_true, if_false] at h
        obtain ⟨r', hr', rfl⟩ := Option.map_eq_some_iff.mp h
        exact Or.inr (Or.inr ⟨err, r', rfl, rfl, hr', rfl, rfl⟩)

theorem run_ends {r : Reply Report} (h : s.run fuel d = some r) :
    (∃ err, r.result = .error err ∧ r.session = s ∧ ∀ e, err = .runtime e →
      ∃ store, eval fuel s.values d.toExpr s.store = some (.error e, store)) ∨
    ∃ ς v store derivation, eval fuel s.values d.toExpr s.store = some (.ok v, store) ∧
      r.result = .ok ⟨d.name?, ς, v, derivation⟩ ∧
      r.session = match d.name? with
        | some x => s.define x ς v store
        | none => s := by
  have hcases : (∃ err, r.result = .error (.type err) ∧ r.session = s) ∨ ∃ ς derivation r',
      s.evaluate fuel d ς derivation = some r' ∧ r.result = r'.result ∧ r.session = r'.session := by
    obtain ⟨_, _, _, r', -, hr'⟩ | ⟨err, -, -, hr⟩ | ⟨_, r', -, -, hr'⟩ := run_cases h
    · exact Or.inr ⟨_, _, r', hr'⟩
    · exact Or.inl ⟨err, hr⟩
    · exact Or.inr ⟨_, _, r', hr'⟩
  obtain ⟨err, hresult, hsession⟩ | ⟨ς, derivation, r', heval, hresult, hsession⟩ := hcases
  · exact Or.inl ⟨_, hresult, hsession, fun e he => by cases he⟩
  · rw [hresult, hsession]
    obtain ⟨e, store, hrun, hr'⟩ | ⟨v, store, hrun, hr'⟩ := evaluate_cases heval
    · refine Or.inl ⟨_, hr'.1, hr'.2, fun e' he' => ?_⟩
      cases he'
      exact ⟨store, hrun⟩
    · exact Or.inr ⟨ς, v, store, derivation, hrun, hr'⟩

namespace Sound

/-- A name may be given a value and a scheme of which it has every type, or no scheme if the session
is not strict. -/
theorem define (hs : s.Sound) (hg : s.store.Grows store) (ς : Option Scheme)
    (hς : ∀ σ, ς = some σ → σ.Closed ∧ σ.normalize = σ ∧ ∀ t, σ.Instance t → v.OfType store t)
    (hnone : ς = none → s.config.strict = false) (x : String) : (s.define x ς v store).Sound := by
  have hprovides := hs.provides.grow hg
  have hvisible : ∀ y ∈ (Env.bind x v s.values).names,
      ∃ w, (Env.bind x v s.values).lookup store y = .ok w := by
    intro y hy
    by_cases hyx : x = y
    · exact ⟨v, by rw [Env.lookup, if_pos hyx]⟩
    · obtain hy | hy := Env.mem_names_bind.mp hy
      · exact (hyx hy.symm).elim
      · obtain ⟨w, hw⟩ := hs.visible y hy
        exact ⟨w, by rw [Env.lookup, if_neg hyx, hg.lookup hw]⟩
  cases ς with
  | some σ =>
    obtain ⟨hclosed, hnormal, hty⟩ := hς σ rfl
    refine ⟨hs.closed.insert hclosed x, fun y τ hy => ?_, hprovides.bind hty x, hvisible,
      fun hstrict y hy => ?_⟩
    · obtain ⟨-, rfl⟩ | ⟨-, hy⟩ := Table.get?_insert_eq_some_iff.mp hy
      · exact hnormal
      · exact hs.normal y τ hy
    · change ∃ τ, Table.get? (s.types.insert x σ) y = some τ
      rw [Table.get?_insert]
      by_cases hyx : y = x
      · exact ⟨σ, if_pos hyx⟩
      · rw [if_neg hyx]
        exact hs.strict hstrict y ((Env.mem_names_bind.mp hy).resolve_left hyx)
  | none =>
    have herase : ∀ y τ, Table.get? (s.types.erase x) y = some τ → s.types.get? y = some τ :=
      fun y τ hy => (Table.get?_erase_eq_some_iff.mp hy).2
    refine ⟨fun y τ hy => hs.closed y τ (herase y τ hy), fun y τ hy => hs.normal y τ (herase y τ hy),
      hprovides.bind_erase v x, hvisible, fun hstrict => ?_⟩
    change s.config.strict = true at hstrict
    rw [hnone rfl] at hstrict
    cases hstrict

theorem evaluate (hs : s.Sound) {ς : Option Scheme} {derivation : Option Derivation}
    {r : Reply Report}
    (hς : ∀ σ, ς = some σ →
      σ.Closed ∧ σ.normalize = σ ∧ ∀ t, σ.Instance t → Typing s.types d.toExpr t)
    (hnone : ς = none → s.config.strict = false)
    (h : s.evaluate fuel d ς derivation = some r) : r.session.Sound := by
  obtain ⟨err, store, -, -, hsession⟩ | ⟨v, store, hrun, -, hsession⟩ := evaluate_cases h
  · rwa [hsession]
  · rw [hsession]
    cases d.name? with
    | none => exact hs
    | some x =>
      refine hs.define (growing_eval _ _ _ _ _ _ hrun).1 ς (fun σ hσ => ?_) hnone x
      obtain ⟨hclosed, hnormal, hty⟩ := hς σ hσ
      exact ⟨hclosed, hnormal, fun t ht => hs.provides.ofType_of_eval (hty t ht) hrun⟩

theorem of_infer (hs : s.Sound) {derivation : Derivation} (h : (s.infer e).1 = .ok (σ, derivation)) :
    σ.Closed ∧ σ.normalize = σ ∧ ∀ t, σ.Instance t → Typing s.types e t := by
  obtain ⟨σ₀, hσ₀, rfl⟩ := infer_ok h
  refine ⟨Scheme.closed_normalize.mpr (hs.closed.closed_schemeOf hσ₀), σ₀.normalize_normalize,
    fun t ht => ?_⟩
  exact hs.closed.typing_of_schemeOf hσ₀ (Scheme.instance_normalize.mp ht)

theorem run {r : Reply Report} (hs : s.Sound) (h : s.run fuel d = some r) : r.session.Sound := by
  obtain ⟨σ, derivation, trace, r', hinfer, heval, -, hsession⟩ |
    ⟨err, -, -, -, hsession⟩ | ⟨err, r', -, hstrict, heval, -, hsession⟩ := run_cases h
  · rw [hsession]
    refine hs.evaluate (fun τ hτ => ?_) (fun h => by cases h) heval
    obtain rfl := Option.some.inj hτ
    exact hs.of_infer hinfer
  · rwa [hsession]
  · rw [hsession]
    exact hs.evaluate (fun τ hτ => by cases hτ) (fun _ => hstrict) heval

theorem runAll {ds : List Decl} {r : Reply (List Report)} (hs : s.Sound)
    (h : s.runAll fuel ds = some r) : r.session.Sound := by
  induction ds generalizing s r with
  | nil =>
    cases h
    exact hs
  | cons d ds ih =>
    rw [Session.runAll] at h
    obtain ⟨r₁, hrun, h⟩ := Option.bind_eq_some_iff.mp h
    have hs₁ := hs.run hrun
    cases hr : r₁.result with
    | ok report =>
      simp only [hr] at h
      obtain ⟨rest, hrest, h⟩ := Option.bind_eq_some_iff.mp h
      have hs₂ := ih hs₁ hrest
      cases h
      exact hs₂
    | error err =>
      simp only [hr] at h
      split at h
      · obtain ⟨rest, hrest, rfl⟩ := Option.map_eq_some_iff.mp h
        have hs₂ := ih hs₁ hrest
        exact hs₂
      · cases h
        exact hs₁

theorem load {source : String} {r : Reply (List Report)} (hs : s.Sound)
    (h : s.load fuel source = some r) : r.session.Sound := by
  unfold Session.load at h
  split at h
  · cases h
    exact hs
  · exact hs.runAll h

theorem runLine {source : String} {r : Reply Report} (hs : s.Sound)
    (h : s.runLine fuel source = some r) : r.session.Sound := by
  unfold Session.runLine at h
  split at h
  · cases h
    exact hs
  · exact hs.run h

theorem bare (config : Config) : (Session.bare config).Sound where
  closed := TypeEnv.closed_empty
  normal x σ hx := by
    change Table.get? .empty x = some σ at hx
    rw [Table.get?_empty] at hx
    cases hx
  provides x σ hx := by
    change Table.get? .empty x = some σ at hx
    rw [Table.get?_empty] at hx
    cases hx
  visible x hx := by cases hx
  strict _ x hx := by cases hx

theorem new {config : Config} {r : Reply Unit} (h : Session.new fuel config = some r) :
    r.session.Sound := by
  unfold Session.new at h
  split at h
  · obtain ⟨r', hload, rfl⟩ := Option.map_eq_some_iff.mp h
    have hs := (bare config).load hload
    split <;> exact hs
  · cases h
    exact bare config

end Sound

/-- The sessions that some calls lead to, whether the calls succeed or fail. -/
inductive Reachable : Session → Prop
  | new {fuel : Nat} {config : Config} {r : Reply Unit} :
    Session.new fuel config = some r → r.result = .ok () → Reachable r.session
  | runLine {s : Session} {fuel : Nat} {source : String} {r : Reply Report} :
    Reachable s → s.runLine fuel source = some r → Reachable r.session
  | run {s : Session} {fuel : Nat} {d : Decl} {r : Reply Report} :
    Reachable s → s.run fuel d = some r → Reachable r.session
  | load {s : Session} {fuel : Nat} {source : String} {r : Reply (List Report)} :
    Reachable s → s.load fuel source = some r → Reachable r.session

theorem Reachable.sound (h : s.Reachable) : s.Sound := by
  induction h with
  | new hnew _ => exact Sound.new hnew
  | runLine _ hrun ih => exact ih.runLine hrun
  | run _ hrun ih => exact ih.run hrun
  | load _ hload ih => exact ih.load hload

/-- A session after `let id = \x -> x` and `let one = if true then 1 else true`, of which the second
has no type and is let through. -/
def mixed : Session where
  config := ⟨false, false, false, true⟩
  types := Table.empty.insert "id" ⟨[0], .arrow (.var 0) (.var 0)⟩
  values := .bind "one" (.int 1) (.bind "id" (.closure "x" (.var "x") .empty) .empty)
  store := .empty

end Session

end LetML
