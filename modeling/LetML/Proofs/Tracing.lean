import LetML.Proofs.WrittenTrees
import LetML.Session.Basic

namespace LetML

variable {α β : Type}

def writeScheme (traced : Bool) (Γ : TypeEnv) (e : Expr) : InferM (Scheme × Outline) := do
  let r ← write traced Γ e
  return ((Γ.apply r.subst).generalize (r.ty.apply r.subst), r.tree)

theorem InferM.run_map (f : α → β) (m : InferM α) (u : Supply) :
    (f <$> m).run u = ((m.run u).1.map f, (m.run u).2) := by
  rw [ExceptT.run_map]
  rfl

theorem writeScheme_eq (traced : Bool) (Γ : TypeEnv) (e : Expr) : writeScheme traced Γ e =
    (fun p => (p.1, p.2.outline traced)) <$> inferScheme Γ e := by
  simp [writeScheme, inferScheme, write_eq, Inferred.written]

theorem schemeOf_eq_write (traced : Bool) (Γ : TypeEnv) (e : Expr) :
    ((writeScheme traced Γ e).run Γ.unused).1.map (·.1) = schemeOf Γ e := by
  rw [writeScheme_eq, InferM.run_map, schemeOf]
  cases ((inferScheme Γ e).run Γ.unused).1 <;> rfl

def Report.untraced (r : Report) : Report := { r with derivation := none }

def Session.tracing (traced : Bool) (s : Session) : Session :=
  { s with config := { s.config with trace := traced } }

/-- The reply without the derivations that `f` takes out of its result. -/
def Reply.untraced (f : α → α) (r : Reply α) : Reply α :=
  { result := r.result.map f, session := r.session.tracing false, log := r.log }

namespace Session

variable {fuel : Nat}

theorem infer_eq_write (traced : Bool) (s : Session) (e : Expr) :
    (s.infer e).1.map (fun p => (p.1, p.2.outline traced)) =
      ((writeScheme traced s.types e).run s.types.unused).1.map (fun p => (p.1.normalize, p.2)) := by
  rw [writeScheme_eq, InferM.run_map, infer]
  cases (inferScheme s.types e).run s.types.unused with
  | mk r u => cases r <;> rfl

theorem evaluate_untraced (s : Session) (d : Decl) (ς : Option Scheme)
    (derivation : Option Derivation) : (s.tracing false).evaluate fuel d ς none =
      (s.evaluate fuel d ς derivation).map (Reply.untraced Report.untraced) := by
  unfold evaluate
  change (eval fuel s.values d.toExpr s.store).bind _ = _
  cases eval fuel s.values d.toExpr s.store with
  | none => rfl
  | some p =>
    obtain ⟨err | v, store⟩ := p
    · rfl
    · cases d.name? <;> rfl

theorem run_untraced (s : Session) (d : Decl) : (s.tracing false).run fuel d =
    (s.run fuel d).map (Reply.untraced Report.untraced) := by
  have hinfer : (s.tracing false).infer d.toExpr = s.infer d.toExpr := rfl
  unfold run
  rw [hinfer]
  cases s.infer d.toExpr with
  | mk r tried =>
    cases r with
    | ok p =>
      change ((s.tracing false).evaluate fuel d (some p.1) none).map _ = _
      rw [evaluate_untraced, Option.map_map, Option.map_map]
      rfl
    | error err =>
      change (if s.config.strict then _ else _) = Option.map _ (if s.config.strict then _ else _)
      split
      · rfl
      · rw [evaluate_untraced, Option.map_map, Option.map_map]
        rfl

theorem runLine_untraced (s : Session) (source : String) : (s.tracing false).runLine fuel source =
    (s.runLine fuel source).map (Reply.untraced Report.untraced) := by
  unfold runLine
  cases parse .statement source with
  | error e => rfl
  | ok d => exact run_untraced s d

theorem runAll_untraced (s : Session) (ds : List Decl) : (s.tracing false).runAll fuel ds =
    (s.runAll fuel ds).map (Reply.untraced (List.map Report.untraced)) := by
  induction ds generalizing s with
  | nil => rfl
  | cons d ds ih =>
    rw [runAll, runAll, run_untraced]
    cases s.run fuel d with
    | none => rfl
    | some r =>
      obtain ⟨err | report, t, log⟩ := r
      · change (if s.config.keepGoing then ((t.tracing false).runAll fuel ds).map _ else _) =
          Option.map _ (if s.config.keepGoing then _ else _)
        split
        · rw [ih, Option.map_map, Option.map_map]
          rfl
        · rfl
      · change ((t.tracing false).runAll fuel ds).bind _ = ((t.runAll fuel ds).bind _).map _
        rw [ih]
        cases t.runAll fuel ds with
        | none => rfl
        | some rest =>
          obtain ⟨err | reports, t', log'⟩ := rest <;> rfl

theorem load_untraced (s : Session) (source : String) : (s.tracing false).load fuel source =
    (s.load fuel source).map (Reply.untraced (List.map Report.untraced)) := by
  unfold load
  cases parse .program source with
  | error e => rfl
  | ok ds => exact runAll_untraced s ds

inductive Call where
  | statement (d : Decl)
  | line (source : String)
  | program (source : String)

def call (fuel : Nat) (s : Session) : Call → Option (Reply (List Report))
  | .statement d => (s.run fuel d).map fun r => ⟨r.result.map ([·]), r.session, r.log⟩
  | .line source => (s.runLine fuel source).map fun r => ⟨r.result.map ([·]), r.session, r.log⟩
  | .program source => s.load fuel source

/-- The results of calls, each in the session that the calls before it lead to, and the session after
them. -/
def calls (fuel : Nat) (s : Session) :
    List Call → Option (List (Except SessionError (List Report)) × Session)
  | [] => some ([], s)
  | c :: cs => do
    let r ← s.call fuel c
    let (results, t) ← r.session.calls fuel cs
    return (r.result :: results, t)

theorem call_untraced (s : Session) (c : Call) : (s.tracing false).call fuel c =
    (s.call fuel c).map (Reply.untraced (List.map Report.untraced)) := by
  have hone : ∀ r : Reply Report, (⟨(r.untraced Report.untraced).result.map ([·]),
      (r.untraced Report.untraced).session, (r.untraced Report.untraced).log⟩ : Reply (List Report)) =
      Reply.untraced (List.map Report.untraced) ⟨r.result.map ([·]), r.session, r.log⟩ := by
    rintro ⟨err | report, t, log⟩ <;> rfl
  cases c with
  | statement d =>
    rw [call, call, run_untraced, Option.map_map, Option.map_map]
    exact congrArg (Option.map · _) (funext hone)
  | line source =>
    rw [call, call, runLine_untraced, Option.map_map, Option.map_map]
    exact congrArg (Option.map · _) (funext hone)
  | program source => exact load_untraced s source

theorem calls_untraced (s : Session) (cs : List Call) : (s.tracing false).calls fuel cs =
    (s.calls fuel cs).map fun p =>
      (p.1.map (·.map (List.map Report.untraced)), p.2.tracing false) := by
  induction cs generalizing s with
  | nil => rfl
  | cons c cs ih =>
    rw [calls, calls, call_untraced]
    cases s.call fuel c with
    | none => rfl
    | some r =>
      change ((r.session.tracing false).calls fuel cs).bind _ =
        ((r.session.calls fuel cs).bind _).map _
      rw [ih]
      cases r.session.calls fuel cs <;> rfl

theorem new_untraced (fuel : Nat) (config : Config) :
    Session.new fuel { config with trace := false } =
      (Session.new fuel { config with trace := true }).map (Reply.untraced id) := by
  unfold Session.new
  change (if config.prelude then _ else _) = Option.map _ (if config.prelude then _ else _)
  split
  · change Option.map _ (((bare { config with trace := true }).tracing false).load fuel preludeSource) = _
    rw [load_untraced, Option.map_map, Option.map_map]
    refine congrArg (Option.map · _) (funext fun r => ?_)
    obtain ⟨err | reports, t, log⟩ := r
    · rfl
    · change Reply.mk _ _ _ = Reply.mk _ _ _
      simp [Reply.untraced, Except.map]
  · rfl

end Session

/-- To keep derivations changes neither a result nor a definition, only what is kept of the trees.
-/
theorem tracing_changes_nothing :
    -- the same supply, and the same outcome but for the texts of judgements on expressions
    (∀ (Γ : TypeEnv) (e : Expr) (u : Supply),
      (write false Γ e).run u =
        (((write true Γ e).run u).1.map Written.withoutJudgements, ((write true Γ e).run u).2) ∧
      ∀ traced, (write traced Γ e).run u =
        (((infer Γ e).run u).1.map (Inferred.written traced), ((infer Γ e).run u).2)) ∧
    (∀ (traced : Bool) (Γ : TypeEnv) (e : Expr),
      ((writeScheme traced Γ e).run Γ.unused).1.map (·.1) = schemeOf Γ e) ∧
    (∀ (traced : Bool) (s : Session) (e : Expr),
      (s.infer e).1.map (fun p => (p.1, p.2.outline traced)) =
        ((writeScheme traced s.types e).run s.types.unused).1.map (fun p => (p.1.normalize, p.2))) ∧
    -- whole sessions, from the start on
    (∀ (fuel : Nat) (config : Config), Session.new fuel { config with trace := false } =
      (Session.new fuel { config with trace := true }).map (Reply.untraced id)) ∧
    ∀ (fuel : Nat) (s : Session) (cs : List Session.Call), (s.tracing false).calls fuel cs =
      ((s.tracing true).calls fuel cs).map fun p =>
        (p.1.map (·.map (List.map Report.untraced)), p.2.tracing false) := by
  refine ⟨fun Γ e u => ⟨?_, fun traced => ?_⟩, schemeOf_eq_write, Session.infer_eq_write,
    Session.new_untraced, fun fuel s cs => Session.calls_untraced (s.tracing true) cs⟩
  · rw [write_false, InferM.run_map]
  · rw [write_eq, InferM.run_map]

end LetML
