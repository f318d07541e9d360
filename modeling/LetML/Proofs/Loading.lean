import LetML.Proofs.Lexing
import LetML.Proofs.SessionInvariant

namespace LetML

variable {cs : List Char} {source : String} {d : Decl} {ds ds' : List Decl}

theorem exists_sublist_of_program : ∀ {T : ParseTree .program} {cs : List Char} {ds ds' : List Decl},
    lex? cs = some T.tokens → T.meaning = .ok ds → ds'.Sublist ds →
    ∃ cs' ts, cs'.Sublist cs ∧ lex? cs' = some ts ∧ Derives .program ts ds'
  | .noDecl, cs, ds, ds', hlex, hmean, hsub => by
    cases hmean
    obtain rfl := List.sublist_nil.mp hsub
    exact ⟨cs, [], .refl cs, hlex, .noDecl⟩
  | .moreDecls D T, cs, ds, ds', hlex, hmean, hsub => by
    obtain ⟨d, ds, hd, hds, ⟨⟩⟩ := bind₂_eq_ok.mp hmean
    obtain ⟨front, rest, rfl, hopen, hfront, hrest⟩ := exists_of_lex?_semi hlex
    have hcut : rest.Sublist (front ++ ';' :: rest) :=
      (List.sublist_cons_self ';' rest).trans (List.sublist_append_right ..)
    -- the first statement is cut out with its semicolon, or it is kept
    cases hsub with
    | cons _ hsub =>
      obtain ⟨cs', ts, hcs', hts, hderives⟩ := exists_sublist_of_program hrest hds hsub
      exact ⟨cs', ts, hcs'.trans hcut, hts, hderives⟩
    | cons_cons _ hsub =>
      obtain ⟨cs', ts, hcs', hts, hderives⟩ := exists_sublist_of_program hrest hds hsub
      refine ⟨front ++ ';' :: cs', _, (List.Sublist.refl front).append (hcs'.cons_cons ';'), ?_,
        Derives.moreDecls ⟨D, rfl, hd⟩ hderives⟩
      rw [lex?_append_semi hopen, hfront, hts]
      rfl

theorem exists_source_of_sublist (h : parse .program source = .ok ds) (hsub : ds'.Sublist ds) :
    ∃ source' : String, source'.toList.Sublist source.toList ∧ parse .program source' = .ok ds' := by
  obtain ⟨ts, hts, T, rfl, hT⟩ := parse_eq_ok.mp h
  obtain ⟨cs, ts, hcs, hlex, hderives⟩ := exists_sublist_of_program hts hT hsub
  refine ⟨String.ofList cs, ?_, parse_eq_ok.mpr ⟨ts, ?_, hderives⟩⟩
  · rwa [String.toList_ofList]
  · rwa [String.toList_ofList]

namespace Session

variable {s t : Session} {fuel : Nat} {report : Report} {reports : List Report} {err : SessionError}

inductive Succeeds (fuel : Nat) : Session → List Decl → List Report → Session → Prop
  | nil (s : Session) : Succeeds fuel s [] [] s
  | cons {s t : Session} {d : Decl} {ds : List Decl} {r : Reply Report} {report : Report}
      {reports : List Report} :
    s.run fuel d = some r → r.result = .ok report → Succeeds fuel r.session ds reports t →
    Succeeds fuel s (d :: ds) (report :: reports) t

/-- Some statement fails, after those before it have led to a session. -/
def StopsAt (fuel : Nat) (s : Session) (ds : List Decl) (err : SessionError) (t : Session) : Prop :=
  ∃ before d after reports r, ds = before ++ d :: after ∧ s.Succeeds fuel before reports t ∧
    t.run fuel d = some r ∧ r.result = .error err

/-- The statements that succeed where each is run after those before it, whether these have
succeeded or failed. -/
def survivors (fuel : Nat) (s : Session) : List Decl → Option (List Decl)
  | [] => some []
  | d :: ds => do
    let r ← s.run fuel d
    let rest ← r.session.survivors fuel ds
    return match r.result with
      | .ok _ => d :: rest
      | .error _ => rest

def keeping (goOn : Bool) (s : Session) : Session :=
  { s with config := { s.config with keepGoing := goOn } }

theorem session_of_error {r : Reply Report} (h : s.run fuel d = some r)
    (herr : r.result = .error err) : r.session = s := by
  obtain ⟨_, -, hsession, -⟩ | ⟨_, _, _, _, -, hok, -⟩ := run_ends h
  · exact hsession
  · cases hok.symm.trans herr

theorem config_of_run {r : Reply Report} (h : s.run fuel d = some r) :
    r.session.config = s.config := by
  obtain ⟨_, -, hsession, -⟩ | ⟨_, _, _, _, -, -, hsession⟩ := run_ends h
  · rw [hsession]
  · rw [hsession]
    cases d.name? <;> rfl

theorem evaluate_keeping (goOn : Bool) (s : Session) (ς : Option Scheme)
    (derivation : Option Derivation) : (s.keeping goOn).evaluate fuel d ς derivation =
      (s.evaluate fuel d ς derivation).map fun r => { r with session := r.session.keeping goOn } := by
  unfold evaluate
  change (eval fuel s.values d.toExpr s.store).bind _ = _
  cases h : eval fuel s.values d.toExpr s.store with
  | none => rfl
  | some p =>
    obtain ⟨err | v, store⟩ := p
    · rfl
    · cases hd : d.name? <;> rfl

theorem run_keeping (goOn : Bool) (s : Session) (d : Decl) : (s.keeping goOn).run fuel d =
    (s.run fuel d).map fun r => { r with session := r.session.keeping goOn } := by
  have hinfer : (s.keeping goOn).infer d.toExpr = s.infer d.toExpr := rfl
  unfold run
  rw [hinfer]
  cases s.infer d.toExpr with
  | mk r tried =>
    cases r with
    | ok p =>
      simp only [evaluate_keeping, Option.map_map]
      rfl
    | error err =>
      change (if s.config.strict then _ else _) = Option.map _ (if s.config.strict then _ else _)
      split
      · rfl
      · simp only [evaluate_keeping, Option.map_map]
        rfl

theorem Succeeds.keeping (h : s.Succeeds fuel ds reports t) (goOn : Bool) :
    (s.keeping goOn).Succeeds fuel ds reports (t.keeping goOn) := by
  induction h with
  | nil s => exact .nil _
  | @cons s t d ds r report reports hrun hr _ ih =>
    refine .cons (r := { r with session := r.session.keeping goOn }) ?_ hr ih
    rw [run_keeping, hrun]
    rfl

theorem runAll_of_succeeds (h : s.Succeeds fuel ds reports t) :
    ∃ log, s.runAll fuel ds = some ⟨.ok reports, t, log⟩ := by
  induction h with
  | nil s => exact ⟨[], rfl⟩
  | @cons s t d ds r report reports hrun hr _ ih =>
    obtain ⟨log, hrest⟩ := ih
    refine ⟨r.log ++ log, ?_⟩
    simp only [runAll, hrun, hr, hrest, Option.bind_eq_bind, Option.bind_some]
    rfl

theorem runAll_of_stopsAt (hstop : s.config.keepGoing = false) (h : s.StopsAt fuel ds err t) :
    ∃ log, s.runAll fuel ds = some ⟨.error err, t, log⟩ := by
  obtain ⟨before, d, after, reports, r, rfl, hbefore, hrun, hr⟩ := h
  induction hbefore with
  | nil s =>
    refine ⟨r.log, ?_⟩
    simp only [List.nil_append, runAll, hrun, hr, hstop, session_of_error hrun hr,
      Option.bind_eq_bind, Option.bind_some]
    rfl
  | @cons s t d' ds r' report reports hrun' hr' _ ih =>
    obtain ⟨log, hrest⟩ := ih ((congrArg _ (config_of_run hrun')).trans hstop) hrun
    refine ⟨r'.log ++ log, ?_⟩
    simp only [List.cons_append, runAll, hrun', hr', hrest, Option.bind_eq_bind, Option.bind_some]
    rfl

theorem runAll_cases {r : Reply (List Report)} (hstop : s.config.keepGoing = false)
    (h : s.runAll fuel ds = some r) :
    (∃ reports, r.result = .ok reports ∧ s.Succeeds fuel ds reports r.session) ∨
      ∃ err, r.result = .error err ∧ s.StopsAt fuel ds err r.session := by
  induction ds generalizing s r with
  | nil =>
    cases h
    exact Or.inl ⟨[], rfl, .nil s⟩
  | cons d ds ih =>
    rw [runAll] at h
    obtain ⟨r₁, hrun, h⟩ := Option.bind_eq_some_iff.mp h
    cases hr : r₁.result with
    | ok report =>
      simp only [hr] at h
      obtain ⟨rest, hrest, h⟩ := Option.bind_eq_some_iff.mp h
      cases h
      obtain ⟨reports, hok, hall⟩ | ⟨err, herr, before, d', after, reports, r', rfl, hbefore, hd'⟩ :=
        ih ((congrArg _ (config_of_run hrun)).trans hstop) hrest
      · refine Or.inl ⟨report :: reports, ?_, .cons hrun hr hall⟩
        simp only [hok]
        rfl
      · refine Or.inr ⟨err, ?_, d :: before, d', after, report :: reports, r', rfl,
          .cons hrun hr hbefore, hd'⟩
        simp only [herr]
        rfl
    | error err =>
      simp only [hr, hstop, Bool.false_eq_true, if_false] at h
      rw [session_of_error hrun hr] at h
      cases h
      exact Or.inr ⟨err, rfl, [], d, ds, [], r₁, rfl, .nil s, hrun, hr⟩

/-- A session that goes on past failures reports what the statements without them report. -/
theorem runAll_of_survivors (hgo : s.config.keepGoing = true)
    (h : s.survivors fuel ds = some ds') :
    ds'.Sublist ds ∧ ∃ reports t log, s.runAll fuel ds = some ⟨.ok reports, t, log⟩ ∧
      s.Succeeds fuel ds' reports t := by
  induction ds generalizing s ds' with
  | nil =>
    cases h
    exact ⟨.slnil, [], s, [], rfl, .nil s⟩
  | cons d ds ih =>
    rw [survivors] at h
    obtain ⟨r, hrun, h⟩ := Option.bind_eq_some_iff.mp h
    obtain ⟨rest, hrest, h⟩ := Option.bind_eq_some_iff.mp h
    obtain ⟨hsub, reports, t, log, hall, hsucceeds⟩ :=
      ih ((congrArg _ (config_of_run hrun)).trans hgo) hrest
    cases hr : r.result with
    | ok report =>
      simp only [hr] at h
      obtain rfl := Option.some.inj h
      refine ⟨hsub.cons_cons d, report :: reports, t, r.log ++ log, ?_, .cons hrun hr hsucceeds⟩
      simp only [runAll, hrun, hr, hall, Option.bind_eq_bind, Option.bind_some]
      rfl
    | error err =>
      simp only [hr] at h
      obtain rfl := Option.some.inj h
      refine ⟨hsub.cons d, reports, t, r.log ++ [.skipped err] ++ log, ?_,
        session_of_error hrun hr ▸ hsucceeds⟩
      simp only [runAll, hrun, hr, hall, hgo, Option.bind_eq_bind, Option.bind_some]
      rfl

theorem runAll_of_no_survivors (hgo : s.config.keepGoing = true)
    (h : s.survivors fuel ds = none) : s.runAll fuel ds = none := by
  induction ds generalizing s with
  | nil => cases h
  | cons d ds ih =>
    rw [runAll]
    rw [survivors] at h
    cases hrun : s.run fuel d with
    | none => rfl
    | some r =>
      rw [hrun] at h
      have hrest : r.session.runAll fuel ds = none := by
        refine ih ((congrArg _ (config_of_run hrun)).trans hgo) ?_
        cases hrest : r.session.survivors fuel ds with
        | none => rfl
        | some rest => simp [hrest] at h
      simp only [Option.bind_eq_bind, Option.bind_some, hrest]
      cases r.result with
      | ok report => rfl
      | error err =>
        simp only [hgo]
        rfl

theorem load_of_parse (h : parse .program source = .ok ds) :
    s.load fuel source = s.runAll fuel ds := by
  rw [load, h]

theorem load_of_parse_error {e : ParseError} (h : parse .program source = .error e) :
    s.load fuel source = some ⟨.error (.parse e), s, []⟩ := by
  rw [load, h]

/-- To load a program and go on past its failures is to load it without the statements that fail. -/
theorem load_deletes_failures (s : Session) (fuel : Nat) :
    -- a statement that fails leaves the session as it was
    (∀ d r err, s.run fuel d = some r → r.result = .error err → r.session = s ∧
      ∀ result store, eval fuel s.values d.toExpr s.store = some (result, store) →
        s.store.Grows store) ∧
    ∀ source,
      (∀ err, parse .program source = .error err →
        s.load fuel source = some ⟨.error (.parse err), s, []⟩) ∧
      ∀ ds, parse .program source = .ok ds →
        -- what is left can be cut out of the text, and is loaded alike
        (s.config.keepGoing = true →
          (s.survivors fuel ds = none → s.load fuel source = none) ∧
          ∀ ds', s.survivors fuel ds = some ds' →
            ∃ reports t log, s.load fuel source = some ⟨.ok reports, t, log⟩ ∧
              (∃ source', source'.toList.Sublist source.toList ∧
                parse .program source' = .ok ds') ∧
              ∀ source', parse .program source' = .ok ds' → ∃ log',
                (s.keeping false).load fuel source' = some ⟨.ok reports, t.keeping false, log'⟩) ∧
        -- a session that stops keeps what was defined before
        (s.config.keepGoing = false →
          (∀ err t, (∃ log, s.load fuel source = some ⟨.error err, t, log⟩) ↔
            s.StopsAt fuel ds err t) ∧
          ∀ reports t, (∃ log, s.load fuel source = some ⟨.ok reports, t, log⟩) ↔
            s.Succeeds fuel ds reports t) := by
  refine ⟨fun d r err hrun hr => ⟨session_of_error hrun hr, fun _ _ heval =>
    (growing_eval _ _ _ _ _ _ heval).1⟩, fun source => ⟨fun err h => load_of_parse_error h,
    fun ds h => ?_⟩⟩
  rw [load_of_parse h]
  refine ⟨fun hgo => ⟨runAll_of_no_survivors hgo, fun ds' hds' => ?_⟩, fun hstop => ?_⟩
  · obtain ⟨hsub, reports, t, log, hall, hsucceeds⟩ := runAll_of_survivors hgo hds'
    refine ⟨reports, t, log, hall, exists_source_of_sublist h hsub, fun source' h' => ?_⟩
    rw [load_of_parse h']
    exact runAll_of_succeeds (hsucceeds.keeping false)
  · refine ⟨fun err t => ⟨fun ⟨log, hall⟩ => ?_, runAll_of_stopsAt hstop⟩,
      fun reports t => ⟨fun ⟨log, hall⟩ => ?_, runAll_of_succeeds⟩⟩
    · obtain ⟨_, hr, -⟩ | ⟨_, hr, hstops⟩ := runAll_cases hstop hall
      · cases hr
      · cases hr
        exact hstops
    · obtain ⟨_, hr, hsucceeds⟩ | ⟨_, hr, -⟩ := runAll_cases hstop hall
      · cases hr
        exact hsucceeds
      · cases hr

/-- Of `let x = 1; y; x;` the second statement is passed over. -/
theorem load_deletes_failures_unbound :
    parse .program "let x = 1; y; x;" =
      .ok [.define false "x" (.lit (.int 1)), .eval (.var "y"), .eval (.var "x")] ∧
    parse .program "let x = 1; x;" =
      .ok [.define false "x" (.lit (.int 1)), .eval (.var "x")] ∧
    ∃ reports t log,
      (bare ⟨false, true, false, true⟩).load 1 "let x = 1; y; x;" = some ⟨.ok reports, t, log⟩ ∧
      ∃ log', (bare ⟨false, true, false, false⟩).load 1 "let x = 1; x;" =
        some ⟨.ok reports, t.keeping false, log'⟩ := by
  have hone : Derives .expr [.number "1"] (.lit (.int 1)) := (Derives.number (by rfl)).ofAtomExpr
  have hdefine : Derives .decl [.symbol .kwLet, .ident "x", .symbol .assign, .number "1"]
      (.define false "x" (.lit (.int 1))) :=
    .letDecl (.lastClause (.clause .noParam hone)) (show letDecl false _ = .ok _ from rfl)
  have hname (x : String) : Derives .decl [.ident x] (.eval (.var x)) :=
    (Derives.var x).ofAtomExpr.evalDecl
  have hall : parse .program "let x = 1; y; x;" =
      .ok [.define false "x" (.lit (.int 1)), .eval (.var "y"), .eval (.var "x")] :=
    parse_eq_ok.mpr ⟨_, by decide +kernel,
      .moreDecls hdefine (.moreDecls (hname "y") (.moreDecls (hname "x") .noDecl))⟩
  have hleft : parse .program "let x = 1; x;" =
      .ok [.define false "x" (.lit (.int 1)), .eval (.var "x")] :=
    parse_eq_ok.mpr ⟨_, by decide +kernel, .moreDecls hdefine (.moreDecls (hname "x") .noDecl)⟩
  have hload := (load_deletes_failures (bare ⟨false, true, false, true⟩) 1).2 "let x = 1; y; x;"
  obtain ⟨reports, t, log, hreports, -, hsame⟩ := ((hload.2 _ hall).1 rfl).2
    [.define false "x" (.lit (.int 1)), .eval (.var "x")] rfl
  exact ⟨hall, hleft, reports, t, log, hreports, hsame _ hleft⟩

end Session

end LetML
