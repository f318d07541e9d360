import LetML.Proofs.SessionSameness
import LetML.Repl.Basic

namespace LetML

namespace Repl

variable {s t : Session} {fuel : Nat} {files : Files} {l : String} {lines L₁ L₂ outs : List String}

/-- The answers to lines one after another, up to one that asks to quit, and the session after them. -/
def answers (fuel : Nat) (files : Files) (s : Session) :
    List String → Option (List String × Session)
  | [] => some ([], s)
  | l :: rest =>
    if Command.parse l = .quit then some ([], s)
    else do
      let turn ← answer fuel files s (.parse l)
      let (outs, t) ← answers fuel files turn.session rest
      return (turn.output :: outs, t)

def shown (outs : List String) : String := prompt ++ String.join (outs.map (· ++ prompt))

/-- A dialogue without what is written to the log. -/
def Transcript.seen (r : Transcript) : String × Session × Bool := (r.output, r.session, r.broken)

theorem answers_quit (hl : Command.parse l = .quit) (rest : List String) :
    answers fuel files s (l :: rest) = some ([], s) := by
  rw [answers, if_pos hl]

theorem answers_cons (hl : Command.parse l ≠ .quit) (rest : List String) :
    answers fuel files s (l :: rest) = (answer fuel files s (.parse l)).bind fun turn =>
      (answers fuel files turn.session rest).map fun p => (turn.output :: p.1, p.2) := by
  rw [answers, if_neg hl]
  refine congrArg (Option.bind _) (funext fun turn => ?_)
  cases answers fuel files turn.session rest <;> rfl

theorem answerLines_cons (hl : Command.parse l ≠ .quit) (rest : List (Option String)) :
    answerLines fuel files s (some l :: rest) = (answer fuel files s (.parse l)).bind fun turn =>
      (answerLines fuel files turn.session rest).map fun r =>
        { r with output := turn.output ++ prompt ++ r.output, log := .input l :: turn.log ++ r.log } := by
  rw [answerLines]
  split
  next h => exact (hl h).elim
  next =>
    refine congrArg (Option.bind _) (funext fun turn => ?_)
    cases answerLines fuel files turn.session rest <;> rfl

theorem answerLines_quit (hl : Command.parse l = .quit) (rest : List (Option String)) :
    answerLines fuel files s (some l :: rest) = some ⟨"", s, [.input l], false⟩ := by
  rw [answerLines, hl]

theorem answerLines_eq (fuel : Nat) (files : Files) (s : Session) (lines : List String) :
    (answerLines fuel files s (lines.map some)).map Transcript.seen =
      (answers fuel files s lines).map fun p => (String.join (p.1.map (· ++ prompt)), p.2, false) := by
  induction lines generalizing s with
  | nil => rfl
  | cons l rest ih =>
    by_cases hl : Command.parse l = .quit
    · rw [List.map_cons, answerLines_quit hl, answers_quit hl]
      rfl
    · rw [List.map_cons, answerLines_cons hl, answers_cons hl]
      cases answer fuel files s (.parse l) with
      | none => rfl
      | some turn =>
        have hrest := congrArg (Option.map fun q =>
          (turn.output ++ prompt ++ q.1, q.2)) (ih turn.session)
        simp only [Option.map_map] at hrest
        simp only [Option.bind_some, Option.map_map, Function.comp_def, List.map_cons,
          String.join_cons]
        exact hrest

theorem run_eq (s : Session) (lines : List String) :
    (run fuel files s (lines.map some)).map Transcript.seen =
      (answers fuel files s lines).map fun p => (shown p.1, p.2, false) := by
  have h := congrArg (Option.map fun q => (prompt ++ q.1, q.2))
    (answerLines_eq fuel files s lines)
  rw [Option.map_map, Option.map_map] at h
  rw [run, Option.map_map]
  exact h

theorem answers_append (hquit : ∀ l ∈ L₁, Command.parse l ≠ .quit)
    (h : answers fuel files s L₁ = some (outs, t)) (L : List String) :
    answers fuel files s (L₁ ++ L) =
      (answers fuel files t L).map fun p => (outs ++ p.1, p.2) := by
  induction L₁ generalizing s outs with
  | nil =>
    cases h
    simp
  | cons l rest ih =>
    rw [answers_cons (hquit l (by simp))] at h
    obtain ⟨turn, hturn, h⟩ := Option.bind_eq_some_iff.mp h
    obtain ⟨⟨outs₁, t₁⟩, hrest, hp⟩ := Option.map_eq_some_iff.mp h
    cases hp
    rw [List.cons_append, answers_cons (hquit l (by simp)), hturn, Option.bind_some,
      ih (fun l hl => hquit l (by simp [hl])) hrest, Option.map_map]
    rfl

theorem answerLines_append_quit (hl : Command.parse l = .quit) (s : Session)
    (before rest : List (Option String)) :
    answerLines fuel files s (before ++ some l :: rest) =
      answerLines fuel files s (before ++ [some l]) := by
  induction before generalizing s with
  | nil => rw [List.nil_append, List.nil_append, answerLines_quit hl, answerLines_quit hl]
  | cons first before ih =>
    cases first with
    | none => rfl
    | some k =>
      by_cases hk : Command.parse k = .quit
      · rw [List.cons_append, List.cons_append, answerLines_quit hk, answerLines_quit hk]
      · simp only [List.cons_append, answerLines_cons hk, ih]

/-- Lines that a dialogue can do without: blank ones, requests to show something, unknown commands,
expressions and statements that fail in the session they come to. -/
inductive Deletable (fuel : Nat) (t : Session) (l : String) : Prop
  | blank : (∀ c ∈ l.toList, isBlank c = true) → Deletable fuel t l
  | type {source : String} : Command.parse l = .type source → Deletable fuel t l
  | env : Command.parse l = .env → Deletable fuel t l
  | help : Command.parse l = .help → Deletable fuel t l
  | unknown {name : String} : Command.parse l = .unknown name → Deletable fuel t l
  | expression {source : String} {e : Expr} : Command.parse l = .statement source →
    parse .statement source = .ok (.eval e) → Deletable fuel t l
  | fails {source : String} {r : Reply Report} {err : SessionError} :
    Command.parse l = .statement source → t.runLine fuel source = some r → r.result = .error err →
    Deletable fuel t l

theorem parse_blank (h : ∀ c ∈ l.toList, isBlank c = true) : Command.parse l = .statement "" := by
  have htrim : trimBlanks l.toList = [] := by
    rw [trimBlanks, List.dropWhile_eq_nil_iff.mpr h]
    rfl
  rw [Command.parse, htrim]

theorem answer_statement (fuel : Nat) (files : Files) (t : Session) (source : String) :
    answer fuel files t (.statement source) = some ⟨"", t, []⟩ ∨
      answer fuel files t (.statement source) = (t.runLine fuel source).map (turn reportText) := by
  rw [answer]
  split
  · exact Or.inl rfl
  · exact Or.inr rfl

namespace Deletable

theorem ne_quit (h : Deletable fuel t l) : Command.parse l ≠ .quit := by
  cases h with
  | blank h => simp [parse_blank h]
  | type h | env h | help h | unknown h | expression h | fails h => simp [h]

theorem session_eq {turn : Turn} (h : Deletable fuel t l)
    (hturn : answer fuel files t (.parse l) = some turn) : turn.session = t := by
  -- a statement that is run answers with the session after it
  have hrun : ∀ {source : String}, Command.parse l = .statement source →
      (∀ r, t.runLine fuel source = some r → r.session = t) → turn.session = t := by
    intro source hl hr
    rw [hl] at hturn
    obtain hempty | hanswer := answer_statement fuel files t source
    · cases hturn.symm.trans hempty
      rfl
    · obtain ⟨r, hrunLine, rfl⟩ := Option.map_eq_some_iff.mp (hanswer.symm.trans hturn)
      exact hr r hrunLine
  cases h with
  | blank h =>
    rw [parse_blank h] at hturn
    cases hturn
    rfl
  | type h | env h | help h | unknown h =>
    rw [h] at hturn
    exact congrArg Turn.session (Option.some.inj hturn.symm)
  | @expression source e h he =>
    refine hrun h (fun r hr => ?_)
    rw [Session.runLine, he] at hr
    obtain ⟨_, -, hsession, -⟩ | ⟨_, _, _, _, -, -, hsession⟩ := Session.run_ends hr
    · exact hsession
    · exact hsession
  | @fails source r err h hr herr =>
    refine hrun h (fun r' hr' => ?_)
    cases hr.symm.trans hr'
    unfold Session.runLine at hr
    split at hr
    · cases hr
      rfl
    · exact Session.session_of_error hr herr

theorem exists_turn (h : Deletable fuel t l) (files : Files) :
    (∃ turn, answer fuel files t (.parse l) = some turn) ∨
      ∃ source e, Command.parse l = .statement source ∧ parse .statement source = .ok (.eval e) := by
  cases h with
  | blank h => exact Or.inl ⟨_, by rw [parse_blank h]; rfl⟩
  | type h | env h | help h | unknown h => exact Or.inl ⟨_, by rw [h]; rfl⟩
  | expression h he => exact Or.inr ⟨_, _, h, he⟩
  | @fails source r err h hr herr =>
    left
    rw [h]
    obtain hanswer | hanswer := answer_statement fuel files t source
    · exact ⟨_, hanswer⟩
    · exact ⟨_, by rw [hanswer, hr]; rfl⟩

end Deletable

/-- Turns that read the same and leave the same definitions. -/
def SameTurn (a b : Turn) : Prop := a.output = b.output ∧ a.session.Same b.session

theorem sameTurn_turn {α : Type} {P : α → α → Prop} {text : α → String} {r r' : Reply α}
    (htext : ∀ a b, P a b → text a = text b) (h : Reply.Same P r r') :
    SameTurn (turn text r) (turn text r') := by
  obtain ⟨result, s, log⟩ := r
  obtain ⟨result', t, log'⟩ := r'
  obtain ⟨hresult, hsession⟩ := h
  refine ⟨?_, hsession⟩
  cases hresult with
  | ok hab => exact htext _ _ hab
  | error hmessage => exact congrArg (fun m => line ("error: " ++ m)) hmessage

theorem reportText_eq {r r' : Report} (h : r.Alike r') : reportText r = reportText r' := by
  rw [reportText, reportText, h.derivation, h.text]

theorem map_text_eq {reports reports' : List Report} (h : List.Forall₂ Report.Alike reports reports') :
    reports.map (line ·.text) = reports'.map (line ·.text) := by
  induction h with
  | nil => rfl
  | cons hr _ ih => rw [List.map_cons, List.map_cons, hr.text, ih]

theorem answer_same (h : s.Same t) (c : Command) :
    Option.Rel SameTurn (answer fuel files s c) (answer fuel files t c) := by
  cases c with
  | quit | help | unknown => exact .some ⟨rfl, h⟩
  | statement source =>
    rw [answer, answer]
    split
    · exact .some ⟨rfl, h⟩
    · exact (h.runLine source).map (fun _ _ hr => sameTurn_turn (fun _ _ => reportText_eq) hr)
  | type source =>
    have htype : s.typeOf source = t.typeOf source := by
      simp only [Session.typeOf, h.infer_eq]
    simp only [answer, htype, h.config]
    exact .some ⟨rfl, h⟩
  | load path =>
    refine (h.loadFile files path).map (fun _ _ hr => sameTurn_turn (fun _ _ hreports => ?_) hr)
    rw [map_text_eq hreports]
  | env =>
    refine .some ⟨?_, h⟩
    rw [h.bindings_eq]

theorem answers_same (h : s.Same t) (lines : List String) :
    Option.Rel (fun p q => p.1 = q.1 ∧ p.2.Same q.2) (answers fuel files s lines)
      (answers fuel files t lines) := by
  induction lines generalizing s t with
  | nil => exact .some ⟨rfl, h⟩
  | cons l rest ih =>
    by_cases hl : Command.parse l = .quit
    · rw [answers_quit hl, answers_quit hl]
      exact .some ⟨rfl, h⟩
    · rw [answers_cons hl, answers_cons hl]
      refine (answer_same h _).bind (fun a b hab => (ih hab.2).map (fun p q hpq => ⟨?_, hpq.2⟩))
      rw [hab.1, hpq.1]

theorem reachable_answer {turn : Turn} {c : Command} (hs : s.Reachable)
    (h : answer fuel files s c = some turn) : turn.session.Reachable := by
  cases c with
  | quit | help | unknown | env | type =>
    rwa [← congrArg Turn.session (Option.some.inj h)]
  | statement source =>
    obtain hempty | hanswer := answer_statement fuel files s source
    · rwa [← congrArg Turn.session (Option.some.inj (hempty.symm.trans h))]
    · obtain ⟨r, hr, rfl⟩ := Option.map_eq_some_iff.mp (hanswer.symm.trans h)
      exact hs.runLine hr
  | load path =>
    obtain ⟨r, hr, rfl⟩ := Option.map_eq_some_iff.mp h
    unfold Session.loadFile at hr
    split at hr
    · cases hr
      exact hs
    · obtain ⟨r', hload, rfl⟩ := Option.map_eq_some_iff.mp hr
      have ht := hs.load hload
      exact ht

theorem reachable_answers (hs : s.Reachable) (h : answers fuel files s lines = some (outs, t)) :
    t.Reachable := by
  induction lines generalizing s outs with
  | nil =>
    cases h
    exact hs
  | cons l rest ih =>
    by_cases hl : Command.parse l = .quit
    · rw [answers_quit hl] at h
      cases h
      exact hs
    · rw [answers_cons hl] at h
      obtain ⟨turn, hturn, h⟩ := Option.bind_eq_some_iff.mp h
      obtain ⟨⟨outs₁, t₁⟩, hrest, hp⟩ := Option.map_eq_some_iff.mp h
      cases hp
      exact ih (reachable_answer hs hturn) hrest

/-- A line that defines nothing can be deleted from a dialogue: only its own answer and the prompt
after it are missing then. -/
theorem lines_can_be_deleted (fuel : Nat) (files : Files) (s : Session) :
    (∀ L₁ outs t, (∀ l ∈ L₁, Command.parse l ≠ .quit) → answers fuel files s L₁ = some (outs, t) →
      (∀ l, Deletable fuel t l →
        ((∃ turn, answer fuel files t (.parse l) = some turn) ∨ ∃ source e,
          Command.parse l = .statement source ∧ parse .statement source = .ok (.eval e)) ∧
        ∀ L₂,
          (run fuel files s ((L₁ ++ l :: L₂).map some)).map Transcript.seen =
            ((answer fuel files t (.parse l)).bind fun turn => (answers fuel files t L₂).map fun p =>
              (shown (outs ++ turn.output :: p.1), p.2, false)) ∧
          (run fuel files s ((L₁ ++ L₂).map some)).map Transcript.seen =
            (answers fuel files t L₂).map fun p => (shown (outs ++ p.1), p.2, false)) ∧
      -- what is evaluated leaves nothing behind but slots, which make no difference
      (s.Reachable → ∀ n (d : Decl) r store, eval n t.values d.toExpr t.store = some (r, store) →
        ∀ L₂, (answers fuel files { t with store := store } L₂).map (fun p => (p.1, p.2.bindings)) =
          (answers fuel files t L₂).map fun p => (p.1, p.2.bindings))) ∧
    -- nothing after a line that asks to quit is read
    ∀ q, Command.parse q = .quit → ∀ before rest,
      run fuel files s (before ++ some q :: rest) = run fuel files s (before ++ [some q]) := by
  refine ⟨fun L₁ outs t hquit h₁ => ⟨fun l hl => ⟨hl.exists_turn files, fun L₂ => ⟨?_, ?_⟩⟩,
    fun hs n d r store heval L₂ => ?_⟩, fun q hq before rest => ?_⟩
  · rw [run_eq, answers_append hquit h₁, answers_cons hl.ne_quit, Option.map_map]
    cases hturn : answer fuel files t (.parse l) with
    | none => rfl
    | some turn =>
      rw [Option.bind_some, hl.session_eq hturn, Option.map_map]
      rfl
  · rw [run_eq, answers_append hquit h₁, Option.map_map]
    rfl
  · have hsettled := (reachable_answers hs h₁).settled
    have hsame := hsettled.same_of_grows (growing_eval _ _ _ _ _ _ heval).1
    refine ((answers_same hsame L₂).map_eq (fun p q hpq => ?_)).symm
    rw [hpq.1, hpq.2.bindings_eq]
  · rw [run, run, answerLines_append_quit hq]

/-- The second of `:env`, `f` and `:env` can be deleted after `let rec f = \n -> f n`. -/
theorem lines_can_be_deleted_looping (files : Files) :
    ∃ env turn, answer 1 files Session.looping (.parse ":env") = some env ∧
      answer 1 files Session.looping (.parse "f") = some turn ∧
      (run 1 files Session.looping ([":env", "f", ":env"].map some)).map Transcript.seen =
        some (shown [env.output, turn.output, env.output], Session.looping, false) ∧
      (run 1 files Session.looping ([":env", ":env"].map some)).map Transcript.seen =
        some (shown [env.output, env.output], Session.looping, false) ∧
      Session.looping.Reachable ∧
      (∃ store, eval 2 Session.looping.values (.letRec "g" (.abs "n" (.var "n")) (.lit (.int 1)))
          Session.looping.store = some (.ok (.int 1), store) ∧ store.next = 2 ∧
        ∀ L₂, (answers 1 files { Session.looping with store := store } L₂).map
            (fun p => (p.1, p.2.bindings)) =
          (answers 1 files Session.looping L₂).map fun p => (p.1, p.2.bindings)) ∧
      ∀ rest, run 1 files Session.looping (some ":q" :: rest) =
        run 1 files Session.looping [some ":q"] := by
  have henv : Command.parse ":env" = .env := by decide +kernel
  have hne : Command.parse ":env" ≠ .quit := by simp [henv]
  have hf : Command.parse "f" = .statement "f" := by decide +kernel
  have hparse : parse .statement "f" = .ok (.eval (.var "f")) :=
    parse_eq_ok.mpr ⟨[.ident "f"], by decide +kernel,
      .statement false (Derives.var "f").ofAtomExpr.evalDecl⟩
  obtain ⟨env, hanswer, hsession⟩ : ∃ env, answer 1 files Session.looping (.parse ":env") = some env ∧
      env.session = Session.looping := ⟨_, by rw [henv]; rfl, rfl⟩
  have hanswers : answers 1 files Session.looping [":env"] = some ([env.output], Session.looping) := by
    rw [answers_cons hne, hanswer, Option.bind_some, hsession]
    rfl
  obtain ⟨turn, hturn⟩ : ∃ turn, answer 1 files Session.looping (.parse "f") = some turn := by
    obtain ⟨r, hr⟩ : ∃ r, Session.looping.runLine 1 "f" = some r := by
      rw [Session.runLine, hparse]
      exact ⟨_, rfl⟩
    rw [hf, answer, hr]
    exact ⟨turn reportText r, rfl⟩
  obtain ⟨hlines, hquit⟩ := lines_can_be_deleted 1 files Session.looping
  obtain ⟨hdelete, hstore⟩ := hlines [":env"] _ _ (by simp [hne]) hanswers
  obtain ⟨-, hall⟩ := hdelete "f" (.expression hf hparse)
  obtain ⟨hwith, hwithout⟩ := hall [":env"]
  rw [hanswers, hturn] at hwith
  rw [hanswers] at hwithout
  have hrec : eval 2 Session.looping.values (.letRec "g" (.abs "n" (.var "n")) (.lit (.int 1)))
      Session.looping.store = some (.ok (.int 1), _) := rfl
  exact ⟨env, turn, hanswer, hturn, hwith, hwithout, Session.looping_reachable,
    ⟨_, hrec, rfl, hstore Session.looping_reachable 2 (.eval _) _ _ hrec⟩,
    hquit ":q" (by decide +kernel) []⟩

end Repl

end LetML
