import LetML.Proofs.Lexing
import LetML.Proofs.SessionInvariant

namespace LetML

variable {ts us : List Token} {e : Expr} {source : String} {cs : List Char}

theorem ParseTree.semi_not_mem {n : Nonterminal} (T : ParseTree n) (hs : n ≠ .statement)
    (hp : n ≠ .program) : .symbol .semi ∉ T.tokens := by
  induction T with
  | statement => exact (hs rfl).elim
  | noDecl | moreDecls => exact (hp rfl).elim
  | truth c b | patternTruth c b => cases c <;> cases b <;> simp [truthSymbol]
  | cmp _ c => cases c <;> simp_all [Comparison.symbol]
  | add _ a => cases a <;> simp_all [Addition.symbol]
  | letIn b | letDecl b => cases b <;> simp_all [optional]
  | case _ b => cases b <;> simp_all [optional]
  | _ => simp_all

theorem derives_eval_iff : Derives .statement ts (.eval e) ↔
    Derives .expr ts e ∨ ∃ us, ts = us ++ [.symbol .semi] ∧ Derives .expr us e := by
  constructor
  · rintro ⟨T, rfl, hT⟩
    cases T with | statement D semicolon =>
    have hD : ∃ E : ParseTree .expr, D.tokens = E.tokens ∧ E.meaning = .ok e := by
      cases D with
      | evalDecl E =>
        obtain ⟨u, hu, ⟨⟩⟩ := bind_eq_ok.mp hT
        exact ⟨E, rfl, hu⟩
      | letDecl recursive C =>
        obtain ⟨cs, -, h⟩ := bind_eq_ok.mp hT
        rw [letDecl] at h
        split at h <;> cases h
    obtain ⟨E, hE, he⟩ := hD
    cases semicolon with
    | false => exact Or.inl ⟨E, by simp [optional, hE], he⟩
    | true => exact Or.inr ⟨_, by simp only [ParseTree.tokens, hE]; rfl, E, rfl, he⟩
  · rintro (h | ⟨us, rfl, h⟩)
    · have := (h.evalDecl).statement false
      rwa [optional, if_neg Bool.false_ne_true, List.append_nil] at this
    · exact (h.evalDecl).statement true

theorem Derives.semi_not_mem (h : Derives .expr ts e) : .symbol .semi ∉ ts := by
  obtain ⟨T, rfl, -⟩ := h
  exact T.semi_not_mem (by simp) (by simp)

theorem parse_eval_iff : parse .statement source = .ok (.eval e) ↔
    ∃ ts, lex? source.toList = some ts ∧ (Derives .expr ts e ∨
      ∃ us, ts = us ++ [.symbol .semi] ∧ Derives .expr us e) := by
  rw [parse_eq_ok]
  exact exists_congr fun ts => and_congr_right fun _ => derives_eval_iff

theorem lex?_semis (k : Nat) :
    lex? (List.replicate k ';') = some (List.replicate k (.symbol .semi)) := by
  induction k with
  | zero => exact lex?_nil
  | succ k ih =>
    have hsemi : lex? ([] ++ ';' :: List.replicate k ';') = _ :=
      lex?_append_semi (fun h => h.ne_nil rfl)
    rw [List.nil_append, lex?_nil, ih] at hsemi
    exact hsemi

theorem lex?_append_semis (hopen : ¬InComment cs) (k : Nat) :
    lex? (cs ++ List.replicate k ';') =
      (lex? cs).map (· ++ List.replicate k (.symbol .semi)) := by
  cases k with
  | zero => cases h : lex? cs <;> simp [h]
  | succ k =>
    rw [List.replicate_succ, lex?_append_semi hopen, lex?_semis]
    cases lex? cs <;> rfl

/-- The source without blanks at its ends is the bare source with some semicolons after it. -/
theorem exists_semis (source : String) : ∃ k,
    trimBlanks source.toList = (Session.bareSource source).toList ++ List.replicate k ';' ∧
      ∀ front, (Session.bareSource source).toList ≠ front ++ [';'] := by
  let rev := (trimBlanks source.toList).reverse
  have hbare : (Session.bareSource source).toList = (rev.dropWhile (· = ';')).reverse :=
    String.toList_ofList
  refine ⟨(rev.takeWhile (· = ';')).length, ?_, fun front hfront => ?_⟩
  · have hsemis : (rev.takeWhile (· = ';')).reverse =
        List.replicate (rev.takeWhile (· = ';')).length ';' :=
      List.eq_replicate_iff.mpr ⟨List.length_reverse, fun c hc => by
        simpa using List.mem_takeWhile_imp (List.mem_reverse.mp hc)⟩
    rw [hbare, ← hsemis, ← List.reverse_append, List.takeWhile_append_dropWhile,
      List.reverse_reverse]
  · rw [hbare] at hfront
    have hhead : rev.dropWhile (· = ';') = ';' :: front.reverse := by
      rw [← List.reverse_inj, hfront]
      simp
    have := List.head_dropWhile_not (p := (· = ';')) (l := rev) (by simp [hhead])
    simp [hhead] at this

theorem InComment.of_dropWhile (h : InComment (cs.dropWhile isBlank)) : InComment cs := by
  cases cs with
  | nil => exact h
  | cons c cs =>
    by_cases hc : isBlank c = true
    · exact .later (longest_blank hc) (by rwa [drop_reach_blank])
    · rwa [List.dropWhile_cons_of_neg hc] at h

theorem trimBlanks_append_semi {front rest : List Char} (hrest : ∀ c ∈ rest, isBlank c = true) :
    trimBlanks (front ++ ';' :: rest) = front.dropWhile isBlank ++ [';'] := by
  have hfront : (front ++ ';' :: rest).dropWhile isBlank = front.dropWhile isBlank ++ ';' :: rest := by
    rw [List.dropWhile_append]
    split
    · rename_i hnil
      rw [List.isEmpty_iff.mp hnil]
      rfl
    · rfl
  have hback : (rest.reverse ++ ';' :: (front.dropWhile isBlank).reverse).dropWhile isBlank =
      ';' :: (front.dropWhile isBlank).reverse := by
    rw [List.dropWhile_append, List.dropWhile_eq_nil_iff.mpr (fun c hc => hrest c (by simpa using hc))]
    rfl
  rw [trimBlanks, hfront]
  simp [hback]

namespace Session

/-- After a semicolon the text has a comment, and nothing else but blanks. -/
def CommentAfterSemi (source : String) : Prop := ∃ front rest,
  source.toList = front ++ ';' :: rest ∧ ¬InComment front ∧ lex? rest = some [] ∧
    ∃ c ∈ rest, isBlank c = false

/-- The text ends in two semicolons or more, apart from blanks and comments. -/
def SeveralSemis (source : String) : Prop :=
  ∃ us, lex? source.toList = some (us ++ [.symbol .semi, .symbol .semi])

theorem parse_bareSource_of_statement (h : parse .statement source = .ok (.eval e))
    (hcomment : ¬CommentAfterSemi source) : parse .expr (bareSource source) = .ok e := by
  obtain ⟨ts, hts, hderives⟩ := parse_eval_iff.mp h
  obtain ⟨k, htrim, hlast⟩ := exists_semis source
  refine parse_eq_ok.mpr ?_
  generalize (bareSource source).toList = body at htrim hlast ⊢
  obtain hderives | ⟨us, rfl, hderives⟩ := hderives
  · rw [← lex?_trimBlanks, htrim] at hts
    refine ⟨ts, ?_, hderives⟩
    by_cases hin : InComment body
    · rwa [(hin.append_semis (fun c hc => List.eq_of_mem_replicate hc)).2] at hts
    · rw [lex?_append_semis hin] at hts
      obtain ⟨us, hus, rfl⟩ := Option.map_eq_some_iff.mp hts
      cases k with
      | zero => rwa [List.replicate_zero, List.append_nil]
      | succ k => exact (hderives.semi_not_mem (by simp)).elim
  · obtain ⟨front, rest, hsource, hopen, hfront, hrest⟩ := exists_of_lex?_semi hts
    have hblank : ∀ c ∈ rest, isBlank c = true := by
      intro c hc
      by_contra hnot
      exact hcomment ⟨front, rest, hsource, hopen, hrest, c, hc, by simpa using hnot⟩
    rw [hsource, trimBlanks_append_semi hblank] at htrim
    refine ⟨us, ?_, hderives⟩
    cases k with
    | zero => exact (hlast _ (by simpa using htrim.symm)).elim
    | succ k =>
      rw [List.replicate_succ', ← List.append_assoc] at htrim
      have htrim := List.append_cancel_right htrim
      have hin : ¬InComment body := fun hin => hopen <| .of_dropWhile <| by
        rw [htrim]
        exact (hin.append_semis (fun c hc => List.eq_of_mem_replicate hc)).1
      rw [← lex?_dropWhile_blank, htrim, lex?_append_semis hin] at hfront
      obtain ⟨vs, hvs, rfl⟩ := Option.map_eq_some_iff.mp hfront
      cases k with
      | zero => rwa [List.replicate_zero, List.append_nil]
      | succ k => exact (hderives.semi_not_mem (by simp)).elim

theorem parse_statement_of_bareSource (h : parse .expr (bareSource source) = .ok e)
    (hsemis : ¬SeveralSemis source) : parse .statement source = .ok (.eval e) := by
  obtain ⟨ts, hts, hderives⟩ := parse_eq_ok.mp h
  obtain ⟨k, htrim, -⟩ := exists_semis source
  rw [parse_eval_iff, ← lex?_trimBlanks, htrim]
  by_cases hin : InComment (bareSource source).toList
  · rw [(hin.append_semis (fun c hc => List.eq_of_mem_replicate hc)).2]
    exact ⟨ts, hts, Or.inl hderives⟩
  · have hlex := lex?_append_semis hin k
    rw [hts, Option.map_some] at hlex
    refine ⟨_, hlex, ?_⟩
    obtain rfl | rfl | ⟨j, rfl⟩ : k = 0 ∨ k = 1 ∨ ∃ j, k = j + 2 := by
      rcases k with _ | _ | j <;> simp
    · exact Or.inl (by rwa [List.replicate_zero, List.append_nil])
    · exact Or.inr ⟨ts, rfl, hderives⟩
    · refine (hsemis ⟨ts ++ List.replicate j (.symbol .semi), ?_⟩).elim
      rw [← lex?_trimBlanks, htrim, hlex, List.replicate_add, List.append_assoc]
      rfl

variable {s : Session} {σ : Scheme} {derivation : Derivation}

theorem typeOf_of_parse (h : parse .expr (bareSource source) = .ok e) :
    (s.typeOf source).1 = (s.infer e).1.mapError .type := by
  unfold typeOf
  rw [h]

theorem runLine_of_parse {d : Decl} (h : parse .statement source = .ok d) (fuel : Nat) :
    s.runLine fuel source = s.run fuel d := by
  rw [runLine, h]

theorem scheme_of_run {fuel : Nat} {d : Decl} {r : Reply Report}
    (hinfer : (s.infer d.toExpr).1 = .ok (σ, derivation)) (h : s.run fuel d = some r) :
    (∀ err, r.result ≠ .error (.type err)) ∧
      ∀ report, r.result = .ok report → report.scheme = some σ := by
  obtain ⟨σ', _, trace, r', hinfer', heval, hresult, -⟩ | ⟨err, hfail, -⟩ | ⟨err, r', hfail, -⟩ :=
    run_cases h
  · obtain ⟨rfl, -⟩ := Prod.mk.inj (Except.ok.inj (hinfer.symm.trans hinfer'))
    rw [hresult]
    obtain ⟨err, store, -, hr', -⟩ | ⟨v, store, -, hr', -⟩ := evaluate_cases heval
    · rw [hr']
      exact ⟨fun _ h => (by cases h), fun _ h => (by cases h)⟩
    · rw [hr']
      refine ⟨fun _ h => (by cases h), fun report h => ?_⟩
      cases h
      rfl
  · cases hinfer.symm.trans hfail
  · cases hinfer.symm.trans hfail

theorem run_of_type_error {fuel : Nat} {d : Decl} {err : TypeError}
    (hinfer : (s.infer d.toExpr).1 = .error err) (hstrict : s.config.strict = true) :
    ∃ log, s.run fuel d = some ⟨.error (.type err), s, log⟩ := by
  unfold run
  cases h : s.infer d.toExpr with
  | mk r tried =>
    rw [h] at hinfer
    obtain rfl : r = .error err := hinfer
    simp only [hstrict, if_true]
    exact ⟨_, rfl⟩

/-- An expression has the type that it is reported to have as a statement, except in a text with a
comment after its last semicolon or with several semicolons at its end. -/
theorem typeOf_agrees_with_statement (s : Session) (source : String) :
    (¬CommentAfterSemi source → ∀ e, parse .statement source = .ok (.eval e) →
      parse .expr (bareSource source) = .ok e) ∧
    (¬SeveralSemis source → ∀ e, parse .expr (bareSource source) = .ok e →
      parse .statement source = .ok (.eval e)) ∧
    ∀ e, parse .statement source = .ok (.eval e) → parse .expr (bareSource source) = .ok e →
      (∀ err, (s.typeOf source).1 ≠ .error (.parse err)) ∧
      (∀ σ derivation, (s.typeOf source).1 = .ok (σ, derivation) →
        ∀ fuel r, s.runLine fuel source = some r →
          (∀ err, r.result ≠ .error (.type err)) ∧
            ∀ report, r.result = .ok report → report.scheme = some σ) ∧
      ∀ err, (s.typeOf source).1 = .error (.type err) → s.config.strict = true →
        ∀ fuel, ∃ log, s.runLine fuel source = some ⟨.error (.type err), s, log⟩ := by
  refine ⟨fun hcomment e h => parse_bareSource_of_statement h hcomment,
    fun hsemis e h => parse_statement_of_bareSource h hsemis, fun e hstatement hexpr => ?_⟩
  rw [typeOf_of_parse hexpr]
  simp only [runLine_of_parse hstatement]
  cases hinfer : (s.infer e).1 with
  | ok p =>
    refine ⟨fun err h => (by cases h), fun σ derivation h fuel r hrun => ?_,
      fun err h => (by cases h)⟩
    cases h
    exact scheme_of_run (d := .eval e) hinfer hrun
  | error err =>
    refine ⟨fun err h => (by cases h), fun σ derivation h => (by cases h),
      fun err h hstrict fuel => ?_⟩
    cases h
    exact run_of_type_error (d := .eval e) hinfer hstrict

theorem derives_one : Derives .expr [.number "1"] (.lit (.int 1)) :=
  (Derives.number (by rfl)).ofAtomExpr

theorem typeOf_agrees_with_statement_spaced :
    ¬CommentAfterSemi " 1 ; " ∧ ¬SeveralSemis " 1 ; " ∧
    parse .statement " 1 ; " = .ok (.eval (.lit (.int 1))) ∧
    parse .expr (bareSource " 1 ; ") = .ok (.lit (.int 1)) ∧
    ∀ fuel r report, (bare ⟨false, true, false, false⟩).runLine fuel " 1 ; " = some r →
      r.result = .ok report → report.scheme = some ⟨[], .int⟩ := by
  have hagree := typeOf_agrees_with_statement (bare ⟨false, true, false, false⟩) " 1 ; "
  have hchars : " 1 ; ".toList = [' ', '1', ' ', ';', ' '] := by decide +kernel
  have hlex : lex? " 1 ; ".toList = some [.number "1", .symbol .semi] := by decide +kernel
  have hcomment : ¬CommentAfterSemi " 1 ; " := by
    rintro ⟨front, rest, hsplit, -, -, c, hc, hblank⟩
    rw [hchars] at hsplit
    have hrest : rest = [' '] := by
      rcases front with _ | ⟨_, _ | ⟨_, _ | ⟨_, _ | ⟨_, _ | ⟨_, front⟩⟩⟩⟩⟩ <;> simp_all
    rw [hrest, List.mem_singleton] at hc
    subst hc
    cases hblank
  have hsemis : ¬SeveralSemis " 1 ; " := by
    rintro ⟨us, hus⟩
    rw [hlex] at hus
    rcases us with _ | ⟨_, _ | ⟨_, us⟩⟩ <;> simp at hus
  have hstatement : parse .statement " 1 ; " = .ok (.eval (.lit (.int 1))) :=
    parse_eval_iff.mpr ⟨_, hlex, Or.inr ⟨_, rfl, derives_one⟩⟩
  have hexpr := hagree.1 hcomment _ hstatement
  have htype : ((bare ⟨false, true, false, false⟩).typeOf " 1 ; ").1 =
      .ok (⟨[], .int⟩, .typing .empty (.lit (.int 1)) .int []) := by
    rw [typeOf_of_parse hexpr]
    rfl
  exact ⟨hcomment, hsemis, hagree.2.1 hsemis _ hexpr, hexpr, fun fuel r report hrun hr =>
    ((hagree.2.2 _ hstatement hexpr).2.1 _ _ htype fuel r hrun).2 report hr⟩

/-- A type is given for an expression with two semicolons after it, which is no statement, and none
for one with a semicolon and a comment after it, which is a statement. -/
theorem typeOf_differs_from_statement :
    (parse .expr (bareSource "1;;") = .ok (.lit (.int 1)) ∧ ∀ d, parse .statement "1;;" ≠ .ok d) ∧
    parse .statement "1; -- one" = .ok (.eval (.lit (.int 1))) ∧
      ∀ e, parse .expr (bareSource "1; -- one") ≠ .ok e := by
  have hbare : lex? (bareSource "1;;").toList = some [.number "1"] := by decide +kernel
  have htwo : lex? "1;;".toList = some [.number "1", .symbol .semi, .symbol .semi] := by
    decide +kernel
  have hone : lex? "1; -- one".toList = some [.number "1", .symbol .semi] := by decide +kernel
  have hkept : lex? (bareSource "1; -- one").toList = some [.number "1", .symbol .semi] := by
    decide +kernel
  refine ⟨⟨parse_eq_ok.mpr ⟨_, hbare, derives_one⟩, fun d h => ?_⟩,
    parse_eval_iff.mpr ⟨_, hone, Or.inr ⟨_, rfl, derives_one⟩⟩, fun e h => ?_⟩
  · obtain ⟨ts, hts, T, rfl, -⟩ := parse_eq_ok.mp h
    cases T with | statement D semicolon =>
    have htokens : D.tokens ++ optional semicolon .semi =
        [.number "1", .symbol .semi] ++ [.symbol .semi] := Option.some.inj (hts.symm.trans htwo)
    refine D.semi_not_mem (by simp) (by simp) ?_
    cases semicolon with
    | false =>
      rw [optional, if_neg Bool.false_ne_true, List.append_nil] at htokens
      simp [htokens]
    | true =>
      rw [List.append_cancel_right htokens]
      simp
  · obtain ⟨ts, hts, hderives⟩ := parse_eq_ok.mp h
    obtain rfl := Option.some.inj (hts.symm.trans hkept)
    exact Derives.semi_not_mem hderives (by simp)

end Session

end LetML
