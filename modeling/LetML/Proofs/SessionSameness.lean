import LetML.Proofs.NestedLet

namespace Option.Rel

variable {α β : Type} {P : α → α → Prop} {Q : β → β → Prop} {p q : Option α}

theorem bind {f g : α → Option β} (h : Option.Rel P p q)
    (hfg : ∀ a b, P a b → Option.Rel Q (f a) (g b)) : Option.Rel Q (p.bind f) (q.bind g) := by
  cases h with
  | none => exact .none
  | some hab => exact hfg _ _ hab

theorem map {f g : α → β} (h : Option.Rel P p q) (hfg : ∀ a b, P a b → Q (f a) (g b)) :
    Option.Rel Q (p.map f) (q.map g) := by
  cases h with
  | none => exact .none
  | some hab => exact .some (hfg _ _ hab)

theorem imp {P' : α → α → Prop} (h : Option.Rel P p q) (himp : ∀ a b, P a b → P' a b) :
    Option.Rel P' p q := by
  simpa only [Option.map_id_fun', id_eq] using h.map (f := fun a => a) (g := fun a => a) himp

theorem map_eq {f g : α → β} (h : Option.Rel P p q) (hfg : ∀ a b, P a b → f a = g b) :
    p.map f = q.map g := by
  cases h with
  | none => rfl
  | some hab => exact congrArg Option.some (hfg _ _ hab)

end Option.Rel

namespace LetML

variable {L : Link} {store store' store'' : Store} {α β : Type} {s t : Session} {fuel : Nat}
  {d : Decl}

theorem RuntimeError.Lift.message_eq {e f : RuntimeError} (h : e.Lift (Value.Same L) f) :
    e.message = f.message := by
  cases h with
  | unbound | overflow | notReady => rfl
  | notFunction hv | noMatch hv | notBool hv => exact congrArg (_ ++ ·) hv.text_eq.1
  | operands op hl hr =>
    exact congrArg₂ (fun l r => "invalid operands for " ++ op.symbol ++ ": " ++ l ++ " and " ++ r)
      hl.text_eq.1 hr.text_eq.1

theorem Store.Same.grow (h : store.Same L store') (hg : store'.Grows store'') :
    store.Same L store'' where
  made hab := ⟨(h.made hab).1, Nat.lt_of_lt_of_le (h.made hab).2 hg.le⟩
  slots hab := by
    rw [hg.keeps _ (h.made hab).2]
    exact h.slots hab
  left := h.left
  right := h.right
  held hb := hg.get? (h.held hb)

/-- Two results that read the same: `P` relates what was found, or the errors have the same text. -/
inductive ResultAlike (P : α → α → Prop) : Except SessionError α → Except SessionError α → Prop
  | ok {a b : α} : P a b → ResultAlike P (.ok a) (.ok b)
  | error {e f : SessionError} : e.message = f.message → ResultAlike P (.error e) (.error f)

theorem ResultAlike.map {P : α → α → Prop} {Q : β → β → Prop} {f g : α → β}
    {r r' : Except SessionError α} (h : ResultAlike P r r') (hfg : ∀ a b, P a b → Q (f a) (g b)) :
    ResultAlike Q (r.map f) (r'.map g) := by
  cases h with
  | ok h => exact .ok (hfg _ _ h)
  | error h => exact .error h

theorem ResultAlike.imp {P P' : α → α → Prop} {r r' : Except SessionError α} (h : ResultAlike P r r')
    (himp : ∀ a b, P a b → P' a b) : ResultAlike P' r r' := by
  cases h with
  | ok h => exact .ok (himp _ _ h)
  | error h => exact .error h

structure Report.Alike (r r' : Report) : Prop where
  text : r.text = r'.text
  scheme : r.scheme = r'.scheme
  derivation : r.derivation = r'.derivation

/-- Sessions after a statement: both are as they were, or both have given a name the same value. -/
inductive Session.Follow (L : Link) (s t : Session) : Session → Session → Prop
  | stay : Follow L s t s t
  | define {L' : Link} {v v' : Value} {store store' : Store} (x : String) (ς : Option Scheme) :
    L ≤ L' → v.Same L' v' → store.Same L' store' →
    Follow L s t (s.define x ς v store) (t.define x ς v' store')

def Reply.Alike (L : Link) (s t : Session) (r r' : Reply Report) : Prop :=
  ResultAlike Report.Alike r.result r'.result ∧ Session.Follow L s t r.session r'.session

namespace Session

theorem evaluate_alike (hρ : Env.Same L (· ∈ d.toExpr.free) s.values t.values)
    (hstore : s.store.Same L t.store) (ς : Option Scheme) (derivation : Option Derivation) :
    Option.Rel (Reply.Alike L s t) (s.evaluate fuel d ς derivation)
      (t.evaluate fuel d ς derivation) := by
  refine (sameness.works_eval fuel hρ L (le_refl L) _ _ hstore).bind ?_
  rintro ⟨r, store⟩ ⟨r', store'⟩ ⟨L', hL, hr, hstore'⟩
  cases hr with
  | error he => exact .some ⟨.error (congrArg ("runtime error: " ++ ·) he.message_eq), .stay⟩
  | @ok v v' hv =>
    refine .some ⟨.ok ⟨?_, rfl, rfl⟩, ?_⟩
    · rw [Report.text, Report.text, hv.text_eq.1]
    · cases d.name? with
      | none => exact .stay
      | some x => exact .define x ς hL hv hstore'

/-- A statement has the same outcome in sessions where its expression is inferred alike and its names
have the same bindings. -/
theorem run_alike (hconfig : s.config = t.config)
    (hinfer : (s.infer d.toExpr).1.map (fun p => (p.1, if s.config.trace then some p.2 else none)) =
      (t.infer d.toExpr).1.map (fun p => (p.1, if t.config.trace then some p.2 else none)))
    (hρ : Env.Same L (· ∈ d.toExpr.free) s.values t.values) (hstore : s.store.Same L t.store) :
    Option.Rel (Reply.Alike L s t) (s.run fuel d) (t.run fuel d) := by
  have hevaluate : ∀ ς derivation (log log' : List Event), Option.Rel (Reply.Alike L s t)
      ((s.evaluate fuel d ς derivation).map (Reply.after log))
      ((t.evaluate fuel d ς derivation).map (Reply.after log')) := fun ς derivation _ _ =>
    (evaluate_alike hρ hstore ς derivation).map (fun _ _ h => h)
  unfold run
  cases hs : s.infer d.toExpr with
  | mk r tried =>
    cases ht : t.infer d.toExpr with
    | mk r' tried' =>
      rw [hs, ht] at hinfer
      cases r with
      | ok p =>
        cases r' with
        | error err' => cases hinfer
        | ok p' =>
          obtain ⟨hσ, hderivation⟩ := Prod.mk.inj (Except.ok.inj hinfer)
          simp only [hσ, hderivation]
          exact hevaluate _ _ _ _
      | error err =>
        cases r' with
        | ok p' => cases hinfer
        | error err' =>
          cases hinfer
          simp only [← hconfig]
          split
          · exact .some ⟨.error rfl, .stay⟩
          · exact hevaluate _ _ _ _

/-- Sessions with the same definitions, whatever the slots that these lead to. -/
structure Same (s t : Session) : Prop where
  config : s.config = t.config
  types : s.types = t.types
  bound : s.values.bound = t.values.bound
  values : ∃ L, Env.Same L (fun _ => True) s.values t.values ∧ s.store.Same L t.store

/-- Slots that a session's definitions do not lead to make no difference. -/
theorem Settled.same_of_grows {test : Expr → Bool} (hs : s.Settled test) (hg : s.store.Grows store) :
    s.Same { s with store := store } := by
  obtain ⟨hvalues, hstore⟩ := hs.same
  exact ⟨rfl, rfl, rfl, _, hvalues, hstore.grow hg⟩

end Session

def Reply.Same (P : α → α → Prop) (r r' : Reply α) : Prop :=
  ResultAlike P r.result r'.result ∧ r.session.Same r'.session

namespace Session.Same

theorem infer_eq (h : s.Same t) (e : Expr) : s.infer e = t.infer e := by
  rw [infer, infer, h.types]

theorem bindings_eq (h : s.Same t) : s.bindings = t.bindings := by
  rw [bindings, bindings, h.types, Env.names, Env.names, h.bound]

theorem define {L' : Link} {v v' : Value} (h : s.Same t)
    (hvalues : Env.Same L (fun _ => True) s.values t.values) (hL : L ≤ L') (hv : v.Same L' v')
    (hstore : store.Same L' store') (x : String) (ς : Option Scheme) :
    (s.define x ς v store).Same (t.define x ς v' store') := by
  refine ⟨h.config, ?_, congrArg (x :: ·) h.bound, L', .bind hv (fun y _ => ?_), hstore⟩
  · cases ς with
    | some σ => exact congrArg (Table.insert · x σ) h.types
    | none => exact congrArg (Table.erase · x) h.types
  · exact (hvalues y trivial).mono hL

theorem run (h : s.Same t) (d : Decl) :
    Option.Rel (Reply.Same Report.Alike) (s.run fuel d) (t.run fuel d) := by
  obtain ⟨L, hvalues, hstore⟩ := h.values
  refine (run_alike h.config (by rw [h.infer_eq, h.config]) (fun y _ => hvalues y trivial)
    hstore).imp ?_
  rintro ⟨result, s', log⟩ ⟨result', t', log'⟩ ⟨hresult, hfollow⟩
  refine ⟨hresult, ?_⟩
  cases hfollow with
  | stay => exact h
  | define x ς hL hv hstore' => exact h.define hvalues hL hv hstore' x ς

theorem runLine (h : s.Same t) (source : String) :
    Option.Rel (Reply.Same Report.Alike) (s.runLine fuel source) (t.runLine fuel source) := by
  unfold Session.runLine
  cases parse .statement source with
  | error e => exact .some ⟨.error rfl, h⟩
  | ok d => exact h.run d

theorem runAll (h : s.Same t) (ds : List Decl) :
    Option.Rel (Reply.Same (List.Forall₂ Report.Alike)) (s.runAll fuel ds) (t.runAll fuel ds) := by
  induction ds generalizing s t with
  | nil => exact .some ⟨.ok .nil, h⟩
  | cons d ds ih =>
    refine (h.run d).bind ?_
    rintro ⟨result, s', log⟩ ⟨result', t', log'⟩ ⟨hresult, hsession⟩
    have hrest := ih hsession
    cases hresult with
    | ok hreport =>
      refine hrest.bind (fun r r' hr => .some ⟨?_, hr.2⟩)
      exact hr.1.map (fun _ _ hreports => .cons hreport hreports)
    | error hmessage =>
      simp only [← h.config]
      split
      · exact hrest.map (fun _ _ hr => hr)
      · exact .some ⟨.error hmessage, hsession⟩

theorem load (h : s.Same t) (source : String) :
    Option.Rel (Reply.Same (List.Forall₂ Report.Alike)) (s.load fuel source) (t.load fuel source) := by
  unfold Session.load
  cases parse .program source with
  | error e => exact .some ⟨.error rfl, h⟩
  | ok ds => exact h.runAll ds

theorem loadFile (h : s.Same t) (files : Files) (path : String) :
    Option.Rel (Reply.Same (List.Forall₂ Report.Alike)) (s.loadFile fuel files path)
      (t.loadFile fuel files path) := by
  unfold Session.loadFile
  cases files path with
  | error e => exact .some ⟨.error rfl, h⟩
  | ok source => exact (h.load source).map (fun _ _ hr => hr)

end Session.Same

end LetML
