import LetML.Proofs.PreludeText
import LetML.Proofs.SessionInvariant
import LetML.Proofs.Slots

namespace LetML

def allRead (test : Decl → Bool) : Except ParseError (List Decl) → Bool
  | .ok ds => ds.all test
  | .error _ => true

theorem allRead_prelude :
    allRead (fun d => d.toExpr.recValues Expr.isAbs) (parse .program preludeSource) = true := by
  obtain ⟨ds, hparse, hds⟩ := parse_prelude
  have hall : (Prelude.all.mapM Equations.decl).toOption.any
      (fun ds => ds.all fun d => d.toExpr.recValues Expr.isAbs) = true := by decide +kernel
  rw [hds] at hall
  rw [hparse]
  exact hall

namespace Session

variable {P : Decl → Prop} {I : Session → Prop} {s : Session} {fuel : Nat} {d : Decl} {e : Expr}
  {test : Expr → Bool} {x : String}

/-- The sessions that statements of some kind lead to, after the prelude or without it. -/
inductive ReachableBy (P : Decl → Prop) : Session → Prop
  | new {fuel : Nat} {config : Config} {r : Reply Unit} :
    Session.new fuel config = some r → r.result = .ok () → ReachableBy P r.session
  | runLine {s : Session} {fuel : Nat} {source : String} {r : Reply Report} :
    ReachableBy P s → (∀ d, parse .statement source = .ok d → P d) →
    s.runLine fuel source = some r → ReachableBy P r.session
  | run {s : Session} {fuel : Nat} {d : Decl} {r : Reply Report} :
    ReachableBy P s → P d → s.run fuel d = some r → ReachableBy P r.session
  | load {s : Session} {fuel : Nat} {source : String} {r : Reply (List Report)} :
    ReachableBy P s → (∀ ds, parse .program source = .ok ds → ∀ d ∈ ds, P d) →
    s.load fuel source = some r → ReachableBy P r.session

theorem Reachable.reachableBy (h : s.Reachable) : s.ReachableBy (fun _ => True) := by
  induction h with
  | new hnew hr => exact .new hnew hr
  | runLine _ hrun ih => exact ih.runLine (fun _ _ => trivial) hrun
  | run _ hrun ih => exact ih.run trivial hrun
  | load _ hload ih => exact ih.load (fun _ _ _ _ => trivial) hload

theorem runAll_invariant {ds : List Decl} {r : Reply (List Report)}
    (hrun : ∀ {s fuel d r}, I s → P d → Session.run fuel s d = some r → I r.session)
    (hds : ∀ d ∈ ds, P d) (hs : I s) (h : s.runAll fuel ds = some r) : I r.session := by
  induction ds generalizing s r with
  | nil =>
    cases h
    exact hs
  | cons d ds ih =>
    rw [Session.runAll] at h
    obtain ⟨r₁, hrun₁, h⟩ := Option.bind_eq_some_iff.mp h
    have hs₁ := hrun hs (hds d (by simp)) hrun₁
    have hrest : ∀ d ∈ ds, P d := fun d hd => hds d (by simp [hd])
    cases hr : r₁.result with
    | ok report =>
      simp only [hr] at h
      obtain ⟨rest, hrun₂, h⟩ := Option.bind_eq_some_iff.mp h
      have hs₂ := ih hrest hs₁ hrun₂
      cases h
      exact hs₂
    | error err =>
      simp only [hr] at h
      split at h
      · obtain ⟨rest, hrun₂, rfl⟩ := Option.map_eq_some_iff.mp h
        have hs₂ := ih hrest hs₁ hrun₂
        exact hs₂
      · cases h
        exact hs₁

theorem load_invariant {source : String} {r : Reply (List Report)}
    (hrun : ∀ {s fuel d r}, I s → P d → Session.run fuel s d = some r → I r.session)
    (hsource : ∀ ds, parse .program source = .ok ds → ∀ d ∈ ds, P d) (hs : I s)
    (h : s.load fuel source = some r) : I r.session := by
  unfold Session.load at h
  split at h
  · cases h
    exact hs
  next ds hds => exact runAll_invariant hrun (hsource ds hds) hs h

/-- What holds without definitions and is kept by every statement of some kind holds of every session
that these lead to. -/
theorem ReachableBy.invariant (hbare : ∀ config, I (bare config))
    (hrun : ∀ {s fuel d r}, I s → P d → Session.run fuel s d = some r → I r.session)
    (hprelude : ∀ ds, parse .program preludeSource = .ok ds → ∀ d ∈ ds, P d)
    (h : s.ReachableBy P) : I s := by
  induction h with
  | @new fuel config r hnew _ =>
    unfold Session.new at hnew
    split at hnew
    · obtain ⟨r', hload, rfl⟩ := Option.map_eq_some_iff.mp hnew
      have hs := load_invariant hrun hprelude (hbare config) hload
      split <;> exact hs
    · cases hnew
      exact hbare config
  | @runLine s fuel source r _ hsource hline ih =>
    unfold Session.runLine at hline
    split at hline
    · cases hline
      exact ih
    next d hd => exact hrun ih (hsource d hd) hline
  | run _ hd hstep ih => exact hrun ih hd hstep
  | load _ hsource hload ih => exact load_invariant hrun hsource ih hload

/-- All slots of a session are filled, and what it defines leads to no others. -/
structure Settled (test : Expr → Bool) (s : Session) : Prop where
  filled : ∀ a < s.store.next, ∃ v, s.store.get? a = some v
  values : s.values.Confined test (fun _ a => a < s.store.next)
  store : s.store.Confined test (fun _ a => a < s.store.next)

theorem settled_bare (test : Expr → Bool) (config : Config) : (bare config).Settled test where
  filled a ha := by cases ha
  values := trivial
  store a v hv := by cases Store.lt_next_of_get? hv

theorem eval_of_runtime_error {r : Reply Report} {err : RuntimeError} (h : s.run fuel d = some r)
    (hr : r.result = .error (.runtime err)) :
    ∃ store, eval fuel s.values d.toExpr s.store = some (.error err, store) := by
  obtain ⟨_, herr, -, hruntime⟩ | ⟨_, _, _, _, -, hok, -⟩ := run_ends h
  · exact hruntime err (Except.error.inj (herr.symm.trans hr))
  · cases hok.symm.trans hr

namespace Settled

variable {store : Store} {events : List SlotEvent} {r : Except RuntimeError Value}

theorem kept (hs : s.Settled test) (he : e.recValues test = true)
    (h : record fuel s.values e ⟨s.store, []⟩ = some (r, ⟨store, events⟩)) :
    Kept test (fun _ a => a < s.store.next)
      (fun events v => v.Confined test (Present (fun _ a => a < s.store.next) events))
      ⟨s.store, []⟩ r ⟨store, events⟩ := by
  have hpresent : ∀ x a, a < s.store.next → Present (fun _ a => a < s.store.next) [] x a :=
    fun _ _ => Or.inl
  exact keeps_record fuel he (.mono hpresent _ hs.values) _ _ _ List.suffix_rfl
    (hs.store.mono hpresent) h

theorem define {v : Value} (hs : s.Settled test) (he : e.recValues test = true)
    (h : eval fuel s.values e s.store = some (.ok v, store)) (ς : Option Scheme) (x : String) :
    (s.define x ς v store).Settled test := by
  obtain ⟨events, hrecord⟩ := exists_record h []
  have hkept := hs.kept he hrecord
  obtain ⟨_, hevents, htrace, -⟩ := traced_record _ _ _ _ _ _ hrecord
  obtain rfl : events = _ := hevents.trans (List.append_nil _)
  obtain ⟨hgrows, hfilled⟩ := growing_eval _ _ _ _ _ _ h
  have hmade : ∀ y a, Present (fun _ a => a < s.store.next) events y a → a < store.next := by
    rintro y a (ha | ha)
    · exact Nat.lt_of_lt_of_le ha hgrows.le
    · exact (htrace.made y a ha).2
  refine ⟨fun a ha => ?_, ⟨.mono hmade v (hkept.result v rfl), .mono (fun _ a ha =>
    Nat.lt_of_lt_of_le ha hgrows.le) _ hs.values⟩, hkept.store.mono hmade⟩
  by_cases hold : a < s.store.next
  · obtain ⟨w, hw⟩ := hs.filled a hold
    exact ⟨w, hgrows.get? hw⟩
  · exact hfilled v rfl a (Nat.not_lt.mp hold) ha

theorem run {r : Reply Report} (hs : s.Settled test) (hd : d.toExpr.recValues test = true)
    (h : s.run fuel d = some r) : r.session.Settled test := by
  obtain ⟨_, -, hsession, -⟩ | ⟨ς, v, store, _, heval, -, hsession⟩ := run_ends h
  · rwa [hsession]
  · rw [hsession]
    cases d.name? with
    | none => exact hs
    | some x => exact hs.define hd heval ς x

theorem missed (hs : s.Settled test) (he : e.recValues test = true)
    (h : record fuel s.values e ⟨s.store, []⟩ = some (.error (.notReady x), ⟨store, events⟩)) :
    ∃ a later earlier, events = .missed x a :: later ++ .made x a :: earlier ∧
      .filled a ∉ events := by
  obtain ⟨a, rest, hevents, hpresent, hempty⟩ := (hs.kept he h).missed x rfl
  obtain ⟨_, happend, htrace, -⟩ := traced_record _ _ _ _ _ _ h
  obtain rfl : events = _ := happend.trans (List.append_nil _)
  have hunfilled : .filled a ∉ events := by
    intro ha
    obtain ⟨-, v, hv⟩ := htrace.filled a ha
    cases hempty.symm.trans hv
  obtain hold | hmade := hpresent
  · obtain ⟨v, hv⟩ := hs.filled a hold
    cases hempty.symm.trans (htrace.grows.get? hv)
  · obtain ⟨later, earlier, rfl⟩ := List.append_of_mem hmade
    exact ⟨a, later, earlier, hevents, hunfilled⟩

theorem not_missed (hs : s.Settled Expr.isAbs) (he : e.recValues Expr.isAbs = true) :
    eval fuel s.values e s.store ≠ some (.error (.notReady x), store) := by
  intro h
  obtain ⟨events, hrecord⟩ := exists_record h []
  obtain ⟨a, later, earlier, hevents, hunfilled⟩ := hs.missed he hrecord
  refine hunfilled ((hs.kept he hrecord).prompt (fun _ h => h) (fun _ _ h => by cases h) x a ?_)
  rw [hevents]
  simp

end Settled

theorem Reachable.settled (h : s.Reachable) : s.Settled (fun _ => true) :=
  h.reachableBy.invariant (settled_bare _) (fun hs _ h => hs.run (Expr.recValues_true _) h)
    (fun _ _ _ _ => trivial)

theorem ReachableBy.settled (h : s.ReachableBy (fun d => d.toExpr.recValues Expr.isAbs = true)) :
    s.Settled Expr.isAbs := by
  refine h.invariant (settled_bare _) (fun hs hd h => hs.run hd h) (fun ds hds d hd => ?_)
  have hall := allRead_prelude
  rw [hds, allRead, List.all_eq_true] at hall
  exact hall d hd

/-- A slot is filled once and by the evaluation that made it, and a name is missed only before that.
-/
theorem slots_filled_once :
    (∀ fuel ρ e store r store', eval fuel ρ e store = some (r, store') →
      ∃ events, record fuel ρ e ⟨store, []⟩ = some (r, ⟨store', events⟩) ∧
        (∀ a, .filled a ∈ events → store.next ≤ a ∧ a < store'.next) ∧
        (events.filterMap SlotEvent.filled?).Nodup ∧
        (∀ a < store.next, store'.get? a = store.get? a) ∧
        ∀ v, r = .ok v → ∀ a, store.next ≤ a → a < store'.next →
          .filled a ∈ events ∧ ∃ w, store'.get? a = some w) ∧
    (∀ s : Session, s.Reachable →
      (∀ a, s.values.Reaches s.store a → ∃ v, s.store.get? a = some v) ∧
      ∀ fuel d r x, s.run fuel d = some r → r.result = .error (.runtime (.notReady x)) →
        ∃ a store later earlier, record fuel s.values d.toExpr ⟨s.store, []⟩ =
            some (.error (.notReady x), ⟨store, .missed x a :: later ++ .made x a :: earlier⟩) ∧
          .filled a ∉ .missed x a :: later ++ .made x a :: earlier) ∧
    ∀ s : Session, s.ReachableBy (fun d => d.toExpr.recValues Expr.isAbs = true) →
      ∀ fuel d r x, d.toExpr.recValues Expr.isAbs = true → s.run fuel d = some r →
        r.result ≠ .error (.runtime (.notReady x)) := by
  refine ⟨fun fuel ρ e store r store' h => ?_, fun s hs => ⟨fun a ha => ?_,
    fun fuel d r x hrun hr => ?_⟩, fun s hs fuel d r x hd hrun hr => ?_⟩
  · obtain ⟨events, hrecord⟩ := exists_record h []
    obtain ⟨_, hevents, htrace, hall⟩ := traced_record _ _ _ _ _ _ hrecord
    obtain rfl : events = _ := hevents.trans (List.append_nil _)
    refine ⟨events, hrecord, fun a ha => ?_, htrace.once, htrace.grows.keeps, fun v hv a ha ha' => ?_⟩
    · obtain ⟨hle, v, hv⟩ := htrace.filled a ha
      exact ⟨hle, Store.lt_next_of_get? hv⟩
    · have hfilled := hall v hv a ha ha'
      exact ⟨hfilled, (htrace.filled a hfilled).2⟩
  · obtain ⟨_, hlt⟩ := Env.Confined.of_reaches hs.settled.store hs.settled.values ha
    exact hs.settled.filled a hlt
  · obtain ⟨store, heval⟩ := eval_of_runtime_error hrun hr
    obtain ⟨events, hrecord⟩ := exists_record heval []
    obtain ⟨a, later, earlier, rfl, hunfilled⟩ := hs.settled.missed (Expr.recValues_true _) hrecord
    exact ⟨a, store, later, earlier, hrecord, hunfilled⟩
  · obtain ⟨store, heval⟩ := eval_of_runtime_error hrun hr
    exact hs.settled.not_missed hd heval

/-- A session after `let rec f = \n -> f n`. -/
def looping : Session where
  config := ⟨false, true, false, false⟩
  types := Table.empty.insert "f" ⟨[0, 1], .arrow (.var 0) (.var 1)⟩
  values := .bind "f" (.closure "n" (.app (.var "f") (.var "n")) (.slot "f" 0 .empty)) .empty
  store := ⟨#[some (.closure "n" (.app (.var "f") (.var "n")) (.slot "f" 0 .empty))]⟩

theorem looping_reachable : looping.Reachable := by
  have hnew : Session.new 0 looping.config = some ⟨.ok (), bare looping.config, []⟩ := rfl
  exact Reachable.run (.new hnew rfl)
    (d := .define true "f" (.abs "n" (.app (.var "f") (.var "n"))))
    (show (bare looping.config).run 2 _ = some _ from rfl)

theorem slots_filled_once_looping : looping.Reachable ∧
    looping.values.Reaches looping.store 0 ∧ (∃ v, looping.store.get? 0 = some v) ∧
    ∃ a store later earlier, record 2 looping.values (.letRec "x" (.var "x") (.var "x"))
        ⟨looping.store, []⟩ =
          some (.error (.notReady "x"), ⟨store, .missed "x" a :: later ++ .made "x" a :: earlier⟩) ∧
      .filled a ∉ .missed "x" a :: later ++ .made "x" a :: earlier := by
  have hreaches : looping.values.Reaches looping.store 0 := .value (.closure .here)
  have h := slots_filled_once.2.1 looping looping_reachable
  exact ⟨looping_reachable, hreaches, h.1 0 hreaches,
    h.2 2 (.define true "x" (.var "x")) _ "x" (show looping.run 2 _ = some _ from rfl) rfl⟩

end Session

end LetML
