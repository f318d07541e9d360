import LetML.Proofs.MentionedTypes
import LetML.Proofs.SessionSameness

namespace LetML

variable {store store' : Store} {L : Link}

def Value.SameIn (store store' : Store) (v v' : Value) : Prop :=
  ∃ L, store.Same L store' ∧ v.Same L v'

def Link.all (store store' : Store) : Link where
  slots a b := ∃ L : Link, store.Same L store' ∧ L.slots a b
  held b v := ∃ L : Link, store.Same L store' ∧ L.held b v

theorem Link.le_all (h : store.Same L store') : L ≤ .all store store' :=
  ⟨fun _ _ hab => ⟨L, h, hab⟩, fun _ _ hb => ⟨L, h, hb⟩⟩

/-- Where no slot is empty, correspondences can be put together: a slot may correspond to several. -/
theorem Store.same_all (hfilled : ∀ a < store.next, ∃ v, store.get? a = some v) :
    store.Same (.all store store') store' := by
  have hsome : ∀ {a b}, (Link.all store store').slots a b → store.get? a ≠ none := by
    rintro a b ⟨L, h, hab⟩ hnone
    obtain ⟨v, hv⟩ := hfilled a (h.made hab).1
    cases hnone.symm.trans hv
  refine ⟨?_, ?_, fun hab _ hnone => (hsome hab hnone).elim, fun hab _ hnone => (hsome hab hnone).elim,
    ?_⟩
  · rintro a b ⟨L, h, hab⟩
    exact h.made hab
  · rintro a b ⟨L, h, hab⟩
    exact h.mono_slots (Link.le_all h) hab
  · rintro b v ⟨L, h, hb⟩
    exact h.held hb

theorem Binding.same_of_read {b b' : Option Binding} {x : String} (hb : ∀ a, b ≠ some (.slot a))
    (hb' : ∀ a, b' ≠ some (.slot a))
    (h : ResultLift (Value.SameIn store store') (Value.SameIn store store') (Binding.read store x b)
      (Binding.read store' x b')) : Binding.Same (.all store store') b b' := by
  rcases b with _ | v | a
  · rcases b' with _ | v' | a'
    · exact .none
    · cases h
    · exact (hb' a' rfl).elim
  · rcases b' with _ | v' | a'
    · cases h
    · cases h with
      | ok hv =>
        obtain ⟨L, hstore, hv⟩ := hv
        exact .value (hv.mono (Link.le_all hstore))
    · exact (hb' a' rfl).elim
  · exact (hb a rfl).elim

namespace Session

variable {s t : Session} {e : Expr}

/-- A name has the same scheme in two sessions, or none, and stands for the same value in both, or
fails in both in the same way. -/
structure SameName (s t : Session) (x : String) : Prop where
  scheme : s.types.get? x = t.types.get? x
  value : ResultLift (Value.SameIn s.store t.store) (Value.SameIn s.store t.store)
    (s.values.lookup s.store x) (t.values.lookup t.store x)

theorem Reachable.not_slot (h : s.Reachable) (x : String) (a : Nat) :
    s.values.find? x ≠ some (.slot a) := by
  have hall : ∀ x a, s.values.find? x ≠ some (.slot a) := by
    refine h.reachableBy.invariant (I := fun s => ∀ x a, s.values.find? x ≠ some (.slot a))
      (fun config x a hx => by cases hx) (fun {s fuel d r} hs _ hrun x a => ?_)
      (fun _ _ _ _ => trivial)
    obtain ⟨_, -, hsession, -⟩ | ⟨ς, v, store, _, -, -, hsession⟩ := run_ends hrun
    · rw [hsession]
      exact hs x a
    · rw [hsession]
      cases d.name? with
      | none => exact hs x a
      | some y =>
        change (Env.bind y v s.values).find? x ≠ _
        rw [Env.find?]
        split
        · exact fun hx => by cases hx
        · exact hs x a
  exact hall x a

theorem env_same (hs : s.Reachable) (ht : t.Reachable) (h : ∀ x ∈ e.free, s.SameName t x) :
    Env.Same (.all s.store t.store) (· ∈ e.free) s.values t.values := by
  intro x hx
  have hvalue := (h x hx).value
  rw [Env.lookup_eq, Env.lookup_eq] at hvalue
  exact Binding.same_of_read (hs.not_slot x) (ht.not_slot x) hvalue

theorem infer_agree {α : Type} (hs : s.Sound) (ht : t.Sound)
    (h : ∀ x ∈ e.free, s.types.get? x = t.types.get? x) (f : Scheme → α) :
    (s.infer e).1.map (fun p => f p.1) = (t.infer e).1.map (fun p => f p.1) := by
  have hwrite := s.infer_eq_write false e
  rw [writeScheme_agree hs.closed ht.closed h, ← t.infer_eq_write false e] at hwrite
  generalize (s.infer e).1 = r, (t.infer e).1 = r' at hwrite ⊢
  rcases r with err | p <;> rcases r' with err' | p'
  · cases hwrite
    rfl
  · cases hwrite
  · cases hwrite
  · exact congrArg (Except.ok ∘ f) (Prod.mk.inj (Except.ok.inj hwrite)).1

/-- The outcome of a statement depends on the schemes and values of the names that it mentions only.
-/
theorem outcome_depends_on_mentioned_names (hs : s.Reachable) (ht : t.Reachable)
    (hconfig : s.config = t.config) (htrace : s.config.trace = false) (d : Decl)
    (h : ∀ x ∈ d.toExpr.free, s.SameName t x) (fuel : Nat) :
    Option.Rel (fun r r' => ResultAlike (fun a b => a.text = b.text ∧ a.scheme = b.scheme)
      r.result r'.result) (s.run fuel d) (t.run fuel d) := by
  have hinfer := infer_agree hs.sound ht.sound (fun x hx => (h x hx).scheme)
    (fun σ => (σ, (none : Option Derivation)))
  refine (run_alike hconfig ?_ (env_same hs ht h) (Store.same_all hs.settled.filled)).imp
    (fun r r' hr => ?_)
  · simpa only [← hconfig, htrace, Bool.false_eq_true, if_false] using hinfer
  · obtain ⟨hresult, -⟩ := hr
    exact hresult.imp (fun a b hab => ⟨hab.text, hab.scheme⟩)

/-- What `let rec g = \n -> n` gives, if its slot is the first. -/
def identityRec : Value := .closure "n" (.var "n") (.slot "g" 0 .empty)

def afterIdentity : Session where
  config := looping.config
  types := Table.empty.insert "g" ⟨[0], .arrow (.var 0) (.var 0)⟩
  values := .bind "g" identityRec .empty
  store := ⟨#[some identityRec]⟩

def loopAfter : Value :=
  .closure "n" (.app (.var "f") (.var "n")) (.slot "f" 1 afterIdentity.values)

def shifted : Session := afterIdentity.define "f" (some ⟨[0, 1], .arrow (.var 0) (.var 1)⟩) loopAfter
  ⟨#[some identityRec, some loopAfter]⟩

theorem shifted_reachable : shifted.Reachable := by
  have hnew : Session.new 0 looping.config = some ⟨.ok (), bare looping.config, []⟩ := rfl
  have hg : afterIdentity.Reachable :=
    Reachable.run (.new hnew rfl) (d := .define true "g" (.abs "n" (.var "n")))
      (show (bare looping.config).run 2 _ = some _ from rfl)
  obtain ⟨fuel, r, report, hrun, -, hsession⟩ := exists_run (s := afterIdentity)
    (c := .define true "f" (.abs "n" (.app (.var "f") (.var "n"))))
    (σ := ⟨[3, 4], .arrow (.var 3) (.var 4)⟩) (v := loopAfter) (by decide +kernel) ⟨2, rfl⟩
  have hf := hg.run hrun
  rwa [hsession] at hf

theorem sameName_shifted : looping.SameName shifted "f" := by
  have hf : ∀ {L : Link}, L.slots 0 1 → Value.Same L
      (.closure "n" (.app (.var "f") (.var "n")) (.slot "f" 0 .empty)) loopAfter := by
    refine fun hslots => .closure (fun y hy => ?_)
    obtain rfl : y = "f" := by simpa [Expr.free] using hy
    exact .slot hslots
  refine ⟨rfl, .ok ⟨⟨fun a b => a = 0 ∧ b = 1, fun _ _ => False⟩, ⟨?_, ?_, ?_, ?_, False.elim⟩,
    hf ⟨rfl, rfl⟩⟩⟩
  · rintro a b ⟨rfl, rfl⟩
    decide
  · rintro a b ⟨rfl, rfl⟩
    exact .some (hf ⟨rfl, rfl⟩)
  · rintro a b b' ⟨-, rfl⟩ ⟨-, rfl⟩ -
    rfl
  · rintro a a' b ⟨rfl, -⟩ ⟨rfl, -⟩ -
    rfl

theorem outcome_depends_on_mentioned_names_shifted :
    looping.Reachable ∧ shifted.Reachable ∧ looping.store.next ≠ shifted.store.next ∧
    (looping.run 3 (.eval (.list [.var "f"]))).isSome ∧
    Option.Rel (fun r r' => ResultAlike (fun a b => a.text = b.text ∧ a.scheme = b.scheme)
      r.result r'.result) (looping.run 3 (.eval (.list [.var "f"])))
        (shifted.run 3 (.eval (.list [.var "f"]))) := by
  refine ⟨looping_reachable, shifted_reachable, by decide, rfl, ?_⟩
  refine outcome_depends_on_mentioned_names looping_reachable shifted_reachable rfl rfl _
    (fun x hx => ?_) 3
  obtain rfl : x = "f" := List.mem_singleton.mp hx
  exact sameName_shifted

end Session

end LetML
