import LetML.Proofs.ClauseTyping
import LetML.Proofs.Correspondence
import LetML.Proofs.Loading
import LetML.Proofs.SessionSlots

namespace LetML

structure Definition where
  recursive : Bool
  name : String
  value : Expr

namespace Definition

def decl (d : Definition) : Decl := .define d.recursive d.name d.value

def scope : Definition → Expr → Expr
  | ⟨true, x, v⟩, b => .letRec x v b
  | ⟨false, x, v⟩, b => .letIn x v b

end Definition

/-- An expression in the scope of definitions, the first of which is the outermost. -/
def nested (ds : List Definition) (e : Expr) : Expr := ds.foldr Definition.scope e

variable {Γ : TypeEnv} {d : Definition} {b e : Expr} {a t : Ty} {σ : Scheme}

theorem TypeEnv.Closed.typing_iff (hΓ : Γ.Closed) (hσ : schemeOf Γ e = .ok σ) :
    Typing Γ e t ↔ σ.Instance t := by
  refine ⟨fun h => ?_, hΓ.typing_of_schemeOf hσ⟩
  obtain ⟨σ', hσ', ht⟩ := hΓ.exists_schemeOf h
  cases hσ.symm.trans hσ'
  exact ht

namespace Definition

def Typed : Definition → TypeEnv → Ty → Prop
  | ⟨true, x, v⟩, Γ, a => Typing (Γ.insert x (.mono a)) v a
  | ⟨false, _, v⟩, Γ, a => Typing Γ v a

theorem Typed.instance (h : d.Typed Γ a) (hσ : Γ.Generalizes a σ) (ht : σ.Instance t) :
    d.Typed Γ t := by
  obtain ⟨_ | _, x, v⟩ := d
  · exact Typing.instance h hσ ht
  · exact Typing.instance_rec h hσ ht

theorem typing_scope : Typing Γ (d.scope b) t ↔
    ∃ a σ, d.Typed Γ a ∧ Γ.Generalizes a σ ∧ Typing (Γ.insert d.name σ) b t := by
  obtain ⟨_ | _, x, v⟩ := d
  · constructor
    · intro h
      cases h with
      | letIn hv hσ hb => exact ⟨_, _, hv, hσ, hb⟩
    · rintro ⟨a, σ, hv, hσ, hb⟩
      exact .letIn hv hσ hb
  · constructor
    · intro h
      cases h with
      | letRec hv hσ hb => exact ⟨_, _, hv, hσ, hb⟩
    · rintro ⟨a, σ, hv, hσ, hb⟩
      exact .letRec hv hσ hb

theorem typing_decl : Typing Γ d.decl.toExpr t ↔ d.Typed Γ t := by
  obtain ⟨_ | _, x, v⟩ := d
  · exact Iff.rfl
  · change Typing Γ (scope ⟨true, x, v⟩ (.var x)) t ↔ _
    rw [typing_scope]
    constructor
    · rintro ⟨a, σ, hv, hσ, hx⟩
      cases hx with
      | var hget ht =>
        rw [Table.get?_insert, if_pos rfl] at hget
        cases hget
        exact hv.instance hσ ht
    · intro h
      refine ⟨t, _, h, Γ.generalizes_generalize t, .var ?_ (Γ.generalize t).instance_ty⟩
      rw [Table.get?_insert, if_pos rfl]

/-- The scope of a definition has the types that it has where the name has the scheme that the
definition has as a statement. -/
theorem typing_scope_iff (hΓ : Γ.Closed) : Typing Γ (d.scope b) t ↔
    ∃ σ, schemeOf Γ d.decl.toExpr = .ok σ ∧ Typing (Γ.insert d.name σ.normalize) b t := by
  -- a scheme may give way to another of which all its types are types
  have hweaken : ∀ {σ σ' : Scheme}, (∀ t, σ.Instance t → σ'.Instance t) →
      Typing (Γ.insert d.name σ) b t → Typing (Γ.insert d.name σ') b t := by
    intro σ σ' hσ hb
    have hcov := (TypeEnv.Covers.refl .var Γ).insert hσ d.name
    simpa only [Ty.subst_var] using hb.subst hcov
  rw [typing_scope]
  constructor
  · rintro ⟨a, σ', hv, hσ', hb⟩
    obtain ⟨σ, hσ, -⟩ := hΓ.exists_schemeOf (typing_decl.mpr hv)
    refine ⟨σ, hσ, hweaken (fun t ht => ?_) hb⟩
    rw [Scheme.instance_normalize, ← hΓ.typing_iff hσ, typing_decl]
    exact hv.instance hσ' ht
  · rintro ⟨σ, hσ, hb⟩
    have hv : d.Typed Γ σ.ty := typing_decl.mp ((hΓ.typing_iff hσ).mpr σ.instance_ty)
    have hgen := Γ.generalizes_generalize σ.ty
    refine ⟨σ.ty, _, hv, hgen, hweaken (fun t ht => hgen.instanceUnder_iff.mpr ?_) hb⟩
    obtain ⟨f, -, rfl⟩ := Scheme.instance_normalize.mp ht
    exact ⟨f, fun v _ hv => (hΓ.not_free v hv).elim, rfl⟩

variable {ρ ρ' ρ₁ : Env} {store store' store₁ store₂ : Store} {u w w' : Value} {L : Link}

/-- The value of a definition is evaluated, and the definition opens a scope. -/
inductive Opens (ρ : Env) (store : Store) : Definition → Value → Env → Store → Prop
  | plain {x : String} {v : Expr} {w : Value} {store₁ : Store} :
    Evaluates ρ v store (.ok w) store₁ → Opens ρ store ⟨false, x, v⟩ w (.bind x w ρ) store₁
  | recursive {x : String} {v : Expr} {w : Value} {store₁ : Store} :
    Evaluates (.slot x store.next ρ) v store.alloc (.ok w) store₁ →
    Opens ρ store ⟨true, x, v⟩ w (.slot x store.next ρ) (store₁.fill store.next w)

theorem evaluates_scope : Evaluates ρ (d.scope b) store (.ok u) store₂ ↔
    ∃ w ρ₁ store₁, d.Opens ρ store w ρ₁ store₁ ∧ Evaluates ρ₁ b store₁ (.ok u) store₂ := by
  obtain ⟨_ | _, x, v⟩ := d
  · rw [scope, evaluates_letIn]
    constructor
    · rintro ⟨w, store₁, hv, hb⟩
      exact ⟨w, _, _, .plain hv, hb⟩
    · rintro ⟨_, _, _, ⟨hv⟩, hb⟩
      exact ⟨_, _, hv, hb⟩
  · rw [scope, evaluates_letRec]
    constructor
    · rintro ⟨w, store₁, hv, hb⟩
      exact ⟨w, _, _, .recursive hv, hb⟩
    · rintro ⟨_, _, _, _ | hv, hb⟩
      exact ⟨_, _, hv, hb⟩

theorem evaluates_decl : Evaluates ρ d.decl.toExpr store (.ok w) store₁ ↔
    ∃ ρ₁, d.Opens ρ store w ρ₁ store₁ := by
  obtain ⟨_ | _, x, v⟩ := d
  · constructor
    · intro h
      exact ⟨_, .plain h⟩
    · rintro ⟨_, ⟨h⟩⟩
      exact h
  · change Evaluates ρ (scope ⟨true, x, v⟩ (.var x)) store (.ok w) store₁ ↔ _
    -- the slot holds the value, which is what the name stands for
    have hslot : ∀ {w store₁}, Evaluates (.slot x store.next ρ) v store.alloc (.ok w) store₁ →
        (Env.slot x store.next ρ).lookup (store₁.fill store.next w) x = .ok w := by
      rintro w store₁ ⟨n, hn⟩
      rw [Env.lookup_eq, Env.find?, if_pos rfl, Binding.read,
        (growing_eval _ _ _ _ _ _ hn).1.get?_fill_next]
    rw [evaluates_scope]
    constructor
    · rintro ⟨_, _, _, _ | hv, hx⟩
      obtain ⟨hlookup, rfl⟩ := evaluates_var.mp hx
      cases (hslot hv).symm.trans hlookup
      exact ⟨_, .recursive hv⟩
    · rintro ⟨_, _ | hv⟩
      exact ⟨w, _, _, .recursive hv, evaluates_var.mpr ⟨hslot hv, rfl⟩⟩

/-- A scope has the same bindings as the definition makes at the top, where the name has a plain
value. -/
theorem Opens.same (h : d.Opens ρ' store' w' ρ₁ store₁) (hρ : Env.Same L (fun _ => True) ρ ρ')
    (hs : store.Same L store₁) (hw : w.Same L w') :
    ∃ L₁, Env.Same L₁ (fun _ => True) (.bind d.name w ρ) ρ₁ ∧ store.Same L₁ store₁ := by
  cases h with
  | plain => exact ⟨L, .bind hw (fun y _ => hρ y trivial), hs⟩
  | @recursive x v _ store₀ hv =>
    obtain ⟨n, hn⟩ := hv
    -- at the top the name has the value, in the scope a slot that is known to hold it
    have hle := L.le_know store'.next w'
    refine ⟨L.know store'.next w', .held (Or.inr ⟨rfl, rfl⟩) (hw.mono hle) (fun y _ => ?_),
      hs.know ((growing_eval _ _ _ _ _ _ hn).1.get?_fill_next w')⟩
    exact (hρ y trivial).mono hle

theorem opens_of_evaluates (hρ : Env.Same L (fun _ => True) ρ ρ') (hs : store.Same L store')
    (h : Evaluates ρ d.decl.toExpr store (.ok w) store₁) :
    ∃ L₁ w' ρ₁ store₁', d.Opens ρ' store' w' ρ₁ store₁' ∧
      Env.Same L₁ (fun _ => True) (.bind d.name w ρ) ρ₁ ∧ store₁.Same L₁ store₁' := by
  obtain ⟨L₁, r', store₁', hle, h', hr, hs₁⟩ :=
    sameness.evaluates_forth (fun y _ => hρ y trivial) hs h
  cases hr with
  | @ok _ w' hw =>
    obtain ⟨ρ₁, hopens⟩ := evaluates_decl.mp h'
    obtain ⟨L₂, hρ₁, hs₂⟩ := hopens.same (fun y _ => (hρ y trivial).mono hle) hs₁ hw
    exact ⟨L₂, w', ρ₁, store₁', hopens, hρ₁, hs₂⟩

end Definition

def Link.upTo (n : Nat) : Link where
  slots a b := a = b ∧ a < n
  held _ _ := False

namespace Session

variable {s t : Session} {fuel n m : Nat} {c : Decl} {ds : List Definition} {cs : List Decl}
  {r : Reply Report} {report : Report} {reports : List Report} {v : Value} {ρ : Env}
  {store store' : Store} {L : Link}

theorem Settled.same {test : Expr → Bool} (hs : s.Settled test) :
    Env.Same (.upTo s.store.next) (fun _ => True) s.values s.values ∧
      s.store.Same (.upTo s.store.next) s.store := by
  have hslots : ∀ (_ : String) a, a < s.store.next → (Link.upTo s.store.next).slots a a :=
    fun _ a ha => ⟨rfl, ha⟩
  refine ⟨fun y _ => Env.Same.refl hslots _ hs.values y, fun hab => ?_, ?_, ?_, ?_, fun hb => hb.elim⟩
  · obtain ⟨rfl, ha⟩ := hab
    exact ⟨ha, ha⟩
  · rintro a _ ⟨rfl, ha⟩
    obtain ⟨v, hv⟩ := hs.filled a ha
    rw [hv]
    exact .some (.refl hslots v (hs.store a v hv))
  · rintro a _ _ ⟨rfl, -⟩ ⟨rfl, -⟩ -
    rfl
  · rintro _ _ _ ⟨rfl, -⟩ ⟨rfl, -⟩ -
    rfl

theorem evaluate_of_le {ς : Option Scheme} {derivation : Option Derivation} (hle : n ≤ m)
    (h : s.evaluate n c ς derivation = some r) : s.evaluate m c ς derivation = some r := by
  unfold evaluate at h ⊢
  obtain ⟨p, hp, h⟩ := Option.bind_eq_some_iff.mp h
  exact Option.bind_eq_some_iff.mpr ⟨p, eval_of_le hle hp, h⟩

theorem run_of_le (hle : n ≤ m) (h : s.run n c = some r) : s.run m c = some r := by
  unfold run at h ⊢
  cases hinfer : s.infer c.toExpr with
  | mk inferred tried =>
    rw [hinfer] at h
    cases inferred with
    | ok p =>
      obtain ⟨r', hr', hr⟩ := Option.map_eq_some_iff.mp h
      exact Option.map_eq_some_iff.mpr ⟨r', evaluate_of_le hle hr', hr⟩
    | error err =>
      cases hstrict : s.config.strict with
      | true =>
        simp only [hstrict, if_true] at h ⊢
        exact h
      | false =>
        simp only [hstrict, Bool.false_eq_true, if_false] at h ⊢
        obtain ⟨r', hr', hr⟩ := Option.map_eq_some_iff.mp h
        exact Option.map_eq_some_iff.mpr ⟨r', evaluate_of_le hle hr', hr⟩

theorem Succeeds.of_le (hle : n ≤ m) (h : s.Succeeds n cs reports t) :
    s.Succeeds m cs reports t := by
  induction h with
  | nil s => exact .nil s
  | cons hrun hr _ ih => exact .cons (run_of_le hle hrun) hr ih

theorem infer_of_schemeOf (h : schemeOf s.types e = .ok σ) :
    ∃ derivation, (s.infer e).1 = .ok (σ.normalize, derivation) := by
  unfold schemeOf at h
  unfold infer
  cases hrun : (inferScheme s.types e).run s.types.unused with
  | mk r u =>
    rw [hrun] at h
    cases r with
    | error err => cases h
    | ok p =>
      cases h
      exact ⟨p.2, rfl⟩

theorem exists_run (hσ : schemeOf s.types c.toExpr = .ok σ)
    (hv : Evaluates s.values c.toExpr s.store (.ok v) store) :
    ∃ fuel r report, s.run fuel c = some r ∧ r.result = .ok report ∧
      r.session = match c.name? with
        | some x => s.define x (some σ.normalize) v store
        | none => s := by
  obtain ⟨fuel, hv⟩ := hv
  obtain ⟨derivation, hinfer⟩ := infer_of_schemeOf hσ
  have hevaluate : ∀ trace, s.evaluate fuel c (some σ.normalize) trace =
      some ⟨.ok ⟨c.name?, some σ.normalize, v, trace⟩, match c.name? with
        | some x => s.define x (some σ.normalize) v store
        | none => s, [.evaluated c.toExpr v]⟩ := by
    intro trace
    rw [evaluate, hv]
    rfl
  unfold run
  cases hi : s.infer c.toExpr with
  | mk inferred tried =>
    rw [hi] at hinfer
    obtain rfl : inferred = .ok (σ.normalize, derivation) := hinfer
    exact ⟨fuel, _, _, congrArg (Option.map _) (hevaluate _), rfl, rfl⟩

theorem of_run (hstrict : s.config.strict = true) (h : s.run fuel c = some r)
    (hr : r.result = .ok report) :
    ∃ σ store, schemeOf s.types c.toExpr = .ok σ ∧
      Evaluates s.values c.toExpr s.store (.ok report.value) store ∧
      report.scheme = some σ.normalize ∧
      r.session = match c.name? with
        | some x => s.define x (some σ.normalize) report.value store
        | none => s := by
  obtain ⟨σ, derivation, trace, r', hinfer, heval, hresult, hsession⟩ |
    ⟨err, -, -, hresult, -⟩ | ⟨err, r', -, hlax, -⟩ := run_cases h
  · obtain ⟨σ₀, hσ₀, rfl⟩ := infer_ok hinfer
    obtain ⟨err, store, -, hfail, -⟩ | ⟨v, store, hv, hok, hdefined⟩ := evaluate_cases heval
    · cases hr.symm.trans (hresult.trans hfail)
    · cases hr.symm.trans (hresult.trans hok)
      exact ⟨σ₀, store, hσ₀, ⟨fuel, hv⟩, rfl, hsession.trans hdefined⟩
  · cases hr.symm.trans hresult
  · cases hstrict.symm.trans hlax

theorem Succeeds.whole (hs : s.Sound) (hstrict : s.config.strict = true)
    (hρ : Env.Same L (fun _ => True) s.values ρ) (hstore : s.store.Same L store)
    (h : s.Succeeds fuel (ds.map Definition.decl ++ [.eval e]) reports t) :
    ∃ (report : Report) (σ : Scheme) (L' : Link) (v : Value) (store' : Store),
      reports.getLast? = some report ∧ report.scheme = some σ.normalize ∧ σ.Closed ∧
      (∀ t, Typing s.types (nested ds e) t ↔ σ.Instance t) ∧
      Evaluates ρ (nested ds e) store (.ok v) store' ∧ report.value.Same L' v := by
  induction ds generalizing s ρ store L reports with
  | nil =>
    cases h with
    | cons hrun hr hrest =>
      cases hrest
      obtain ⟨σ, _, hσ, hv, hscheme, -⟩ := of_run hstrict hrun hr
      obtain ⟨L', _, _, -, hv', hsame, -⟩ :=
        sameness.evaluates_forth (fun y _ => hρ y trivial) hstore hv
      cases hsame with
      | ok hsame =>
        exact ⟨_, σ, L', _, _, rfl, hscheme, hs.closed.closed_schemeOf hσ,
          fun t => hs.closed.typing_iff hσ, hv', hsame⟩
  | cons d ds ih =>
    cases h with
    | cons hrun hr hrest =>
      obtain ⟨σ₀, store₁, hσ₀, hv, -, hsession⟩ := of_run hstrict hrun hr
      obtain ⟨L₁, w, ρ₁, store₂, hopens, hρ₁, hstore₁⟩ :=
        Definition.opens_of_evaluates hρ hstore hv
      have hs₁ := hs.run hrun
      have hstrict₁ := (congrArg Config.strict (config_of_run hrun)).trans hstrict
      rw [hsession] at hrest hs₁ hstrict₁
      obtain ⟨report, σ, L', v, store', hlast, hscheme, hclosed, htypes, hbody, hsame⟩ :=
        ih hs₁ hstrict₁ hρ₁ hstore₁ hrest
      refine ⟨report, σ, L', v, store', ?_, hscheme, hclosed, fun t => ?_, ?_, hsame⟩
      · rw [List.getLast?_cons, hlast]
        rfl
      · change Typing s.types (d.scope (nested ds e)) t ↔ _
        rw [Definition.typing_scope_iff hs.closed, ← htypes]
        constructor
        · rintro ⟨σ₁, hσ₁, ht⟩
          cases hσ₀.symm.trans hσ₁
          exact ht
        · intro ht
          exact ⟨σ₀, hσ₀, ht⟩
      · exact Definition.evaluates_scope.mpr ⟨w, ρ₁, store₂, hopens, hbody⟩

end Session

end LetML
