import LetML.Proofs.PreludeSession

namespace LetML

open LetML.Computation

variable {store : Store}

/-- From a store on, functions on lists work as loops over the elements do. -/
structure ListLaws (store : Store) (function : String → Value) : Prop where
  map : ∀ f xs, Agree store (applyAll (function "map") [f, .ofList xs])
    (Value.ofList <$> xs.mapM (application f))
  filter : ∀ p xs, Agree store (applyAll (function "filter") [p, .ofList xs])
    (Value.ofList <$> xs.filterM fun x => application p x >>= truth)
  foldl : ∀ f z xs, Agree store (applyAll (function "foldl") [f, z, .ofList xs])
    (xs.foldlM (fun acc x => applyAll f [acc, x]) z)
  foldr : ∀ f z xs, Agree store (applyAll (function "foldr") [f, z, .ofList xs])
    (xs.foldr (fun x rest => do let g ← application f x; let w ← rest; application g w) (pure z))
  append : ∀ xs ys, Agree store (applyAll (function "append") [.ofList xs, .ofList ys])
    (pure (.ofList (xs ++ ys)))
  reverse : ∀ xs, Agree store (applyAll (function "reverse") [.ofList xs])
    (pure (.ofList xs.reverse))
  length : ∀ xs, Agree store (applyAll (function "length") [.ofList xs])
    (Computation.ofResult (Prelude.count xs.length))

namespace Session

variable {fuel : Nat} {config : Config} {r : Reply Unit}

theorem listLaws_of_new (hprelude : config.prelude = true)
    (hnew : Session.new fuel config = some r) (hg : r.session.store.Grows store) :
    ListLaws store r.session.value := by
  obtain ⟨_, -, hmap, -⟩ := function_of_new (x := "map") hprelude hnew rfl
  obtain ⟨_, -, hfilter, -⟩ := function_of_new (x := "filter") hprelude hnew rfl
  obtain ⟨_, -, hfoldl, -⟩ := function_of_new (x := "foldl") hprelude hnew rfl
  obtain ⟨_, -, hfoldr, -⟩ := function_of_new (x := "foldr") hprelude hnew rfl
  obtain ⟨_, -, happend, -⟩ := function_of_new (x := "append") hprelude hnew rfl
  obtain ⟨_, -, hlength, -⟩ := function_of_new (x := "length") hprelude hnew rfl
  obtain ⟨ρ, -, hreverse, hρ⟩ := function_of_new (x := "reverse") hprelude hnew rfl
  -- `reverse` is bound to the `foldl` that came before it
  obtain ⟨g, _, hlookup, hg', -⟩ := hρ.lookup (x := "foldl") rfl
  exact {
    map := fun f xs => (Prelude.agree_map hmap f xs).later hg
    filter := fun p xs => (Prelude.agree_filter hfilter p xs).later hg
    foldl := fun f z xs => (Prelude.agree_foldl hfoldl f z xs).later hg
    foldr := fun f z xs => (Prelude.agree_foldr hfoldr f z xs).later hg
    append := fun xs ys => by
      rw [Value.ofList_append]
      exact (Prelude.agree_append happend xs (.ofList ys)).later hg
    reverse := fun xs => (Prelude.agree_reverse hreverse hg' hlookup xs).later hg
    length := fun xs => (Prelude.agree_length hlength xs).later hg }

/-- A session that starts with the prelude has its functions on lists, and they work as they should
whatever is called afterwards. -/
theorem list_functions_compute (hprelude : config.prelude = true)
    (hnew : Session.new fuel config = some r) :
    r.result = .ok () ∧
    (∀ x ∈ ["map", "filter", "foldl", "foldr", "append", "reverse", "length"],
      r.session.values.lookup r.session.store x = .ok (r.session.value x)) ∧
    ∀ fuel' cs results t, r.session.calls fuel' cs = some (results, t) →
      ListLaws t.store r.session.value := by
  refine ⟨(defines_of_new hprelude hnew).1, fun x hx => ?_, fun fuel' cs results t hcalls =>
    listLaws_of_new hprelude hnew (grows_of_calls hcalls)⟩
  have hfound : ∀ {E Fs}, Prelude.all.reverse.dropWhile (fun E => E.first.name ≠ x) = E :: Fs →
      r.session.values.lookup r.session.store x = .ok (r.session.value x) := fun hE =>
    let ⟨_, hlookup, _⟩ := function_of_new hprelude hnew hE
    hlookup
  simp only [List.mem_cons, List.not_mem_nil, or_false] at hx
  obtain rfl | rfl | rfl | rfl | rfl | rfl | rfl := hx
  all_goals exact hfound rfl

theorem list_functions_compute_rebound :
    ∃ fuel r fuel' results t, Session.new fuel .standard = some r ∧
      r.session.calls fuel' [.statement (.define false "map" (.lit (.int 0)))] =
        some (results, t) ∧
      t.values.lookup t.store "map" = .ok (.int 0) ∧
      (applyAll (r.session.value "map") [.closure "x" (.bin .mul (.var "x") (.var "x")) .empty,
        .ofList [.int 2, .int 3]]).Ends t.store (.ok (.ofList [.int 4, .int 9])) t.store := by
  obtain ⟨fuel, r, hnew⟩ := exists_new .standard
  obtain ⟨hr, -, hlaws⟩ := list_functions_compute rfl hnew
  have hreachable : r.session.Reachable := .new hnew hr
  obtain ⟨σ, hσ, -⟩ := hreachable.sound.closed.exists_schemeOf (.lit r.session.types (.int 0))
  obtain ⟨fuel', r', report, hrun, -, hsession⟩ :=
    exists_run (c := .define false "map" (.lit (.int 0))) hσ ⟨1, rfl⟩
  have hcalls : r.session.calls fuel' [.statement (.define false "map" (.lit (.int 0)))] =
      some ([r'.result.map ([·])], r'.session) := by
    simp [calls, call, hrun]
  refine ⟨fuel, r, fuel', _, _, hnew, hcalls, ?_, ?_⟩
  · rw [hsession]
    rfl
  · exact ((hlaws _ _ _ _ hcalls).map _ [.int 2, .int 3]).ends_iff.mpr ⟨4, rfl⟩

/-- In a session that starts with the prelude, `range` gives the integers from one to another, and
fails exactly where it has to go past the greatest of all. -/
theorem range_counts (hprelude : config.prelude = true) (hnew : Session.new fuel config = some r) :
    r.session.values.lookup r.session.store "range" = .ok (r.session.value "range") ∧
    ∀ fuel' cs results t, r.session.calls fuel' cs = some (results, t) →
      ∀ store, t.store.Grows store → ∀ lo hi result store',
        (applyAll (r.session.value "range") [.int lo, .int hi]).Ends store result store' ↔
          result = Prelude.interval lo hi ∧ store' = store := by
  obtain ⟨ρ, hlookup, hrange, -⟩ := function_of_new (x := "range") hprelude hnew rfl
  refine ⟨hlookup, fun fuel' cs results t hcalls store hg lo hi result store' => ?_⟩
  have hagree := (Prelude.agree_range hrange lo hi).later ((grows_of_calls hcalls).trans hg)
  rw [hagree.ends_iff, ends_ofResult]

theorem range_counts_small : ∃ fuel r, Session.new fuel .standard = some r ∧
    (applyAll (r.session.value "range") [.int 2, .int 4]).Ends r.session.store
      (.ok (.ofList [.int 2, .int 3, .int 4])) r.session.store := by
  obtain ⟨fuel, r, hnew⟩ := exists_new .standard
  obtain ⟨-, hcounts⟩ := range_counts rfl hnew
  exact ⟨fuel, r, hnew, (hcounts 0 [] [] r.session rfl _ (.refl _) 2 4 _ _).mpr ⟨rfl, rfl⟩⟩

theorem range_overflows : ∃ fuel r, Session.new fuel .standard = some r ∧
    (applyAll (r.session.value "range") [.int Int64.maxValue, .int Int64.maxValue]).Ends
      r.session.store (.error (.overflow .add Int64.maxValue 1)) r.session.store := by
  obtain ⟨fuel, r, hnew⟩ := exists_new .standard
  obtain ⟨ρ, -, hrange, -⟩ := function_of_new (x := "range") rfl hnew rfl
  have hfails := Prelude.agree_range hrange Int64.maxValue Int64.maxValue
  rw [Prelude.interval_max] at hfails
  exact ⟨fuel, r, hnew, hfails.ends_iff.mpr (ends_ofResult.mpr ⟨rfl, rfl⟩)⟩

end Session

end LetML
