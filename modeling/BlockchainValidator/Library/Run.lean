import Mathlib.Data.List.Basic
import Mathlib.Data.List.Forall2
import Mathlib.Data.List.Induction

/-! # Runs of a fallible step

A system is a step that consumes one item in a state and either fails or
returns an output and the next state.  `run` takes the items of a list one
after the other and stops at the first failure.  The rules below lift what one
step preserves to what a whole run preserves.
-/

namespace BlockchainValidator.Run

variable {ε σ τ ι κ ο ο' α β : Type}

@[simp] theorem bind_ok (value : α) (next : α → Except ε β) :
    (Except.ok value >>= next) = next value := rfl

@[simp] theorem bind_error (reason : ε) (next : α → Except ε β) :
    (Except.error reason >>= next) = Except.error reason := rfl

@[simp] theorem map_ok (f : α → β) (value : α) :
    f <$> (Except.ok value : Except ε α) = .ok (f value) := rfl

@[simp] theorem map_error (f : α → β) (reason : ε) :
    f <$> (Except.error reason : Except ε α) = .error reason := rfl

theorem bind_eq_ok {first : Except ε α} {next : α → Except ε β} {result : β} :
    (first >>= next) = .ok result ↔ ∃ value, first = .ok value ∧ next value = .ok result := by
  cases first with
  | error reason => simp
  | ok value => simp

theorem map_eq_ok {first : Except ε α} {f : α → β} {result : β} :
    f <$> first = .ok result ↔ ∃ value, first = .ok value ∧ f value = result := by
  cases first with
  | error reason => simp [Functor.map, Except.map]
  | ok value => simp [Functor.map, Except.map]

theorem bind_eq_error {first : Except ε α} {next : α → Except ε β} {reason : ε} :
    (first >>= next) = .error reason ↔
      first = .error reason ∨ ∃ value, first = .ok value ∧ next value = .error reason := by
  cases first with
  | error other => simp
  | ok value => simp

theorem map_eq_error {first : Except ε α} {f : α → β} {reason : ε} :
    f <$> first = .error reason ↔ first = .error reason := by
  cases first with
  | error other => simp [Functor.map, Except.map]
  | ok value => simp [Functor.map, Except.map]

theorem exists_error_iff {result : Except ε α} :
    (∃ reason, result = .error reason) ↔ ¬ ∃ value, result = .ok value := by
  cases result with
  | error reason => simp
  | ok value => simp

def run (step : σ → ι → Except ε (ο × σ)) : σ → List ι → Except ε (List ο × σ)
  | state, [] => .ok ([], state)
  | state, item :: items => do
      let (output, next) ← step state item
      let (outputs, last) ← run step next items
      .ok (output :: outputs, last)

def andThen (first : Except ε (List ο × σ)) (next : σ → Except ε (List ο × σ)) :
    Except ε (List ο × σ) := do
  let (outputs, middle) ← first
  let (more, last) ← next middle
  .ok (outputs ++ more, last)

section Equations

variable {step : σ → ι → Except ε (ο × σ)} {state next last : σ} {item : ι} {items more : List ι}
  {output : ο} {outputs : List ο}

theorem run_cons_ok {result : List ο × σ} :
    run step state (item :: items) = .ok result ↔
      ∃ output next outputs last, step state item = .ok (output, next) ∧
        run step next items = .ok (outputs, last) ∧ result = (output :: outputs, last) := by
  simp only [run, bind_eq_ok, Prod.exists, Except.ok.injEq]
  apply Iff.intro
  · intro ran
    obtain ⟨output, next, stepped, outputs, last, rest, rfl⟩ := ran
    exact ⟨output, next, outputs, last, stepped, rest, rfl⟩
  · intro ran
    obtain ⟨output, next, outputs, last, stepped, rest, rfl⟩ := ran
    exact ⟨output, next, stepped, outputs, last, rest, rfl⟩

theorem run_append :
    run step state (items ++ more) = andThen (run step state items) (run step · more) := by
  induction items generalizing state with
  | nil =>
      change run step state more = (run step state more >>= _)
      cases run step state more <;> rfl
  | cons item items ih =>
      simp only [List.cons_append, run, ih, andThen]
      cases step state item with
      | error reason => rfl
      | ok result =>
          simp only [bind_ok]
          cases run step result.2 items with
          | error reason => rfl
          | ok front =>
              simp only [bind_ok]
              cases run step front.2 more <;> rfl

theorem run_append_ok {result : List ο × σ} :
    run step state (items ++ more) = .ok result ↔
      ∃ first middle second last, run step state items = .ok (first, middle) ∧
        run step middle more = .ok (second, last) ∧ result = (first ++ second, last) := by
  simp only [run_append, andThen, bind_eq_ok, Prod.exists, Except.ok.injEq, eq_comm (b := result)]
  apply Iff.intro
  · intro ran
    obtain ⟨first, middle, front, second, last, back, same⟩ := ran
    exact ⟨first, middle, second, last, front, back, same⟩
  · intro ran
    obtain ⟨first, middle, second, last, front, back, same⟩ := ran
    exact ⟨first, middle, front, second, last, back, same⟩

theorem run_concat_ok {result : List ο × σ} :
    run step state (items ++ [item]) = .ok result ↔
      ∃ outputs middle output last, run step state items = .ok (outputs, middle) ∧
        step middle item = .ok (output, last) ∧ result = (outputs ++ [output], last) := by
  rw [run_append_ok]
  apply Iff.intro
  · intro ran
    obtain ⟨outputs, middle, _, _, front, back, rfl⟩ := ran
    obtain ⟨output, last, _, _, stepped, done, same⟩ := run_cons_ok.mp back
    cases done
    cases same
    exact ⟨outputs, middle, output, _, front, stepped, rfl⟩
  · intro ran
    obtain ⟨outputs, middle, output, last, front, stepped, rfl⟩ := ran
    exact ⟨outputs, middle, [output], last, front,
      run_cons_ok.mpr ⟨output, last, [], last, stepped, rfl, rfl⟩, rfl⟩

theorem run_map (f : κ → ι) {items : List κ} :
    run step state (items.map f) = run (fun state item => step state (f item)) state items := by
  induction items generalizing state with
  | nil => rfl
  | cons item items ih => simp only [List.map_cons, run, ih]

/-- A map of states that commutes with every step commutes with runs. -/
theorem run_commute {step : σ → ι → Except ε (ο × σ)} {step' : τ → ι → Except ε (ο' × τ)}
    (f : ο → ο') (g : σ → τ)
    (commutes : ∀ state item, step' (g state) item =
      (fun result => (f result.1, g result.2)) <$> step state item) :
    run step' (g state) items =
      (fun result => (result.1.map f, g result.2)) <$> run step state items := by
  induction items generalizing state with
  | nil => rfl
  | cons item items ih =>
      simp only [run, commutes]
      cases step state item with
      | error reason => rfl
      | ok result =>
          simp only [map_ok, bind_ok, ih]
          cases run step result.2 items <;> rfl

theorem run_mapOutput (f : ο → ο') :
    run (fun state item => (fun result => (f result.1, result.2)) <$> step state item) state items =
      (fun result => (result.1.map f, result.2)) <$> run step state items :=
  run_commute f id fun _ _ => rfl

theorem run_tagged :
    run (fun state item => (fun result => ((item, result.1), result.2)) <$> step state item)
        state items =
      (fun result => (items.zip result.1, result.2)) <$> run step state items := by
  induction items generalizing state with
  | nil => rfl
  | cons item items ih =>
      simp only [run, ih]
      cases step state item with
      | error reason => rfl
      | ok result =>
          simp only [map_ok, bind_ok]
          cases run step result.2 items <;> rfl

theorem run_length (finished : run step state items = .ok (outputs, last)) :
    outputs.length = items.length := by
  induction items generalizing state outputs with
  | nil => cases finished; rfl
  | cons item items ih =>
      obtain ⟨output, next, rest, _, _, tail, same⟩ := run_cons_ok.mp finished
      cases same
      simp [ih tail]

/-- Items that change nothing, however many. -/
theorem run_idle (idle : ∀ item ∈ items, step state item = .ok (output, state)) :
    run step state items = .ok (items.map fun _ => output, state) := by
  induction items with
  | nil => rfl
  | cons item items ih =>
      exact run_cons_ok.mpr ⟨output, state, _, state, idle item (by simp),
        ih fun later listed => idle later (by simp [listed]), rfl⟩

/-- A run fails where one of its steps fails. -/
theorem run_error {reason : ε} (failed : run step state items = .error reason) :
    ∃ front item back outputs middle, items = front ++ item :: back ∧
      run step state front = .ok (outputs, middle) ∧ step middle item = .error reason := by
  induction items generalizing state with
  | nil => cases failed
  | cons item items ih =>
      rcases bind_eq_error.mp failed with stops | ⟨⟨output, next⟩, stepped, rest⟩
      · exact ⟨[], item, items, [], state, rfl, rfl, stops⟩
      · rcases bind_eq_error.mp rest with stops | ⟨_, _, impossible⟩
        · obtain ⟨front, other, back, outputs, middle, rfl, ran, fails⟩ := ih stops
          exact ⟨item :: front, other, back, output :: outputs, middle, rfl,
            run_cons_ok.mpr ⟨_, _, _, _, stepped, ran, rfl⟩, fails⟩
        · cases impossible

end Equations

/-- The invariant rule: what every step preserves, every run preserves. -/
theorem run_invariant {step : σ → ι → Except ε (ο × σ)} (Inv : σ → Prop)
    (preserved : ∀ state item output next, Inv state →
      step state item = .ok (output, next) → Inv next)
    {state last : σ} {items : List ι} {outputs : List ο} (initial : Inv state)
    (finished : run step state items = .ok (outputs, last)) : Inv last := by
  induction items generalizing state outputs with
  | nil => cases finished; exact initial
  | cons item items ih =>
      obtain ⟨output, next, rest, _, stepped, tail, same⟩ := run_cons_ok.mp finished
      cases same
      exact ih (preserved state item output next initial stepped) tail

/-- The history rule: an invariant that also speaks about the items taken and
the outputs returned so far. -/
theorem run_history {step : σ → ι → Except ε (ο × σ)} (Inv : List ι → List ο → σ → Prop)
    {state last : σ} {items : List ι} {outputs : List ο}
    (preserved : ∀ items outputs middle item output next,
      run step state items = .ok (outputs, middle) → Inv items outputs middle →
      step middle item = .ok (output, next) → Inv (items ++ [item]) (outputs ++ [output]) next)
    (initial : Inv [] [] state) (finished : run step state items = .ok (outputs, last)) :
    Inv items outputs last := by
  induction items using List.reverseRecOn generalizing outputs last with
  | nil =>
      cases finished
      exact initial
  | append_singleton items item ih =>
      obtain ⟨earlier, middle, output, next, front, stepped, same⟩ := run_concat_ok.mp finished
      cases same
      exact preserved items earlier middle item output _ front (ih front) stepped

/-- The progress rule: a run finishes if no step fails under an invariant, which
may also speak about the items to come. -/
theorem run_progress {step : σ → ι → Except ε (ο × σ)} (Inv : List ι → σ → Prop)
    (progress : ∀ state item items, Inv (item :: items) state →
      ∃ output next, step state item = .ok (output, next) ∧ Inv items next)
    {state : σ} {items : List ι} (initial : Inv items state) :
    ∃ outputs last, run step state items = .ok (outputs, last) ∧ Inv [] last := by
  induction items generalizing state with
  | nil => exact ⟨[], state, rfl, initial⟩
  | cons item items ih =>
      obtain ⟨output, next, stepped, held⟩ := progress state item items initial
      obtain ⟨outputs, last, tail, final⟩ := ih held
      exact ⟨output :: outputs, last,
        run_cons_ok.mpr ⟨output, next, outputs, last, stepped, tail, rfl⟩, final⟩

/-- The refinement rule: two systems that take the same items in lockstep, with
the same outputs, under a relation that may also speak about the items to come. -/
theorem run_lockstep {step : σ → ι → Except ε (ο × σ)} {step' : τ → ι → Except ε (ο × τ)}
    (Rel : List ι → σ → τ → Prop)
    (lockstep : ∀ state state' item items, Rel (item :: items) state state' →
      ∃ output next next', step state item = .ok (output, next) ∧
        step' state' item = .ok (output, next') ∧ Rel items next next')
    {state : σ} {state' : τ} {items : List ι} (initial : Rel items state state') :
    ∃ outputs last last', run step state items = .ok (outputs, last) ∧
      run step' state' items = .ok (outputs, last') ∧ Rel [] last last' := by
  induction items generalizing state state' with
  | nil => exact ⟨[], state, state', rfl, rfl, initial⟩
  | cons item items ih =>
      obtain ⟨output, next, next', stepped, stepped', held⟩ := lockstep _ _ _ _ initial
      obtain ⟨outputs, last, last', tail, tail', final⟩ := ih held
      exact ⟨output :: outputs, last, last',
        run_cons_ok.mpr ⟨output, next, outputs, last, stepped, tail, rfl⟩,
        run_cons_ok.mpr ⟨output, next', outputs, last', stepped', tail', rfl⟩, final⟩

theorem forall₂_mem {Related : α → β → Prop} {left : List α} {right : List β}
    (related : List.Forall₂ Related left right) {item : α} (listed : item ∈ left) :
    ∃ other ∈ right, Related item other := by
  induction related with
  | nil => cases listed
  | @cons first second _ _ head _ ih =>
      rcases List.mem_cons.mp listed with rfl | later
      · exact ⟨second, by simp, head⟩
      · obtain ⟨other, found, same⟩ := ih later
        exact ⟨other, by simp [found], same⟩

/-- The simulation rule: if related states step on related items to related
outputs and states, a finished run is matched by a finished run. -/
theorem run_simulation {step : σ → ι → Except ε (ο × σ)} {step' : τ → κ → Except ε (ο' × τ)}
    {Rel : σ → τ → Prop} {Item : ι → κ → Prop} {Output : ο → ο' → Prop}
    (simulated : ∀ state state' item item' output next, Rel state state' → Item item item' →
      step state item = .ok (output, next) →
      ∃ output' next', step' state' item' = .ok (output', next') ∧
        Output output output' ∧ Rel next next')
    {state last : σ} {state' : τ} {items : List ι} {items' : List κ} {outputs : List ο}
    (initial : Rel state state') (same : List.Forall₂ Item items items')
    (finished : run step state items = .ok (outputs, last)) :
    ∃ outputs' last', run step' state' items' = .ok (outputs', last') ∧
      List.Forall₂ Output outputs outputs' ∧ Rel last last' := by
  induction same generalizing state state' outputs with
  | nil =>
      cases finished
      exact ⟨[], state', rfl, .nil, initial⟩
  | @cons item item' items items' head tail ih =>
      obtain ⟨output, next, rest, _, stepped, continued, equal⟩ := run_cons_ok.mp finished
      cases equal
      obtain ⟨output', next', stepped', related, held⟩ :=
        simulated state state' item item' output next initial head stepped
      obtain ⟨outputs', last', continued', outputsRelated, final⟩ := ih held continued
      exact ⟨output' :: outputs', last',
        run_cons_ok.mpr ⟨output', next', outputs', last', stepped', continued', rfl⟩,
        .cons related outputsRelated, final⟩

/-- The stuttering rule: if every item of one system is matched by some items of
another, runs are matched by runs. -/
theorem run_stuttering {ε' : Type} {step : σ → ι → Except ε (ο × σ)}
    {step' : τ → κ → Except ε' (ο' × τ)} (Rel : σ → τ → Prop) (Items : ι → List κ → Prop)
    (simulated : ∀ state state' item output next, Rel state state' →
      step state item = .ok (output, next) →
      ∃ items outputs next', Items item items ∧ run step' state' items = .ok (outputs, next') ∧
        Rel next next')
    {state last : σ} {state' : τ} {items : List ι} {outputs : List ο} (initial : Rel state state')
    (finished : run step state items = .ok (outputs, last)) :
    ∃ pieces outputs' last', List.Forall₂ Items items pieces ∧
      run step' state' pieces.flatten = .ok (outputs', last') ∧ Rel last last' := by
  induction items generalizing state state' outputs with
  | nil =>
      cases finished
      exact ⟨[], [], state', .nil, rfl, initial⟩
  | cons item items ih =>
      obtain ⟨output, next, rest, _, stepped, tail, same⟩ := run_cons_ok.mp finished
      cases same
      obtain ⟨piece, first, next', matched, front, held⟩ := simulated _ _ _ _ _ initial stepped
      obtain ⟨pieces, second, last', all, back, final⟩ := ih held tail
      exact ⟨piece :: pieces, first ++ second, last', .cons matched all,
        run_append_ok.mpr ⟨_, _, _, _, front, back, rfl⟩, final⟩

end BlockchainValidator.Run
