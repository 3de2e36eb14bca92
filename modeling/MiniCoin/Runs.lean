import Mathlib.Algebra.GroupWithZero.Nat
import Mathlib.Data.List.Basic

/-!
# Runs of a labelled system

A system is a partial step function: from a state, a label leads to one next state or
is not possible there. A run is a list of labels, each possible where it stands.

Conditions on a run are conditions on each of its steps, evaluated in the state in
which the step is taken. The rules below lift what one step preserves to whole runs,
and an agreement of the steps of two systems to an agreement of their runs.
-/

namespace Runs

universe u v w x

variable {State : Type u} {Label : Type v}

/-- Take the steps in order; `none` when one of them is not possible. -/
def run (step : State → Label → Option State) : State → List Label → Option State
  | state, [] => some state
  | state, label :: rest =>
    match step state label with
    | none => none
    | some next => run step next rest

/-- Every step that the run takes meets the condition where it is taken.
Conditions on the state before a step are stated with this. -/
def Every (step : State → Label → Option State) (condition : State → Label → Prop) :
    State → List Label → Prop
  | _, [] => True
  | state, label :: rest =>
    condition state label ∧ ∀ next, step state label = some next → Every step condition next rest

/-- The property holds in every state of the run, the first and the last
included. -/
def Throughout (step : State → Label → Option State) (property : State → Prop) :
    State → List Label → Prop
  | state, [] => property state
  | state, label :: rest =>
    property state ∧ ∀ next, step state label = some next → Throughout step property next rest

variable (step : State → Label → Option State)

/-- The empty run ends where it begins. -/
@[simp] theorem run_nil (state : State) : run step state [] = some state := rfl

/-- A run takes its first step, and the rest from there. -/
theorem run_cons (state final : State) (label : Label) (rest : List Label) :
    run step state (label :: rest) = some final ↔
      ∃ next, step state label = some next ∧ run step next rest = some final := by
  rw [run]
  cases step state label <;> simp

/-- Over one step, a property is asked of the state before it and of the one
after it. -/
theorem throughout_single (property : State → Prop) (state : State) (label : Label) :
    Throughout step property state [label] ↔
      property state ∧ ∀ next, step state label = some next → property next := Iff.rfl

/-- A run may be cut at any point. -/
theorem run_append (state final : State) (first second : List Label) :
    run step state (first ++ second) = some final ↔
      ∃ middle, run step state first = some middle ∧ run step middle second = some final := by
  induction first generalizing state with
  | nil => simp
  | cons label rest ih =>
    simp only [List.cons_append, run_cons, ih]
    constructor
    · rintro ⟨next, stepped, middle, early, late⟩
      exact ⟨middle, ⟨next, stepped, early⟩, late⟩
    · rintro ⟨middle, ⟨next, stepped, early⟩, late⟩
      exact ⟨next, stepped, middle, early, late⟩

/-- A condition that can be decided can be checked along a run. -/
instance decidableEvery (condition : State → Label → Prop) [∀ state label, Decidable (condition state label)] :
    ∀ state labels, Decidable (Every step condition state labels)
  | _, [] => isTrue trivial
  | state, label :: rest =>
    have : ∀ next, Decidable (Every step condition next rest) := fun next => decidableEvery condition next rest
    inferInstanceAs (Decidable (condition state label ∧ ∀ next ∈ step state label, Every step condition next rest))

/-- A condition that always holds is met by every step. -/
theorem every_of_forall (condition : State → Label → Prop)
    (always : ∀ state label, condition state label) (state : State) (labels : List Label) :
    Every step condition state labels := by
  induction labels generalizing state with
  | nil => trivial
  | cons label rest ih => exact ⟨always state label, fun next _ => ih next⟩

/-- A condition on the labels alone is met by every step if all labels meet
it. -/
theorem every_of_mem (condition : Label → Prop) (state : State) (labels : List Label)
    (each : ∀ label ∈ labels, condition label) :
    Every step (fun _ label => condition label) state labels := by
  induction labels generalizing state with
  | nil => trivial
  | cons label rest ih =>
    exact ⟨each label (by simp), fun next _ => ih next fun other member => each other (by simp [member])⟩

/-- The steps of two parts of a run meet the condition if those of the run
do. -/
theorem every_append (condition : State → Label → Prop) (state : State) (first second : List Label) :
    Every step condition state (first ++ second) ↔ Every step condition state first ∧
      ∀ middle, run step state first = some middle → Every step condition middle second := by
  induction first generalizing state with
  | nil => simp [Every]
  | cons label rest ih =>
    simp only [List.cons_append, Every, ih, run_cons]
    constructor
    · rintro ⟨met, later⟩
      exact ⟨⟨met, fun next stepped => (later next stepped).1⟩,
        fun middle ⟨next, stepped, ran⟩ => (later next stepped).2 middle ran⟩
    · rintro ⟨⟨met, early⟩, late⟩
      exact ⟨met, fun next stepped => ⟨early next stepped, fun middle ran =>
        late middle ⟨next, stepped, ran⟩⟩⟩

/-- Two conditions may be put together. -/
theorem every_and (one other : State → Label → Prop) (state : State) (labels : List Label)
    (first : Every step one state labels) (second : Every step other state labels) :
    Every step (fun state label => one state label ∧ other state label) state labels := by
  induction labels generalizing state with
  | nil => trivial
  | cons label rest ih =>
    exact ⟨⟨first.1, second.1⟩, fun next stepped => ih next (first.2 next stepped) (second.2 next stepped)⟩

/-- Conditions may be weakened. -/
theorem every_mono (strong weak : State → Label → Prop)
    (implies : ∀ state label, strong state label → weak state label) (state : State)
    (labels : List Label) (every : Every step strong state labels) :
    Every step weak state labels := by
  induction labels generalizing state with
  | nil => trivial
  | cons label rest ih =>
    exact ⟨implies _ _ every.1, fun next stepped => ih next (every.2 next stepped)⟩

/-- What a step that meets the condition preserves, a run whose steps all meet
it preserves. -/
theorem run_invariant (condition : State → Label → Prop) (invariant : State → Prop)
    (preserved : ∀ state label next, invariant state → condition state label →
      step state label = some next → invariant next)
    (state final : State) (labels : List Label) (holds : invariant state)
    (every : Every step condition state labels) (ran : run step state labels = some final) :
    invariant final := by
  induction labels generalizing state with
  | nil => exact Option.some.inj ran ▸ holds
  | cons label rest ih =>
    obtain ⟨next, stepped, later⟩ := (run_cons step state final label rest).mp ran
    exact ih next (preserved state label next holds every.1 stepped) (every.2 next stepped) later

/-- If a step that does not meet the condition breaks what the others
preserve, for good, then the end of a run tells whether all its steps met the
condition. -/
theorem run_kept_or_broken (condition : State → Label → Prop) (kept broken : State → Prop)
    (keeps : ∀ state label next, kept state → condition state label →
      step state label = some next → kept next)
    (breaks : ∀ state label next, kept state → ¬ condition state label →
      step state label = some next → broken next)
    (stays : ∀ state label next, broken state → step state label = some next → broken next)
    (state final : State) (labels : List Label) (holds : kept state)
    (ran : run step state labels = some final) :
    (Every step condition state labels ∧ kept final) ∨ (¬ Every step condition state labels ∧ broken final) := by
  have remains (state : State) (labels : List Label) (lost : broken state)
      (ran : run step state labels = some final) : broken final :=
    run_invariant step (fun _ _ => True) broken (fun state label next lost _ => stays state label next lost)
      state final labels lost (every_of_forall step _ (fun _ _ => trivial) state labels) ran
  induction labels generalizing state with
  | nil => exact Or.inl ⟨trivial, Option.some.inj ran ▸ holds⟩
  | cons label rest ih =>
    obtain ⟨next, stepped, later⟩ := (run_cons step state final label rest).mp ran
    by_cases met : condition state label
    · rcases ih next (keeps state label next holds met stepped) later with ⟨every, good⟩ | ⟨notEvery, bad⟩
      · refine Or.inl ⟨⟨met, fun other same => ?_⟩, good⟩
        obtain rfl : next = other := Option.some.inj (stepped.symm.trans same)
        exact every
      · exact Or.inr ⟨fun every => notEvery (every.2 next stepped), bad⟩
    · exact Or.inr ⟨fun every => met every.1, remains next rest (breaks state label next holds met stepped) later⟩

/-- A property that holds at the start stays true exactly as long as every step
meets the condition, if the condition says of each step that the property holds
after it. An auxiliary invariant may be used in this. -/
theorem throughout_iff_every (property auxiliary : State → Prop)
    (condition : State → Label → Prop)
    (exact : ∀ state label, property state → auxiliary state →
      (condition state label ↔ ∀ next, step state label = some next → property next))
    (preserved : ∀ state label next, property state → auxiliary state → condition state label →
      step state label = some next → auxiliary next)
    (state : State) (labels : List Label) (holds : property state) (aux : auxiliary state) :
    Throughout step property state labels ↔ Every step condition state labels := by
  have start (state : State) (labels : List Label) (all : Throughout step property state labels) :
      property state := by
    cases labels with
    | nil => exact all
    | cons label rest => exact all.1
  induction labels generalizing state with
  | nil => exact ⟨fun _ => trivial, fun _ => holds⟩
  | cons label rest ih =>
    have now := exact state label holds aux
    constructor
    · rintro ⟨-, later⟩
      have met := now.mpr fun next stepped => start next rest (later next stepped)
      refine ⟨met, fun next stepped => ?_⟩
      have kept := preserved state label next holds aux met stepped
      exact (ih next (now.mp met next stepped) kept).mp (later next stepped)
    · rintro ⟨met, later⟩
      refine ⟨holds, fun next stepped => ?_⟩
      have kept := preserved state label next holds aux met stepped
      exact (ih next (now.mp met next stepped) kept).mpr (later next stepped)

/-! ## What happened in a run -/

/-- Some step that the run takes meets the condition where it is taken. It is
the negation of `Every` for the negated condition. -/
def Once (step : State → Label → Option State) (condition : State → Label → Prop) :
    State → List Label → Prop
  | _, [] => False
  | state, label :: rest =>
    condition state label ∨ ∃ next, step state label = some next ∧ Once step condition next rest

/-- What happens once in a run happens in its first or in its second part. -/
theorem once_append (condition : State → Label → Prop) (state middle : State) (first second : List Label)
    (ran : run step state first = some middle) :
    Once step condition state (first ++ second) ↔
      Once step condition state first ∨ Once step condition middle second := by
  induction first generalizing state with
  | nil =>
    obtain rfl := Option.some.inj ran
    simp [Once]
  | cons label rest ih =>
    obtain ⟨next, stepped, later⟩ := (run_cons step state middle label rest).mp ran
    simp only [List.cons_append, Once, stepped, Option.some.injEq, exists_eq_left', ih next later, or_assoc]

/-- In a run of one step it happens there. -/
theorem once_single (condition : State → Label → Prop) (state : State) (label : Label) :
    Once step condition state [label] ↔ condition state label := by
  simp [Once]

/-- What the steps of a run meet happens in the run. -/
theorem every_once {Case : Type w} (condition : Case → State → Label → Prop) (cases : Set Case)
    (state : State) (labels : List Label)
    (happens : ∀ case, Once step (condition case) state labels → case ∈ cases) :
    Every step (fun state label => ∀ case, condition case state label → case ∈ cases) state labels := by
  induction labels generalizing state with
  | nil => trivial
  | cons label rest ih =>
    exact ⟨fun case met => happens case (Or.inl met), fun next stepped =>
      ih next fun case later => happens case (Or.inr ⟨next, stepped, later⟩)⟩

/-- Some step of the run meets a condition on the steps before it and on the
state in which it is taken. -/
def Occurred (condition : List Label → State → Label → Prop) (start : State) (labels : List Label) : Prop :=
  ∃ earlier label later state, labels = earlier ++ label :: later ∧ run step start earlier = some state ∧
    condition earlier state label

/-- What has occurred stays so. -/
theorem occurred_append (condition : List Label → State → Label → Prop) (start : State)
    (labels more : List Label) (occurred : Occurred step condition start labels) :
    Occurred step condition start (labels ++ more) := by
  obtain ⟨earlier, label, later, state, rfl, ran, met⟩ := occurred
  exact ⟨earlier, label, later ++ more, state, by simp, ran, met⟩

/-- What the last step does has occurred. -/
theorem occurred_last (condition : List Label → State → Label → Prop) (start state : State)
    (past : List Label) (label : Label) (ran : run step start past = some state)
    (met : condition past state label) : Occurred step condition start (past ++ [label]) :=
  ⟨past, label, [], state, rfl, ran, met⟩

/-- The rule for invariants that speak of the steps taken so far. -/
theorem run_past (condition : State → Label → Prop) (invariant : List Label → State → Prop)
    (start : State) (initial : invariant [] start)
    (preserved : ∀ past state label next, run step start past = some state → invariant past state →
      condition state label → step state label = some next → invariant (past ++ [label]) next)
    (final : State) (labels : List Label) (every : Every step condition start labels)
    (ran : run step start labels = some final) : invariant labels final := by
  suffices later : ∀ past state, run step start past = some state → invariant past state →
      Every step condition state labels → run step state labels = some final →
        invariant (past ++ labels) final from later [] start rfl initial every ran
  clear every ran
  induction labels with
  | nil =>
    intro past state _ holds _ ran
    obtain rfl := Option.some.inj ran
    simpa using holds
  | cons label rest ih =>
    intro past state reached holds every ran
    obtain ⟨next, stepped, later⟩ := (run_cons step state final label rest).mp ran
    have arrived : run step start (past ++ [label]) = some next :=
      (run_append step start next past [label]).mpr ⟨state, reached, by simp [run, stepped]⟩
    have there := ih (past ++ [label]) next arrived
      (preserved past state label next reached holds every.1 stepped) (every.2 next stepped) later
    simpa using there

/-- What the steps of a run give, in order. -/
def collect {Item : Type w} (gives : State → Label → List Item) : State → List Label → List Item
  | _, [] => []
  | state, label :: rest =>
    gives state label ++ match step state label with
      | none => []
      | some next => collect gives next rest

/-- The first step's items come first. -/
theorem collect_cons {Item : Type w} (gives : State → Label → List Item) (state next : State) (label : Label)
    (rest : List Label) (stepped : step state label = some next) :
    collect step gives state (label :: rest) = gives state label ++ collect step gives next rest := by
  rw [collect, stepped]

/-- The items of two parts, in order. -/
theorem collect_append {Item : Type w} (gives : State → Label → List Item) (state middle : State)
    (first second : List Label) (ran : run step state first = some middle) :
    collect step gives state (first ++ second) = collect step gives state first ++ collect step gives middle second := by
  induction first generalizing state with
  | nil =>
    obtain rfl := Option.some.inj ran
    rfl
  | cons label rest ih =>
    obtain ⟨next, stepped, later⟩ := (run_cons step state middle label rest).mp ran
    rw [List.cons_append, collect_cons step gives state next label _ stepped,
      collect_cons step gives state next label rest stepped, ih next later, List.append_assoc]

/-- What happens in a run and gives an item is among what the run gives. -/
theorem once_collect {Item : Type w} (gives : State → Label → List Item) (condition : State → Label → Prop) (item : Item)
    (given : ∀ state label, condition state label → item ∈ gives state label) (state : State) (labels : List Label)
    (once : Once step condition state labels) : item ∈ collect step gives state labels := by
  induction labels generalizing state with
  | nil => exact once.elim
  | cons label rest ih =>
    rcases once with met | ⟨next, stepped, later⟩
    · exact List.mem_append_left _ (given state label met)
    · rw [collect_cons step gives state next label rest stepped]
      exact List.mem_append_right _ (ih next later)

/-! ## Costs -/

/-- What the steps of a run cost together. -/
def total (cost : State → Label → Nat) : State → List Label → Nat
  | _, [] => 0
  | state, label :: rest =>
    cost state label + match step state label with
      | none => 0
      | some next => total cost next rest

/-- The first step's cost, and that of the rest. -/
theorem total_cons (cost : State → Label → Nat) (state next : State) (label : Label)
    (rest : List Label) (stepped : step state label = some next) :
    total step cost state (label :: rest) = cost state label + total step cost next rest := by
  rw [total, stepped]

/-- If no step costs more than the potential that it uses up, then a run costs
no more than the potential at its start. -/
theorem total_le_potential (cost : State → Label → Nat) (potential : State → Nat)
    (condition : Label → Prop) (invariant : State → Prop)
    (preserved : ∀ state label next, invariant state → condition label →
      step state label = some next → invariant next)
    (pays : ∀ state label next, invariant state → condition label → step state label = some next →
      cost state label + potential next ≤ potential state)
    (state final : State) (labels : List Label) (holds : invariant state)
    (each : ∀ label ∈ labels, condition label) (ran : run step state labels = some final) :
    total step cost state labels ≤ potential state := by
  induction labels generalizing state with
  | nil => exact Nat.zero_le _
  | cons label rest ih =>
    obtain ⟨next, stepped, later⟩ := (run_cons step state final label rest).mp ran
    have here := each label (by simp)
    have paid := pays state label next holds here stepped
    have others := ih next (preserved state label next holds here stepped)
      (fun other member => each other (by simp [member])) later
    rw [total_cons step cost state next label rest stepped]
    omega

/-- Costs that depend on the labels alone add up along the list. -/
theorem total_labels (cost : Label → Nat) (state final : State) (labels : List Label)
    (ran : run step state labels = some final) :
    total step (fun _ label => cost label) state labels = (labels.map cost).sum := by
  induction labels generalizing state with
  | nil => rfl
  | cons label rest ih =>
    obtain ⟨next, stepped, later⟩ := (run_cons step state final label rest).mp ran
    rw [total_cons step _ state next label rest stepped, ih next later, List.map_cons, List.sum_cons]

/-- The accounts of a run: if no step spends more than it gets and takes from
the potential, then a run spends no more than it gets and takes from the
potential. -/
theorem total_le_income (cost income : State → Label → Nat) (potential : State → Int)
    (condition : State → Label → Prop) (invariant : State → Prop)
    (preserved : ∀ state label next, invariant state → condition state label →
      step state label = some next → invariant next)
    (pays : ∀ state label next, invariant state → condition state label → step state label = some next →
      cost state label + potential next ≤ potential state + income state label)
    (state final : State) (labels : List Label) (holds : invariant state)
    (every : Every step condition state labels) (ran : run step state labels = some final) :
    total step cost state labels + potential final ≤ potential state + total step income state labels := by
  induction labels generalizing state with
  | nil =>
    obtain rfl := Option.some.inj ran
    simp [total]
  | cons label rest ih =>
    obtain ⟨next, stepped, later⟩ := (run_cons step state final label rest).mp ran
    have paid := pays state label next holds every.1 stepped
    have others := ih next (preserved state label next holds every.1 stepped) (every.2 next stepped) later
    rw [total_cons step cost state next label rest stepped, total_cons step income state next label rest stepped]
    push_cast
    omega

/-! ## Agreement of two systems -/

variable {Abstract : Type w} (abstractStep : Abstract → Label → Option Abstract)

/-- If each step agrees with the step of an abstract system through a map, so do
the runs. The invariant of the abstract system and the condition on the concrete
steps may be used in the agreement of a step. -/
theorem run_map (represent : Abstract → State) (condition : State → Label → Prop)
    (invariant : Abstract → Prop)
    (agrees : ∀ state label, invariant state → condition (represent state) label →
      step (represent state) label = (abstractStep state label).map represent)
    (preserved : ∀ state label next, invariant state → condition (represent state) label →
      abstractStep state label = some next → invariant next)
    (state : Abstract) (labels : List Label) (holds : invariant state)
    (every : Every step condition (represent state) labels) :
    run step (represent state) labels = (run abstractStep state labels).map represent := by
  induction labels generalizing state with
  | nil => rfl
  | cons label rest ih =>
    have same := agrees state label holds every.1
    rw [run, run, same]
    cases stepped : abstractStep state label with
    | none => rfl
    | some next =>
      refine ih next (preserved state label next holds every.1 stepped) ?_
      exact every.2 (represent next) (by rw [same, stepped]; rfl)

/-- In that case the runs give the same. -/
theorem collect_map {Item : Type*} (gives : State → Label → List Item) (represent : Abstract → State)
    (condition : State → Label → Prop) (invariant : Abstract → Prop)
    (agrees : ∀ state label, invariant state → condition (represent state) label →
      step (represent state) label = (abstractStep state label).map represent)
    (preserved : ∀ state label next, invariant state → condition (represent state) label →
      abstractStep state label = some next → invariant next)
    (state : Abstract) (labels : List Label) (holds : invariant state)
    (every : Every step condition (represent state) labels) :
    collect step gives (represent state) labels =
      collect abstractStep (fun state label => gives (represent state) label) state labels := by
  induction labels generalizing state with
  | nil => rfl
  | cons label rest ih =>
    have same := agrees state label holds every.1
    rw [collect, collect, same]
    cases stepped : abstractStep state label with
    | none => rfl
    | some next =>
      have later := ih next (preserved state label next holds every.1 stepped)
        (every.2 (represent next) (by rw [same, stepped]; rfl))
      exact congrArg _ later

/-- In that case the steps of the abstract run meet the condition, too. -/
theorem every_map (represent : Abstract → State) (condition : State → Label → Prop)
    (invariant : Abstract → Prop)
    (agrees : ∀ state label, invariant state → condition (represent state) label →
      step (represent state) label = (abstractStep state label).map represent)
    (preserved : ∀ state label next, invariant state → condition (represent state) label →
      abstractStep state label = some next → invariant next)
    (state : Abstract) (labels : List Label) (holds : invariant state)
    (every : Every step condition (represent state) labels) :
    Every abstractStep (fun state label => condition (represent state) label) state labels := by
  induction labels generalizing state with
  | nil => trivial
  | cons label rest ih =>
    refine ⟨every.1, fun next stepped => ?_⟩
    refine ih next (preserved state label next holds every.1 stepped) (every.2 (represent next) ?_)
    rw [agrees state label holds every.1, stepped]
    rfl

/-- Conversely, what the steps of the abstract run meet is met by those of the
other one. What the agreement of the steps needs is a condition of its own. -/
theorem every_of_map (represent : Abstract → State) (condition requires : State → Label → Prop)
    (invariant : Abstract → Prop)
    (agrees : ∀ state label, invariant state → requires (represent state) label →
      step (represent state) label = (abstractStep state label).map represent)
    (preserved : ∀ state label next, invariant state → requires (represent state) label →
      abstractStep state label = some next → invariant next)
    (state : Abstract) (labels : List Label) (holds : invariant state)
    (required : Every step requires (represent state) labels)
    (every : Every abstractStep (fun state label => condition (represent state) label) state labels) :
    Every step condition (represent state) labels := by
  induction labels generalizing state with
  | nil => trivial
  | cons label rest ih =>
    refine ⟨every.1, fun next stepped => ?_⟩
    rw [agrees state label holds required.1] at stepped
    obtain ⟨middle, taken, rfl⟩ := Option.map_eq_some_iff.mp stepped
    have later := required.2 (represent middle) (by rw [agrees state label holds required.1, taken]; rfl)
    exact ih middle (preserved state label middle holds required.1 taken) later (every.2 middle taken)

/-- What happens in the abstract run happens in the other one. -/
theorem once_map (represent : Abstract → State) (condition : State → Label → Prop)
    (requires : State → Label → Prop) (invariant : Abstract → Prop)
    (agrees : ∀ state label, invariant state → requires (represent state) label →
      step (represent state) label = (abstractStep state label).map represent)
    (preserved : ∀ state label next, invariant state → requires (represent state) label →
      abstractStep state label = some next → invariant next)
    (state : Abstract) (labels : List Label) (holds : invariant state)
    (every : Every step requires (represent state) labels)
    (once : Once abstractStep (fun state label => condition (represent state) label) state labels) :
    Once step condition (represent state) labels := by
  induction labels generalizing state with
  | nil => exact once
  | cons label rest ih =>
    rcases once with met | ⟨next, stepped, later⟩
    · exact Or.inl met
    · have same : step (represent state) label = some (represent next) := by
        rw [agrees state label holds every.1, stepped]
        rfl
      exact Or.inr ⟨represent next, same, ih next (preserved state label next holds every.1 stepped)
        (every.2 _ same) later⟩

/-- What has occurred in the abstract run has occurred in the other one. -/
theorem occurred_map (represent : Abstract → State) (requires : State → Label → Prop) (invariant : Abstract → Prop)
    (strong : List Label → Abstract → Label → Prop) (weak : List Label → State → Label → Prop)
    (agrees : ∀ state label, invariant state → requires (represent state) label →
      step (represent state) label = (abstractStep state label).map represent)
    (preserved : ∀ state label next, invariant state → requires (represent state) label →
      abstractStep state label = some next → invariant next)
    (start : Abstract) (labels : List Label) (holds : invariant start)
    (every : Every step requires (represent start) labels)
    (implies : ∀ earlier state label, earlier.length < labels.length →
      Every step requires (represent start) earlier → strong earlier state label → weak earlier (represent state) label)
    (occurred : Occurred abstractStep strong start labels) : Occurred step weak (represent start) labels := by
  obtain ⟨earlier, label, later, state, rfl, ran, met⟩ := occurred
  have before := ((every_append step _ _ earlier _).mp every).1
  refine ⟨earlier, label, later, represent state, rfl, ?_, implies earlier state label (by simp) before met⟩
  rw [run_map step abstractStep represent requires invariant agrees preserved start earlier holds before, ran]
  rfl

/-- If each step does what some steps of an abstract system do, then a run does
what they do one after the other. -/
theorem run_refines {Label' : Type x} (abstract : State → Abstract) (emits : State → Label → List Label')
    (abstractStep : Abstract → Label' → Option Abstract)
    (refines : ∀ state label next, step state label = some next →
      run abstractStep (abstract state) (emits state label) = some (abstract next))
    (state final : State) (labels : List Label) (ran : run step state labels = some final) :
    run abstractStep (abstract state) (collect step emits state labels) = some (abstract final) := by
  induction labels generalizing state with
  | nil =>
    obtain rfl := Option.some.inj ran
    rfl
  | cons label rest ih =>
    obtain ⟨next, stepped, later⟩ := (run_cons step state final label rest).mp ran
    rw [collect_cons step emits state next label rest stepped]
    exact (run_append _ _ _ _ _).mpr ⟨abstract next, refines state label next stepped, ih next later⟩

end Runs
