import Mathlib.Logic.Relation
import Mathlib.Order.WellFounded

set_option autoImplicit false

namespace Runs

variable {State Event : Type}

-- What is reached by steps whose events are allowed.
inductive Reaches (Step : State → Event → State → Prop) (Allowed : Event → Prop) (start : State) : State → Prop
  | refl : Reaches Step Allowed start start
  | step {s s' : State} {e : Event} :
      Reaches Step Allowed start s → Allowed e → Step s e s' → Reaches Step Allowed start s'

def Stuck (Step : State → Event → State → Prop) (Allowed : Event → Prop) (s : State) : Prop :=
  ∀ e s', Allowed e → ¬ Step s e s'

variable {Step : State → Event → State → Prop} {Allowed : Event → Prop} {start s : State}

theorem Reaches.keeps (Inv : State → Prop) (reached : Reaches Step Allowed start s) (init : Inv start)
    (step : ∀ {s e s'}, Allowed e → Step s e s' → Inv s → Inv s') : Inv s := by
  induction reached with
  | refl => exact init
  | step _ allowed taken ih => exact step allowed taken ih

theorem Reaches.mono {Other : Event → Prop} (reached : Reaches Step Allowed start s)
    (weaker : ∀ e, Allowed e → Other e) : Reaches Step Other start s := by
  induction reached with
  | refl => exact .refl
  | step _ allowed taken ih => exact .step ih (weaker _ allowed) taken

theorem Reaches.trans {middle : State} (first : Reaches Step Allowed start middle)
    (second : Reaches Step Allowed middle s) : Reaches Step Allowed start s := by
  induction second with
  | refl => exact first
  | step _ allowed taken ih => exact .step ih allowed taken

/-- A measure that every step from a good state lowers leaves no endless run. -/
theorem no_endless_run {M : Type} {less : M → M → Prop} (wf : WellFounded less) (Inv : State → Prop)
    (measure : State → M)
    (lower : ∀ {s e s'}, Allowed e → Step s e s' → Inv s → Inv s' ∧ less (measure s') (measure s))
    (run : Nat → State) (init : Inv (run 0)) : ¬ ∀ n, ∃ e, Allowed e ∧ Step (run n) e (run (n + 1)) := by
  intro endless
  have good : ∀ n, Inv (run n) := by
    intro n
    induction n with
    | zero => exact init
    | succ n ih =>
      obtain ⟨e, allowed, taken⟩ := endless n
      exact (lower allowed taken ih).1
  have falls : ∀ n, less (measure (run (n + 1))) (measure (run n)) := by
    intro n
    obtain ⟨e, allowed, taken⟩ := endless n
    exact (lower allowed taken (good n)).2
  have never : ∀ m n, measure (run n) = m → False := by
    intro m
    induction m using wf.induction with
    | _ m ih =>
      rintro n rfl
      exact ih _ (falls n) (n + 1) rfl
  exact never _ 0 rfl

/-- and every run can be continued until nothing is possible any more. -/
theorem exists_stuck {M : Type} {less : M → M → Prop} (wf : WellFounded less) (Inv : State → Prop)
    (measure : State → M)
    (lower : ∀ {s e s'}, Allowed e → Step s e s' → Inv s → Inv s' ∧ less (measure s') (measure s))
    (s : State) (init : Inv s) : ∃ s', Reaches Step Allowed s s' ∧ Stuck Step Allowed s' ∧ Inv s' := by
  have rests : ∀ m s, measure s = m → Inv s → ∃ s', Reaches Step Allowed s s' ∧ Stuck Step Allowed s' ∧ Inv s' := by
    intro m
    induction m using wf.induction with
    | _ m ih =>
      rintro s rfl good
      by_cases stuck : Stuck Step Allowed s
      · exact ⟨s, .refl, stuck, good⟩
      · simp only [Stuck, not_forall, not_not] at stuck
        obtain ⟨e, next, allowed, taken⟩ := stuck
        obtain ⟨good', falls⟩ := lower allowed taken good
        obtain ⟨last, reached, rest⟩ := ih _ falls next rfl good'
        exact ⟨last, (Reaches.step .refl allowed taken).trans reached, rest⟩
  exact rests _ s rfl init

section Traces

variable {step : State → Event → Option State} {s s' : State}

-- The state after a list of events, each of which has to be possible.
def exec (step : State → Event → Option State) (events : List Event) (s : State) : Option State :=
  events.foldlM step s

theorem exec_cons {e : Event} {rest : List Event} :
    exec step (e :: rest) s = some s' ↔ ∃ next, step s e = some next ∧ exec step rest next = some s' :=
  Option.bind_eq_some_iff

theorem exec_append {events more : List Event} :
    exec step (events ++ more) s = some s' ↔ ∃ mid, exec step events s = some mid ∧ exec step more mid = some s' := by
  unfold exec
  rw [List.foldlM_append]
  exact Option.bind_eq_some_iff

theorem exec_keeps (Inv : State → Prop) {events : List Event} (ran : exec step events s = some s') (init : Inv s)
    (keeps : ∀ {s e s'}, e ∈ events → step s e = some s' → Inv s → Inv s') : Inv s' := by
  induction events generalizing s with
  | nil =>
    cases ran
    exact init
  | cons e rest ih =>
    obtain ⟨next, stepped, rested⟩ := exec_cons.mp ran
    exact ih rested (keeps (by simp) stepped init) fun member => keeps (by simp [member])

end Traces

section Always

variable {step : State → Event → State} {Good : State → Prop} {Fits : State → Event → Prop} {s : State}

/-- What holds after each part of a run, however far it has got. -/
def Always (step : State → Event → State) (Good : State → Prop) (s : State) (events : List Event) : Prop :=
  ∀ done rest, events = done ++ rest → Good (done.foldl step s)

/-- What each event of a run meets in the state that it finds. -/
def Each (step : State → Event → State) (Fits : State → Event → Prop) (s : State) (events : List Event) : Prop :=
  ∀ done e rest, events = done ++ e :: rest → Fits (done.foldl step s) e

theorem always_nil : Always step Good s [] ↔ Good s := by
  constructor
  · intro always
    exact always [] [] rfl
  · intro here done rest split
    obtain ⟨rfl, rfl⟩ := List.append_eq_nil_iff.mp split.symm
    exact here

theorem always_cons {e : Event} {events : List Event} :
    Always step Good s (e :: events) ↔ Good s ∧ Always step Good (step s e) events := by
  constructor
  · intro always
    exact ⟨always [] (e :: events) rfl, fun done rest split => always (e :: done) rest (by rw [split]; rfl)⟩
  · rintro ⟨here, later⟩ done rest split
    cases done with
    | nil => exact here
    | cons first done =>
      obtain ⟨rfl, tail⟩ := List.cons.inj split
      exact later done rest tail

theorem each_cons {e : Event} {events : List Event} :
    Each step Fits s (e :: events) ↔ Fits s e ∧ Each step Fits (step s e) events := by
  constructor
  · intro each
    exact ⟨each [] e events rfl, fun done next rest split => each (e :: done) next rest (by rw [split]; rfl)⟩
  · rintro ⟨here, later⟩ done next rest split
    cases done with
    | nil =>
      obtain ⟨rfl, rfl⟩ := List.cons.inj split
      exact here
    | cons first done =>
      obtain ⟨rfl, tail⟩ := List.cons.inj split
      exact later done next rest tail

theorem each_nil : Each step Fits s [] := fun done _ _ split => absurd split (by simp)

/-- Where a step from a good state leads to a good one exactly when its event fits, a run stays good exactly when
all of its events fit. -/
theorem always_iff_each (Inv : State → Prop) (keeps : ∀ {s} e, Inv s → Inv (step s e))
    (exact' : ∀ {s} e, Inv s → Good s → (Good (step s e) ↔ Fits s e)) {events : List Event} (inv : Inv s)
    (good : Good s) : Always step Good s events ↔ Each step Fits s events := by
  induction events generalizing s with
  | nil => exact iff_of_true (always_nil.mpr good) each_nil
  | cons e rest ih =>
    rw [always_cons, each_cons]
    constructor
    · rintro ⟨_, later⟩
      have next : Good (step s e) := later [] rest rfl
      exact ⟨(exact' e inv good).mp next, (ih (keeps e inv) next).mp later⟩
    · rintro ⟨fits, later⟩
      exact ⟨good, (ih (keeps e inv) ((exact' e inv good).mpr fits)).mpr later⟩

end Always

end Runs
