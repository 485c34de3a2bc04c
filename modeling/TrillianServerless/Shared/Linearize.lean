import Mathlib.Data.List.Nodup
import Mathlib.Data.Nat.Init

set_option autoImplicit false

namespace Linearize

/-- How far a call has got, as its caller sees it. -/
inductive Phase (Request Answer : Type) where
  | idle
  | pending (r : Request)
  | returned (r : Request) (a : Answer)
  deriving DecidableEq

/-- A call that has taken effect, and the answer that goes with it. -/
structure Effect (Request Answer : Type) where
  id : Nat
  request : Request
  answer : Answer

-- A run of concurrent calls on a shared state, moment by moment.
structure Run (State Request Answer : Type) where
  shared : Nat → State
  phase : Nat → Nat → Phase Request Answer

variable {State Request Answer : Type}

section Linearizable

variable (Serves : State → Request → Answer → State → Prop)

/-- Calls that are served one after the other. -/
inductive Sequential (start : State) : List (Effect Request Answer) → State → Prop
  | nil : Sequential start [] start
  | snoc {done : List (Effect Request Answer)} {s s' : State} {e : Effect Request Answer} :
      Sequential start done s → Serves s e.request e.answer s' → Sequential start (done ++ [e]) s'

/-- The calls that have taken effect by moment `n` in an order in which they could have been made one after the other:
each that has returned, and is not excused, has the answer that it got, and a call that returned before another one was
made comes before it. -/
structure Linearization (run : Run State Request Answer) (Excused : Nat → Nat → Prop) (n : Nat)
    (history : List (Effect Request Answer)) : Prop where
  sequential : Sequential Serves (run.shared 0) history (run.shared n)
  once : (history.map Effect.id).Nodup
  made : ∀ e ∈ history, run.phase n e.id = .pending e.request ∨ ∃ a, run.phase n e.id = .returned e.request a
  answers : ∀ id r a, run.phase n id = .returned r a → Excused n id ∨ ⟨id, r, a⟩ ∈ history
  order : ∀ e ∈ history, ∀ e' ∈ history, ∀ m ≤ n, (∃ r a, run.phase m e.id = .returned r a) →
    run.phase m e'.id = .idle → [e, e'].Sublist history

def Linearizable (run : Run State Request Answer) (Excused : Nat → Nat → Prop) : Prop :=
  ∀ n, ∃ history, Linearization Serves run Excused n history

end Linearizable

/-- Moments at which calls take effect; a call that is `past` its own does so no more. -/
structure Points (Serves : State → Request → Answer → State → Prop) (run : Run State Request Answer)
    (Excused past : Nat → Nat → Prop) (point : Nat → Option (Effect Request Answer)) : Prop where
  rests : ∀ j, point j = none → run.shared (j + 1) = run.shared j
  acts : ∀ j e, point j = some e → Serves (run.shared j) e.request e.answer (run.shared (j + 1))
  pending : ∀ j e, point j = some e → run.phase j e.id = .pending e.request
  fresh : ∀ j e, point j = some e → ¬ past j e.id ∧ past (j + 1) e.id
  past_next : ∀ j id, past j id → past (j + 1) id
  answers : ∀ n id r a, run.phase n id = .returned r a → Excused n id ∨ ∃ j < n, point j = some ⟨id, r, a⟩
  pending_next : ∀ j id r, run.phase j id = .pending r →
    run.phase (j + 1) id = .pending r ∨ ∃ a, run.phase (j + 1) id = .returned r a
  returned_next : ∀ j id r a, run.phase j id = .returned r a → run.phase (j + 1) id = .returned r a

namespace Points

variable {Serves : State → Request → Answer → State → Prop} {run : Run State Request Answer}
  {Excused past : Nat → Nat → Prop} {point : Nat → Option (Effect Request Answer)}

def history (point : Nat → Option (Effect Request Answer)) (n : Nat) : List (Effect Request Answer) :=
  (List.range n).filterMap point

theorem history_succ (n : Nat) : history point (n + 1) = history point n ++ (point n).toList := by
  unfold history
  rw [List.range_succ, List.filterMap_append]
  cases found : point n with
  | none => simp [found]
  | some e => simp [found]

theorem mem_history {n : Nat} {e : Effect Request Answer} : e ∈ history point n ↔ ∃ j < n, point j = some e := by
  simp [history]

variable (points : Points Serves run Excused past point)
include points

theorem step (j : Nat) : run.shared (j + 1) = run.shared j ∨
    ∃ r a, Serves (run.shared j) r a (run.shared (j + 1)) := by
  cases found : point j with
  | none => exact .inl (points.rests j found)
  | some e => exact .inr ⟨e.request, e.answer, points.acts j e found⟩

theorem returned_later {m n id : Nat} {r : Request} {a : Answer} (order : m ≤ n)
    (returned : run.phase m id = .returned r a) : run.phase n id = .returned r a := by
  induction n, order using Nat.le_induction with
  | base => exact returned
  | succ n _ ih => exact points.returned_next n id r a ih

theorem pending_later {m n id : Nat} {r : Request} (order : m ≤ n) (pending : run.phase m id = .pending r) :
    run.phase n id = .pending r ∨ ∃ a, run.phase n id = .returned r a := by
  induction n, order using Nat.le_induction with
  | base => exact .inl pending
  | succ n _ ih =>
    rcases ih with still | ⟨a, returned⟩
    · exact points.pending_next n id r still
    · exact .inr ⟨a, points.returned_next n id r a returned⟩

theorem past_later {m n id : Nat} (order : m ≤ n) (gone : past m id) : past n id := by
  induction n, order using Nat.le_induction with
  | base => exact gone
  | succ n _ ih => exact points.past_next n id ih

theorem not_again {j k : Nat} {e e' : Effect Request Answer} (first : point j = some e) (later : j < k)
    (second : point k = some e') : e.id ≠ e'.id := by
  intro same
  have gone := points.past_later later (points.fresh j e first).2
  rw [same] at gone
  exact (points.fresh k e' second).1 gone

theorem history_sequential (n : Nat) : Sequential Serves (run.shared 0) (history point n) (run.shared n) := by
  induction n with
  | zero => exact .nil
  | succ n ih =>
    rw [history_succ]
    cases found : point n with
    | none =>
      rw [points.rests n found, Option.toList_none, List.append_nil]
      exact ih
    | some e => exact .snoc ih (points.acts n e found)

theorem history_once (n : Nat) : ((history point n).map Effect.id).Nodup := by
  induction n with
  | zero => exact List.nodup_nil
  | succ n ih =>
    rw [history_succ]
    cases found : point n with
    | none => simpa using ih
    | some e =>
      rw [Option.toList_some, List.map_append, List.map_singleton, List.nodup_append]
      refine ⟨ih, List.nodup_singleton _, fun id before id' last same => ?_⟩
      obtain ⟨e', member, rfl⟩ := List.mem_map.mp before
      obtain ⟨j, earlier, first⟩ := mem_history.mp member
      exact points.not_again first earlier found (same.trans (List.mem_singleton.mp last))

omit points in
theorem history_order {n j k : Nat} {e e' : Effect Request Answer} (first : point j = some e) (later : j < k)
    (second : point k = some e') (before : k < n) : [e, e'].Sublist (history point n) := by
  induction n, before using Nat.le_induction with
  | base =>
    rw [history_succ, second]
    exact (List.singleton_sublist.mpr (mem_history.mpr ⟨j, later, first⟩)).append (.refl [e'])
  | succ n _ ih =>
    rw [history_succ]
    exact ih.trans (List.sublist_append_left _ _)

/-- Where calls take effect at moments of their own, the run is linearizable. -/
theorem linearizable : Linearizable Serves run Excused := by
  intro n
  refine ⟨history point n, points.history_sequential n, points.history_once n, fun e member => ?_,
    fun id r a returned => ?_, fun e member e' member' m _ => ?_⟩
  · obtain ⟨j, before, found⟩ := mem_history.mp member
    exact points.pending_later (Nat.le_of_lt before) (points.pending j e found)
  · exact (points.answers n id r a returned).imp_right mem_history.mpr
  · rintro ⟨r, a, returned⟩ idle
    obtain ⟨j, before, found⟩ := mem_history.mp member
    obtain ⟨k, before', found'⟩ := mem_history.mp member'
    -- The first call was pending at `j` and the second one at `k`, with moment `m` between them.
    have first : j < m := by
      by_contra late
      have still := points.returned_later (Nat.le_of_not_lt late) returned
      rw [points.pending j e found] at still
      cases still
    have second : m < k := by
      by_contra early
      rcases points.pending_later (Nat.le_of_not_lt early) (points.pending k e' found') with still | ⟨a, still⟩
      · cases idle.symm.trans still
      · cases idle.symm.trans still
    exact history_order found (Nat.lt_trans first second) found' before'

end Points

end Linearize
