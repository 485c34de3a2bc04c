import Mathlib.Logic.Function.Basic
import TrillianServerless.Shared.Runs

set_option autoImplicit false

namespace Firmware

open Runs

-- Where a goroutine is: before its call, at Lock, behind it, or returned.
inductive Phase
  | idle
  | waiting
  | inside
  | finished
  deriving DecidableEq

inductive Holder
  | getCheckpoint (id : Nat)
  | poll
  deriving DecidableEq

/-- The lock of a witness, with the requests for its checkpoint by number and the store step of Poll. -/
structure WitnessLock where
  holder : Option Holder
  requests : Nat → Phase
  poll : Phase
  stores : Nat

inductive LockEvent
  | request (id : Nat)
  | lock (id : Nat)
  | write (id : Nat)
  | pollStore
  | pollLock
  | pollUnlock
  deriving DecidableEq

namespace WitnessLock

def start : WitnessLock := ⟨none, fun _ => .idle, .idle, 0⟩

def goto (w : WitnessLock) (id : Nat) (phase : Phase) : WitnessLock :=
  { w with requests := Function.update w.requests id phase }

-- getCheckpoint returns with the lock; Poll unlocks after its store, also when that fails.
def step (w : WitnessLock) : LockEvent → Option WitnessLock
  | .request id => if w.requests id = .idle then some (w.goto id .waiting) else none
  | .lock id =>
    if w.requests id = .waiting ∧ w.holder = none then
      some { w.goto id .inside with holder := some (.getCheckpoint id) }
    else none
  | .write id => if w.requests id = .inside then some (w.goto id .finished) else none
  | .pollStore => if w.poll = .idle then some { w with poll := .waiting } else none
  | .pollLock =>
    if w.poll = .waiting ∧ w.holder = none then some { w with poll := .inside, holder := some .poll } else none
  | .pollUnlock =>
    if w.poll = .inside then some { w with poll := .idle, holder := none, stores := w.stores + 1 } else none

def run (events : List LockEvent) (w : WitnessLock) : Option WitnessLock := exec step events w

-- Nothing is in progress.
def Quiet (w : WitnessLock) : Prop := (∀ id, w.requests id = .idle ∨ w.requests id = .finished) ∧ w.poll = .idle

/-- The lock is held by a goroutine that is behind its critical section. -/
def Abandoned (w : WitnessLock) : Prop :=
  (∃ id, w.holder = some (.getCheckpoint id) ∧ w.requests id = .finished) ∨ w.holder = some .poll ∧ w.poll ≠ .inside

def Completes (w : WitnessLock) : Prop :=
  (∀ id, w.requests id = .idle → ∃ more w', w.run more = some w' ∧ w'.requests id = .finished) ∧
    ∃ more w', w.run more = some w' ∧ w.stores < w'.stores

-- Who has the lock, and which requests there were.
structure Ok (events : List LockEvent) (w : WitnessLock) : Prop where
  holder : ∀ id, w.holder = some (.getCheckpoint id) ↔ w.requests id = .inside ∨ w.requests id = .finished
  poll : w.holder = some .poll ↔ w.poll = .inside
  idle : ∀ id, w.requests id = .idle ↔ .request id ∉ events
  finished : ∀ id, w.requests id = .finished ↔ .write id ∈ events

end WitnessLock

section Lock

variable {w w' : WitnessLock} {events : List LockEvent}

theorem start_ok : WitnessLock.start.Ok [] := by
  constructor <;> simp [WitnessLock.start]

-- What a step finds and what it leaves.
theorem step_cases {e : LockEvent} (stepped : w.step e = some w') :
    (∃ id, e = .request id ∧ w.requests id = .idle ∧ w' = w.goto id .waiting) ∨
    (∃ id, e = .lock id ∧ w.requests id = .waiting ∧ w.holder = none ∧
      w' = { w.goto id .inside with holder := some (.getCheckpoint id) }) ∨
    (∃ id, e = .write id ∧ w.requests id = .inside ∧ w' = w.goto id .finished) ∨
    (e = .pollStore ∧ w.poll = .idle ∧ w' = { w with poll := .waiting }) ∨
    (e = .pollLock ∧ w.holder = none ∧ w' = { w with poll := .inside, holder := some .poll }) ∨
    (e = .pollUnlock ∧ w.poll = .inside ∧ w' = { w with poll := .idle, holder := none, stores := w.stores + 1 }) := by
  cases e with
  | request id =>
    obtain ⟨idle, same⟩ := Option.ite_none_right_eq_some.mp stepped
    exact .inl ⟨id, rfl, idle, (Option.some.inj same).symm⟩
  | lock id =>
    obtain ⟨free, same⟩ := Option.ite_none_right_eq_some.mp stepped
    exact .inr (.inl ⟨id, rfl, free.1, free.2, (Option.some.inj same).symm⟩)
  | write id =>
    obtain ⟨inside, same⟩ := Option.ite_none_right_eq_some.mp stepped
    exact .inr (.inr (.inl ⟨id, rfl, inside, (Option.some.inj same).symm⟩))
  | pollStore =>
    obtain ⟨idle, same⟩ := Option.ite_none_right_eq_some.mp stepped
    exact .inr (.inr (.inr (.inl ⟨rfl, idle, (Option.some.inj same).symm⟩)))
  | pollLock =>
    obtain ⟨free, same⟩ := Option.ite_none_right_eq_some.mp stepped
    exact .inr (.inr (.inr (.inr (.inl ⟨rfl, free.2, (Option.some.inj same).symm⟩))))
  | pollUnlock =>
    obtain ⟨inside, same⟩ := Option.ite_none_right_eq_some.mp stepped
    exact .inr (.inr (.inr (.inr (.inr ⟨rfl, inside, (Option.some.inj same).symm⟩))))

theorem goto_requests (id other : Nat) (phase : Phase) :
    (w.goto id phase).requests other = if other = id then phase else w.requests other := by
  simp [WitnessLock.goto, Function.update_apply]

-- One request goes on, with or without the lock, and the others stay where they are.
theorem WitnessLock.Ok.goto (ok : w.Ok events) {id : Nat} {phase : Phase} {e : LockEvent} {holder : Option Holder}
    (others : ∀ k ≠ id, (holder = some (.getCheckpoint k) ↔ w.holder = some (.getCheckpoint k)) ∧
      e ≠ .request k ∧ e ≠ .write k)
    (own : holder = some (.getCheckpoint id) ↔ phase = .inside ∨ phase = .finished)
    (poll : holder = some .poll ↔ w.holder = some .poll)
    (idle : phase = .idle ↔ .request id ∉ events ++ [e]) (finished : phase = .finished ↔ .write id ∈ events ++ [e]) :
    WitnessLock.Ok (events ++ [e]) { w.goto id phase with holder := holder } := by
  refine ⟨fun k => ?_, poll.trans ok.poll, fun k => ?_, fun k => ?_⟩
  · rw [goto_requests]
    by_cases here : k = id
    · simpa [here] using own
    · simp [here, (others k here).1, ok.holder]
  · rw [goto_requests]
    by_cases here : k = id
    · simpa [here] using idle
    · simp [here, ok.idle, (others k here).2.1.symm]
  · rw [goto_requests]
    by_cases here : k = id
    · simpa [here] using finished
    · simp [here, ok.finished, (others k here).2.2.symm]

theorem step_ok {e : LockEvent} (ok : w.Ok events) (stepped : w.step e = some w') : w'.Ok (events ++ [e]) := by
  rcases step_cases stepped with ⟨id, rfl, idle, rfl⟩ | ⟨id, rfl, waiting, free, rfl⟩ | ⟨id, rfl, inside, rfl⟩ |
    ⟨rfl, idle, rfl⟩ | ⟨rfl, free, rfl⟩ | ⟨rfl, inside, rfl⟩
  · apply ok.goto
    · intro k other
      simp [other.symm]
    · simp [ok.holder, idle]
    · rfl
    · simp
    · simp [← ok.finished, idle]
  · apply ok.goto
    · intro k other
      simp [other.symm, free]
    · simp
    · simp [free]
    · simp [← ok.idle, waiting]
    · simp [← ok.finished, waiting]
  · apply ok.goto
    · intro k other
      simp [other.symm]
    · simp [ok.holder, inside]
    · rfl
    · simp [← ok.idle, inside]
    · simp
  · refine ⟨ok.holder, ?_, fun id => by simp [ok.idle], fun id => by simp [ok.finished]⟩
    simp [ok.poll, idle]
  · refine ⟨fun id => ?_, by simp, fun id => by simp [ok.idle], fun id => by simp [ok.finished]⟩
    rw [← ok.holder, free]
    simp
  · refine ⟨fun id => ?_, by simp, fun id => by simp [ok.idle], fun id => by simp [ok.finished]⟩
    rw [← ok.holder, ok.poll.mpr inside]
    simp

theorem run_ok {more : List LockEvent} (ok : w.Ok events) (ran : w.run more = some w') : w'.Ok (events ++ more) := by
  induction more generalizing w events with
  | nil =>
    cases ran
    rwa [List.append_nil]
  | cons e rest ih =>
    obtain ⟨next, stepped, rested⟩ := exec_cons.mp ran
    have later := ih (step_ok ok stepped) rested
    rwa [List.append_assoc] at later

/-- A request that has the lock keeps it, and nothing is stored any more. -/
theorem held_forever {id : Nat} {more : List LockEvent} (ok : w.Ok events)
    (held : w.holder = some (.getCheckpoint id)) (ran : w.run more = some w') : w'.stores = w.stores := by
  have still := exec_keeps (fun now : WitnessLock =>
    now.holder = some (.getCheckpoint id) ∧ (now.holder = some .poll ↔ now.poll = .inside) ∧ now.stores = w.stores)
    ran ⟨held, ok.poll, rfl⟩ (by
      rintro now e next - stepped ⟨held, poll, stores⟩
      have outside : now.poll ≠ .inside := fun inside => by
        rw [← poll, held] at inside
        cases inside
      rcases step_cases stepped with ⟨_, -, -, rfl⟩ | ⟨_, -, -, free, -⟩ | ⟨_, -, -, rfl⟩ | ⟨-, -, rfl⟩ |
        ⟨-, free, -⟩ |
        ⟨-, inside, -⟩
      · exact ⟨held, poll, stores⟩
      · cases held.symm.trans free
      · exact ⟨held, poll, stores⟩
      · exact ⟨held, by simp [held], stores⟩
      · cases held.symm.trans free
      · exact absurd inside outside)
  exact still.2.2

-- With the lock free a request and a store step go through.
theorem free_completes (free : w.holder = none) (idle : w.poll = .idle) : w.Completes := by
  constructor
  · intro id fresh
    refine ⟨[.request id, .lock id, .write id], _, exec_cons.mpr ⟨_, if_pos fresh, exec_cons.mpr ⟨_, if_pos ?_,
      exec_cons.mpr ⟨_, if_pos ?_, rfl⟩⟩⟩, ?_⟩
    · exact ⟨Function.update_self _ _ _, free⟩
    · exact Function.update_self _ _ _
    · exact Function.update_self _ _ _
  · exact ⟨[.pollStore, .pollLock, .pollUnlock], _, exec_cons.mpr ⟨_, if_pos idle,
      exec_cons.mpr ⟨_, if_pos ⟨rfl, free⟩, exec_cons.mpr ⟨_, rfl, rfl⟩⟩⟩, Nat.lt_succ_self _⟩

/-- The lock is left behind exactly when a request was served, and with nothing in progress all can go on exactly
when there was no request. -/
theorem witness_lock_iff (events : List LockEvent) (w : WitnessLock) (ran : WitnessLock.start.run events = some w) :
    (¬ w.Abandoned ↔ ∀ id, .write id ∉ events) ∧
      (w.Quiet → (w.Completes ↔ ∀ id, .request id ∉ events)) := by
  have ok := run_ok start_ok ran
  rw [List.nil_append] at ok
  constructor
  · constructor
    · intro kept id written
      have finished := (ok.finished id).mpr written
      exact kept (.inl ⟨id, (ok.holder id).mpr (.inr finished), finished⟩)
    · rintro unwritten (⟨id, -, finished⟩ | ⟨held, outside⟩)
      · exact unwritten id ((ok.finished id).mp finished)
      · exact outside (ok.poll.mp held)
  · intro quiet
    constructor
    · rintro ⟨-, more, later, stored, grown⟩ id requested
      have finished := (quiet.1 id).resolve_left fun idle => (ok.idle id).mp idle requested
      have same := held_forever ok ((ok.holder id).mpr (.inr finished)) stored
      omega
    · intro unasked
      refine free_completes ?_ quiet.2
      cases held : w.holder with
      | none => rfl
      | some holder =>
        cases holder with
        | getCheckpoint id =>
          rcases (ok.holder id).mp held with inside | finished
          · rw [(ok.idle id).mpr (unasked id)] at inside
            cases inside
          · rw [(ok.idle id).mpr (unasked id)] at finished
            cases finished
        | poll =>
          have inside := ok.poll.mp held
          rw [quiet.2] at inside
          cases inside

theorem witness_lock_iff_stored :
    ∃ w, WitnessLock.start.run [.pollStore, .pollLock, .pollUnlock] = some w ∧ ¬ w.Abandoned ∧ w.Completes := by
  refine ⟨⟨none, fun _ => .idle, .idle, 1⟩, rfl, ?_⟩
  have both := witness_lock_iff [.pollStore, .pollLock, .pollUnlock] ⟨none, fun _ => .idle, .idle, 1⟩ rfl
  exact ⟨both.1.mpr (by simp), (both.2 ⟨fun _ => .inl rfl, rfl⟩).mpr (by simp)⟩

/-- After the first request nothing is in progress and nothing can be stored. -/
theorem witness_locked_out :
    ∃ w, WitnessLock.start.run [.request 0, .lock 0, .write 0] = some w ∧ w.Quiet ∧ w.Abandoned ∧ ¬ w.Completes := by
  have ran : WitnessLock.start.run [.request 0, .lock 0, .write 0] =
      some { ((WitnessLock.start.goto 0 .waiting).goto 0 .inside).goto 0 .finished with
        holder := some (.getCheckpoint 0) } := rfl
  have ok := run_ok start_ok ran
  refine ⟨_, ran, ⟨fun id => ?_, rfl⟩, .inl ⟨0, rfl, rfl⟩, ?_⟩
  · by_cases first : id = 0
    · exact .inr (by simp [WitnessLock.goto, first])
    · exact .inl (by simp [WitnessLock.goto, first, WitnessLock.start])
  · rintro ⟨-, more, later, stored, grown⟩
    have same := held_forever ok rfl stored
    omega

end Lock

end Firmware
