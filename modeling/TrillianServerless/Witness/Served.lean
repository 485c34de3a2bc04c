import TrillianServerless.Shared.Linearize
import TrillianServerless.Witness.Safety

set_option autoImplicit false

namespace WitnessServer

open Go Merkle Checkpoints Linearize
open SignedNote (Note Verifier Signer)

section Update

variable (w : Witness)

/-- Update on the stored state, all at once. -/
def serveUpdate (store : Store) (call : Call) : Store × Reply :=
  match w.logs call.logID with
  | none => (store, none, some ⟨.notFound, "log %q not found"⟩)
  | some info =>
    match parse w call.nextRaw call.logID with
    | .error _ => (store, none, some ⟨.invalidArgument, "couldn't parse input checkpoint: %v"⟩)
    | .ok (next, nextNote) =>
      match plan w info call next nextNote (store call.logID) with
      | .reply r => (store, r)
      | .set new _ => (Function.update store call.logID (some new), some new.rawChkpt, none)

def ServesUpdate (store : Store) (call : Call) (reply : Reply) (after : Store) : Prop :=
  serveUpdate w store call = (after, reply)

variable {w}

theorem receive_cases (call : Call) :
    (∃ status, receive w call = .finished call (none, some status) ∧
      ∀ store, serveUpdate w store call = (store, none, some status)) ∨
    ∃ info next note, receive w call = .parsed call info next note ∧ w.logs call.logID = some info ∧
      parse w call.nextRaw call.logID = .ok (next, note) := by
  unfold receive
  cases known : w.logs call.logID with
  | none => exact .inl ⟨_, rfl, fun store => by simp only [serveUpdate, known]⟩
  | some info =>
    cases parsed : parse w call.nextRaw call.logID with
    | error => exact .inl ⟨_, rfl, fun store => by simp only [serveUpdate, known, parsed]⟩
    | ok found =>
      obtain ⟨next, note⟩ := found
      exact .inr ⟨info, next, note, rfl, rfl, rfl⟩

variable {info : LogInfo} {call : Call} {next : Checkpoint} {note : Note} {store : Store}
  (known : w.logs call.logID = some info) (parsed : parse w call.nextRaw call.logID = .ok (next, note))
include known parsed

theorem serveUpdate_reply {reply : Reply}
    (planned : plan w info call next note (store call.logID) = .reply reply) :
    serveUpdate w store call = (store, reply) := by
  unfold serveUpdate
  simp only [known, parsed, planned]

theorem serveUpdate_set {new : CheckpointState} {message : String}
    (planned : plan w info call next note (store call.logID) = .set new message) :
    serveUpdate w store call = (Function.update store call.logID (some new), some new.rawChkpt, none) := by
  unfold serveUpdate
  simp only [known, parsed, planned]

end Update

section Append

variable {w : Witness}

/-- What is stored for a log is kept, or is replaced by what was checked against it. -/
theorem serveUpdate_accepted {store after : Store} {call : Call} {reply : Reply}
    (served : serveUpdate w store call = (after, reply)) {logID : String} {old : CheckpointState}
    (stored : store logID = some old) :
    ∃ new, after logID = some new ∧ (new = old ∨ Accepted w logID old new) := by
  rcases @receive_cases w call with ⟨_, -, same⟩ | ⟨info, next, note, -, known, parsed⟩
  · obtain ⟨rfl, -⟩ := Prod.mk.inj ((same store).symm.trans served)
    exact ⟨old, stored, .inl rfl⟩
  cases planned : plan w info call next note (store call.logID) with
  | reply r =>
    obtain ⟨rfl, -⟩ := Prod.mk.inj ((serveUpdate_reply known parsed planned).symm.trans served)
    exact ⟨old, stored, .inl rfl⟩
  | set new message =>
    obtain ⟨rfl, -⟩ := Prod.mk.inj ((serveUpdate_set known parsed planned).symm.trans served)
    by_cases log : logID = call.logID
    · subst log
      rw [stored] at planned
      exact ⟨new, Function.update_self .., .inr (plan_set_accepted known parsed planned)⟩
    · exact ⟨old, by rw [Function.update_of_ne log, stored], .inl rfl⟩

theorem replaceStored_body {info : LogInfo} {call : Call} {next : Checkpoint} {note : Note}
    {stored : CheckpointState} {raw : Bytes} {err : Option Status}
    (planned : replaceStored w info call next note stored = .reply (some raw, err)) : raw = stored.rawChkpt := by
  have body {status : Option Status} (same : Plan.reply (some stored.rawChkpt, status) = .reply (some raw, err)) :
      raw = stored.rawChkpt := (Option.some.inj (Prod.mk.inj (Plan.reply.inj same)).1).symm
  unfold replaceStored at planned
  split at planned
  · simp at planned
  split at planned
  · simp at planned
  split at planned
  · exact body planned
  split at planned
  · split at planned <;> exact body planned
  split at planned
  · exact body planned
  · split at planned <;> simp at planned

theorem firstUse_body {info : LogInfo} {call : Call} {next : Checkpoint} {note : Note} {raw : Bytes}
    {err : Option Status} : firstUse w info call next note ≠ .reply (some raw, err) := by
  intro planned
  unfold firstUse at planned
  split at planned
  · simp at planned
  · split at planned <;> simp at planned

-- A checkpoint that Update returns, with or without an error, is then stored.
theorem serveUpdate_body {store after : Store} {call : Call} {raw : Bytes} {err : Option Status}
    (served : serveUpdate w store call = (after, some raw, err)) :
    ∃ value, after call.logID = some value ∧ value.rawChkpt = raw := by
  rcases @receive_cases w call with ⟨_, -, same⟩ | ⟨info, next, note, -, known, parsed⟩
  · cases (Prod.mk.inj ((same store).symm.trans served)).2
  cases planned : plan w info call next note (store call.logID) with
  | reply r =>
    obtain ⟨rfl, rfl⟩ := Prod.mk.inj ((serveUpdate_reply known parsed planned).symm.trans served)
    cases stored : store call.logID with
    | none =>
      rw [stored] at planned
      exact absurd planned firstUse_body
    | some value =>
      rw [stored] at planned
      exact ⟨value, rfl, (replaceStored_body planned).symm⟩
  | set new message =>
    obtain ⟨rfl, answer⟩ := Prod.mk.inj ((serveUpdate_set known parsed planned).symm.trans served)
    exact ⟨new, Function.update_self .., Option.some.inj (Prod.mk.inj answer).1⟩

/-- What is stored after an update was stored before it, or is what the witness has signed. -/
theorem serveUpdate_cosigned {store after : Store} {call : Call} {reply : Reply}
    (served : serveUpdate w store call = (after, reply)) {logID : String} {value : CheckpointState}
    (stored : after logID = some value) : store logID = some value ∨ ∃ cp, Cosigned w logID cp value.rawChkpt := by
  rcases @receive_cases w call with ⟨_, -, same⟩ | ⟨info, next, note, -, known, parsed⟩
  · obtain ⟨rfl, -⟩ := Prod.mk.inj ((same store).symm.trans served)
    exact .inl stored
  cases planned : plan w info call next note (store call.logID) with
  | reply r =>
    obtain ⟨rfl, -⟩ := Prod.mk.inj ((serveUpdate_reply known parsed planned).symm.trans served)
    exact .inl stored
  | set new message =>
    obtain ⟨rfl, -⟩ := Prod.mk.inj ((serveUpdate_set known parsed planned).symm.trans served)
    by_cases log : logID = call.logID
    · subst log
      rw [Function.update_self] at stored
      obtain rfl := Option.some.inj stored
      exact .inr ⟨next, plan_set_cosigned parsed planned⟩
    · rw [Function.update_of_ne log] at stored
      exact .inl stored

/-- What is stored after any number of updates is what the witness has signed. -/
theorem cosigned_chain {shared : Nat → Store} (empty : ∀ logID, shared 0 logID = none)
    (steps : ∀ n, shared (n + 1) = shared n ∨ ∃ call reply, serveUpdate w (shared n) call = (shared (n + 1), reply))
    {n : Nat} {logID : String} {value : CheckpointState} (stored : shared n logID = some value) :
    ∃ cp, Cosigned w logID cp value.rawChkpt := by
  induction n with
  | zero =>
    rw [empty] at stored
    cases stored
  | succ n ih =>
    rcases steps n with same | ⟨call, reply, served⟩
    · exact ih (by rw [← same]; exact stored)
    · rcases serveUpdate_cosigned served stored with before | signed
      · exact ih before
      · exact signed

/-- What Update returns without an error is of the size and the hash that it was called with. -/
theorem serveUpdate_ok (lawful : SignedNote.Lawful w.notes) {store after : Store} {call : Call} {body : Option Bytes}
    (served : serveUpdate w store call = (after, body, none)) :
    ∃ raw next nextNote cp, body = some raw ∧ parse w call.nextRaw call.logID = .ok (next, nextNote) ∧
      w.notes.stated raw = some cp ∧ cp.size = next.size ∧ cp.hash = next.hash := by
  rcases @receive_cases w call with ⟨_, -, same⟩ | ⟨info, next, note, -, known, parsed⟩
  · cases (Prod.mk.inj ((same store).symm.trans served)).2
  cases planned : plan w info call next note (store call.logID) with
  | reply r =>
    obtain ⟨-, rfl⟩ := Prod.mk.inj ((serveUpdate_reply known parsed planned).symm.trans served)
    obtain ⟨stored, -, rfl, prev, prevNote, prevParsed, size, hash⟩ := plan_reply planned
    exact ⟨stored.rawChkpt, next, note, prev, rfl, parsed, parse_states lawful prevParsed, size, hash⟩
  | set new message =>
    obtain ⟨-, answer⟩ := Prod.mk.inj ((serveUpdate_set known parsed planned).symm.trans served)
    exact ⟨new.rawChkpt, next, note, next, (Prod.mk.inj answer).1.symm, parsed,
      (plan_set_cosigned parsed planned).states lawful, rfl, rfl⟩

/-- What is stored for a log after any number of updates comes from what was stored, each of them checked against the
one before it. -/
theorem accepted_chain {shared : Nat → Store}
    (steps : ∀ n, shared (n + 1) = shared n ∨ ∃ call reply, serveUpdate w (shared n) call = (shared (n + 1), reply))
    {m n : Nat} (order : m ≤ n) {logID : String} {old : CheckpointState} (stored : shared m logID = some old) :
    ∃ new, shared n logID = some new ∧ Relation.ReflTransGen (Accepted w logID) old new := by
  induction n, order using Nat.le_induction with
  | base => exact ⟨old, stored, .refl⟩
  | succ n _ ih =>
    obtain ⟨middle, held, before⟩ := ih
    rcases steps n with same | ⟨call, reply, served⟩
    · exact ⟨middle, by rw [same, held], before⟩
    · obtain ⟨new, replaced, rfl | accepted⟩ := serveUpdate_accepted served held
      · exact ⟨new, replaced, before⟩
      · exact ⟨new, replaced, before.tail accepted⟩

section States

variable (lawful : SignedNote.Lawful w.notes) {logID : String} {old new : CheckpointState}
  (chain : Relation.ReflTransGen (Accepted w logID) old new)
include lawful chain

theorem accepted_grows : new = old ∨ ∃ prev next, w.notes.stated old.rawChkpt = some prev ∧
    w.notes.stated new.rawChkpt = some next ∧ prev.size < next.size := by
  induction chain with
  | refl => exact .inl rfl
  | tail before last ih =>
    obtain ⟨prev, next, oldStates, newStates, larger⟩ := last.states w lawful
    rcases ih with rfl | ⟨first, second, firstStates, secondStates, grows⟩
    · exact .inr ⟨prev, next, oldStates, newStates, larger⟩
    · obtain rfl := Option.some.inj (secondStates.symm.trans oldStates)
      exact .inr ⟨first, next, firstStates, newStates, Nat.lt_trans grows larger⟩

variable {a b : Checkpoint} (oldStates : w.notes.stated old.rawChkpt = some a)
  (newStates : w.notes.stated new.rawChkpt = some b)
include oldStates newStates

theorem accepted_eq_or_lt : a = b ∨ a.size < b.size := by
  rcases accepted_grows lawful chain with rfl | ⟨prev, next, prevStates, nextStates, larger⟩
  · exact .inl (Option.some.inj (oldStates.symm.trans newStates))
  · obtain rfl := Option.some.inj (oldStates.symm.trans prevStates)
    obtain rfl := Option.some.inj (newStates.symm.trans nextStates)
    exact .inr larger

theorem accepted_agree (sameSize : a.size = b.size) : a.hash = b.hash := by
  rcases accepted_eq_or_lt lawful chain oldStates newStates with rfl | larger
  · rfl
  · omega

end States

end Append

section Memory

variable (w : Witness) (schedule : Nat → Event)

-- Update with the in-memory persistence takes effect where it knows its reply without calling Set, or in Set.
def effectOf (store : Store) : CallState → Option (Call × Reply)
  | .called call =>
    match receive w call with
    | .finished _ reply => some (call, reply)
    | _ => none
  | .parsed call info next note =>
    match plan w info call next note (store call.logID) with
    | .reply r => some (call, r)
    | .set .. => none
  | .storing call read new _ => if store call.logID = read then some (call, some new.rawChkpt, none) else none
  | _ => none

def point (n : Nat) : Option (Effect Call Reply) :=
  match schedule n with
  | .invoke .. => none
  | .advance id =>
    (effectOf w (run w schedule n).store ((run w schedule n).calls id)).map fun found => ⟨id, found.1, found.2⟩

def CallState.Past : CallState → Prop
  | .opened call info next note read => ∃ r, plan w info call next note read = .reply r
  | .finished .. | .returned .. => True
  | _ => False

def CallState.phase : CallState → Phase Call Reply
  | .idle => .idle
  | .called call | .parsed call .. | .opened call .. | .storing call .. | .finished call _ => .pending call
  | .returned call reply => .returned call reply

def memoryRun : Linearize.Run Store Call Reply :=
  ⟨fun n => (run w schedule n).store, fun n id => ((run w schedule n).calls id).phase⟩

/-- The call has got an internal error because another one has stored a checkpoint for its log since it was made. -/
def Overtaken (n id : Nat) : Prop :=
  ∃ call message, (run w schedule n).calls id = .returned call (none, some ⟨.internal, message⟩) ∧
    ∃ k < n, ((run w schedule k).calls id).InProgress ∧ (schedule k).actor ≠ id ∧
      (run w schedule (k + 1)).store call.logID ≠ (run w schedule k).store call.logID

end Memory

section Moves

variable {w : Witness} {store : Store} {state : CallState}

theorem effectOf_none (none : effectOf w store state = none) : (advance w store state).1 = store := by
  cases state with
  | idle | called | parsed | finished | returned => rfl
  | opened call info next note read =>
    simp only [advance]
    split <;> rfl
  | storing call read new message =>
    simp only [effectOf] at none
    split at none
    next => cases none
    next other => simp only [advance, expectAndWrite, if_neg other]

theorem effectOf_some {call : Call} {reply : Reply} (valid : state.Valid w)
    (found : effectOf w store state = some (call, reply)) :
    state.phase = .pending call ∧ serveUpdate w store call = ((advance w store state).1, reply) ∧
      ¬ state.Past w ∧ (advance w store state).2.Past w := by
  cases state with
  | idle | opened | finished | returned => cases found
  | called made =>
    rcases @receive_cases w made with ⟨answer, received, served⟩ | ⟨info, next, note, received, -⟩
    · simp only [effectOf, received] at found
      obtain ⟨rfl, rfl⟩ := Prod.mk.inj (Option.some.inj found)
      refine ⟨rfl, served store, id, ?_⟩
      rw [advance, received]
      trivial
    · simp only [effectOf, received] at found
      cases found
  | parsed made info next note =>
    obtain ⟨known, parsed⟩ := valid
    simp only [effectOf] at found
    split at found
    next r planned =>
      obtain ⟨rfl, rfl⟩ := Prod.mk.inj (Option.some.inj found)
      exact ⟨rfl, serveUpdate_reply known parsed planned, id, r, planned⟩
    next => cases found
  | storing made read new message =>
    obtain ⟨info, next, note, known, parsed, planned⟩ := valid
    simp only [effectOf] at found
    split at found
    next expected =>
      obtain ⟨rfl, rfl⟩ := Prod.mk.inj (Option.some.inj found)
      rw [← expected] at planned
      simp only [advance, expectAndWrite, if_pos expected]
      exact ⟨rfl, serveUpdate_set known parsed planned, id, trivial⟩
    next => cases found

theorem advance_past (past : state.Past w) : (advance w store state).2.Past w := by
  cases state with
  | idle | called | parsed | storing => exact past.elim
  | opened call info next note read =>
    obtain ⟨r, planned⟩ := past
    simp only [advance, planned]
    trivial
  | finished | returned => trivial

theorem advance_pending {call : Call} (pending : state.phase = .pending call) :
    (advance w store state).2.phase = .pending call ∨ ∃ reply, (advance w store state).2.phase = .returned call reply := by
  cases state with
  | idle | returned => cases pending
  | called made =>
    obtain rfl := Phase.pending.inj pending
    rcases @receive_cases w made with ⟨_, received, -⟩ | ⟨_, _, _, received, -⟩
    · rw [advance, received]
      exact .inl rfl
    · rw [advance, received]
      exact .inl rfl
  | parsed => exact .inl pending
  | opened call info next note read =>
    simp only [advance]
    split <;> exact .inl pending
  | storing call read new message =>
    simp only [advance]
    split <;> exact .inl pending
  | finished made reply =>
    obtain rfl := Phase.pending.inj pending
    exact .inr ⟨reply, rfl⟩

theorem CallState.phase_returned {call : Call} {reply : Reply} (returned : state.phase = .returned call reply) :
    state = .returned call reply := by
  cases state with
  | idle | called | parsed | opened | storing | finished => cases returned
  | returned made answer =>
    obtain ⟨rfl, rfl⟩ := Phase.returned.inj returned
    rfl

end Moves

section Told

variable (w : Witness) (schedule : Nat → Event)

theorem returned_next {n id : Nat} {call : Call} {reply : Reply}
    (returned : (run w schedule n).calls id = .returned call reply) :
    (run w schedule (n + 1)).calls id = .returned call reply := by
  rw [run]
  rcases step_calls w (run w schedule n) (schedule n) id with same | ⟨-, -, idle, -⟩ | ⟨-, moved, -⟩
  · rw [same, returned]
  · cases idle.symm.trans returned
  · rw [moved, returned]
    rfl

-- Between two moments at which a call is in progress it is so all the time.
theorem inProgress_between {i k n id : Nat} (after : i ≤ k) (before : k ≤ n)
    (first : ((run w schedule i).calls id).InProgress) (last : ((run w schedule n).calls id).InProgress) :
    ((run w schedule k).calls id).InProgress := by
  cases state : (run w schedule k).calls id with
  | idle =>
    rw [idle_before w schedule after state] at first
    exact first
  | called | parsed | opened | storing | finished => trivial
  | returned call reply =>
    have later : (run w schedule n).calls id = .returned call reply := by
      clear last
      induction n, before using Nat.le_induction with
      | base => exact state
      | succ n _ ih => exact returned_next w schedule ih
    rw [later] at last
    exact last

def Read (n id : Nat) (call : Call) (read : Option CheckpointState) : Prop :=
  ∃ i ≤ n, ((run w schedule i).calls id).InProgress ∧ (run w schedule i).store call.logID = read

def Lost (n id : Nat) (call : Call) (reply : Reply) : Prop :=
  ∃ message, reply = (none, some ⟨.internal, message⟩) ∧ ∃ k < n, ((run w schedule k).calls id).InProgress ∧
    (schedule k).actor ≠ id ∧ (run w schedule (k + 1)).store call.logID ≠ (run w schedule k).store call.logID

/-- What has happened to a call that is in the given state at moment `n`. -/
def Told (n id : Nat) : CallState → Prop
  | .opened call info next note read => Read w schedule n id call read ∧
    ∀ r, plan w info call next note read = .reply r → ∃ j < n, point w schedule j = some ⟨id, call, r⟩
  | .storing call read _ _ => Read w schedule n id call read
  | .finished call reply | .returned call reply =>
    Lost w schedule n id call reply ∨ ∃ j < n, point w schedule j = some ⟨id, call, reply⟩
  | _ => True

variable {w schedule}

theorem Read.succ {n id : Nat} {call : Call} {read : Option CheckpointState} (was : Read w schedule n id call read) :
    Read w schedule (n + 1) id call read := by
  obtain ⟨i, before, rest⟩ := was
  exact ⟨i, by omega, rest⟩

theorem Told.succ {n id : Nat} {state : CallState} (told : Told w schedule n id state) :
    Told w schedule (n + 1) id state := by
  have answered {call : Call} {reply : Reply} (was : Lost w schedule n id call reply ∨
      ∃ j < n, point w schedule j = some ⟨id, call, reply⟩) : Lost w schedule (n + 1) id call reply ∨
      ∃ j < n + 1, point w schedule j = some ⟨id, call, reply⟩ := by
    rcases was with ⟨message, same, k, before, rest⟩ | ⟨j, before, found⟩
    · exact .inl ⟨message, same, k, by omega, rest⟩
    · exact .inr ⟨j, by omega, found⟩
  cases state with
  | idle | called | parsed => trivial
  | opened call info next note read =>
    refine ⟨told.1.succ, fun r planned => ?_⟩
    obtain ⟨j, before, found⟩ := told.2 r planned
    exact ⟨j, by omega, found⟩
  | storing call read new message => exact Read.succ told
  | finished | returned => exact answered told

-- The value that a call has read has been replaced by another call.
theorem Read.lost {n id : Nat} {call : Call} {read : Option CheckpointState} {new : CheckpointState} {message : String}
    (was : Read w schedule n id call read) (state : (run w schedule n).calls id = .storing call read new message)
    (other : (run w schedule n).store call.logID ≠ read) :
    ∃ k < n, ((run w schedule k).calls id).InProgress ∧ (schedule k).actor ≠ id ∧
      (run w schedule (k + 1)).store call.logID ≠ (run w schedule k).store call.logID := by
  obtain ⟨i, before, progress, rfl⟩ := was
  obtain ⟨k, after, inside, changes⟩ : ∃ k, i ≤ k ∧ k < n ∧
      (run w schedule (k + 1)).store call.logID ≠ (run w schedule k).store call.logID := by
    by_contra none
    simp only [not_exists, not_and, not_not] at none
    refine other ?_
    clear other state
    induction n, before using Nat.le_induction with
    | base => rfl
    | succ n order ih =>
      rw [none n order (Nat.lt_succ_self n)]
      exact ih fun k after inside => none k after (by omega)
  have last : ((run w schedule n).calls id).InProgress := by
    rw [state]
    trivial
  refine ⟨k, inside, inProgress_between w schedule after (Nat.le_of_lt inside) progress last, fun acts => ?_, changes⟩
  rcases step_store w schedule k with same | ⟨actor, _, _, _, _, event, _, _, _, wrote⟩
  · exact changes (by rw [same])
  · rw [event, Event.actor] at acts
    subst acts
    have stays := reply_stays w schedule inside (.inl wrote)
    rw [state] at stays
    simp at stays

theorem point_advance {n id : Nat} {call : Call} {reply : Reply} (event : schedule n = .advance id)
    (found : effectOf w (run w schedule n).store ((run w schedule n).calls id) = some (call, reply)) :
    point w schedule n = some ⟨id, call, reply⟩ := by
  simp only [point, event, found, Option.map_some]

theorem advance_told {n id : Nat} (event : schedule n = .advance id)
    (told : Told w schedule n id ((run w schedule n).calls id)) : Told w schedule (n + 1) id
      (advance w (run w schedule n).store ((run w schedule n).calls id)).2 := by
  cases state : (run w schedule n).calls id with
  | idle => trivial
  | called call =>
    rcases @receive_cases w call with ⟨reply, received, -⟩ | ⟨info, next, note, received, -⟩
    · rw [advance, received]
      refine .inr ⟨n, Nat.lt_succ_self n, point_advance event ?_⟩
      rw [state]
      simp only [effectOf, received]
    · rw [advance, received]
      trivial
  | parsed call info next note =>
    refine ⟨⟨n, Nat.le_succ n, ?_, rfl⟩, fun r planned => ⟨n, Nat.lt_succ_self n, point_advance event ?_⟩⟩
    · rw [state]
      trivial
    · rw [state]
      simp only [effectOf, planned]
  | opened call info next note read =>
    rw [state] at told
    obtain ⟨was, answered⟩ := told.succ
    simp only [advance]
    split
    next r planned => exact .inr (answered r planned)
    next => exact was
  | storing call read new message =>
    simp only [advance, expectAndWrite]
    by_cases expected : (run w schedule n).store call.logID = read
    · rw [if_pos expected]
      refine .inr ⟨n, Nat.lt_succ_self n, point_advance event ?_⟩
      rw [state]
      simp only [effectOf, if_pos expected]
    · rw [if_neg expected]
      rw [state] at told
      obtain ⟨k, before, rest⟩ := Read.lost told state expected
      exact .inl ⟨message, rfl, k, by omega, rest⟩
  | finished call reply =>
    rw [state] at told
    exact told.succ
  | returned call reply =>
    rw [state] at told
    exact told.succ

theorem run_told (n id : Nat) : Told w schedule n id ((run w schedule n).calls id) := by
  induction n with
  | zero => trivial
  | succ n ih =>
    rcases step_calls w (run w schedule n) (schedule n) id with same | ⟨call, -, -, made⟩ | ⟨event, moved, -⟩
    · rw [run, same]
      exact ih.succ
    · rw [run, made]
      trivial
    · rw [run, moved]
      exact advance_told event ih

end Told

section Linearizable

variable (w : Witness) (schedule : Nat → Event)

theorem point_some {n : Nat} {e : Effect Call Reply} (found : point w schedule n = some e) :
    schedule n = .advance e.id ∧
      effectOf w (run w schedule n).store ((run w schedule n).calls e.id) = some (e.request, e.answer) := by
  unfold point at found
  split at found
  next => cases found
  next id event =>
    obtain ⟨⟨call, reply⟩, effect, rfl⟩ := Option.map_eq_some_iff.mp found
    exact ⟨event, effect⟩

theorem run_advance {n id : Nat} (event : schedule n = .advance id) :
    (run w schedule (n + 1)).store = (advance w (run w schedule n).store ((run w schedule n).calls id)).1 ∧
      (run w schedule (n + 1)).calls id = (advance w (run w schedule n).store ((run w schedule n).calls id)).2 := by
  rw [run, event]
  exact ⟨rfl, Function.update_self ..⟩

theorem memory_points : Points (ServesUpdate w) (memoryRun w schedule) (Overtaken w schedule)
    (fun n id => ((run w schedule n).calls id).Past w) (point w schedule) where
  rests n none := by
    rcases step_store w schedule n with same | ⟨id, call, read, new, message, event, state, expected, -, -⟩
    · exact same
    · have found : effectOf w (run w schedule n).store ((run w schedule n).calls id) =
          some (call, some new.rawChkpt, Option.none) := by
        rw [state]
        exact if_pos expected
      cases none.symm.trans (point_advance event found)
  acts n e found := by
    obtain ⟨event, effect⟩ := point_some w schedule found
    exact (effectOf_some (run_valid w schedule n e.id) effect).2.1.trans
      (congrArg (·, e.answer) (run_advance w schedule event).1.symm)
  pending n e found := (effectOf_some (run_valid w schedule n e.id) (point_some w schedule found).2).1
  fresh n e found := by
    obtain ⟨event, effect⟩ := point_some w schedule found
    obtain ⟨-, -, before, after⟩ := effectOf_some (run_valid w schedule n e.id) effect
    exact ⟨before, (run_advance w schedule event).2 ▸ after⟩
  past_next n id past := by
    rcases step_calls w (run w schedule n) (schedule n) id with same | ⟨-, -, idle, -⟩ | ⟨-, moved, -⟩
    · exact same ▸ past
    · rw [idle] at past
      exact past.elim
    · exact moved ▸ advance_past past
  answers n id call reply returned := by
    have told := @run_told w schedule n id
    have state := CallState.phase_returned returned
    rw [state] at told
    refine told.imp_left ?_
    rintro ⟨message, rfl, rest⟩
    exact ⟨call, message, state, rest⟩
  pending_next n id call pending := by
    rcases step_calls w (run w schedule n) (schedule n) id with same | ⟨-, -, idle, -⟩ | ⟨-, moved, -⟩
    · exact .inl (by simpa only [memoryRun, run, same] using pending)
    · simp only [memoryRun, idle] at pending
      cases pending
    · simpa only [memoryRun, run, moved] using advance_pending pending
  returned_next n id call reply returned := by
    have state := CallState.phase_returned returned
    simp only [memoryRun, returned_next w schedule state]
    rfl

/-- Concurrent calls of Update with the in-memory persistence answer as if they were made one after the other, but for
those that another call for the same log has overtaken. -/
theorem memory_witness_linearizable : Linearizable (ServesUpdate w) (memoryRun w schedule) (Overtaken w schedule) :=
  (memory_points w schedule).linearizable

end Linearizable

end WitnessServer
