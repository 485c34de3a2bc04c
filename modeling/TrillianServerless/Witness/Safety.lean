import TrillianServerless.Packages.NoteFormat
import TrillianServerless.Witness.Update

set_option autoImplicit false

namespace WitnessServer

open Go Merkle Checkpoints
open SignedNote (Note Verifier Signer)

/-- The bytes are the log's note for the checkpoint, signed by the witness too. -/
def Cosigned (w : Witness) (logID : String) (cp : Checkpoint) (raw : Bytes) : Prop :=
  ∃ chkpt note, parse w chkpt logID = .ok (cp, note) ∧ w.notes.sign note [w.signer] = .ok raw

-- `new` may replace `old`: it is larger and was checked against `old` itself.
def Accepted (w : Witness) (logID : String) (old new : CheckpointState) :
    Prop :=
  ∃ info prev prevNote next, w.logs logID = some info ∧
    parse w old.rawChkpt logID = .ok (prev, prevNote) ∧
    Cosigned w logID next new.rawChkpt ∧ prev.size < next.size ∧
    if info.useCompact then
      ∃ prevRange delta nextRange, unmarshalProof (old.compactRange.getD []) = .ok prevRange ∧
        verifyRange w.compact next prev info.hasher prevRange delta = .ok nextRange ∧
        new.compactRange = some (marshalProof nextRange)
    else
      ∃ proof, w.proofs.verifyConsistency info.hasher prev.size next.size proof prev.hash
        next.hash = .ok ()

def CallState.call? : CallState → Option Call
  | .idle => none
  | .called call | .parsed call .. | .opened call .. | .storing call .. | .finished call _
  | .returned call _ => some call

def CallState.InProgress : CallState → Prop
  | .idle | .returned .. => False
  | _ => True

theorem signChkpt_ok {w : Witness} {note : Note} {signed : Bytes}
    (h : signChkpt w note = .ok signed) : w.notes.sign note [w.signer] = .ok signed :=
  hideErr_eq_ok.mp h

theorem parse_eq_ok {w : Witness} {logID : String} {raw : Bytes} {cp : Checkpoint} {note : Note}
    (parsed : parse w raw logID = .ok (cp, note)) :
    ∃ info, w.logs logID = some info ∧
      w.notes.parseCheckpoint raw info.origin info.sigV [] = .ok (cp, note) := by
  unfold parse at parsed
  split at parsed
  · cases parsed
  next info known => exact ⟨info, known, parsed⟩

section States

variable {w : Witness} (lawful : SignedNote.Lawful w.notes) {logID : String} {raw : Bytes} {cp : Checkpoint}
include lawful

theorem parse_states {note : Note} (parsed : parse w raw logID = .ok (cp, note)) :
    w.notes.stated raw = some cp := by
  obtain ⟨info, -, parsed'⟩ := parse_eq_ok parsed
  exact lawful.parsed_states parsed'

theorem Cosigned.states (cosigned : Cosigned w logID cp raw) : w.notes.stated raw = some cp := by
  obtain ⟨chkpt, note, parsed, signs⟩ := cosigned
  obtain ⟨info, -, parsed'⟩ := parse_eq_ok parsed
  exact lawful.signed_states parsed' signs

/-- If what the witness signed can be read again, it is read as the checkpoint that was signed. -/
theorem Cosigned.parsed (cosigned : Cosigned w logID cp raw) {cp' : Checkpoint} {note : Note}
    (parsed : parse w raw logID = .ok (cp', note)) : cp' = cp :=
  Option.some.inj ((parse_states lawful parsed).symm.trans (cosigned.states lawful))

end States

theorem firstUse_set {w : Witness} {info : LogInfo} {call : Call}
    {next : Checkpoint} {note : Note} {new : CheckpointState} {message : String}
    (h : firstUse w info call next note = .set new message) :
    w.notes.sign note [w.signer] = .ok new.rawChkpt := by
  unfold firstUse at h
  split at h
  · simp at h
  next signed sign =>
    split at h
    · simp at h
    · obtain ⟨rfl, rfl⟩ := Plan.set.inj h
      exact signChkpt_ok sign

theorem verifyNext_ok {w : Witness} {info : LogInfo} {call : Call}
    {prev next : Checkpoint} {prevRange : List Bytes} {range : Option Bytes}
    (h : verifyNext w info call prev next prevRange = .ok range) :
    if info.useCompact then
      ∃ nextRange, verifyRange w.compact next prev info.hasher prevRange call.cProof = .ok nextRange ∧
        range = some (marshalProof nextRange)
    else
      w.proofs.verifyConsistency info.hasher prev.size next.size call.cProof prev.hash
        next.hash = .ok () := by
  unfold verifyNext at h
  split at h
  next compact =>
    rw [if_pos compact]
    split at h
    · simp at h
    next nextRange verified => exact ⟨nextRange, verified, (Except.ok.inj h).symm⟩
  next plain =>
    rw [if_neg plain]
    split at h
    · simp at h
    next verified => exact verified

theorem replaceStored_set {w : Witness} {info : LogInfo} {call : Call}
    {next : Checkpoint} {note : Note} {stored new : CheckpointState} {message : String}
    (h : replaceStored w info call next note stored = .set new message) :
    ∃ prev prevNote prevRange, parse w stored.rawChkpt call.logID = .ok (prev, prevNote) ∧
      (if info.useCompact then unmarshalProof (stored.compactRange.getD []) else .ok []) =
        .ok prevRange ∧ prev.size < next.size ∧
      verifyNext w info call prev next prevRange = .ok new.compactRange ∧
      w.notes.sign note [w.signer] = .ok new.rawChkpt := by
  unfold replaceStored at h
  split at h
  · simp at h
  next prev prevNote parsed =>
    split at h
    · simp at h
    next prevRange unmarshalled =>
      split at h
      · simp at h
      next notSmaller =>
        split at h
        · split at h <;> simp at h
        next different =>
          split at h
          · simp at h
          next range verified =>
            split at h
            · simp at h
            next signed sign =>
              obtain ⟨rfl, rfl⟩ := Plan.set.inj h
              exact ⟨prev, prevNote, prevRange, parsed, unmarshalled, by omega, verified,
                signChkpt_ok sign⟩

theorem plan_set_cosigned {w : Witness} {info : LogInfo} {call : Call} {next : Checkpoint} {note : Note}
    {read : Option CheckpointState} {new : CheckpointState} {message : String}
    (parsed : parse w call.nextRaw call.logID = .ok (next, note))
    (h : plan w info call next note read = .set new message) :
    Cosigned w call.logID next new.rawChkpt := by
  refine ⟨call.nextRaw, note, parsed, ?_⟩
  cases read with
  | none => exact firstUse_set h
  | some stored =>
    obtain ⟨_, _, _, _, _, _, _, sign⟩ := replaceStored_set h
    exact sign

theorem plan_set_accepted {w : Witness} {info : LogInfo} {call : Call} {next : Checkpoint} {note : Note}
    {old new : CheckpointState} {message : String} (known : w.logs call.logID = some info)
    (parsed : parse w call.nextRaw call.logID = .ok (next, note))
    (h : plan w info call next note (some old) = .set new message) :
    Accepted w call.logID old new := by
  obtain ⟨prev, prevNote, prevRange, oldParsed, unmarshalled, larger, verified, _⟩ :=
    replaceStored_set h
  refine ⟨info, prev, prevNote, next, known, oldParsed, plan_set_cosigned parsed h, larger, ?_⟩
  have checked := verifyNext_ok verified
  by_cases compact : info.useCompact = true
  · rw [if_pos compact] at checked unmarshalled ⊢
    obtain ⟨nextRange, accepted, range⟩ := checked
    exact ⟨prevRange, call.cProof, nextRange, unmarshalled, accepted, range⟩
  · rw [if_neg compact] at checked ⊢
    exact ⟨call.cProof, checked⟩

theorem firstUse_reply {w : Witness} {info : LogInfo} {call : Call}
    {next : Checkpoint} {note : Note} {body : Option Bytes} :
    firstUse w info call next note ≠ .reply (body, none) := by
  intro h
  unfold firstUse at h
  split at h
  · simp at h
  · split at h <;> simp at h

theorem replaceStored_reply {w : Witness} {info : LogInfo} {call : Call}
    {next : Checkpoint} {note : Note} {stored : CheckpointState} {body : Option Bytes}
    (h : replaceStored w info call next note stored = .reply (body, none)) :
    body = some stored.rawChkpt ∧ ∃ prev prevNote, parse w stored.rawChkpt call.logID = .ok (prev, prevNote) ∧
      prev.size = next.size ∧ prev.hash = next.hash := by
  unfold replaceStored at h
  split at h
  · simp at h
  next prev prevNote parsed =>
    split at h
    · simp at h
    split at h
    · simp at h
    split at h
    next size =>
      split at h
      next hash => exact ⟨by simpa using h.symm, prev, prevNote, parsed, size.symm, hash.symm⟩
      · simp at h
    · split at h
      · simp at h
      · split at h <;> simp at h

-- A reply without an error that stores nothing is for a checkpoint that is already held.
theorem plan_reply {w : Witness} {info : LogInfo} {call : Call}
    {next : Checkpoint} {note : Note} {read : Option CheckpointState} {body : Option Bytes}
    (h : plan w info call next note read = .reply (body, none)) :
    ∃ stored, read = some stored ∧ body = some stored.rawChkpt ∧ ∃ prev prevNote,
      parse w stored.rawChkpt call.logID = .ok (prev, prevNote) ∧ prev.size = next.size ∧ prev.hash = next.hash := by
  cases read with
  | none => exact absurd h firstUse_reply
  | some stored => exact ⟨stored, rfl, replaceStored_reply h⟩

-- What a call in the given state has already established.
def CallState.Valid (w : Witness) : CallState → Prop
  | .parsed call info next note | .opened call info next note _ =>
    w.logs call.logID = some info ∧ parse w call.nextRaw call.logID = .ok (next, note)
  | .storing call read new message =>
    ∃ info next note, w.logs call.logID = some info ∧
      parse w call.nextRaw call.logID = .ok (next, note) ∧
      plan w info call next note read = .set new message
  | _ => True

theorem receive_valid (w : Witness) (call : Call) :
    (receive w call).Valid w := by
  unfold receive
  split
  · trivial
  next info known =>
    split
    · trivial
    next next note parsed => exact ⟨known, parsed⟩

theorem advance_valid (w : Witness) (store : Store)
    (state : CallState) (valid : state.Valid w) :
    (advance w store state).2.Valid w := by
  cases state with
  | idle | finished | returned => trivial
  | called call => exact receive_valid w call
  | parsed call info next note => exact valid
  | opened call info next note read =>
    simp only [advance]
    split
    · trivial
    next new message planned => exact ⟨info, next, note, valid.1, valid.2, planned⟩
  | storing call read new message =>
    simp only [advance]
    split <;> trivial

section Run

variable (w : Witness) (schedule : Nat → Event)

-- What a step does to a call: it leaves it alone, makes it, or moves it on.
theorem step_calls (s : System) (event : Event) (id : Nat) :
    (s.step w event).calls id = s.calls id ∨
    (∃ call, event = .invoke id call ∧ s.calls id = .idle ∧ (s.step w event).calls id = .called call) ∨
    (event = .advance id ∧ (s.step w event).calls id = (advance w s.store (s.calls id)).2 ∧
      (s.step w event).store = (advance w s.store (s.calls id)).1) := by
  cases event with
  | invoke actor call =>
    simp only [System.step]
    split
    next idle =>
      by_cases same : id = actor
      · subst same
        exact .inr (.inl ⟨call, rfl, idle, Function.update_self ..⟩)
      · exact .inl (Function.update_of_ne same ..)
    next => exact .inl rfl
  | advance actor =>
    simp only [System.step]
    by_cases same : id = actor
    · subst same
      exact .inr (.inr ⟨rfl, Function.update_self .., rfl⟩)
    · exact .inl (Function.update_of_ne same ..)

theorem run_calls {P : CallState → Prop} (idle : P .idle) (called : ∀ call, P (.called call))
    (moves : ∀ n id, P ((run w schedule n).calls id) →
      P (advance w (run w schedule n).store ((run w schedule n).calls id)).2) (n id : Nat) :
    P ((run w schedule n).calls id) := by
  induction n with
  | zero => exact idle
  | succ n ih =>
    rw [run]
    rcases step_calls w (run w schedule n) (schedule n) id with same | ⟨call, -, -, made⟩ | ⟨-, moved, -⟩
    · rw [same]
      exact ih
    · rw [made]
      exact called call
    · rw [moved]
      exact moves n id ih

theorem run_valid (n id : Nat) : ((run w schedule n).calls id).Valid w :=
  run_calls w schedule trivial (fun _ => trivial) (fun _ _ valid => advance_valid w _ _ valid) n id

-- Only a call that is about to call Set, and whose expectation holds, changes the store.
theorem step_store (n : Nat) :
    (run w schedule (n + 1)).store = (run w schedule n).store ∨
      ∃ id call read new message, schedule n = .advance id ∧
        (run w schedule n).calls id = .storing call read new message ∧
        (run w schedule n).store call.logID = read ∧
        (run w schedule (n + 1)).store =
          Function.update (run w schedule n).store call.logID (some new) ∧
        (run w schedule (n + 1)).calls id = .finished call (some new.rawChkpt, none) := by
  simp only [run]
  cases event : schedule n with
  | invoke actor call =>
    left
    simp only [System.step]
    split <;> rfl
  | advance actor =>
    simp only [System.step]
    cases state : (run w schedule n).calls actor with
    | idle | called | parsed | finished | returned => exact Or.inl rfl
    | opened call info next note read =>
      left
      simp only [advance]
      split <;> rfl
    | storing call read new message =>
      simp only [advance, expectAndWrite]
      by_cases expected : (run w schedule n).store call.logID = read
      · right
        rw [if_pos expected]
        exact ⟨actor, call, read, new, message, rfl, state, expected, rfl, by simp⟩
      · left
        rw [if_neg expected]

theorem stored_next (n : Nat) (logID : String) (old : CheckpointState)
    (stored : (run w schedule n).store logID = some old) :
    ∃ new, (run w schedule (n + 1)).store logID = some new ∧
      (new = old ∨ Accepted w logID old new) := by
  rcases step_store w schedule n with same | ⟨id, call, read, new, message, _, state, expected, changed, _⟩
  · exact ⟨old, by rw [same, stored], Or.inl rfl⟩
  · by_cases log : logID = call.logID
    · subst log
      obtain ⟨info, next, note, known, parsed, planned⟩ : CallState.Valid w
          (.storing call read new message) := by rw [← state]; exact run_valid w schedule n id
      rw [← expected, stored] at planned
      exact ⟨new, by rw [changed, Function.update_self], Or.inr
        (plan_set_accepted known parsed planned)⟩
    · exact ⟨old, by rw [changed, Function.update_of_ne log, stored], Or.inl rfl⟩

-- The checkpoint that the witness holds is one that it has signed.
theorem stored_cosigned {n : Nat} {logID : String} {value : CheckpointState}
    (stored : (run w schedule n).store logID = some value) :
    ∃ cp, Cosigned w logID cp value.rawChkpt := by
  induction n generalizing value with
  | zero => simp [run, System.initial] at stored
  | succ n ih =>
    rcases step_store w schedule n with same | ⟨id, call, read, new, message, _, state, _, changed, _⟩
    · exact ih (by rw [← same]; exact stored)
    by_cases log : logID = call.logID
    · subst log
      rw [changed, Function.update_self] at stored
      obtain rfl := Option.some.inj stored
      obtain ⟨info, next, note, _, parsed, planned⟩ : CallState.Valid w
          (.storing call read new message) := by rw [← state]; exact run_valid w schedule n id
      exact ⟨next, plan_set_cosigned parsed planned⟩
    · exact ih (by rwa [changed, Function.update_of_ne log] at stored)

theorem Accepted.states (lawful : SignedNote.Lawful w.notes) {logID : String} {old new : CheckpointState}
    (accepted : Accepted w logID old new) :
    ∃ prev next, w.notes.stated old.rawChkpt = some prev ∧ w.notes.stated new.rawChkpt = some next ∧
      prev.size < next.size := by
  obtain ⟨_, prev, prevNote, next, _, parsed, cosigned, larger, _⟩ := accepted
  exact ⟨prev, next, parse_states lawful parsed, cosigned.states lawful, larger⟩

-- The values stored for one log over time: equal, or of strictly growing size.
theorem stored_chain (lawful : SignedNote.Lawful w.notes) {m n : Nat} (order : m ≤ n) (logID : String)
    (old : CheckpointState) (stored : (run w schedule m).store logID = some old) :
    ∃ new, (run w schedule n).store logID = some new ∧
      (new = old ∨ ∃ prev next, w.notes.stated old.rawChkpt = some prev ∧
        w.notes.stated new.rawChkpt = some next ∧ prev.size < next.size) := by
  induction n, order using Nat.le_induction with
  | base => exact ⟨old, stored, Or.inl rfl⟩
  | succ n order ih =>
    obtain ⟨middle, held, before⟩ := ih
    obtain ⟨new, replaced, after⟩ := stored_next w schedule n logID middle held
    refine ⟨new, replaced, ?_⟩
    rcases after with rfl | accepted
    · exact before
    · right
      obtain ⟨prev, next, oldStates, newStates, larger⟩ := accepted.states w lawful
      rcases before with rfl | ⟨first, second, firstStates, secondStates, grows⟩
      · exact ⟨prev, next, oldStates, newStates, larger⟩
      · obtain rfl := Option.some.inj (secondStates.symm.trans oldStates)
        exact ⟨first, next, firstStates, newStates, Nat.lt_trans grows larger⟩

-- Call `id` was in progress at moment `j` and `raw` was then the stored checkpoint of its log.
def HeldDuring (id j : Nat) (logID : String) (raw : Bytes) : Prop :=
  ((run w schedule j).calls id).InProgress ∧
    ∃ value, (run w schedule j).store logID = some value ∧ value.rawChkpt = raw

def Observed (n id : Nat) : CallState → Prop
  | .opened call _ _ _ (some value) | .storing call (some value) _ _ =>
    ∃ j ≤ n, HeldDuring w schedule id j call.logID value.rawChkpt
  | .finished call (body, none) | .returned call (body, none) =>
    ∃ raw, body = some raw ∧ ∃ j ≤ n, HeldDuring w schedule id j call.logID raw
  | _ => True

theorem Observed.later {n m id : Nat} {state : CallState} (order : n ≤ m)
    (h : Observed w schedule n id state) : Observed w schedule m id state := by
  unfold Observed at h ⊢
  split <;> simp_all
  · obtain ⟨j, bound, held⟩ := h
    exact ⟨j, by omega, held⟩
  · obtain ⟨j, bound, held⟩ := h
    exact ⟨j, by omega, held⟩
  · obtain ⟨raw, body, j, bound, held⟩ := h
    exact ⟨raw, body, j, by omega, held⟩
  · obtain ⟨raw, body, j, bound, held⟩ := h
    exact ⟨raw, body, j, by omega, held⟩

theorem advance_observed {n id : Nat}
    (next : (run w schedule (n + 1)).calls id = (advance w (run w schedule n).store ((run w schedule n).calls id)).2)
    (store : (run w schedule (n + 1)).store = (advance w (run w schedule n).store ((run w schedule n).calls id)).1)
    (later : Observed w schedule (n + 1) id ((run w schedule n).calls id)) :
    Observed w schedule (n + 1) id ((run w schedule (n + 1)).calls id) := by
  rw [next]
  cases state : (run w schedule n).calls id with
  | idle => trivial
  | called call =>
    simp only [advance, receive]
    split
    · trivial
    · split <;> trivial
  | parsed call info cp note =>
    simp only [advance]
    cases read : (run w schedule n).store call.logID with
    | none => trivial
    | some value =>
      refine ⟨n, Nat.le_succ n, ?_⟩
      rw [HeldDuring, state]
      exact ⟨trivial, value, read, rfl⟩
  | opened call info cp note read =>
    rw [state] at later
    simp only [advance]
    split
    next reply planned =>
      obtain ⟨body, _ | status⟩ := reply
      · obtain ⟨stored, rfl, rfl, -⟩ := plan_reply planned
        exact ⟨stored.rawChkpt, rfl, later⟩
      · trivial
    next new message planned =>
      cases read with
      | none => trivial
      | some value => exact later
  | storing call read new message =>
    rw [state] at next store
    simp only [advance, expectAndWrite] at next store ⊢
    by_cases expected : (run w schedule n).store call.logID = read
    · rw [if_pos expected] at next store ⊢
      refine ⟨new.rawChkpt, rfl, n + 1, Nat.le_refl _, ?_, new, ?_, rfl⟩
      · rw [next]
        trivial
      · rw [store]
        exact Function.update_self ..
    · rw [if_neg expected]
      trivial
  | finished call reply =>
    rw [state] at later
    obtain ⟨body, _ | status⟩ := reply <;> exact later
  | returned call reply =>
    rw [state] at later
    exact later

theorem run_observed (n id : Nat) : Observed w schedule n id ((run w schedule n).calls id) := by
  induction n with
  | zero => trivial
  | succ n ih =>
    have later := ih.later w schedule (Nat.le_succ n)
    rcases step_calls w (run w schedule n) (schedule n) id with same | ⟨call, -, -, made⟩ | ⟨-, next, store⟩
    · rw [run, same]
      exact later
    · rw [run, made]
      trivial
    · exact advance_observed w schedule next store later

theorem reply_stays {m n id : Nat} (order : m ≤ n) {call : Call} {reply : Reply}
    (replied : (run w schedule m).calls id = .finished call reply ∨
      (run w schedule m).calls id = .returned call reply) :
    (run w schedule n).calls id = .finished call reply ∨
      (run w schedule n).calls id = .returned call reply := by
  induction n, order using Nat.le_induction with
  | base => exact replied
  | succ n order ih =>
    rw [run]
    rcases step_calls w (run w schedule n) (schedule n) id with same | ⟨-, -, idle, -⟩ | ⟨-, moved, -⟩
    · rw [same]
      exact ih
    · simp [idle] at ih
    · rw [moved]
      rcases ih with ih | ih <;> simp [ih, advance]

theorem failed_call_keeps_store {n id : Nat} {call : Call} {body : Option Bytes} {status : Status}
    (failed : (run w schedule n).calls id = .returned call (body, some status)) {j : Nat}
    (before : j < n) (acts : (schedule j).actor = id) :
    (run w schedule (j + 1)).store = (run w schedule j).store := by
  rcases step_store w schedule j with same | ⟨actor, other, read, new, message, event, _, _, _, wrote⟩
  · exact same
  · rw [event, Event.actor] at acts
    subst acts
    have stays := reply_stays w schedule before (Or.inl wrote)
    rw [failed] at stays
    simp at stays

theorem other_log_keeps_store {j id : Nat} {call : Call} {logID : String}
    (acts : (schedule j).actor = id) (caller : ((run w schedule j).calls id).call? = some call)
    (other : call.logID ≠ logID) :
    (run w schedule (j + 1)).store logID = (run w schedule j).store logID := by
  rcases step_store w schedule j with same | ⟨actor, own, read, new, message, event, state, _, changed, _⟩
  · rw [same]
  · rw [event, Event.actor] at acts
    subst acts
    rw [state] at caller
    obtain rfl := Option.some.inj caller
    rw [changed, Function.update_of_ne (Ne.symm other)]

-- Stored at some moment, or returned by some call without an error.
def Published (logID : String) (raw : Bytes) : Prop :=
  (∃ n value, (run w schedule n).store logID = some value ∧ value.rawChkpt = raw) ∨
    ∃ n id call, (run w schedule n).calls id = .returned call (some raw, none) ∧ call.logID = logID

theorem returned_held {n id : Nat} {call : Call} {body : Option Bytes}
    (returned : (run w schedule n).calls id = .returned call (body, none)) :
    ∃ raw, body = some raw ∧ ∃ j ≤ n, HeldDuring w schedule id j call.logID raw := by
  have observed := run_observed w schedule n id
  rw [returned] at observed
  exact observed

theorem Published.stored {logID : String} {raw : Bytes} (h : Published w schedule logID raw) :
    ∃ n value, (run w schedule n).store logID = some value ∧ value.rawChkpt = raw := by
  rcases h with stored | ⟨n, id, call, returned, rfl⟩
  · exact stored
  · obtain ⟨held, same, j, _, _, value, stored, chkpt⟩ := returned_held w schedule returned
    obtain rfl := Option.some.inj same
    exact ⟨j, value, stored, chkpt⟩

theorem stored_agree (lawful : SignedNote.Lawful w.notes) {m n : Nat} (order : m ≤ n)
    {logID : String} {old new : CheckpointState} {a b : Checkpoint}
    (oldStored : (run w schedule m).store logID = some old)
    (newStored : (run w schedule n).store logID = some new)
    (oldStates : w.notes.stated old.rawChkpt = some a) (newStates : w.notes.stated new.rawChkpt = some b)
    (sameSize : a.size = b.size) : a.hash = b.hash := by
  obtain ⟨later, stored, grown⟩ := stored_chain w schedule lawful order logID old oldStored
  rw [newStored] at stored
  obtain rfl := Option.some.inj stored
  rcases grown with rfl | ⟨prev, next, prevStates, nextStates, larger⟩
  · rw [Option.some.inj (oldStates.symm.trans newStates)]
  · obtain rfl := Option.some.inj (oldStates.symm.trans prevStates)
    obtain rfl := Option.some.inj (newStates.symm.trans nextStates)
    omega

theorem published_agree (lawful : SignedNote.Lawful w.notes) {logID : String} {raw raw' : Bytes}
    {a b : Checkpoint} (published : Published w schedule logID raw)
    (published' : Published w schedule logID raw') (cosigned : Cosigned w logID a raw)
    (cosigned' : Cosigned w logID b raw') (sameSize : a.size = b.size) :
    a.hash = b.hash := by
  obtain ⟨m, old, oldStored, rfl⟩ := published.stored
  obtain ⟨n, new, newStored, rfl⟩ := published'.stored
  have states := cosigned.states lawful
  have states' := cosigned'.states lawful
  rcases Nat.le_total m n with order | order
  · exact stored_agree w schedule lawful order oldStored newStored states states' sameSize
  · exact (stored_agree w schedule lawful order newStored oldStored states' states
      sameSize.symm).symm

theorem call?_eq_none {state : CallState} (none : state.call? = none) :
    state = .idle := by
  cases state with
  | idle => rfl
  | called | parsed | opened | storing | finished | returned => cases none

theorem advance_call? (store : Store) (state : CallState) :
    (advance w store state).2.call? = state.call? := by
  cases state with
  | idle | parsed | finished | returned => rfl
  | called call =>
    simp only [advance, receive]
    split
    · rfl
    · split <;> rfl
  | opened call info next note read =>
    simp only [advance]
    split <;> rfl
  | storing call read new message =>
    simp only [advance]
    split <;> rfl

-- A call stays what its caller made it.
theorem step_call? (s : System) (event : Event) (id : Nat) :
    ((s.step w event).calls id).call? = (s.calls id).call? ∨
      s.calls id = .idle ∧ ∃ call, event = .invoke id call ∧ (s.step w event).calls id = .called call := by
  rcases step_calls w s event id with same | ⟨call, invoked, idle, made⟩ | ⟨-, moved, -⟩
  · exact .inl (congrArg _ same)
  · exact .inr ⟨idle, call, invoked, made⟩
  · rw [moved]
    exact .inl (advance_call? w s.store (s.calls id))

theorem call_stays {m n id : Nat} (order : m ≤ n) {call : Call}
    (called : ((run w schedule m).calls id).call? = some call) :
    ((run w schedule n).calls id).call? = some call := by
  induction n, order using Nat.le_induction with
  | base => exact called
  | succ n order ih =>
    rcases step_call? w (run w schedule n) (schedule n) id with same | ⟨idle, _⟩
    · rw [run, same, ih]
    · rw [idle] at ih
      cases ih

theorem idle_before {m n id : Nat} (order : m ≤ n) (idle : (run w schedule n).calls id = .idle) :
    (run w schedule m).calls id = .idle := by
  cases called : ((run w schedule m).calls id).call? with
  | none => exact call?_eq_none called
  | some call =>
    have later := call_stays w schedule order called
    rw [idle] at later
    cases later

theorem called_invoked {n id : Nat} {call : Call}
    (called : ((run w schedule n).calls id).call? = some call) : ∃ j, schedule j = .invoke id call := by
  induction n with
  | zero => cases called
  | succ n ih =>
    rcases step_call? w (run w schedule n) (schedule n) id with same | ⟨_, other, event, state⟩
    · exact ih (by rw [← same]; exact called)
    · rw [run, state] at called
      exact ⟨n, by rw [event, Option.some.inj called]⟩

def Answered : CallState → Prop
  | .finished call (body, none) | .returned call (body, none) =>
    ∃ raw next nextNote cp, body = some raw ∧
      parse w call.nextRaw call.logID = .ok (next, nextNote) ∧
      w.notes.stated raw = some cp ∧ cp.size = next.size ∧ cp.hash = next.hash
  | _ => True

theorem advance_answered (lawful : SignedNote.Lawful w.notes) (store : Store)
    {state : CallState} (valid : state.Valid w) (answered : Answered w state) :
    Answered w (advance w store state).2 := by
  cases state with
  | idle | parsed | returned => exact answered
  | called call =>
    simp only [advance, receive]
    split
    · trivial
    · split <;> trivial
  | opened call info next note read =>
    simp only [advance]
    split
    next reply planned =>
      obtain ⟨body, _ | status⟩ := reply
      · obtain ⟨stored, -, same, cp, cpNote, parsed, size, hash⟩ := plan_reply planned
        exact ⟨stored.rawChkpt, next, note, cp, same, valid.2, parse_states lawful parsed, size, hash⟩
      · trivial
    · trivial
  | storing call read new message =>
    simp only [advance]
    split
    · obtain ⟨info, next, note, _, parsed, planned⟩ := valid
      have states := (plan_set_cosigned parsed planned).states lawful
      exact ⟨_, next, note, next, rfl, parsed, states, rfl, rfl⟩
    · trivial
  | finished call reply =>
    obtain ⟨body, _ | status⟩ := reply
    · exact answered
    · trivial

/-- A call that succeeds returns a checkpoint of the size and the hash that it was called with. -/
theorem returned_answers (lawful : SignedNote.Lawful w.notes) {n id : Nat} {call : Call}
    {body : Option Bytes} (returned : (run w schedule n).calls id = .returned call (body, none)) :
    ∃ raw next nextNote cp, body = some raw ∧
      parse w call.nextRaw call.logID = .ok (next, nextNote) ∧
      w.notes.stated raw = some cp ∧ cp.size = next.size ∧ cp.hash = next.hash := by
  have answered := run_calls w schedule (P := Answered w) trivial (fun _ => trivial)
    (fun n id before => advance_answered w lawful _ (run_valid w schedule n id) before) n id
  rw [returned] at answered
  exact answered

/-- Whatever the schedule of the calls of Update, the values stored for a log form a chain in which
each was checked against the one it replaces, replies without an error come from that chain, and
calls that fail or are for another log leave the stored value alone. What is stored or returned is a checkpoint of
the log that the witness has signed, and states that checkpoint whoever can read it. -/
theorem update_append_only (lawful : SignedNote.Lawful w.notes) :
    (∀ n logID old, (run w schedule n).store logID = some old →
      ∃ new, (run w schedule (n + 1)).store logID = some new ∧
        (new = old ∨ Accepted w logID old new)) ∧
    (∀ n id call body, (run w schedule n).calls id = .returned call (body, none) →
      ∃ raw, body = some raw ∧ ∃ j ≤ n, HeldDuring w schedule id j call.logID raw) ∧
    (∀ logID raw raw' a b, Published w schedule logID raw →
      Published w schedule logID raw' → Cosigned w logID a raw →
      Cosigned w logID b raw' → a.size = b.size → a.hash = b.hash) ∧
    (∀ logID raw, Published w schedule logID raw →
      ∃ cp, Cosigned w logID cp raw ∧ w.notes.stated raw = some cp ∧
        ∀ cp' note, parse w raw logID = .ok (cp', note) → cp' = cp) ∧
    (∀ n id call body status, (run w schedule n).calls id = .returned call (body, some status) →
      ∀ j < n, (schedule j).actor = id →
        (run w schedule (j + 1)).store = (run w schedule j).store) ∧
    (∀ j id call logID, (schedule j).actor = id →
      ((run w schedule j).calls id).call? = some call → call.logID ≠ logID →
      (run w schedule (j + 1)).store logID = (run w schedule j).store logID) := by
  refine ⟨stored_next w schedule, ?_, ?_, ?_, ?_, ?_⟩
  · intro n id call body returned
    exact returned_held w schedule returned
  · intro logID raw raw' a b published published' cosigned cosigned' sameSize
    exact published_agree w schedule lawful published published' cosigned cosigned' sameSize
  · intro logID raw published
    obtain ⟨n, value, stored, rfl⟩ := published.stored
    obtain ⟨cp, cosigned⟩ := stored_cosigned w schedule stored
    exact ⟨cp, cosigned, cosigned.states lawful, fun cp' note parsed => cosigned.parsed lawful parsed⟩
  · intro n id call body status failed j before acts
    exact failed_call_keeps_store w schedule failed before acts
  · intro j id call logID acts caller other
    exact other_log_keeps_store w schedule acts caller other

end Run

section Reference

def referenceWitness : Witness where
  notes := SignedNote.reference
  compact := Compact.reference
  proofs := ProofPackage.reference
  signer := SignedNote.tagSigner 119 (by decide)
  logs id := if id = "log" then some ⟨SignedNote.tagVerifier 108, "o", LogHasher.padded, false⟩ else none

def hashSeven : Bytes := LogHasher.padded.hashLeaf [7]
def hashEight : Bytes := LogHasher.padded.hashLeaf [8]
def hashBoth : Bytes := LogHasher.padded.hashChildren hashSeven hashEight

def checkpointText (size : Nat) (hash : Bytes) : Bytes :=
  asciiBytes "o\n" ++ formatUint 10 size ++ [newline] ++ encodeBase64 hash ++ [newline]

def logSigned (size : Nat) (hash : Bytes) : Bytes := SignedNote.tagNote (checkpointText size hash) [108]

def cosigned (size : Nat) (hash : Bytes) : CheckpointState :=
  ⟨SignedNote.tagNote (checkpointText size hash) [108, 119], none⟩

-- Two callers race to store a first checkpoint; the loser comes back with a consistency proof.
def raceSchedule (j : Nat) : Event :=
  [.invoke 0 ⟨"log", logSigned 1 hashSeven, []⟩, .invoke 1 ⟨"log", logSigned 2 hashBoth, []⟩,
    .advance 0, .advance 1, .advance 0, .advance 1, .advance 0, .advance 1, .advance 0, .advance 1,
    .advance 0, .advance 1, .invoke 2 ⟨"log", logSigned 2 hashBoth, [hashEight]⟩, .advance 2,
    .advance 2, .advance 2, .advance 2, .advance 2].getD j (.advance 0)

theorem update_append_only_race :
    (run referenceWitness raceSchedule 17).store "log" = some (cosigned 2 hashBoth) ∧
      (cosigned 2 hashBoth = cosigned 1 hashSeven ∨
        Accepted referenceWitness "log" (cosigned 1 hashSeven) (cosigned 2 hashBoth)) := by
  have before : (run referenceWitness raceSchedule 16).store "log" = some (cosigned 1 hashSeven) := by
    decide +kernel
  have after : (run referenceWitness raceSchedule 17).store "log" = some (cosigned 2 hashBoth) := by
    decide +kernel
  obtain ⟨new, stored, step⟩ := (update_append_only referenceWitness raceSchedule
    SignedNote.reference_lawful).1 16 "log" _ before
  rw [after] at stored
  obtain rfl := Option.some.inj stored
  exact ⟨after, step⟩

end Reference

end WitnessServer
