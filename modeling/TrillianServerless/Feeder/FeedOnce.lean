import TrillianServerless.Witness.Safety

set_option autoImplicit false

namespace Feeder

open Go Merkle Checkpoints WitnessServer
open SignedNote (Verifier)

structure FeedOpts where
  logID : String
  logSigVerifier : Verifier
  logOrigin : String

-- The checkpoint that a call of FeedOnce has fetched, as bytes and parsed.
structure Submission where
  cpRaw : Bytes
  cpSubmit : Checkpoint
  deriving DecidableEq, Repr

-- A call of FeedOnce between two of its steps. `asking`, `proving` and `updating` are the points of
-- submitOp before GetLatestCheckpoint and FetchProof and while Update runs as call `id` of the
-- witness; `failed` is where the backoff decides about another try.
inductive Feeding where
  | idle
  | fetching
  | asking (s : Submission)
  | proving (s : Submission) (latestCP : Checkpoint)
  | updating (s : Submission) (id : Nat)
  | failed (s : Submission) (reason : GoError)
  | returned (s : Option Submission) (result : Except GoError Bytes)
  deriving DecidableEq

-- `started` and `stopped` are the moments of the last call.
structure FeederState where
  started : Nat
  stopped : Nat
  state : Feeding

-- What happens to a feeder at one moment. Answers of the log are arbitrary, and each request to the
-- witness may fail on its way there or back.
inductive FeederEvent where
  | wait
  | start
  | fetched (answer : Except GoError Bytes)
  | asked (fault : Option GoError)
  | proved (answer : Except GoError (List Bytes)) (id : Nat)
  | updated (fault : Option GoError)
  | retry
  | giveUp

section FeedOnce

variable (w : Witness) (opts : FeedOpts)

-- GetLatestCheckpoint of the witness behind the adapter of omniwitness.
def getLatestCheckpoint (store : Store) (logID : String) : Except GoError Bytes :=
  match store logID with
  | none => .error .notExist
  | some value => .ok value.rawChkpt

def receiveCheckpoint : Except GoError Bytes → Feeding
  | .error _ => .returned none (.error (.text "failed to read input checkpoint: %v"))
  | .ok cp =>
    match w.notes.parseCheckpoint cp opts.logOrigin opts.logSigVerifier [] with
    | .error _ => .returned none (.error (.text "failed to parse checkpoint: %v"))
    | .ok (cpSubmit, _) => .asking ⟨cp, cpSubmit⟩

-- submitOp up to the call of FetchProof. A larger checkpoint of the witness is a permanent error.
def compareLatest (s : Submission) (latest : Except GoError Bytes) : Feeding :=
  match latest with
  | .error reason =>
    if reason.isErrNotExist then .proving s ⟨"", 0, []⟩
    else .failed s (.text "failed to fetch latest CP from witness: %v")
  | .ok latestCPRaw =>
    if 0 < latestCPRaw.length then
      match w.notes.parseCheckpoint latestCPRaw opts.logOrigin opts.logSigVerifier [] with
      | .error _ => .failed s (.text "failed to parse CP from witness: %v")
      | .ok (latestCP, _) =>
        if latestCP.size > s.cpSubmit.size then
          .returned (some s) (.error (.text "witness submission failed: %v"))
        else if latestCP.size = s.cpSubmit.size ∧ latestCP.hash = s.cpSubmit.hash then
          .returned (some s) (.ok latestCPRaw)
        else .proving s latestCP
    else .proving s ⟨"", 0, []⟩

def receiveReply (s : Submission) (reply : Reply) : Feeding :=
  match reply with
  | (_, some _) => .failed s (.text "failed to submit checkpoint to witness: %v")
  | (body, none) => .returned (some s) (.ok (body.getD []))

def FeederState.goto (f : FeederState) (n : Nat) (state : Feeding) : FeederState :=
  { f with stopped := n, state := state }

-- What a feeder does at moment `n`, when the witness is in state `s` and goes on with `e`. The call of
-- Update is one of the calls that the witness receives.
def feederStep (n : Nat) (s : System) (e : Event) (f : FeederState) :
    FeederEvent → FeederState
  | .wait => f
  | .start =>
    match f.state with
    | .idle | .returned .. => ⟨n, n, .fetching⟩
    | _ => f
  | .fetched answer =>
    match f.state with
    | .fetching => f.goto n (receiveCheckpoint w opts answer)
    | _ => f
  | .asked fault =>
    match f.state with
    | .asking sub =>
      f.goto n (compareLatest w opts sub (match fault with
        | some reason => .error reason
        | none => getLatestCheckpoint s.store opts.logID))
    | _ => f
  | .proved answer id =>
    match f.state with
    | .proving sub _ =>
      match answer with
      | .error _ => f.goto n (.failed sub (.text "failed to fetch consistency proof: %v"))
      | .ok conP =>
        match s.calls id, e with
        | .idle, .invoke actor call =>
          if actor = id ∧ call = ⟨opts.logID, sub.cpRaw, conP⟩ then f.goto n (.updating sub id) else f
        | _, _ => f
    | _ => f
  | .updated fault =>
    match f.state with
    | .updating sub id =>
      match fault with
      | some _ => f.goto n (.failed sub (.text "failed to submit checkpoint to witness: %v"))
      | none =>
        match s.calls id with
        | .returned _ reply => f.goto n (receiveReply sub reply)
        | _ => f
    | _ => f
  | .retry =>
    match f.state with
    | .failed sub _ => f.goto n (.asking sub)
    | _ => f
  | .giveUp =>
    match f.state with
    | .failed sub _ => f.goto n (.returned (some sub) (.error (.text "witness submission failed: %v")))
    | _ => f

-- A feeder beside a run of the witness, which all other feeders and clients take part in too.
def feederRun (schedule : Nat → Event) (script : Nat → FeederEvent) : Nat → FeederState
  | 0 => ⟨0, 0, .idle⟩
  | n + 1 => feederStep w opts n (run w schedule n) (schedule n) (feederRun schedule script n) (script n)

end FeedOnce

section Reports

variable {w : Witness} {opts : FeedOpts}
  {schedule : Nat → Event} {script : Nat → FeederEvent}

-- The feeder and the witness know the log by the same name and key.
def Configured (w : Witness) (opts : FeedOpts) : Prop :=
  ∃ info, w.logs opts.logID = some info ∧ info.origin = opts.logOrigin ∧
    info.sigV = opts.logSigVerifier

theorem Configured.parse (configured : Configured w opts) (raw : Bytes) :
    w.notes.parseCheckpoint raw opts.logOrigin opts.logSigVerifier [] = parse w raw opts.logID := by
  obtain ⟨info, known, origin, sigV⟩ := configured
  rw [WitnessServer.parse, known, ← origin, ← sigV]

def Parsed (w : Witness) (opts : FeedOpts) (s : Submission) : Prop :=
  ∃ note, parse w s.cpRaw opts.logID = .ok (s.cpSubmit, note)

/-- The bytes were held by the witness between two moments and are for the submitted checkpoint. -/
def Witnessed (w : Witness) (opts : FeedOpts) (schedule : Nat → Event)
    (started stopped : Nat) (s : Submission) (bytes : Bytes) : Prop :=
  (∃ j, started ≤ j ∧ j ≤ stopped ∧
    ∃ value, (run w schedule j).store opts.logID = some value ∧ value.rawChkpt = bytes) ∧
  ∃ cp, w.notes.stated bytes = some cp ∧ cp.size = s.cpSubmit.size ∧ cp.hash = s.cpSubmit.hash

-- What a feeder has established by moment `n`.
def FeedingOk (w : Witness) (opts : FeedOpts) (schedule : Nat → Event)
    (n : Nat) (f : FeederState) : Prop :=
  f.started ≤ n ∧
  match f.state with
  | .asking s | .proving s _ | .failed s _ => Parsed w opts s
  | .updating s id => Parsed w opts s ∧ ∃ t proof, f.started ≤ t ∧ t < n ∧
      (run w schedule t).calls id = .idle ∧ schedule t = .invoke id ⟨opts.logID, s.cpRaw, proof⟩
  | .returned (some s) (.ok bytes) =>
    Parsed w opts s ∧ Witnessed w opts schedule f.started f.stopped s bytes
  | .returned none (.ok _) => False
  | _ => True

variable (configured : Configured w opts) (lawful : SignedNote.Lawful w.notes)
include configured lawful

omit configured lawful in
theorem FeedingOk.wait {n : Nat} {f : FeederState} (ok : FeedingOk w opts schedule n f) :
    FeedingOk w opts schedule (n + 1) f := by
  obtain ⟨started, at'⟩ := ok
  refine ⟨Nat.le_succ_of_le started, ?_⟩
  split at at' <;> try exact at'
  obtain ⟨parsed, t, proof, after, before, idle, invoked⟩ := at'
  exact ⟨parsed, t, proof, after, Nat.lt_succ_of_lt before, idle, invoked⟩

omit lawful in
theorem receiveCheckpoint_ok {n : Nat} {f : FeederState} (started : f.started ≤ n)
    (answer : Except GoError Bytes) :
    FeedingOk w opts schedule (n + 1) (f.goto n (receiveCheckpoint w opts answer)) := by
  refine ⟨Nat.le_succ_of_le started, ?_⟩
  cases answer with
  | error reason => trivial
  | ok cp =>
    simp only [FeederState.goto, receiveCheckpoint]
    cases parsed : w.notes.parseCheckpoint cp opts.logOrigin opts.logSigVerifier [] with
    | error reason => trivial
    | ok result =>
      obtain ⟨cpSubmit, note⟩ := result
      exact ⟨note, by rw [← configured.parse]; exact parsed⟩

theorem compareLatest_ok {n : Nat} {f : FeederState} {s : Submission} (started : f.started ≤ n)
    (parsed : Parsed w opts s) {latest : Except GoError Bytes}
    (held : ∀ raw, latest = .ok raw → ∃ value, (run w schedule n).store opts.logID = some value ∧
      value.rawChkpt = raw) :
    FeedingOk w opts schedule (n + 1) (f.goto n (compareLatest w opts s latest)) := by
  refine ⟨Nat.le_succ_of_le started, ?_⟩
  simp only [FeederState.goto, compareLatest]
  cases latest with
  | error reason =>
    dsimp only
    by_cases missing : reason.isErrNotExist = true
    · rw [if_pos missing]
      exact parsed
    · rw [if_neg missing]
      exact parsed
  | ok raw =>
    dsimp only
    by_cases some' : 0 < raw.length
    swap
    · rw [if_neg some']
      exact parsed
    rw [if_pos some']
    cases known : w.notes.parseCheckpoint raw opts.logOrigin opts.logSigVerifier [] with
    | error reason => exact parsed
    | ok result =>
      obtain ⟨latestCP, note⟩ := result
      dsimp only
      by_cases larger : latestCP.size > s.cpSubmit.size
      · rw [if_pos larger]
        trivial
      rw [if_neg larger]
      by_cases same : latestCP.size = s.cpSubmit.size ∧ latestCP.hash = s.cpSubmit.hash
      · rw [if_pos same]
        rw [configured.parse] at known
        exact ⟨parsed, ⟨n, started, Nat.le_refl n, held raw rfl⟩, latestCP, parse_states lawful known, same⟩
      · rw [if_neg same]
        exact parsed

omit configured in
theorem receiveReply_ok {n t id : Nat} {f : FeederState}
    {s : Submission} {proof : List Bytes} {call : Call} {reply : Reply} (started : f.started ≤ t)
    (parsed : Parsed w opts s) (before : t < n) (idle : (run w schedule t).calls id = .idle)
    (invoked : schedule t = .invoke id ⟨opts.logID, s.cpRaw, proof⟩)
    (returned : (run w schedule n).calls id = .returned call reply) :
    FeedingOk w opts schedule (n + 1) (f.goto n (receiveReply s reply)) := by
  refine ⟨by simp only [FeederState.goto]; omega, ?_⟩
  obtain ⟨body, _ | status⟩ := reply
  swap
  · exact parsed
  have called : (run w schedule (t + 1)).calls id = .called ⟨opts.logID, s.cpRaw, proof⟩ := by
    simp [run, invoked, System.step, idle]
  have own : ((run w schedule n).calls id).call? = some ⟨opts.logID, s.cpRaw, proof⟩ :=
    call_stays w schedule before (by rw [called]; rfl)
  rw [returned] at own
  obtain rfl := Option.some.inj own
  obtain ⟨raw, rfl, j, last, active, held⟩ := returned_held w schedule returned
  obtain ⟨raw', next, nextNote, cp, same, nextParsed, states, size, hash⟩ :=
    returned_answers w schedule lawful returned
  obtain rfl := Option.some.inj same
  have known := parsed
  obtain ⟨sNote, sParsed⟩ := known
  obtain ⟨rfl, _⟩ := Prod.mk.inj (Except.ok.inj (sParsed.symm.trans nextParsed))
  -- The call was not yet made at `t`, so the moment at which it held the checkpoint is later.
  have after : t < j := by
    by_contra early
    have still := idle_before w schedule (Nat.le_of_not_lt early) idle
    rw [still] at active
    exact active
  exact ⟨parsed, ⟨j, by simp only [FeederState.goto]; omega, last, held⟩, cp, states, size, hash⟩

omit configured lawful in
theorem latest_held {n : Nat} {fault : Option GoError} {raw : Bytes}
    (latest : (match fault with
      | some reason => .error reason
      | none => getLatestCheckpoint (run w schedule n).store opts.logID) = Except.ok raw) :
    ∃ value, (run w schedule n).store opts.logID = some value ∧ value.rawChkpt = raw := by
  cases fault with
  | some reason => cases latest
  | none =>
    simp only [getLatestCheckpoint] at latest
    split at latest
    · cases latest
    next value stored => exact ⟨value, stored, Except.ok.inj latest⟩

omit configured lawful in
theorem proved_ok {n id : Nat} {f : FeederState} {answer : Except GoError (List Bytes)}
    (ok : FeedingOk w opts schedule n f) :
    FeedingOk w opts schedule (n + 1)
      (feederStep w opts n (run w schedule n) (schedule n) f (.proved answer id)) := by
  have stays := ok.wait
  obtain ⟨started, at'⟩ := ok
  simp only [feederStep]
  split
  next s latestCP state =>
    rw [state] at at'
    cases answer with
    | error reason => exact ⟨Nat.le_succ_of_le started, at'⟩
    | ok conP =>
      dsimp only
      split
      next idle event =>
        split
        next own =>
          obtain ⟨rfl, rfl⟩ := own
          exact ⟨Nat.le_succ_of_le started, at', n, conP, started, Nat.lt_succ_self n, idle, event⟩
        · exact stays
      · exact stays
  · exact stays

omit configured in
theorem updated_ok {n : Nat} {f : FeederState}
    {fault : Option GoError} (ok : FeedingOk w opts schedule n f) :
    FeedingOk w opts schedule (n + 1)
      (feederStep w opts n (run w schedule n) (schedule n) f (.updated fault)) := by
  have stays := ok.wait
  obtain ⟨started, at'⟩ := ok
  simp only [feederStep]
  split
  next s id state =>
    rw [state] at at'
    cases fault with
    | some reason => exact ⟨Nat.le_succ_of_le started, at'.1⟩
    | none =>
      dsimp only
      split
      next call reply returned =>
        obtain ⟨parsed, t, proof, after, before, idle, invoked⟩ := at'
        exact receiveReply_ok lawful after parsed before idle invoked returned
      · exact stays
  · exact stays

/-- Whatever a feeder does at a moment, it has established what its new state says. -/
theorem feederStep_ok {n : Nat} {f : FeederState}
    (ok : FeedingOk w opts schedule n f) (event : FeederEvent) :
    FeedingOk w opts schedule (n + 1)
      (feederStep w opts n (run w schedule n) (schedule n) f event) := by
  have stays := ok.wait
  obtain ⟨started, at'⟩ := ok
  cases event with
  | wait => exact stays
  | start =>
    simp only [feederStep]
    split
    · exact ⟨Nat.le_succ n, trivial⟩
    · exact ⟨Nat.le_succ n, trivial⟩
    · exact stays
  | fetched answer =>
    simp only [feederStep]
    split
    · exact receiveCheckpoint_ok configured started answer
    · exact stays
  | asked fault =>
    simp only [feederStep]
    split
    next s state =>
      rw [state] at at'
      exact compareLatest_ok configured lawful started at' fun raw latest => latest_held latest
    · exact stays
  | proved answer id => exact proved_ok ⟨started, at'⟩
  | updated fault => exact updated_ok lawful ⟨started, at'⟩
  | retry =>
    simp only [feederStep]
    split
    next s reason state =>
      rw [state] at at'
      exact ⟨Nat.le_succ_of_le started, at'⟩
    · exact stays
  | giveUp =>
    simp only [feederStep]
    split
    · exact ⟨Nat.le_succ_of_le started, trivial⟩
    · exact stays

theorem feederRun_ok (n : Nat) :
    FeedingOk w opts schedule n (feederRun w opts schedule script n) := by
  induction n with
  | zero => exact ⟨Nat.le_refl 0, trivial⟩
  | succ n ih => exact feederStep_ok configured lawful ih (script n)

/-- Whenever a call of FeedOnce has returned without an error, the witness has cosigned what it
returned and held it during the call, it has the size and the hash of the checkpoint that the call
had fetched, and the witness held nothing that contradicts it when the call started. -/
theorem feedOnce_reports_witnessed (n : Nat) (s : Option Submission) (bytes : Bytes)
    (returned : (feederRun w opts schedule script n).state = .returned s (.ok bytes)) :
    ∃ sub note cp, s = some sub ∧
      w.notes.parseCheckpoint sub.cpRaw opts.logOrigin opts.logSigVerifier [] = .ok (sub.cpSubmit, note) ∧
      Cosigned w opts.logID cp bytes ∧ w.notes.stated bytes = some cp ∧
      cp.size = sub.cpSubmit.size ∧ cp.hash = sub.cpSubmit.hash ∧
      (∀ cp' note', parse w bytes opts.logID = .ok (cp', note') → cp' = cp) ∧
      (∃ j, (feederRun w opts schedule script n).started ≤ j ∧
        j ≤ (feederRun w opts schedule script n).stopped ∧
        ∃ value, (run w schedule j).store opts.logID = some value ∧ value.rawChkpt = bytes) ∧
      ∀ value held,
        (run w schedule (feederRun w opts schedule script n).started).store opts.logID = some value →
        Cosigned w opts.logID held value.rawChkpt →
        ¬ (sub.cpSubmit.size < held.size ∨
          held.size = sub.cpSubmit.size ∧ held.hash ≠ sub.cpSubmit.hash) := by
  have run_ok : FeedingOk w opts schedule n (feederRun w opts schedule script n) :=
    feederRun_ok configured lawful n
  have ok := run_ok.2
  rw [returned] at ok
  cases s with
  | none => exact ok.elim
  | some sub =>
    obtain ⟨⟨note, parsed⟩, ⟨j, after, before, value, stored, rfl⟩, cp, states, size, hash⟩ := ok
    obtain ⟨cp', cosigned⟩ := stored_cosigned w schedule stored
    obtain rfl := Option.some.inj (states.symm.trans (cosigned.states lawful))
    refine ⟨sub, note, cp, rfl, by rw [configured.parse]; exact parsed, cosigned, states, size, hash,
      fun cp' note' parsed' => cosigned.parsed lawful parsed', ⟨j, after, before, value, stored, rfl⟩, ?_⟩
    intro first held firstStored heldCosigned
    have heldStates := heldCosigned.states lawful
    obtain ⟨later, laterStored, grown⟩ := stored_chain w schedule lawful after opts.logID first firstStored
    obtain rfl := Option.some.inj (stored.symm.trans laterStored)
    rcases grown with rfl | ⟨prev, next, prevStates, nextStates, larger⟩
    · obtain rfl := Option.some.inj (states.symm.trans heldStates)
      rintro (less | ⟨_, other⟩)
      · omega
      · exact other hash
    · obtain rfl := Option.some.inj (heldStates.symm.trans prevStates)
      obtain rfl := Option.some.inj (states.symm.trans nextStates)
      omega

-- Another client stores a smaller checkpoint while the feeder's first call of Update is under way. That call
-- fails, and the feeder tries again with a proof from the other client's checkpoint.
def contendedSchedule (n : Nat) : Event :=
  [.advance 9, .advance 9, .advance 9, .invoke 0 ⟨"log", logSigned 2 hashBoth, []⟩,
    .invoke 1 ⟨"log", logSigned 1 hashSeven, []⟩, .advance 0, .advance 1, .advance 0, .advance 1, .advance 1,
    .advance 1, .advance 0, .advance 0, .advance 0, .advance 9, .advance 9, .advance 9,
    .invoke 2 ⟨"log", logSigned 2 hashBoth, [hashEight]⟩].getD n (.advance 2)

def contendedScript (n : Nat) : FeederEvent :=
  [.start, .fetched (.ok (logSigned 2 hashBoth)), .asked none, .proved (.ok []) 0, .wait, .wait, .wait, .wait, .wait,
    .wait, .wait, .wait, .wait, .wait, .updated none, .retry, .asked none, .proved (.ok [hashEight]) 2, .wait, .wait,
    .wait, .wait, .wait, .updated none].getD n .wait

def referenceOpts : FeedOpts := ⟨"log", SignedNote.tagVerifier 108, "o"⟩

omit configured lawful in
theorem feedOnce_reports_contended :
    (feederRun referenceWitness referenceOpts contendedSchedule contendedScript 15).state =
      .failed ⟨logSigned 2 hashBoth, ⟨"o", 2, hashBoth⟩⟩ (.text "failed to submit checkpoint to witness: %v") ∧
    (run referenceWitness contendedSchedule 15).store "log" = some (cosigned 1 hashSeven) ∧
    (feederRun referenceWitness referenceOpts contendedSchedule contendedScript 24).state =
      .returned (some ⟨logSigned 2 hashBoth, ⟨"o", 2, hashBoth⟩⟩) (.ok (cosigned 2 hashBoth).rawChkpt) ∧
    ∃ cp, Cosigned referenceWitness "log" cp (cosigned 2 hashBoth).rawChkpt ∧ cp.size = 2 ∧ cp.hash = hashBoth ∧
      ∃ j ≤ 23, ∃ value, (run referenceWitness contendedSchedule j).store "log" = some value ∧
        value.rawChkpt = (cosigned 2 hashBoth).rawChkpt := by
  have refused : (feederRun referenceWitness referenceOpts contendedSchedule contendedScript 15).state =
      .failed ⟨logSigned 2 hashBoth, ⟨"o", 2, hashBoth⟩⟩ (.text "failed to submit checkpoint to witness: %v") := by
    decide +kernel
  have returned : (feederRun referenceWitness referenceOpts contendedSchedule contendedScript 24).state =
      .returned (some ⟨logSigned 2 hashBoth, ⟨"o", 2, hashBoth⟩⟩) (.ok (cosigned 2 hashBoth).rawChkpt) := by
    decide +kernel
  have stopped : (feederRun referenceWitness referenceOpts contendedSchedule contendedScript 24).stopped = 23 := by
    decide +kernel
  obtain ⟨sub, _, cp, same, _, cosigned, _, size, hash, _, ⟨j, _, before, held⟩, _⟩ :=
    feedOnce_reports_witnessed ⟨_, rfl, rfl, rfl⟩ SignedNote.reference_lawful 24 _ _ returned
  obtain rfl := Option.some.inj same
  exact ⟨refused, by decide +kernel, returned, cp, cosigned, size, hash, j, by omega, held⟩

end Reports

end Feeder
