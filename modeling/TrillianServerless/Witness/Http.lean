import TrillianServerless.Shared.JsonIndent
import TrillianServerless.Feeder.FeedOnce
import TrillianServerless.Witness.Sql

set_option autoImplicit false

namespace WitnessHttp

open Go Merkle Checkpoints WitnessServer Feeder Linearize

section Wire

/-- A nil slice is `none`. -/
structure UpdateRequest where
  checkpoint : Option Bytes
  proof : Option (List (Option Bytes))
  deriving DecidableEq, Repr

def requestFields : List (Json.Field UpdateRequest) :=
  [⟨"Checkpoint", fun r v => (Json.toBytes v).map fun b => { r with checkpoint := b }⟩,
    ⟨"Proof", fun r v => (Json.toBytesList v).map fun p => { r with proof := p }⟩]

def requestMembers (r : UpdateRequest) : List (Bytes × Bytes) :=
  [(asciiBytes "Checkpoint", Json.encodeBytes r.checkpoint), (asciiBytes "Proof", Json.indentBytesList 1 r.proof)]

def marshalRequest (r : UpdateRequest) : Bytes := Json.indentStruct 0 (requestMembers r)

def unmarshalRequest (raw : Bytes) : Except GoError UpdateRequest := do
  (← Json.decodeWhole raw).decodeStruct requestFields ⟨none, none⟩

theorem unmarshalRequest_marshal (r : UpdateRequest) : unmarshalRequest (marshalRequest r) = .ok r := by
  have names : ∀ m ∈ requestMembers r, ∀ c ∈ m.1, Json.Plain c := by
    have plain : ∀ name ∈ ["Checkpoint", "Proof"], ∀ c ∈ Checkpoints.asciiBytes name, Json.Plain c :=
      Json.plain_of_all (by decide +kernel)
    simp only [requestMembers, List.forall_mem_cons]
    exact ⟨plain _ (by simp), plain _ (by simp), by simp⟩
  have written := Json.written_indentStruct names (.cons (Json.reads_encodeBytes 9999 r.checkpoint).written
    (.cons (Json.written_indentBytesList 1 r.proof) .nil)) (by simp [requestMembers]) 0
  refine except_bind_eq_ok.mpr ⟨_, Json.Written.decodeWhole written, ?_⟩
  refine (@Json.decodeStruct_named _ _ requestFields _ _ ?_).trans ?_
  · exact .cons rfl (.cons rfl .nil)
  simp only [requestFields, requestMembers, List.map_cons, List.map_nil, List.zip_cons_cons, List.zip_nil_left,
    List.foldlM_cons, List.foldlM_nil, Json.toBytes_ofBytes, Json.toBytesList_ofBytesList, Except.map, bind, Except.bind,
    pure, Except.pure]

end Wire

section Server

structure Response where
  status : Nat
  body : Bytes
  deriving DecidableEq, Repr

def httpForCode : Code → Nat
  | .alreadyExists => 409
  | .notFound => 404
  | .failedPrecondition | .invalidArgument => 400
  | .internal => 500

-- status.Code of an error without one is Unknown.
def httpForFailure : Failure → Nat
  | .status s => httpForCode s.code
  | .other _ => 500

-- What the update handler calls Update with, or answers by itself.
def updateCall (logID : String) (body : Except GoError Bytes) : Except Response Call :=
  match body with
  | .error _ => .error ⟨400, asciiBytes "cannot read request body: %v"⟩
  | .ok raw =>
    match unmarshalRequest raw with
    | .error _ => .error ⟨400, asciiBytes "cannot parse request body as proper JSON struct: %v"⟩
    | .ok req => .ok ⟨logID, req.checkpoint.getD [], (req.proof.getD []).map (·.getD [])⟩

def respond : Answer → Response
  | .update chkpt none => ⟨200, chkpt.getD []⟩
  | .update chkpt (some err) =>
    if httpForFailure err = 409 then ⟨409, chkpt.getD []⟩
    else ⟨httpForFailure err, asciiBytes "failed to update to new checkpoint: %v"⟩
  | .checkpoint (.ok chkpt) => ⟨200, chkpt⟩
  | .checkpoint (.error err) => ⟨httpForFailure err, asciiBytes "failed to get checkpoint: %v"⟩
  -- Logs of the SQL persistence is nil when there are no rows.
  | .logs (.ok []) => ⟨200, Json.encodeBytes none⟩
  | .logs (.ok ids) => ⟨200, Json.encodeArray (ids.map Json.encodeText)⟩
  | .logs (.error _) => ⟨500, asciiBytes "failed to get log list: %v"⟩

end Server

section Client

def errCheckpointTooOld : GoError := .text "checkpoint too old"

def getLatestCheckpoint (resp : Except GoError Response) : Except GoError Bytes :=
  match resp with
  | .error _ => .error (.text "failed to do http request: %v")
  | .ok resp =>
    if resp.status = 404 then .error .notExist
    else if resp.status ≠ 200 then .error (.text "bad status response: %s")
    else .ok resp.body

def update (resp : Except GoError Response) : Option Bytes × Option GoError :=
  match resp with
  | .error _ => (none, some (.text "failed to do http request: %v"))
  | .ok resp =>
    if resp.status ≠ 200 then
      if resp.status = 409 then (some resp.body, some (.wrap "%w: %s" errCheckpointTooOld))
      else (none, some (.text "bad status response (%s): %q"))
    else (some resp.body, none)

end Client

section Feeding

variable (w : Witness) (opts : FeedOpts)

/-- What a run of submitOp gets from the witness and from the log, as far as it asks. -/
structure Try where
  latest : Except GoError Response
  proof : Except GoError (Option (List (Option Bytes)))
  update : Except GoError Response

def submitOp (s : Submission) (t : Try) : Feeding :=
  match compareLatest w opts s (getLatestCheckpoint t.latest) with
  | .proving s _ =>
    match t.proof with
    | .error _ => .failed s (.text "failed to fetch consistency proof: %v")
    | .ok _ =>
      match update t.update with
      | (_, some _) => .failed s (.text "failed to submit checkpoint to witness: %v")
      | (body, none) => .returned (some s) (.ok (body.getD []))
  | state => state

-- The backoff tries again until its context is done.
def submitToWitness (s : Submission) : List Try → Except GoError Bytes
  | [] => .error (.text "witness submission failed: %v")
  | t :: tries =>
    match submitOp w opts s t with
    | .returned _ result => result
    | _ => submitToWitness s tries

def feedOnce (fetched : Except GoError Bytes) (tries : List Try) : Except GoError Bytes :=
  match receiveCheckpoint w opts fetched with
  | .asking s => submitToWitness w opts s tries
  | .returned _ result => result
  | _ => .error (.text "witness submission failed: %v")

variable (schedule : Nat → Sql.Event)

/-- The witness has answered the request between two moments. -/
def Answered (started stopped : Nat) (r : Request) (resp : Response) : Prop :=
  ∃ n ≤ stopped, ∃ id a, (Sql.run w schedule started).procs id = .idle ∧
    (Sql.run w schedule n).procs id = .returned r a ∧ resp = respond a

-- The response to the body of a PUT request, which may not have got to the witness.
def Updated (started stopped : Nat) (logID : String) (raw : Bytes) (resp : Response) : Prop :=
  (∃ refused, updateCall logID (.ok raw) = .error refused ∧ resp = refused) ∨
    ∃ call, updateCall logID (.ok raw) = .ok call ∧ Answered w schedule started stopped (.update call) resp

/-- The responses of a try are those of the witness. -/
structure Try.Served (started stopped : Nat) (cpRaw : Bytes) (t : Try) : Prop where
  latest : ∀ resp, t.latest = .ok resp → Answered w schedule started stopped (.getCheckpoint opts.logID) resp
  update : ∀ conP resp, t.proof = .ok conP → t.update = .ok resp →
    Updated w schedule started stopped opts.logID (marshalRequest ⟨some cpRaw, conP⟩) resp

end Feeding

section Reports

variable {w : Witness} {opts : FeedOpts}
  {schedule : Nat → Sql.Event} {started stopped : Nat}

-- Bytes that the witness has had in its database between two moments.
def Stored (w : Witness) (schedule : Nat → Sql.Event) (started stopped : Nat) (logID : String)
    (bytes : Bytes) : Prop :=
  ∃ j, started ≤ j ∧ j ≤ stopped ∧
    ∃ value, Sql.find (Sql.run w schedule j).rows logID = some value ∧ value.rawChkpt = bytes

theorem stored_of_body {n id : Nat} {r : Request} {a : Answer} {logID : String} {bytes : Bytes} (before : n ≤ stopped)
    (idle : (Sql.run w schedule started).procs id = .idle) (returned : (Sql.run w schedule n).procs id = .returned r a)
    (log : r.log = some logID) (body : a.body = some bytes) : Stored w schedule started stopped logID bytes := by
  obtain ⟨j, earlier, pending, held⟩ := Sql.answered_held returned log body
  refine ⟨j + 1, ?_, by omega, held⟩
  by_contra early
  have still := (Sql.sql_points w schedule).pending_later (show j ≤ started by omega) pending
  simp only [Sql.sqlRun, idle] at still
  rcases still with same | ⟨a, same⟩
  · cases same
  · cases same

theorem httpForFailure_ne (err : Failure) : httpForFailure err ≠ 200 := by
  cases err with
  | status s => cases code : s.code <;> simp [httpForFailure, httpForCode, code]
  | other reason => simp [httpForFailure]

theorem respond_error (body : Option Bytes) (err : Failure) : (respond (.update body (some err))).status ≠ 200 := by
  rw [respond]
  split
  · exact Nat.ne_of_beq_eq_false rfl
  · exact httpForFailure_ne err

theorem respond_fails {a : Answer} (fails : a.Fails) : (respond a).status ≠ 200 := by
  cases a with
  | update body err =>
    obtain ⟨err, rfl⟩ := Option.ne_none_iff_exists'.mp fails.2
    exact respond_error body err
  | checkpoint result =>
    cases result with
    | ok => cases fails
    | error err => exact httpForFailure_ne err
  | logs result =>
    cases result with
    | ok => cases fails
    | error err => simp [respond]

-- A response with status 200 is what the witness answers when it is asked alone.
theorem served_of_ok {n id : Nat} {r : Request} {a : Answer}
    (returned : (Sql.run w schedule n).procs id = .returned r a) (fine : (respond a).status = 200) :
    ∃ store after, Serves w store r a after := by
  have told := @Sql.run_told w schedule n id
  rw [returned] at told
  rcases told with ⟨-, fails⟩ | ⟨j, -, found⟩
  · exact absurd fine (respond_fails fails)
  · exact ⟨_, _, (Sql.point_effect w schedule found).2.1⟩

theorem latest_stored {logID : String} {resp : Response} {bytes : Bytes}
    (answered : Answered w schedule started stopped (.getCheckpoint logID) resp)
    (fine : getLatestCheckpoint (.ok resp) = .ok bytes) : Stored w schedule started stopped logID bytes := by
  obtain ⟨n, before, id, a, idle, returned, rfl⟩ := answered
  obtain ⟨status, body⟩ : (respond a).status = 200 ∧ (respond a).body = bytes := by
    rw [getLatestCheckpoint] at fine
    split at fine
    next => cases fine
    next =>
      split at fine
      next => cases fine
      next good => exact ⟨not_not.mp good, Except.ok.inj fine⟩
  obtain ⟨store, after, served⟩ := served_of_ok returned status
  cases served with
  | getCheckpoint _ =>
    cases found : latest store logID with
    | error err =>
      rw [found] at status
      exact absurd status (httpForFailure_ne err)
    | ok chkpt =>
      rw [found] at returned body
      exact stored_of_body before idle returned rfl (congrArg some body)

theorem update_stored (lawful : SignedNote.Lawful w.notes) {call : Call} {resp : Response} {body : Option Bytes}
    (answered : Answered w schedule started stopped (.update call) resp) (fine : update (.ok resp) = (body, none)) :
    ∃ next nextNote cp, Stored w schedule started stopped call.logID (body.getD []) ∧
      parse w call.nextRaw call.logID = .ok (next, nextNote) ∧ w.notes.stated (body.getD []) = some cp ∧
      cp.size = next.size ∧ cp.hash = next.hash := by
  obtain ⟨n, before, id, a, idle, returned, rfl⟩ := answered
  obtain ⟨status, rfl⟩ : (respond a).status = 200 ∧ some (respond a).body = body := by
    rw [update] at fine
    split at fine
    next =>
      split at fine
      next => cases (Prod.mk.inj fine).2
      next => cases (Prod.mk.inj fine).2
    next good => exact ⟨not_not.mp good, (Prod.mk.inj fine).1⟩
  obtain ⟨store, after, served⟩ := served_of_ok returned status
  cases served with
  | @update _ _ reply served =>
    obtain ⟨chkpt, _ | err⟩ := reply
    · obtain ⟨raw, next, nextNote, cp, rfl, parsed, states, same⟩ := serveUpdate_ok lawful served
      exact ⟨next, nextNote, cp, stored_of_body before idle returned rfl rfl, parsed, states, same⟩
    · exact absurd status (respond_error chkpt (.status err))

theorem updateCall_marshal (logID : String) (r : UpdateRequest) : updateCall logID (.ok (marshalRequest r)) =
    .ok ⟨logID, r.checkpoint.getD [], (r.proof.getD []).map (·.getD [])⟩ := by
  simp only [updateCall, unmarshalRequest_marshal]

-- What is sent is what Update is called with.
theorem Updated.answered {logID : String} {r : UpdateRequest} {resp : Response}
    (updated : Updated w schedule started stopped logID (marshalRequest r) resp) :
    Answered w schedule started stopped
      (.update ⟨logID, r.checkpoint.getD [], (r.proof.getD []).map (·.getD [])⟩) resp := by
  have same := updateCall_marshal logID r
  rcases updated with ⟨refused, failed, -⟩ | ⟨call, made, answered⟩
  · cases same.symm.trans failed
  · obtain rfl := Except.ok.inj (same.symm.trans made)
    exact answered

end Reports

section Tries

variable {w : Witness} {opts : FeedOpts}
  {schedule : Nat → Sql.Event} {started stopped : Nat}

/-- The bytes were in the database, and are for the submitted checkpoint. -/
def Reported (w : Witness) (opts : FeedOpts) (schedule : Nat → Sql.Event)
    (started stopped : Nat) (s : Submission) (bytes : Bytes) : Prop :=
  Stored w schedule started stopped opts.logID bytes ∧ ∃ cp, w.notes.stated bytes = some cp ∧
    cp.size = s.cpSubmit.size ∧ cp.hash = s.cpSubmit.hash

-- What GetLatestCheckpoint leads to: the checkpoint is the witness's already, or a proof is asked for.
theorem compareLatest_cases (s : Submission) (latest : Except GoError Bytes) :
    (∃ latestCP, compareLatest w opts s latest = .proving s latestCP) ∨
    (∃ reason, compareLatest w opts s latest = .failed s reason) ∨
    (∃ reason, compareLatest w opts s latest = .returned (some s) (.error reason)) ∨
    ∃ raw latestCP note, latest = .ok raw ∧
      w.notes.parseCheckpoint raw opts.logOrigin opts.logSigVerifier [] = .ok (latestCP, note) ∧
      latestCP.size = s.cpSubmit.size ∧ latestCP.hash = s.cpSubmit.hash ∧
      compareLatest w opts s latest = .returned (some s) (.ok raw) := by
  unfold compareLatest
  cases latest with
  | error reason =>
    dsimp only
    split
    · exact .inl ⟨_, rfl⟩
    · exact .inr (.inl ⟨_, rfl⟩)
  | ok raw =>
    dsimp only
    split
    next =>
      cases parsed : w.notes.parseCheckpoint raw opts.logOrigin opts.logSigVerifier [] with
      | error reason => exact .inr (.inl ⟨_, rfl⟩)
      | ok found =>
        obtain ⟨latestCP, note⟩ := found
        dsimp only
        split
        · exact .inr (.inr (.inl ⟨_, rfl⟩))
        · split
          next same => exact .inr (.inr (.inr ⟨raw, latestCP, note, rfl, parsed, same.1, same.2, rfl⟩))
          next => exact .inl ⟨_, rfl⟩
    next => exact .inl ⟨_, rfl⟩

theorem submitOp_ok (configured : Configured w opts) (lawful : SignedNote.Lawful w.notes) {s : Submission}
    (parsed : Parsed w opts s) {t : Try} (served : t.Served w opts schedule started stopped s.cpRaw)
    {x : Option Submission} {bytes : Bytes} (returned : submitOp w opts s t = .returned x (.ok bytes)) :
    Reported w opts schedule started stopped s bytes := by
  unfold submitOp at returned
  rcases @compareLatest_cases w opts s (getLatestCheckpoint t.latest) with
    ⟨latestCP, compared⟩ | ⟨reason, compared⟩ | ⟨reason, compared⟩ |
      ⟨raw, latestCP, note, latest, known, size, hash, compared⟩
  · simp only [compared] at returned
    cases proved : t.proof with
    | error reason =>
      rw [proved] at returned
      cases returned
    | ok conP =>
      simp only [proved] at returned
      cases answer : t.update with
      | error reason =>
        rw [answer] at returned
        cases returned
      | ok resp =>
        have asked := (served.update conP resp proved answer).answered
        rw [answer] at returned
        split at returned
        next => cases returned
        next body fine =>
          obtain ⟨-, same⟩ := Feeding.returned.inj returned
          obtain rfl := Except.ok.inj same
          obtain ⟨next, nextNote, cp, stored, nextParsed, states, size, hash⟩ := update_stored lawful asked fine
          obtain ⟨own, ownParsed⟩ := parsed
          obtain ⟨rfl, -⟩ := Prod.mk.inj (Except.ok.inj (nextParsed.symm.trans ownParsed))
          exact ⟨stored, cp, states, size, hash⟩
  · simp only [compared] at returned
    cases returned
  · simp only [compared] at returned
    cases returned
  · simp only [compared] at returned
    obtain ⟨-, same⟩ := Feeding.returned.inj returned
    obtain rfl := Except.ok.inj same
    cases answer : t.latest with
    | error reason =>
      rw [answer] at latest
      cases latest
    | ok resp =>
      rw [answer] at latest
      rw [configured.parse] at known
      exact ⟨latest_stored (served.latest resp answer) latest, latestCP, parse_states lawful known, size, hash⟩

theorem submitToWitness_ok (configured : Configured w opts) (lawful : SignedNote.Lawful w.notes) {s : Submission}
    (parsed : Parsed w opts s) {tries : List Try}
    (served : ∀ t ∈ tries, t.Served w opts schedule started stopped s.cpRaw) {bytes : Bytes}
    (returned : submitToWitness w opts s tries = .ok bytes) : Reported w opts schedule started stopped s bytes := by
  induction tries with
  | nil => cases returned
  | cons t tries ih =>
    rw [submitToWitness] at returned
    split at returned
    next x result ended =>
      rw [returned] at ended
      exact submitOp_ok configured lawful parsed (served t (by simp)) ended
    next => exact ih (fun t' inside => served t' (by simp [inside])) returned

end Tries

/-- Feeding over HTTP a witness with the SQL persistence, which may fail and restart while others use it: a checkpoint
that FeedOnce returns has been in the witness's database during the call, is one that the witness has signed, has the
size and the hash of the one that was fetched, and contradicts nothing that was there before. -/
theorem feedOnce_http_reports_witnessed (w : Witness)
    (opts : FeedOpts) (configured : Configured w opts) (lawful : SignedNote.Lawful w.notes)
    (schedule : Nat → Sql.Event) (started stopped : Nat) (fetched : Except GoError Bytes) (tries : List Try)
    (served : ∀ raw, fetched = .ok raw → ∀ t ∈ tries, t.Served w opts schedule started stopped raw) (bytes : Bytes)
    (returned : feedOnce w opts fetched tries = .ok bytes) :
    ∃ raw sub note cp, fetched = .ok raw ∧ parse w raw opts.logID = .ok (sub, note) ∧
      Cosigned w opts.logID cp bytes ∧ cp.size = sub.size ∧ cp.hash = sub.hash ∧
      (∀ cp' note', parse w bytes opts.logID = .ok (cp', note') → cp' = cp) ∧
      Stored w schedule started stopped opts.logID bytes ∧
      ∀ value held, Sql.find (Sql.run w schedule started).rows opts.logID = some value →
        Cosigned w opts.logID held value.rawChkpt →
        ¬ (sub.size < held.size ∨ held.size = sub.size ∧ held.hash ≠ sub.hash) := by
  cases fetched with
  | error reason => cases returned
  | ok raw =>
    rw [feedOnce, receiveCheckpoint] at returned
    cases parsed : w.notes.parseCheckpoint raw opts.logOrigin opts.logSigVerifier [] with
    | error reason =>
      rw [parsed] at returned
      cases returned
    | ok found =>
      obtain ⟨sub, note⟩ := found
      rw [parsed] at returned
      rw [configured.parse] at parsed
      obtain ⟨stored, cp, states, size, hash⟩ :=
        submitToWitness_ok configured lawful (s := ⟨raw, sub⟩) ⟨note, parsed⟩ (served raw rfl) returned
      dsimp only at size hash
      have inDatabase := stored
      obtain ⟨j, after, -, value', stored', rfl⟩ := stored
      obtain ⟨cp', cosigned⟩ := Sql.sql_cosigned stored'
      obtain rfl := Option.some.inj (states.symm.trans (cosigned.states lawful))
      refine ⟨raw, sub, note, cp, rfl, parsed, cosigned, size, hash,
        fun cp' note' parsed' => cosigned.parsed lawful parsed', inDatabase, ?_⟩
      intro value held before heldCosigned
      obtain ⟨later, laterStored, chain⟩ := Sql.sql_chain after before
      obtain rfl := Option.some.inj (stored'.symm.trans laterStored)
      rcases accepted_eq_or_lt lawful chain (heldCosigned.states lawful) states with rfl | larger
      · rintro (less | ⟨-, other⟩)
        · omega
        · exact other hash
      · omega

section Reference

-- Another client has a smaller checkpoint stored before the feeder asks for it and sends its update.
def sentSchedule (n : Nat) : Sql.Event :=
  [.invoke 0 (.update ⟨"log", logSigned 1 hashSeven, []⟩), .advance 0 none, .advance 0 none, .advance 0 none,
    .advance 0 none, .advance 0 none, .advance 0 none, .advance 0 none, .invoke 1 (.getCheckpoint "log"),
    .advance 1 none, .advance 1 none, .invoke 2 (.update ⟨"log", logSigned 2 hashBoth, [hashEight]⟩), .advance 2 none,
    .advance 2 none, .advance 2 none, .advance 2 none, .advance 2 none, .advance 2 none, .advance 2 none].getD n .restart

-- The first request of the feeder gets lost.
def lostTry : Try := ⟨.error (.text "connection refused"), .error (.text "not asked"), .error (.text "not asked")⟩

def sentTry : Try :=
  ⟨.ok ⟨200, (cosigned 1 hashSeven).rawChkpt⟩, .ok (some [some hashEight]), .ok ⟨200, (cosigned 2 hashBoth).rawChkpt⟩⟩

theorem sentTry_served : sentTry.Served referenceWitness referenceOpts sentSchedule 8 19 (logSigned 2 hashBoth) := by
  refine ⟨fun resp answer => ?_, fun conP resp proved answer => .inr ⟨_, updateCall_marshal _ _, ?_⟩⟩
  · obtain rfl := Except.ok.inj answer
    have idle : ((Sql.run referenceWitness sentSchedule 8).procs 1).phase = .idle := by decide +kernel
    have returned : ((Sql.run referenceWitness sentSchedule 11).procs 1).phase =
        .returned (.getCheckpoint "log") (.checkpoint (.ok (cosigned 1 hashSeven).rawChkpt)) := by decide +kernel
    exact ⟨11, by decide, 1, _, Sql.phase_idle idle, Sql.phase_returned returned, rfl⟩
  · obtain rfl := Except.ok.inj proved
    obtain rfl := Except.ok.inj answer
    have idle : ((Sql.run referenceWitness sentSchedule 8).procs 2).phase = .idle := by decide +kernel
    have returned : ((Sql.run referenceWitness sentSchedule 19).procs 2).phase =
        .returned (.update ⟨"log", logSigned 2 hashBoth, [hashEight]⟩)
          (.update (some (cosigned 2 hashBoth).rawChkpt) none) := by decide +kernel
    exact ⟨19, Nat.le_refl 19, 2, _, Sql.phase_idle idle, Sql.phase_returned returned, rfl⟩

theorem feedOnce_http_reports_sent :
    feedOnce referenceWitness referenceOpts (.ok (logSigned 2 hashBoth)) [lostTry, sentTry] =
      .ok (cosigned 2 hashBoth).rawChkpt ∧
    Sql.find (Sql.run referenceWitness sentSchedule 8).rows "log" = some (cosigned 1 hashSeven) ∧
    Stored referenceWitness sentSchedule 8 19 "log" (cosigned 2 hashBoth).rawChkpt := by
  have returned : feedOnce referenceWitness referenceOpts (.ok (logSigned 2 hashBoth)) [lostTry, sentTry] =
      .ok (cosigned 2 hashBoth).rawChkpt := by
    decide +kernel
  obtain ⟨_, _, _, _, _, _, _, _, _, _, stored, _⟩ := feedOnce_http_reports_witnessed referenceWitness referenceOpts
    ⟨_, rfl, rfl, rfl⟩ SignedNote.reference_lawful sentSchedule 8 19 (.ok (logSigned 2 hashBoth)) [lostTry, sentTry]
    (fun raw fetched t member => by
      obtain rfl := Except.ok.inj fetched
      rcases List.mem_cons.mp member with rfl | last
      · exact ⟨fun resp answer => (by cases answer), fun conP resp proved => (by cases proved)⟩
      · obtain rfl := List.mem_singleton.mp last
        exact sentTry_served) _ returned
  exact ⟨returned, by decide +kernel, stored⟩

end Reference

end WitnessHttp
