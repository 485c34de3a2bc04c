import TrillianServerless.Shared.Text
import TrillianServerless.Packages.Compact
import TrillianServerless.Packages.Note

set_option autoImplicit false

namespace WitnessServer

open Go Merkle Checkpoints
open SignedNote (Note Verifier Signer)

-- Proof.Marshal and Proof.Unmarshal of proof.go.
def marshalProof (proof : List Bytes) : Bytes :=
  proof.flatMap fun line => encodeBase64 line ++ [newline]

def unmarshalProof (data : Bytes) : Except GoError (List Bytes) :=
  if data.getLast? = some newline then
    (data.splitOn newline).dropLast.mapM fun line =>
      match decodeBase64 line with
      | some b => .ok b
      | none => .error (.wrap "failed to decode proof line %d: %w" (.text "illegal base64 data"))
  else .error (.text "data should have trailing newline on last hash too")

inductive Code where
  | notFound
  | invalidArgument
  | alreadyExists
  | failedPrecondition
  | internal
  deriving DecidableEq, Repr

structure Status where
  code : Code
  message : String
  deriving DecidableEq, Repr

abbrev Reply := Option Bytes × Option Status

structure LogInfo where
  sigV : Verifier
  origin : String
  hasher : LogHasher
  useCompact : Bool

-- checkpointState of inmemory.go; `none` is the nil slice that logs without compact ranges store,
-- which reflect.DeepEqual keeps apart from an empty one.
structure CheckpointState where
  rawChkpt : Bytes
  compactRange : Option Bytes
  deriving DecidableEq, Repr

abbrev Store := String → Option CheckpointState

section Update

structure Witness where
  notes : SignedNote.Package
  compact : Compact.Package
  proofs : ProofPackage.Package
  signer : Signer
  logs : String → Option (LogInfo)

def verifyRangeHash (pkg : Compact.Package) (h : LogHasher) (rootHash : Bytes)
    (rng : Compact.Range) : Except GoError Unit := do
  let hash ← hideErr "can't get root hash for range: %v" (pkg.getRootHash h.hashChildren rng).1
  if rootHash = hash then .ok () else .error (.text "hashes aren't equal (got %x, given %x)")

-- The error of AppendRange is not looked at.
def verifyRange (pkg : Compact.Package) (next prev : Checkpoint) (h : LogHasher)
    (rngRaw deltaRaw : List Bytes) : Except GoError (List Bytes) := do
  let rng ← hideErr "can't form current compact range: %v" (pkg.newRange 0 prev.size rngRaw)
  hideErr "old root hash doesn't verify: %v" (verifyRangeHash pkg h prev.hash rng)
  let delta ← hideErr "can't form delta compact range: %v"
    (pkg.newRange prev.size next.size deltaRaw)
  let merged := (pkg.appendRange h.hashChildren rng delta).range
  hideErr "new root hash doesn't verify: %v" (verifyRangeHash pkg h next.hash merged)
  return merged.hashes

-- What setInitChkptData passes to Set as the range of a first checkpoint.
def initRange (pkg : Compact.Package) (info : LogInfo) (c : Checkpoint)
    (rngRaw : List Bytes) : Except GoError (Option Bytes) :=
  if info.useCompact then do
    let rng ← hideErr "can't form compact range: %v" (pkg.newRange 0 c.size rngRaw)
    hideErr "input root hash doesn't verify: %v" (verifyRangeHash pkg info.hasher c.hash rng)
    return some (marshalProof rngRaw)
  else return none

def parse (w : Witness) (chkptRaw : Bytes) (logID : String) :
    Except GoError (Checkpoint × Note) :=
  match w.logs logID with
  | none => .error (.text "log %q not found")
  | some info => w.notes.parseCheckpoint chkptRaw info.origin info.sigV []

def signChkpt (w : Witness) (n : Note) : Except GoError Bytes :=
  hideErr "couldn't sign checkpoint: %v" (w.notes.sign n [w.signer])

structure Call where
  logID : String
  nextRaw : Bytes
  cProof : List Bytes
  deriving DecidableEq, Repr

-- What Update does once it knows the stored state: reply, or call Set and reply `message` as an
-- internal error when Set fails.
inductive Plan where
  | reply (r : Reply)
  | set (new : CheckpointState) (message : String)
  deriving DecidableEq, Repr

def firstUse (w : Witness) (info : LogInfo) (call : Call)
    (next : Checkpoint) (nextNote : Note) : Plan :=
  match signChkpt w nextNote with
  | .error _ => .reply (none, some ⟨.internal, "couldn't sign input checkpoint: %v"⟩)
  | .ok signed =>
    match initRange w.compact info next call.cProof with
    | .error _ => .reply (none, some ⟨.internal, "couldn't set TOFU checkpoint: %v"⟩)
    | .ok range => .set ⟨signed, range⟩ "couldn't set TOFU checkpoint: %v"

def verifyNext (w : Witness) (info : LogInfo) (call : Call)
    (prev next : Checkpoint) (prevRange : List Bytes) : Except Status (Option Bytes) :=
  if info.useCompact then
    match verifyRange w.compact next prev info.hasher prevRange call.cProof with
    | .error _ => .error ⟨.failedPrecondition, "failed to verify compact range: %v"⟩
    | .ok nextRange => .ok (some (marshalProof nextRange))
  else
    match w.proofs.verifyConsistency info.hasher prev.size next.size call.cProof prev.hash
        next.hash with
    | .error _ => .error ⟨.failedPrecondition, "failed to verify consistency proof: %v"⟩
    | .ok () => .ok none

def replaceStored (w : Witness) (info : LogInfo) (call : Call)
    (next : Checkpoint) (nextNote : Note) (stored : CheckpointState) : Plan :=
  match parse w stored.rawChkpt call.logID with
  | .error _ => .reply (none, some ⟨.internal, "couldn't parse stored checkpoint: %v"⟩)
  | .ok (prev, _) =>
    match (if info.useCompact then unmarshalProof (stored.compactRange.getD []) else .ok []) with
    | .error _ => .reply (none, some ⟨.invalidArgument, "couldn't unmarshal proof: %v"⟩)
    | .ok prevRange =>
      if next.size < prev.size then
        .reply (some stored.rawChkpt,
          some ⟨.alreadyExists, "cannot prove consistency backwards (%d < %d)"⟩)
      else if next.size = prev.size then
        if next.hash = prev.hash then .reply (some stored.rawChkpt, none)
        else .reply (some stored.rawChkpt, some ⟨.failedPrecondition,
          "checkpoint for same size log with differing hash (got %x, have %x)"⟩)
      else
        match verifyNext w info call prev next prevRange with
        | .error status => .reply (some stored.rawChkpt, some status)
        | .ok range =>
          match signChkpt w nextNote with
          | .error _ => .reply (none, some ⟨.internal, "couldn't sign input checkpoint: %v"⟩)
          | .ok signed => .set ⟨signed, range⟩ "failed to store new checkpoint: %v"

def plan (w : Witness) (info : LogInfo) (call : Call)
    (next : Checkpoint) (nextNote : Note) : Option CheckpointState → Plan
  | none => firstUse w info call next nextNote
  | some stored => replaceStored w info call next nextNote stored

-- One call of Update between two of its steps.
inductive CallState where
  | idle
  | called (call : Call)
  | parsed (call : Call) (info : LogInfo) (next : Checkpoint) (nextNote : Note)
  | opened (call : Call) (info : LogInfo) (next : Checkpoint) (nextNote : Note)
      (read : Option CheckpointState)
  | storing (call : Call) (read : Option CheckpointState) (new : CheckpointState)
      (message : String)
  | finished (call : Call) (reply : Reply)
  | returned (call : Call) (reply : Reply)

def receive (w : Witness) (call : Call) : CallState :=
  match w.logs call.logID with
  | none => .finished call (none, some ⟨.notFound, "log %q not found"⟩)
  | some info =>
    match parse w call.nextRaw call.logID with
    | .error _ =>
      .finished call (none, some ⟨.invalidArgument, "couldn't parse input checkpoint: %v"⟩)
    | .ok (next, nextNote) => .parsed call info next nextNote

-- expectAndWrite: the value read by WriteOps must still be stored.
def expectAndWrite (store : Store) (logID : String) (old : Option CheckpointState)
    (new : CheckpointState) : Option Store :=
  if store logID = old then some (Function.update store logID (some new)) else none

def advance (w : Witness) (store : Store) :
    CallState → Store × CallState
  | .idle => (store, .idle)
  | .called call => (store, receive w call)
  | .parsed call info next nextNote =>
    (store, .opened call info next nextNote (store call.logID))
  | .opened call info next nextNote read =>
    match plan w info call next nextNote read with
    | .reply r => (store, .finished call r)
    | .set new message => (store, .storing call read new message)
  | .storing call read new message =>
    match expectAndWrite store call.logID read new with
    | some written => (written, .finished call (some new.rawChkpt, none))
    | none => (store, .finished call (none, some ⟨.internal, message⟩))
  | .finished call reply => (store, .returned call reply)
  | .returned call reply => (store, .returned call reply)

structure System where
  store : Store
  calls : Nat → CallState

-- A scheduler invokes calls and lets one call at a time take its next step.
inductive Event where
  | invoke (id : Nat) (call : Call)
  | advance (id : Nat)

def Event.actor : Event → Nat
  | .invoke id _ => id
  | .advance id => id

def System.initial : System := ⟨fun _ => none, fun _ => .idle⟩

def System.step (w : Witness) (s : System) :
    Event → System
  | .invoke id call =>
    match s.calls id with
    | .idle => ⟨s.store, Function.update s.calls id (.called call)⟩
    | _ => s
  | .advance id =>
    let result := advance w s.store (s.calls id)
    ⟨result.1, Function.update s.calls id result.2⟩

def run (w : Witness) (schedule : Nat → Event) : Nat → System
  | 0 => .initial
  | n + 1 => (run w schedule n).step w (schedule n)

end Update

end WitnessServer
