import TrillianServerless.Shared.Json
import TrillianServerless.Firmware.Log

set_option autoImplicit false

namespace Firmware

open Go Checkpoints

-- types.LogRootV1 of google/trillian.
structure LogRootV1 where
  treeSize : Nat
  rootHash : Bytes
  timestampNanos : Nat
  deriving DecidableEq, Repr

-- `none` is a nil slice.
structure MapCheckpoint where
  logCheckpoint : Option Bytes
  logSize : Nat
  rootHash : Option Bytes
  revision : Nat
  deriving DecidableEq, Repr

def MapCheckpoint.zero : MapCheckpoint := ⟨none, 0, none, 0⟩

-- Of a tile the server reads the root hash only.
structure MapReader where
  latestRevision : Except GoError (Int × LogRootV1 × Int)
  tile : Int → Bytes → Except GoError (Option Bytes)

def uint64 (n : Int) : Nat := (n % 2 ^ 64).toNat

section Server

-- Marshal of log.Checkpoint, of transparency-dev/formats,
variable (marshalCheckpoint : Checkpoint → Bytes)

/-- which is documented to write the origin, the size and the root hash, a line each. -/
def WritesLines : Prop := ∀ cp, marshalCheckpoint cp =
  asciiBytes cp.origin ++ [newline] ++ formatUint 10 cp.size ++ [newline] ++ encodeBase64 cp.hash ++ [newline]

def LogCheckpoint.marshal (l : LogCheckpoint) : Bytes :=
  marshalCheckpoint l.toCheckpoint ++ (formatUint 10 l.timestampNanos ++ [newline])

def MapCheckpoint.members (cp : MapCheckpoint) : List (Bytes × Bytes) :=
  [(asciiBytes "LogCheckpoint", Json.encodeBytes cp.logCheckpoint), (asciiBytes "LogSize", formatUint 10 cp.logSize),
    (asciiBytes "RootHash", Json.encodeBytes cp.rootHash), (asciiBytes "Revision", formatUint 10 cp.revision)]

-- json.Marshal of a MapCheckpoint.
def MapCheckpoint.marshal (cp : MapCheckpoint) : Bytes := Json.encodeStruct cp.members

def rootCheckpoint (root : LogRootV1) : LogCheckpoint :=
  ⟨⟨ftLogOrigin, root.treeSize, root.rootHash⟩, root.timestampNanos, []⟩

-- An error is answered with the status 500.
def MapReader.getCheckpoint (db : MapReader) : Except GoError Bytes := do
  let (rev, logRootV1, count) ← db.latestRevision
  let rootHash ← db.tile rev []
  let lcp := rootCheckpoint logRootV1
  .ok (MapCheckpoint.marshal ⟨some (lcp.marshal marshalCheckpoint), uint64 count, rootHash, uint64 rev⟩)

end Server

section Client

def mapCheckpointFields : List (Json.Field MapCheckpoint) :=
  [⟨"LogCheckpoint", fun cp v => (Json.toBytes v).map fun b => { cp with logCheckpoint := b }⟩,
    ⟨"LogSize", fun cp v => (v.toUint 64 cp.logSize).map fun n => { cp with logSize := n }⟩,
    ⟨"RootHash", fun cp v => (Json.toBytes v).map fun b => { cp with rootHash := b }⟩,
    ⟨"Revision", fun cp v => (v.toUint 64 cp.revision).map fun n => { cp with revision := n }⟩]

-- The embedded checkpoint's fields are the struct's own.
def logCheckpointFields : List (Json.Field LogCheckpoint) :=
  [⟨"Origin", fun cp v => (v.toText cp.origin).map fun s => { cp with origin := s }⟩,
    ⟨"Size", fun cp v => (v.toUint 64 cp.size).map fun n => { cp with size := n }⟩,
    ⟨"Hash", fun cp v => (Json.toBytes v).map fun b => { cp with hash := b.getD [] }⟩,
    ⟨"TimestampNanos", fun cp v => (v.toUint 64 cp.timestampNanos).map fun n => { cp with timestampNanos := n }⟩,
    ⟨"Envelope", fun cp v => (Json.toBytes v).map fun b => { cp with envelope := b.getD [] }⟩]

-- MapCheckpoint of the map's client.
def mapCheckpoint (response : Except GoError Bytes) : Except GoError MapCheckpoint := do
  let body ← hideErr "failed to fetch checkpoint: %s" response
  (← Json.decodeNext body).decodeStruct mapCheckpointFields .zero

def unmarshalLogCheckpoint (raw : Bytes) : Except GoError LogCheckpoint := do
  (← Json.decodeWhole raw).decodeStruct logCheckpointFields .zero

-- verifyAnnotations, up to where the two checkpoints are known.
def receiveCheckpoints (response : Except GoError Bytes) : Except GoError (MapCheckpoint × LogCheckpoint) := do
  let mcp ← wrapErr "failed to get map checkpoint: %w" (mapCheckpoint response)
  let lcp ← wrapErr "failed to unmarshal log checkpoint: %w" (unmarshalLogCheckpoint (mcp.logCheckpoint.getD []))
  .ok (mcp, lcp)

end Client

section Wire

theorem uint64_lt (n : Int) : uint64 n < 2 ^ 64 := by
  have positive := Int.emod_nonneg n (by decide : (2 : Int) ^ 64 ≠ 0)
  have small := Int.emod_lt_of_pos n (by decide : (0 : Int) < 2 ^ 64)
  rw [uint64]
  omega

theorem plain_members (cp : MapCheckpoint) : ∀ m ∈ cp.members, ∀ c ∈ m.1, Json.Plain c := by
  have names : ∀ name ∈ [asciiBytes "LogCheckpoint", asciiBytes "LogSize", asciiBytes "RootHash",
      asciiBytes "Revision"], ∀ c ∈ name, Json.Plain c :=
    Json.plain_of_all (by decide +kernel)
  intro m inside
  have named : m.1 ∈ cp.members.map Prod.fst := List.mem_map_of_mem inside
  exact names m.1 named

-- The outer layer arrives as it was sent,
theorem mapCheckpoint_marshal (cp : MapCheckpoint) (logSize : cp.logSize < 2 ^ 64) (revision : cp.revision < 2 ^ 64) :
    mapCheckpoint (.ok cp.marshal) = .ok cp := by
  have decoded := Json.decodeNext_encodeStruct (plain_members cp)
    (.cons (Json.reads_encodeBytes _ _) (.cons (Json.reads_formatUint _ _) (.cons (Json.reads_encodeBytes _ _)
      (.cons (Json.reads_formatUint _ _) .nil)))) (by simp [MapCheckpoint.members])
  have stored : ∀ start : MapCheckpoint, ∀ v,
      (Json.decodeMember mapCheckpointFields start (asciiBytes "LogCheckpoint", v) =
        (Json.toBytes v).map fun b => { start with logCheckpoint := b }) ∧
      (Json.decodeMember mapCheckpointFields start (asciiBytes "LogSize", v) =
        (v.toUint 64 start.logSize).map fun n => { start with logSize := n }) ∧
      (Json.decodeMember mapCheckpointFields start (asciiBytes "RootHash", v) =
        (Json.toBytes v).map fun b => { start with rootHash := b }) ∧
      (Json.decodeMember mapCheckpointFields start (asciiBytes "Revision", v) =
        (v.toUint 64 start.revision).map fun n => { start with revision := n }) :=
    fun _ _ => ⟨rfl, rfl, rfl, rfl⟩
  have first := Json.toBytes_ofBytes cp.logCheckpoint
  have second := fun old => Json.toUint_formatUint logSize old
  have third := Json.toBytes_ofBytes cp.rootHash
  have fourth := fun old => Json.toUint_formatUint revision old
  have read : Json.decodeStruct mapCheckpointFields .zero (.object ((cp.members.map Prod.fst).zip
      [Json.ofBytes cp.logCheckpoint, .number (formatUint 10 cp.logSize), Json.ofBytes cp.rootHash,
        .number (formatUint 10 cp.revision)])) = .ok cp := by
    simp only [Json.decodeStruct, MapCheckpoint.members, List.map_cons, List.map_nil, List.zip_cons_cons,
      List.zip_nil_left, List.foldlM_cons, List.foldlM_nil, (stored _ _).1, (stored _ _).2.1, (stored _ _).2.2.1,
      (stored _ _).2.2.2, first, second, third, fourth, Except.map, bind, Except.bind, pure, Except.pure]
  rw [mapCheckpoint, MapCheckpoint.marshal]
  simp only [hideErr, Except.mapError, bind, Except.bind, decoded, read]

-- and the inner one is refused: it is the log's text format, which is no JSON.
theorem unmarshalLogCheckpoint_marshal {marshalCheckpoint : Checkpoint → Bytes}
    (lines : WritesLines marshalCheckpoint) (root : LogRootV1) :
    unmarshalLogCheckpoint ((rootCheckpoint root).marshal marshalCheckpoint) = .error Json.syntaxError := by
  obtain ⟨rest, text⟩ : ∃ rest, (rootCheckpoint root).marshal marshalCheckpoint = 70 :: rest := by
    have origin : asciiBytes ftLogOrigin = 70 :: (asciiBytes ftLogOrigin).tail := by decide
    rw [LogCheckpoint.marshal, lines, rootCheckpoint, origin]
    simp only [List.cons_append]
    exact ⟨_, rfl⟩
  rw [unmarshalLogCheckpoint, text, Json.decodeWhole_letter (by decide)]
  rfl

/-- The tool has the log root that the map was built from. -/
def Recovers (answer : Except GoError (MapCheckpoint × LogCheckpoint)) (root : LogRootV1) : Prop :=
  ∃ mcp lcp, answer = .ok (mcp, lcp) ∧ lcp.size = root.treeSize ∧ lcp.hash = root.rootHash ∧
    lcp.timestampNanos = root.timestampNanos

variable {marshalCheckpoint : Checkpoint → Bytes}

theorem receiveCheckpoints_refused (lines : WritesLines marshalCheckpoint) {db : MapReader} {rev count : Int}
    {root : LogRootV1} {rootHash : Option Bytes} (latest : db.latestRevision = .ok (rev, root, count))
    (stored : db.tile rev [] = .ok rootHash) : receiveCheckpoints (db.getCheckpoint marshalCheckpoint) =
      .error (.wrap "failed to unmarshal log checkpoint: %w" Json.syntaxError) := by
  have sent : db.getCheckpoint marshalCheckpoint = .ok (MapCheckpoint.marshal
      ⟨some ((rootCheckpoint root).marshal marshalCheckpoint), uint64 count, rootHash, uint64 rev⟩) := by
    simp [MapReader.getCheckpoint, latest, stored, bind, Except.bind]
  have received := mapCheckpoint_marshal
    ⟨some ((rootCheckpoint root).marshal marshalCheckpoint), uint64 count, rootHash, uint64 rev⟩
    (uint64_lt count) (uint64_lt rev)
  have refused := unmarshalLogCheckpoint_marshal lines root
  simp [receiveCheckpoints, sent, received, refused, wrapErr, Except.mapError, bind, Except.bind]

theorem receiveCheckpoints_never (lines : WritesLines marshalCheckpoint) (db : MapReader)
    (found : MapCheckpoint × LogCheckpoint) :
    receiveCheckpoints (db.getCheckpoint marshalCheckpoint) ≠ .ok found := by
  intro received
  cases answer : db.getCheckpoint marshalCheckpoint with
  | error reason =>
    rw [answer] at received
    cases received
  | ok raw =>
    obtain ⟨⟨rev, root, count⟩, latest, stored⟩ := except_bind_eq_ok.mp answer
    obtain ⟨rootHash, tile, -⟩ := except_bind_eq_ok.mp stored
    rw [receiveCheckpoints_refused lines latest tile] at received
    cases received

theorem logRoot_never_recovered (lines : WritesLines marshalCheckpoint) (db : MapReader) (rev count : Int)
    (root : LogRootV1) (_ : db.latestRevision = .ok (rev, root, count)) :
    ¬ Recovers (receiveCheckpoints (db.getCheckpoint marshalCheckpoint)) root := by
  rintro ⟨mcp, lcp, received, -⟩
  exact receiveCheckpoints_never lines db _ received

-- The revision of the server's own test.
def testReader : MapReader := ⟨.ok (42, ⟨42, [0x12, 0x34], 12345⟩, 111), fun _ _ => .ok (some [0x34, 0x12])⟩

def marshalLines (cp : Checkpoint) : Bytes :=
  asciiBytes cp.origin ++ [newline] ++ formatUint 10 cp.size ++ [newline] ++ encodeBase64 cp.hash ++ [newline]

theorem logRoot_never_recovered_testReader :
    ¬ Recovers (receiveCheckpoints (testReader.getCheckpoint marshalLines)) ⟨42, [0x12, 0x34], 12345⟩ :=
  logRoot_never_recovered (fun _ => rfl) testReader 42 111 ⟨42, [0x12, 0x34], 12345⟩ rfl

theorem test_answer_unreadable :
    testReader.getCheckpoint marshalLines = .ok (asciiBytes
      ("\x7b\"LogCheckpoint\":\"RmlybXdhcmUgVHJhbnNwYXJlbmN5IExvZwo0MgpFalE9CjEyMzQ1Cg==\"," ++
        "\"LogSize\":111,\"RootHash\":\"NBI=\",\"Revision\":42\x7d")) ∧
    ¬ Recovers (receiveCheckpoints (testReader.getCheckpoint marshalLines)) ⟨42, [0x12, 0x34], 12345⟩ := by
  have refused : receiveCheckpoints (testReader.getCheckpoint marshalLines) = .error _ :=
    receiveCheckpoints_refused (fun _ => rfl) rfl rfl
  refine ⟨by decide +kernel, ?_⟩
  rintro ⟨mcp, lcp, received, -⟩
  rw [refused] at received
  cases received

end Wire

end Firmware
