import TrillianServerless.Clone.LogDb

set_option autoImplicit false

namespace Audit

open Go Sql

def hashLenBytes : Nat := 32

def errNoDataFound : GoError := .text "no data found"

structure Metadata where
  module : Bytes
  version : Bytes
  repoHash : Bytes
  modHash : Bytes
  deriving DecidableEq, Repr

-- tlog.Tree with the note it comes from; N is an int64 that is not negative.
structure Checkpoint where
  n : Nat
  hash : Bytes
  raw : Bytes
  small : n < 2 ^ 63
  deriving DecidableEq

/-- The tables of the auditor. Tiles have height, level and offset as key, the newest checkpoint is the
first. -/
structure Database where
  leaves : Table Bytes
  tiles : Nat → Nat → Nat → Option Bytes
  checkpoints : List Bytes
  leafMetadata : Table Metadata

namespace Database

def empty : Database := ⟨.empty, fun _ _ _ => none, [], .empty⟩

def head (fault : Option GoError) (d : Database) : Except GoError Nat :=
  match fault, d.leaves.max? with
  | some _, _ => .error (.text "failed to get max revision: %v")
  | none, none => .error errNoDataFound
  | none, some id => .ok id

def goldenCheckpoint (parse : Bytes → Except GoError Checkpoint) (fault : Option GoError) (d : Database) :
    Except GoError Checkpoint :=
  match fault, d.checkpoints with
  | some reason, _ => .error (.wrap "failed to get latest checkpoint: %w" reason)
  | none, [] => .error errNoDataFound
  | none, data :: _ => parse data

-- The clock gives every checkpoint a key of its own.
def setGoldenCheckpoint (cp : Checkpoint) : Eff Database Unit := fun d =>
  (.ok (), { d with checkpoints := cp.raw :: d.checkpoints })

-- Leaves, for a contiguous block.
def leafBlock (start count : Nat) (d : Database) : Except GoError (List Bytes) :=
  let res := d.leaves.select start (start + count)
  if res.length ≠ count then .error (.text "failed to read %d leaves, only found %d") else .ok res

def splitTile (hashes : Bytes) (height : Nat) : Outcome (List Bytes) :=
  if hashes.length < 2 ^ height * hashLenBytes then .panic "slice bounds out of range"
  else .ok ((List.range (2 ^ height)).map fun i => (hashes.drop (i * hashLenBytes)).take hashLenBytes)

def tile (fault : Option GoError) (height level offset : Nat) (d : Database) : Outcome (List Bytes) :=
  match fault, d.tiles height level offset with
  | some reason, _ => .error reason
  | none, none => .error errNoDataFound
  | none, some hashes => splitTile hashes height

def setTile (height level offset : Nat) (hashes : Bytes) : Eff Database Unit := fun d =>
  if hashes.length ≠ 2 ^ height * hashLenBytes then (.error (.text "wanted %d tile hash bytes but got %d"), d)
  else
    match d.tiles height level offset with
    | some _ => (.error (.text "UNIQUE constraint failed"), d)
    | none =>
      (.ok (), { d with
        tiles := fun h l o => if h = height ∧ l = level ∧ o = offset then some hashes else d.tiles h l o })

-- What WriteLeaves and SetLeafMetadata have in common.
def writeRows {Row : Type} (faults : Faults) (start : Nat) (rows : List Row) (t : Table Row) :
    Except GoError Unit × Table Row :=
  transact (fun _ => .text "BeginTx: %v") faults (Table.counted start rows) t

def writeLeaves (faults : Faults) (start : Nat) (leaves : List Bytes) (d : Database) :
    Except GoError Unit × Database :=
  let result := writeRows faults start leaves d.leaves
  (result.1, { d with leaves := result.2 })

def setLeafMetadata (faults : Faults) (start : Nat) (metadata : List Metadata) (d : Database) :
    Except GoError Unit × Database :=
  let result := writeRows faults start metadata d.leafMetadata
  (result.1, { d with leafMetadata := result.2 })

end Database

section Writes

variable {faults : Faults} {d : Database}

theorem writeLeaves_whole_iff {start : Nat} {leaves : List Bytes} (length : leaves.length ≤ 2 ^ 64) :
    Whole (fun d' : Database => Stored (Table.counted start leaves) d'.leaves) d
        (d.writeLeaves faults start leaves) ↔
      faults.begins ≠ none ∨ faults.commits ≠ none ∨
        faults.Harmless (Table.counted start leaves) d.leaves := by
  rw [← transact_whole_iff (fun _ => .text "BeginTx: %v") (Table.counted_nodup length)]
  exact whole_within Database.leaves (fun t => { d with leaves := t }) (fun _ => rfl) rfl _

theorem setLeafMetadata_whole_iff {start : Nat} {metadata : List Metadata}
    (length : metadata.length ≤ 2 ^ 64) :
    Whole (fun d' : Database => Stored (Table.counted start metadata) d'.leafMetadata) d
        (d.setLeafMetadata faults start metadata) ↔
      faults.begins ≠ none ∨ faults.commits ≠ none ∨
        faults.Harmless (Table.counted start metadata) d.leafMetadata := by
  rw [← transact_whole_iff (fun _ => .text "BeginTx: %v") (Table.counted_nodup length)]
  exact whole_within Database.leafMetadata (fun t => { d with leafMetadata := t }) (fun _ => rfl) rfl _

/-- A batch is written as a whole exactly when the transaction fails as one, or none of its statements
does but for rows that are there already. -/
theorem batches_whole_iff (faults : Faults) (scan : Option GoError) (log : LogDb.Database) (audit : Database)
    (start size : Nat) (leaves : List Bytes) (metadata : List Metadata) (checkpoint : Bytes)
    (compactRange : List Bytes) (few : leaves.length ≤ 2 ^ 64) (short : metadata.length ≤ 2 ^ 64) :
    (Whole (fun d' : LogDb.Database => Stored (Table.counted start leaves) d'.leaves) log
        (log.writeLeaves faults start leaves) ↔
      faults.begins ≠ none ∨ faults.commits ≠ none ∨
        faults.Harmless (Table.counted start leaves) log.leaves) ∧
    (Whole (fun d' : Database => Stored (Table.counted start leaves) d'.leaves) audit
        (audit.writeLeaves faults start leaves) ↔
      faults.begins ≠ none ∨ faults.commits ≠ none ∨
        faults.Harmless (Table.counted start leaves) audit.leaves) ∧
    (Whole (fun d' : Database => Stored (Table.counted start metadata) d'.leafMetadata) audit
        (audit.setLeafMetadata faults start metadata) ↔
      faults.begins ≠ none ∨ faults.commits ≠ none ∨
        faults.Harmless (Table.counted start metadata) audit.leafMetadata) ∧
    (Whole (log.Kept size ⟨checkpoint, compactRange⟩) log
        (log.writeCheckpoint faults scan size checkpoint compactRange) ↔
      faults.begins ≠ none ∨ scan ≠ none ∨
        (∃ other, size ≤ other ∧ log.checkpoints.row other ≠ none) ∨
        0 < size ∧ (faults.commits ≠ none ∨ faults.statement 0 = false)) :=
  ⟨LogDb.writeLeaves_whole_iff few, writeLeaves_whole_iff few, setLeafMetadata_whole_iff short,
    LogDb.writeCheckpoint_whole_iff⟩

theorem batches_whole_iff_fresh :
    Whole (fun d' : LogDb.Database => Stored (Table.counted 5 [[1], [2]]) d'.leaves) .empty
      (LogDb.Database.empty.writeLeaves .clean 5 [[1], [2]]) ∧
    Whole (LogDb.Database.empty.Kept 7 ⟨[1], [[2]]⟩) .empty
      (LogDb.Database.empty.writeCheckpoint .clean none 7 [1] [[2]]) := by
  have all := batches_whole_iff .clean none .empty .empty 5 7 [[1], [2]] [⟨[1], [2], [3], [4]⟩] [1] [[2]]
    (by decide) (by decide)
  exact ⟨all.1.mpr (.inr (.inr fun _ _ _ _ => .inr ⟨rfl, rfl⟩)),
    all.2.2.2.mpr (.inr (.inr (.inr ⟨by decide, .inr rfl⟩)))⟩

/-- The id is taken, its statement fails and the batch is reported as written. -/
theorem taken_leaf_reported :
    (LogDb.Database.writeLeaves .clean 0 [[1], [2]] ⟨Table.empty.set 0 [9], .empty⟩).1 = .ok () ∧
    (LogDb.Database.writeLeaves .clean 0 [[1], [2]] ⟨Table.empty.set 0 [9], .empty⟩).2.leaves.row 0 =
      some [9] ∧
    ¬ Whole (fun d' : LogDb.Database => Stored (Table.counted 0 [[1], [2]]) d'.leaves)
      ⟨Table.empty.set 0 [9], .empty⟩
      (LogDb.Database.writeLeaves .clean 0 [[1], [2]] ⟨Table.empty.set 0 [9], .empty⟩) := by
  refine ⟨rfl, by decide, ?_⟩
  rintro (⟨_, stored⟩ | ⟨⟨reason, failed⟩, _⟩)
  · exact absurd (stored (0, [1]) (by decide)) (by decide)
  · cases failed

end Writes

end Audit
