import TrillianServerless.Packages.Compact
import TrillianServerless.Packages.Merkle
import TrillianServerless.SumDbAudit.Database

set_option autoImplicit false

namespace Audit

open Go Sql Merkle

-- The records of a tile are divided by blank lines.
def dataToLeaves (data : Bytes) : List Bytes :=
  let (result, start) := (List.range data.length).foldl
    (fun (result, start) i =>
      if data[i]? = some 10 ∧ start < i ∧ data[i - 1]? = some 10 then
        (result ++ [(data.drop start).take (i - start)], i + 1)
      else (result, start))
    ([], 0)
  result ++ [data.drop start]

/-- What the SumDB answers during a call: after any retries, for full tiles by their offset and for partial
ones by offset and count. -/
structure Server where
  full : Nat → Except GoError Bytes
  part : Nat → Nat → Except GoError Bytes

def Server.fullLeavesAtOffset (server : Server) (offset : Nat) : Except GoError (List Bytes) :=
  (server.full offset).map dataToLeaves

def Server.partialLeavesAtOffset (server : Server) (offset count : Nat) : Except GoError (List Bytes) :=
  (server.part offset count).map dataToLeaves

/-- `hasher` is RecordHash and NodeHash of tlog, `parse` is ParseCheckpointNote. -/
structure Service where
  pkg : Compact.Package
  hasher : LogHasher
  parse : Bytes → Except GoError Checkpoint
  height : Nat
  tall : 0 < height

namespace Service

variable (s : Service)

def tileWidth : Nat := 2 ^ s.height

-- Hashes are copied into arrays of their size.
def hash (left right : Bytes) : Bytes := s.hasher.hashChildren (LogHasher.fit left) (LogHasher.fit right)

def countLevels : Nat → Nat → Nat
  | 0, _ => 0
  | fuel + 1, coveredIdx => if coveredIdx = 0 then 0 else countLevels fuel (coveredIdx / s.tileWidth) + 1

-- getLevelsForLeafCount is the topmost level, which is one less.
def levelsForLeafCount (leaves : Nat) : Nat := s.countLevels leaves (leaves / s.tileWidth)

section Clone

def cloneTile (server : Server) (offset : Nat) : Eff Database Unit := fun d =>
  match server.fullLeavesAtOffset offset with
  | .error reason => (.error reason, d)
  | .ok leaves =>
    let (result, d') := d.writeLeaves .clean (offset * s.tileWidth) leaves
    ((Outcome.ofExcept result).wrap "WriteLeaves: %w", d')

-- The head of an empty database is -1.
def localLeaves (d : Database) : Except GoError Nat :=
  match d.head none with
  | .ok head => .ok (head + 1)
  | .error reason =>
    if reason = errNoDataFound then .ok 0 else .error (.wrap "failed to query for head of local log: %w" reason)

def cloneLeafTiles (server : Server) (checkpoint : Checkpoint) : Eff Database Unit := fun d =>
  match localLeaves d with
  | .error reason => (.error reason, d)
  | .ok localLeaves =>
    if checkpoint.n + 1 < localLeaves then
      (.error (.text "illegal state; more leaves locally (%d) than in SumDB (%d)"), d)
    else
      let remainingChunks := (checkpoint.n - localLeaves) / s.tileWidth
      let startOffset := localLeaves / s.tileWidth
      (do
        let _ ← Eff.each (s.cloneTile server) (List.range' startOffset remainingChunks)
        pure ()) d

end Clone

-- The root of a tile, as the only hash of its range.
def tileRoot (offset : Nat) (hashes : List Bytes) : Outcome Bytes :=
  match (s.pkg.appendAll s.hash (s.pkg.newEmptyRange (offset * s.tileWidth)) hashes).hashes with
  | [root] => .ok root
  | _ => .error (.text "expected single root hash but got %d")

section Check

variable (getTile : Nat → Nat → Outcome (List Bytes))

def addTile (level : Nat) (logRange : Compact.Range) (offset : Nat) : Outcome Compact.Range :=
  let tileLeafCount := 2 ^ ((level + 1) * s.height)
  match getTile level offset with
  | .error _ => .error (.text "failed to get tile L=%d, O=%d: %v")
  | .panic reason => .panic reason
  | .ok tHashes =>
    let tcr := s.pkg.appendAll s.hash (s.pkg.newEmptyRange 0) tHashes
    match s.pkg.newRange (offset * tileLeafCount) ((offset + 1) * tileLeafCount) tcr.hashes with
    | .error _ => .error (.text "failed to create range for tile L=%d, O=%d: %v")
    | .ok treeRange => .ok (s.pkg.appendRange s.hash logRange treeRange).range

def addLevel (n : Nat) (logRange : Compact.Range) (level : Nat) : Outcome Compact.Range :=
  let tileLeafCount := 2 ^ ((level + 1) * s.height)
  let levelTileCount := n / tileLeafCount
  let firstTileOffset := logRange.stop / tileLeafCount
  (List.range' firstTileOffset (levelTileCount - firstTileOffset)).foldlM (s.addTile getTile level) logRange

def addStragglers (n : Nat) (getStragglers : Nat → Outcome (List Bytes)) (logRange : Compact.Range) :
    Outcome Compact.Range :=
  let stragglersCount := n - logRange.stop
  if 0 < stragglersCount then do
    let stragglers ← (getStragglers stragglersCount).wrap "failed to get stragglers: %w"
    if stragglers.length < stragglersCount then .panic "index out of range"
    else pure (s.pkg.appendAll s.hash logRange (stragglers.take stragglersCount))
  else pure logRange

def checkCheckpoint (cp : Checkpoint) (getStragglers : Nat → Outcome (List Bytes)) : Outcome Unit := do
  let tiles ← (List.range (s.levelsForLeafCount cp.n)).reverse.foldlM (s.addLevel getTile cp.n)
    (s.pkg.newEmptyRange 0)
  let logRange ← s.addStragglers cp.n getStragglers tiles
  if logRange.stop ≠ cp.n then .error (.text "calculation error, found %d leaves but was aiming for %d")
  else
    match (s.pkg.getRootHash s.hash logRange).1 with
    | .error reason => .error (.wrap "failed to get root hash: %w" reason)
    | .ok root =>
      if LogHasher.fit root ≠ cp.hash then
        .error (.text "log root mismatch at tree size %d; calculated %x, want %x")
      else .ok ()

end Check

-- Stragglers of a checkpoint that are in a tile by now.
def localStragglers (fault : Nat → Nat → Option GoError) (cp : Checkpoint) (d : Database) : Outcome (List Bytes) :=
  d.tile (fault 0 (cp.n / s.tileWidth)) s.height 0 (cp.n / s.tileWidth)

def localTile (fault : Nat → Nat → Option GoError) (d : Database) (level offset : Nat) : Outcome (List Bytes) :=
  d.tile (fault level offset) s.height level offset

def checkConsistency (d : Database) : Outcome Unit :=
  match d.goldenCheckpoint s.parse none with
  | .error reason =>
    if reason = errNoDataFound then .ok ()
    else .error (.wrap "failed to query for golden checkpoint: %w" reason)
  | .ok golden =>
    match d.head none with
    | .error reason => .error (.wrap "cannot find head of local log: %w" reason)
    | .ok head =>
      if head < golden.n then .ok ()
      else
        (s.checkCheckpoint (s.localTile (fun _ _ => none) d) golden
          (fun _ => s.localStragglers (fun _ _ => none) golden d)).wrap
          "local log failed consistency with previous golden checkpoint: %w"

-- The results of a partial tile are as many as were asked for, nil where none came.
def remoteStragglers (server : Server) (cp : Checkpoint) (stragglerCount : Nat) : Outcome (List Bytes) :=
  match server.partialLeavesAtOffset (cp.n / s.tileWidth) stragglerCount with
  | .error reason => .error (.wrap "failed to get stragglers: %w" reason)
  | .ok stragglers =>
    if stragglerCount < stragglers.length then .panic "index out of range"
    else .ok (stragglers.map s.hasher.hashLeaf ++ List.replicate (stragglerCount - stragglers.length) [])

def checkRootHash (server : Server) (cp : Checkpoint) (d : Database) : Outcome Unit :=
  (s.checkCheckpoint (s.localTile (fun _ _ => none) d) cp (s.remoteStragglers server cp)).wrap
    "local log does not match the SumDB checkpoint: %w"

-- What Sync does once hashTiles has returned.
def finishSync (server : Server) (checkpoint : Checkpoint) (hashed : Outcome Unit) : Eff Database Unit := do
  Eff.wrap "hashTiles: %w" (Eff.lift hashed)
  Eff.wrap "checkConsistency: %w" fun d => (s.checkConsistency d, d)
  Eff.wrap "checkRootHash: %w" fun d => (s.checkRootHash server checkpoint d, d)
  Database.setGoldenCheckpoint checkpoint

/-- Which reads of the database fail during a call. -/
structure ReadFaults where
  golden : Option GoError
  head : Option GoError
  tile : Nat → Nat → Option GoError

def ReadFaults.clean : ReadFaults := ⟨none, none, fun _ _ => none⟩

-- What CheckConsistency returns: nil, an error of one of its two types or any other.
inductive Answer
  | consistent
  | checkpointTooFresh (requestedSize maxSize : Nat)
  | inconsistentCheckpoints (a b : Checkpoint)
  | failed (reason : GoError)
  | panicked (reason : String)
  deriving DecidableEq

-- CheckConsistency, for a given checkpoint.
def checkConsistencyOf (faults : ReadFaults) (checkpoint : Checkpoint) (d : Database) : Answer :=
  match d.goldenCheckpoint s.parse faults.golden with
  | .error reason => .failed (.wrap "failed to query for golden checkpoint: %w" reason)
  | .ok golden =>
    if checkpoint.raw = golden.raw then .consistent
    else
      match d.head faults.head with
      | .error reason => .failed (.wrap "cannot find head of local log: %w" reason)
      | .ok head =>
        if head < checkpoint.n then .checkpointTooFresh checkpoint.n head
        else
          match s.checkCheckpoint (s.localTile faults.tile d) checkpoint
            (fun _ => s.localStragglers faults.tile checkpoint d) with
          | .ok _ => .consistent
          | .error _ => .inconsistentCheckpoints golden checkpoint
          | .panic reason => .panicked reason

end Service

section Pairs

-- A log of small records in tiles of two. A note lists the records.
def pairLeaves : List Bytes := [[1, 10], [2, 10], [3, 10], [4, 10]]

def pairLeaf (x : UInt8) : Bytes := LogHasher.numbered 1 (pairLeaves ++ [[5, 10]]) [x, 10]

def pairNode (i : UInt8) : Bytes := LogHasher.fit [2, i]

def pairHasher : LogHasher :=
  .listing (pairLeaves ++ [[5, 10]]) [pairLeaf 1 ++ pairLeaf 2, pairLeaf 3 ++ pairLeaf 4, pairNode 0 ++ pairLeaf 3,
    pairNode 0 ++ pairLeaf 4, pairNode 0 ++ pairNode 1, pairLeaf 2 ++ pairLeaf 3, pairNode 5 ++ pairLeaf 4,
    pairNode 4 ++ pairLeaf 5]

def pairNote (records : Bytes) (few : records.length < 2 ^ 63) : Checkpoint :=
  ⟨records.length, treeHash pairHasher.hashChildren (LogHasher.fit [])
    ((records.map fun x => [x, 10]).map pairHasher.hashLeaf), records, few⟩

def pairs : Service where
  pkg := Compact.reference
  hasher := pairHasher
  parse raw := if few : raw.length < 2 ^ 63 then .ok (pairNote raw few) else .error (.text "too long")
  height := 1
  tall := Nat.one_pos

def pairServer (records : Bytes) : Server where
  full offset :=
    match records[2 * offset]?, records[2 * offset + 1]? with
    | some x, some y => .ok [x, 10, 10, y, 10]
    | _, _ => .error (.text "not found")
  part offset _ :=
    match records[2 * offset]? with
    | some x => .ok [x, 10]
    | none => .error (.text "not found")

end Pairs

end Audit
