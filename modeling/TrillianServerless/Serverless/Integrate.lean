import Mathlib.Data.List.AList
import TrillianServerless.Serverless.Client

set_option autoImplicit false

namespace Serverless

open Go Merkle Checkpoints

section Integrate

variable {W : Type}

/-- The functions of log.Storage that Integrate calls. `scanSequenced` gives the entries that it hands
to its callback, which never fails, and the error it returns after them. -/
structure Storage (W : Type) where
  getTile : Nat → Nat → Nat → Eff W Tile
  storeTile : Nat → Nat → Tile → Eff W Unit
  scanSequenced : Nat → W → (List Bytes × Option GoError) × W

abbrev TileMap := AList fun _ : TileKey => Tile

abbrev TileEntry := Sigma fun _ : TileKey => Tile

def Tile.setNode (t : Tile) (id : NodeID) (hash : Bytes) : Tile :=
  let address := nodeCoordsToTileAddress id.level id.index
  let idx := tileNodeKey address.nodeLevel address.nodeIndex
  { nodes := (t.nodes ++ List.replicate (idx + 1 - t.nodes.length) none).set idx (some hash)
    numLeaves := if address.nodeLevel = 0 ∧ t.numLeaves ≤ address.nodeIndex then address.nodeIndex + 1
      else t.numLeaves }

def Tile.fresh : Tile := ⟨0, []⟩

def visit (getTile : GetTileFunc W) (m : TileMap) (node : Compact.Visit) : Eff W TileMap := fun w =>
  let key := tileOf node.1
  match m.lookup key with
  | some tile => (.ok (m.insert key (tile.setNode node.1 node.2)), w)
  | none =>
    match getTile key.1 key.2 w with
    | (.ok tile, w') => (.ok (m.insert key (tile.setNode node.1 node.2)), w')
    | (.error reason, w') =>
      if reason.isNotExist then (.ok (m.insert key (Tile.fresh.setNode node.1 node.2)), w')
      else (.panic "panic(err)", w')
    | (.panic reason, w') => (.panic reason, w')

def visitAll (getTile : GetTileFunc W) : TileMap → List Compact.Visit → Eff W TileMap
  | m, [] => pure m
  | m, node :: rest => do
    let m' ← visit getTile m node
    visitAll getTile m' rest

variable (deps : Deps) (st : Storage W) (h : LogHasher)

-- The error of Append is not looked at.
def appendEntries (getTile : GetTileFunc W) : Compact.Range → TileMap → List Bytes →
    Eff W (Compact.Range × TileMap)
  | r, m, [] => pure (r, m)
  | r, m, entry :: rest => do
    let extension := deps.compact.append h.hashChildren r (h.hashLeaf entry)
    let m' ← visitAll getTile m extension.visits
    appendEntries getTile extension.range m' rest

def storedRange (checkpoint : Checkpoint) : Eff W (List Bytes) :=
  fetchRangeNodes deps checkpoint.size fun l i => st.getTile l i checkpoint.size

def loadBase (checkpoint : Checkpoint) : Eff W Compact.Range := do
  let hashes ← (storedRange deps st checkpoint).wrap "failed to fetch compact range nodes: %w"
  let baseRange ← (Eff.ofExcept (deps.compact.newRange 0 checkpoint.size hashes)).wrap
    "failed to create range covering existing log: %w"
  let _ ← (Eff.ofExcept (deps.compact.getRootHash h.hashChildren baseRange).1).wrap
    "invalid log state, unable to recalculate root: %w"
  return baseRange

def scanEntries (checkpoint : Checkpoint) : Eff W (Compact.Range × TileMap × Nat) := fun w =>
  let scanned := st.scanSequenced checkpoint.size w
  (do
    let (newRange, m) ← appendEntries deps h (fun l i => st.getTile l i checkpoint.size)
      (deps.compact.newEmptyRange checkpoint.size) ∅ scanned.1.1
    match scanned.1.2 with
    | some reason => Eff.fail (.wrap "error while integrating: %w" reason)
    | none => return (newRange, m, scanned.1.1.length)) scanned.2

def storeTiles : List TileEntry → Eff W Unit
  | [] => pure ()
  | entry :: rest => do
    (st.storeTile entry.1.1 entry.1.2 entry.2).wrap "failed to store tile at level %d index %d: %w"
    storeTiles rest

-- `order` is the order in which the map of dirty tiles is ranged over.
def publish (order : List TileEntry → List TileEntry) (extension : Compact.Extension) (m : TileMap) :
    Eff W (Option Checkpoint) :=
  match extension.err with
  | some reason => Eff.fail (.wrap "failed to merge new range onto existing log: %w" reason)
  | none => do
    let newRoot ← (Eff.ofExcept (deps.compact.getRootHash h.hashChildren extension.range).1).wrap
      "failed to calculate new root hash: %w"
    storeTiles st (order m.entries)
    return some ⟨"", extension.range.stop, newRoot⟩

def mergeScanned (order : List TileEntry → List TileEntry) (checkpoint : Checkpoint)
    (baseRange newRange : Compact.Range) (m : TileMap) (n : Nat) : Eff W (Option Checkpoint) :=
  if n = 0 then return none
  else do
    let extension := deps.compact.appendRange h.hashChildren baseRange newRange
    let m' ← visitAll (fun l i => st.getTile l i checkpoint.size) m extension.visits
    publish deps st h order extension m'

def integrate (order : List TileEntry → List TileEntry) (checkpoint : Checkpoint) :
    Eff W (Option Checkpoint) := do
  let baseRange ← loadBase deps st h checkpoint
  let scanned ← scanEntries deps st h checkpoint
  mergeScanned deps st h order checkpoint baseRange scanned.1 scanned.2.1 scanned.2.2

end Integrate

end Serverless
