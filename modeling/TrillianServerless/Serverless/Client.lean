import TrillianServerless.Serverless.Layout
import TrillianServerless.Packages.Compact
import TrillianServerless.Packages.Note

set_option autoImplicit false

namespace Serverless

open Go Merkle Checkpoints

/-- The third-party packages that the log code calls. -/
structure Deps where
  compact : Compact.Package
  proofs : ProofPackage.Package

section Client

variable {W Note : Type}

abbrev Fetcher (W : Type) := Path → Eff W Bytes

abbrev GetTileFunc (W : Type) := Nat → Nat → Eff W Tile

structure NodeCache where
  ephemeral : NodeID → Bytes
  tiles : TileKey → Option Tile

namespace NodeCache

def empty : NodeCache := ⟨fun _ => [], fun _ => none⟩

def setEphemeralNode (c : NodeCache) (id : NodeID) (h : Bytes) : NodeCache :=
  { c with ephemeral := Function.update c.ephemeral id h }

def addTile (c : NodeCache) (key : TileKey) (tile : Tile) : NodeCache :=
  { c with tiles := Function.update c.tiles key (some tile) }

end NodeCache

-- A node cache in use: the tiles it has fetched stay cached when a later step fails.
structure Session (W : Type) where
  world : W
  cache : NodeCache

def cachedTile (getTile : GetTileFunc W) (key : TileKey) : Eff (Session W) Tile := fun s =>
  match s.cache.tiles key with
  | some tile => (.ok tile, s)
  | none =>
    match getTile key.1 key.2 s.world with
    | (.ok tile, w) => (.ok tile, ⟨w, s.cache.addTile key tile⟩)
    | (.error reason, w) => (.error (.wrap "failed to fetch tile: %w" reason), ⟨w, s.cache⟩)
    | (.panic reason, w) => (.panic reason, ⟨w, s.cache⟩)

def nodeIn (tile : Tile) (nodeKey : Nat) : Except GoError Bytes :=
  match tile.nodes[nodeKey]? with
  | none => .error (.text
      "node %v (tile coords [%d,%d]/[%d,%d], key %d) outside populated tile nodes (%d)")
  | some none => .error (.text "node %v (tile coords [%d,%d]/[%d,%d], key %d) unknown")
  | some (some node) => .ok node

def getNode (getTile : GetTileFunc W) (id : NodeID) : Eff (Session W) Bytes := fun s =>
  if s.cache.ephemeral id ≠ [] then (.ok (s.cache.ephemeral id), s)
  else
    (do
      let tile ← cachedTile getTile (tileOf id)
      Eff.ofExcept (nodeIn tile (slotOf id))) s

def fetchRangeNodes (deps : Deps) (size : Nat) (getTile : GetTileFunc W) : Eff W (List Bytes) :=
  fun w =>
    let result := Eff.each (getNode getTile) (deps.compact.rangeNodes 0 size) ⟨w, .empty⟩
    (result.1, result.2.world)

def newTileFetcher (f : Fetcher W) (logSize : Nat) : GetTileFunc W := fun level index w =>
  match f (.tile level index (partialTileSize level index logSize)) w with
  | (.ok t, w') => ((Tile.unmarshalText t).wrap "failed to parse tile: %w", w')
  | (.error reason, w') =>
    if reason.isErrNotExist then (.error reason, w')
    else (.error (.wrap "failed to read tile at %q: %w" reason), w')
  | (.panic reason, w') => (.panic reason, w')

-- The 24 * N bytes of make([][]byte, 0, N) have to be addressable; `seq` wraps around.
def fetchLeafHashes (f : Fetcher W) (first N logSize : Nat) : Eff W (List Bytes) := fun w =>
  if 2 ^ 48 < 24 * N then (.panic "makeslice: cap out of range", w)
  else
    let ids := (List.range N).map fun i => (⟨0, (first + i) % 2 ^ 64⟩ : NodeID)
    let result := Eff.each (fun id => (getNode (newTileFetcher f logSize) id).hide
      "failed to fetch node %v: %v") ids ⟨w, .empty⟩
    (result.1, result.2.world)

structure ProofBuilder (W : Type) where
  cp : Checkpoint
  nodeCache : NodeCache
  h : Compact.HashFn
  getTile : GetTileFunc W

def ProofBuilder.session (pb : ProofBuilder W) (w : W) : Session W := ⟨w, pb.nodeCache⟩

def newProofBuilder (deps : Deps) (cp : Checkpoint) (h : Compact.HashFn) (f : Fetcher W) :
    Eff W (ProofBuilder W) := do
  let tf := newTileFetcher f cp.size
  let hashes ← (fetchRangeNodes deps cp.size tf).wrap "failed to fetch range nodes: %w"
  let r ← Eff.ofExcept (deps.compact.newRange 0 cp.size hashes)
  let (root, visits) := deps.compact.getRootHash h r
  let sr ← Eff.ofExcept root
  if cp.hash = sr then
    return { cp, h, getTile := tf
             nodeCache := visits.foldl (fun cache visit => cache.setEphemeralNode visit.1 visit.2)
               .empty }
  else Eff.fail (.text "invalid checkpoint hash %x, expected %x")

def ProofBuilder.fetchNodes (deps : Deps) (pb : ProofBuilder W) (nodes : deps.proofs.Nodes) :
    Eff (Session W) (List Bytes) := do
  let hashes ← Eff.each
    (fun id => (getNode pb.getTile id).wrap "failed to get node (%v): %w") (deps.proofs.ids nodes)
  (Eff.ofExcept (deps.proofs.rehash nodes hashes pb.h)).wrap "failed to rehash proof: %w"

def ProofBuilder.inclusionProof (deps : Deps) (pb : ProofBuilder W) (index : Nat) :
    Eff (Session W) (List Bytes) := do
  let nodes ← (Eff.ofExcept (deps.proofs.inclusion index pb.cp.size)).wrap
    "failed to calculate inclusion proof node list: %w"
  pb.fetchNodes deps nodes

def ProofBuilder.consistencyProof (deps : Deps) (pb : ProofBuilder W) (smaller larger : Nat) :
    Eff (Session W) (List Bytes) := do
  let nodes ← (Eff.ofExcept (deps.proofs.consistency smaller larger)).wrap
    "failed to calculate consistency proof node list: %w"
  pb.fetchNodes deps nodes

abbrev ConsensusCheckpointFunc (W Note : Type) := Eff W (Checkpoint × Bytes × Note)

def fetchCheckpoint (notes : SignedNote.Package) (f : Fetcher W) (v : SignedNote.Verifier)
    (origin : String) : Eff W (Checkpoint × Bytes × SignedNote.Note) := do
  let cpRaw ← f .checkpoint
  let (cp, n) ← (Eff.ofExcept (notes.parseCheckpoint cpRaw origin v [])).hide
    "failed to parse Checkpoint: %v"
  return (cp, cpRaw, n)

def unilateralConsensus (notes : SignedNote.Package) (f : Fetcher W)
    (v : SignedNote.Verifier) (origin : String) : ConsensusCheckpointFunc W SignedNote.Note :=
  fetchCheckpoint notes f v origin

-- The fields of LogStateTracker that Update changes.
structure TrackedState (Note : Type) where
  latestConsistentRaw : Bytes
  latestConsistent : Checkpoint
  checkpointNote : Option Note

structure LogStateTracker (W Note : Type) where
  deps : Deps
  hasher : LogHasher
  fetcher : Fetcher W
  consensusCheckpoint : ConsensusCheckpointFunc W Note

-- The consistency proof that Update builds, and the check it makes of it.
def LogStateTracker.prove (lst : LogStateTracker W Note) (latest c : Checkpoint) :
    Eff W (List Bytes) := do
  let builder ← (newProofBuilder lst.deps c lst.hasher.hashChildren lst.fetcher).wrap
    "failed to create proof builder: %w"
  let p ← fun w =>
    let result := builder.consistencyProof lst.deps latest.size c.size (builder.session w)
    (result.1, result.2.world)
  (Eff.ofExcept (lst.deps.proofs.verifyConsistency lst.hasher latest.size c.size p latest.hash
    c.hash)).wrap "log consistency check failed: %s"
  return p

def LogStateTracker.update (lst : LogStateTracker W Note) (t : TrackedState Note) :
    W → Outcome (Bytes × List Bytes × Bytes) × W × TrackedState Note := fun w =>
  match lst.consensusCheckpoint w with
  | (.error reason, w') => (.error reason, w', t)
  | (.panic reason, w') => (.panic reason, w', t)
  | (.ok (c, cRaw, cn), w') =>
    let proof : Eff W (List Bytes) :=
      if 0 < t.latestConsistent.size then
        if t.latestConsistent.size < c.size then lst.prove t.latestConsistent c else pure []
      else pure []
    match proof w' with
    | (.error reason, w'') => (.error reason, w'', t)
    | (.panic reason, w'') => (.panic reason, w'', t)
    | (.ok p, w'') => (.ok (t.latestConsistentRaw, p, cRaw), w'', ⟨cRaw, c, some cn⟩)

def newLogStateTracker (notes : SignedNote.Package)
    (lst : LogStateTracker W Note) (checkpointRaw : Bytes) (nV : SignedNote.Verifier) (origin : String) :
    W → Outcome Unit × W × TrackedState Note := fun w =>
  let zero : Checkpoint := ⟨"", 0, []⟩
  if checkpointRaw ≠ [] then
    match notes.parseCheckpoint checkpointRaw origin nV [] with
    | .error reason => (.error reason, w, ⟨checkpointRaw, zero, none⟩)
    | .ok (cp, _) => (.ok (), w, ⟨checkpointRaw, cp, none⟩)
  else
    match lst.update ⟨[], zero, none⟩ w with
    | (.ok _, w', t) => (.ok (), w', t)
    | (.error reason, w', t) => (.error reason, w', t)
    | (.panic reason, w', t) => (.panic reason, w', t)

-- The sizes and hashes of a call of VerifyConsistency.
structure VerifyCall where
  size1 : Nat
  size2 : Nat
  root1 : Bytes
  root2 : Bytes
  deriving DecidableEq, Repr

-- The calls that VerifyConsistency has accepted are kept beside the session.
structure Scan (W : Type) where
  session : Session W
  accepted : List VerifyCall

def checkPair (deps : Deps) (h : LogHasher) (pb : ProofBuilder W) (a b : Checkpoint) :
    Eff (Scan W) Unit := fun s =>
  if a.size = b.size then
    if a.hash = b.hash then (.ok (), s)
    else (.error (.text "two checkpoints with same size (%d) but different hashes (%x vs %x)"), s)
  else if 0 < a.size then
    match (pb.consistencyProof deps a.size b.size).hide
        "failed to fetch consistency between sizes %d, %d: %v" s.session with
    | (.ok proof, s') =>
      match deps.proofs.verifyConsistency h a.size b.size proof a.hash b.hash with
      | .ok () => (.ok (), ⟨s', s.accepted ++ [⟨a.size, b.size, a.hash, b.hash⟩]⟩)
      | .error _ =>
        (.error (.text "invalid consistency proof between sizes %d, %d: %v"), ⟨s', s.accepted⟩)
    | (.error reason, s') => (.error reason, ⟨s', s.accepted⟩)
    | (.panic reason, s') => (.panic reason, ⟨s', s.accepted⟩)
  else (.ok (), s)

-- for i := 0; i < len(cp)-1; i, a, b = i+1, cp[i], cp[i+1], with `left` rounds to go: the assignment
-- reads i before it changes it.
def scanPairs (check : Checkpoint → Checkpoint → Eff (Scan W) Unit) (cp : List Checkpoint) :
    Nat → Nat → Checkpoint → Checkpoint → Eff (Scan W) Unit
  | 0, _, _, _ => pure ()
  | left + 1, i, a, b => do
    check a b
    match cp[i]?, cp[i + 1]? with
    | some a', some b' => scanPairs check cp left (i + 1) a' b'
    | _, _ => Eff.lift (.panic "index out of range")

def checkConsistency (deps : Deps) (sortSlice : List Checkpoint → List Checkpoint) (h : LogHasher)
    (f : Fetcher W) (cps : List Checkpoint) (w : W) :
    Outcome Unit × W × List VerifyCall :=
  if cps.length < 2 then (.error (.text "passed %d checkpoints, need at least 2"), w, [])
  else
    match sortSlice cps with
    | first :: second :: rest =>
      let cp := first :: second :: rest
      match (newProofBuilder deps (cp.getLast (by simp [cp])) h.hashChildren f).hide
          "failed to create proofbuilder: %v" w with
      | (.ok pb, w') =>
        let result := scanPairs (checkPair deps h pb) cp (cp.length - 1) 0 first second
          ⟨pb.session w', []⟩
        (result.1, result.2.session.world, result.2.accepted)
      | (.error reason, w') => (.error reason, w', [])
      | (.panic reason, w') => (.panic reason, w', [])
    | _ => (.panic "index out of range", w, [])

end Client

end Serverless
