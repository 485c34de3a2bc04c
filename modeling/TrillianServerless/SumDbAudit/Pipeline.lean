import TrillianServerless.SumDbAudit.Checks

set_option autoImplicit false

namespace Audit

open Go Sql Merkle

-- What the goroutine of a level does next. Its offset is that of the loop over the tiles.
inductive Stage
  | start (offset : Nat)
  | fill (offset : Nat)
  | receive (offset : Nat) (stored : Option (List Bytes)) (inHashes : List Bytes)
  | write (offset : Nat) (hashes : List Bytes)
  | send (offset : Nat) (root : Bytes)
  | done

/-- A running call of hashTiles: the goroutines by level, each with the channel it sends roots on. The first
error is kept by the group. -/
structure Pipeline where
  db : Database
  started : Nat
  stage : Nat → Stage
  roots : Nat → List Bytes
  err : Option GoError
  returned : Option (Outcome Unit)

-- An operation of the database in a step fails with the given reason.
inductive PipelineEvent
  | launch
  | work (level : Nat) (fault : Option GoError)
  | wait

namespace PipelineEvent

def Clean : PipelineEvent → Prop
  | work _ fault => fault = none
  | _ => True

end PipelineEvent

namespace Pipeline

variable (p : Pipeline)

def init (d : Database) : Pipeline := ⟨d, 0, fun _ => .start 0, fun _ => [], none, none⟩

def goto (level : Nat) (stage : Stage) : Pipeline := { p with stage := Function.update p.stage level stage }

def fail (level : Nat) (reason : GoError) : Pipeline := { p.goto level .done with err := p.err.or (some reason) }

-- A panic of a goroutine ends the program.
def crash (reason : String) : Pipeline := { p with returned := some (.panic reason) }

end Pipeline

namespace Service

variable (s : Service)

-- One goroutine for the leaves and one for each level above them.
def goroutines (n : Nat) : Nat := s.levelsForLeafCount n - 1 + 1

def tileCount (n : Nat) : Nat → Nat
  | 0 => n / s.tileWidth
  | level + 1 => tileCount n level / s.tileWidth

def passRoot (level offset : Nat) (hashes : List Bytes) (p : Pipeline) : Pipeline :=
  match s.tileRoot offset hashes with
  | .ok root => p.goto level (.send offset root)
  | .error reason => p.fail level reason
  | .panic reason => p.crash reason

def readTile (level offset : Nat) (p : Pipeline) : Pipeline :=
  match p.db.tile none s.height level offset with
  | .ok hashes =>
    if level = 0 then s.passRoot level offset hashes p else p.goto level (.receive offset (some hashes) [])
  | .error reason =>
    if reason = errNoDataFound then p.goto level (if level = 0 then .fill offset else .receive offset none [])
    else p.fail level reason
  | .panic reason => p.crash reason

def readLeaves (level offset : Nat) (p : Pipeline) : Pipeline :=
  match p.db.leafBlock (s.tileWidth * offset) s.tileWidth with
  | .error reason => p.fail level (.wrap "failed to get leaves from DB: %w" reason)
  | .ok leaves => p.goto level (.write offset (leaves.map s.hasher.hashLeaf))

def takeRoot (level offset : Nat) (stored : Option (List Bytes)) (inHashes : List Bytes) (p : Pipeline) :
    Option Pipeline :=
  match p.roots (level - 1) with
  | [] => none
  | hash :: rest =>
    let p := { p with roots := Function.update p.roots (level - 1) rest }
    if stored.any (fun dbTileHashes => dbTileHashes[inHashes.length]? ≠ some hash) then
      some (p.fail level (.text "got diffence in hash at L=%d, O=%d, leaf=%d"))
    else if inHashes.length + 1 < s.tileWidth then
      some (p.goto level (.receive offset stored (inHashes ++ [hash])))
    else
      match stored with
      | some _ => some (s.passRoot level offset (inHashes ++ [hash]) p)
      | none => some (p.goto level (.write offset (inHashes ++ [hash])))

def writeTile (level offset : Nat) (hashes : List Bytes) (p : Pipeline) : Pipeline :=
  match Database.setTile s.height level offset (hashes.map LogHasher.fit).flatten p.db with
  | (.ok _, db) => s.passRoot level offset hashes { p with db }
  | (.error reason, db) =>
    Pipeline.fail { p with db } level (if level = 0 then reason else .text "failed to set tile at L=%d, O=%d: %v")
  | (.panic reason, db) => Pipeline.crash { p with db } reason

-- A channel holds as many roots as a tile has hashes.
def sendRoot (level offset : Nat) (root : Bytes) (p : Pipeline) : Option Pipeline :=
  if (p.roots level).length < s.tileWidth then
    some { p.goto level (.start (offset + 1)) with roots := Function.update p.roots level (p.roots level ++ [root]) }
  else none

/-- One step of the goroutine of a level, unless it is blocked. -/
def work (n level : Nat) (fault : Option GoError) (p : Pipeline) : Option Pipeline :=
  match p.stage level, fault with
  | .start offset, fault =>
    if offset < s.tileCount n level then
      match fault with
      | some reason => some (p.fail level reason)
      | none => some (s.readTile level offset p)
    else some (p.goto level .done)
  | .fill _, some reason => some (p.fail level (.wrap "failed to get leaves from DB: %w" reason))
  | .fill offset, none => some (s.readLeaves level offset p)
  | .receive offset stored inHashes, _ => s.takeRoot level offset stored inHashes p
  | .write _ _, some reason =>
    some (p.fail level (if level = 0 then reason else .text "failed to set tile at L=%d, O=%d: %v"))
  | .write offset hashes, none => some (s.writeTile level offset hashes p)
  | .send offset root, _ => s.sendRoot level offset root p
  | .done, _ => none

-- g.Wait returns when all goroutines have.
def wait (n : Nat) (p : Pipeline) : Option Pipeline :=
  if p.started = s.goroutines n ∧ ∀ level < s.goroutines n, p.stage level matches .done then
    some { p with returned := some (match p.err with
      | none => .ok ()
      | some reason => .error (.wrap "failed to hash: %w" reason)) }
  else none

def pipelineStep (n : Nat) (p : Pipeline) (e : PipelineEvent) : Option Pipeline :=
  match p.returned, e with
  | some _, _ => none
  | none, .launch => if p.started < s.goroutines n then some { p with started := p.started + 1 } else none
  | none, .work level fault => if level < p.started then s.work n level fault p else none
  | none, .wait => s.wait n p

def PipelineStep (n : Nat) (p : Pipeline) (e : PipelineEvent) (p' : Pipeline) : Prop :=
  s.pipelineStep n p e = some p'

end Service

/-- A call of Sync: before leaves are cloned, while their tiles are hashed and when it has returned. -/
inductive SyncCall
  | cloning (d : Database)
  | hashing (p : Pipeline)
  | returned (result : Outcome Unit) (d : Database)

inductive SyncEvent
  | clone
  | hash (e : PipelineEvent)
  | check

def SyncEvent.Clean : SyncEvent → Prop
  | hash e => e.Clean
  | clone | check => True

-- What the call leaves behind if it is killed here, or hangs.
def SyncCall.db : SyncCall → Database
  | cloning d | returned _ d => d
  | hashing p => p.db

namespace Service

variable (s : Service)

/-- One step of a call of Sync. It goes on when hashTiles has returned, and one that is killed while it clones leaves
what another leaves whose SumDB fails. -/
def sync (server : Server) (checkpoint : Checkpoint) (call : SyncCall) (e : SyncEvent) : Option SyncCall :=
  match call, e with
  | .cloning d, .clone =>
    match Eff.wrap "cloneLeafTiles: %w" (s.cloneLeafTiles server checkpoint) d with
    | (.ok _, d') => some (.hashing (.init d'))
    | (result, d') => some (.returned result d')
  | .hashing p, .hash e => (s.pipelineStep checkpoint.n p e).map .hashing
  | .hashing p, .check =>
    match p.returned with
    | none => none
    | some hashed =>
      let (result, d) := s.finishSync server checkpoint hashed p.db
      some (.returned result d)
  | _, _ => none

def SyncStep (server : Server) (checkpoint : Checkpoint) (call : SyncCall) (e : SyncEvent) (call' : SyncCall) : Prop :=
  s.sync server checkpoint call e = some call'

end Service

namespace Service

variable (s : Service) (d : Database)

-- The hashes in the row of a tile.
def chunks (blob : Bytes) : List Bytes :=
  (List.range s.tileWidth).map fun i => (blob.drop (i * hashLenBytes)).take hashLenBytes

/-- The hashes of a tile: the stored ones, or else those of the leaves or of the tiles below. -/
def content : Nat → Nat → List Bytes
  | 0, offset =>
    match d.tiles s.height 0 offset with
    | some blob => s.chunks blob
    | none => s.tileHashes d.leaves 0 offset
  | level + 1, offset =>
    match d.tiles s.height (level + 1) offset with
    | some blob => s.chunks blob
    | none => (List.range' (offset * s.tileWidth) s.tileWidth).map fun i => s.rootOver (content level i)

def root (level i : Nat) : Bytes := s.rootOver (s.content d level i)

-- The roots of the tiles below a tile.
def childRoots (level offset : Nat) : List Bytes :=
  (List.range' (offset * s.tileWidth) s.tileWidth).map (s.root d level)

/-- Rows of tiles are as wide as tiles. -/
def FullRows : Prop := ∀ level offset blob, d.tiles s.height level offset = some blob →
  blob.length = s.tileWidth * hashLenBytes

def Agrees (level offset : Nat) : Prop := s.content d (level + 1) offset = s.childRoots d level offset

/-- Leaves of tiles that are not stored yet are there. -/
def LeavesReady (n : Nat) : Prop :=
  ∀ offset < n / s.tileWidth, d.tiles s.height 0 offset = none → s.Covered d.leaves 0 offset

end Service

section Contents

variable {s : Service} {d : Database}

theorem tileCount_eq (n level : Nat) : s.tileCount n level = n / s.span level := by
  induction level with
  | zero => rw [Service.tileCount, span_zero]
  | succ level ih => rw [Service.tileCount, ih, span_succ, Nat.div_div_eq_div_mul]

theorem goroutines_pos (n : Nat) : 0 < s.goroutines n := Nat.succ_pos _

-- The roots of the highest level fit into its channel.
theorem tileCount_top (n : Nat) : s.tileCount n (s.goroutines n - 1) < s.tileWidth := by
  have none : s.tileCount n (s.goroutines n) = 0 := by
    rw [tileCount_eq, no_tile_above]
    unfold Service.goroutines
    omega
  have last : s.goroutines n = s.goroutines n - 1 + 1 := by
    have := goroutines_pos (s := s) n
    omega
  rw [last, Service.tileCount] at none
  exact (Nat.div_eq_zero_iff_lt (width_pos s)).mp none

theorem complete_level {n level offset : Nat} (complete : offset < n / s.span level) : level < s.goroutines n := by
  by_contra above
  unfold Service.goroutines at above
  rw [no_tile_above (by omega)] at complete
  omega

theorem chunks_length (blob : Bytes) : (s.chunks blob).length = s.tileWidth := by simp [Service.chunks]

theorem chunks_sized {blob : Bytes} (full : blob.length = s.tileWidth * hashLenBytes) :
    ∀ hash ∈ s.chunks blob, hash.length = 32 := by
  intro hash member
  obtain ⟨i, inside, rfl⟩ := List.mem_map.mp member
  have below := List.mem_range.mp inside
  have room : (i + 1) * hashLenBytes ≤ s.tileWidth * hashLenBytes := Nat.mul_le_mul_right _ below
  simp only [List.length_take, List.length_drop, full, hashLenBytes] at room ⊢
  omega

theorem splitTile_chunks {blob : Bytes} (full : blob.length = s.tileWidth * hashLenBytes) :
    Database.splitTile blob s.height = .ok (s.chunks blob) := by
  unfold Database.splitTile
  rw [if_neg]
  · rfl
  · rw [full]
    exact Nat.lt_irrefl _

theorem chunks_flatten {hashes : List Bytes} (sized : ∀ hash ∈ hashes, hash.length = 32)
    (length : hashes.length = s.tileWidth) : s.chunks hashes.flatten = hashes := by
  have full : hashes.flatten.length = s.tileWidth * hashLenBytes := by
    rw [flatten_sized sized, length]
    rfl
  have split := splitTile_flatten sized length
  rw [splitTile_chunks full] at split
  exact Outcome.ok.inj split

theorem rootOver_length (hashes : List Bytes) : (s.rootOver hashes).length = 32 := by
  rw [← fit_treeHash]
  exact LogHasher.fit_length _

theorem content_length (level offset : Nat) : (s.content d level offset).length = s.tileWidth := by
  cases level with
  | zero =>
    unfold Service.content
    split
    · exact chunks_length _
    · exact tileHashes_length s _ _ _
  | succ level =>
    unfold Service.content
    split
    · exact chunks_length _
    · simp

theorem content_sized (rows : s.FullRows d) (level offset : Nat) :
    ∀ hash ∈ s.content d level offset, hash.length = 32 := by
  cases level with
  | zero =>
    unfold Service.content
    split
    next blob stored => exact chunks_sized (rows 0 offset blob stored)
    next => exact tileHashes_sized s _ _ _
  | succ level =>
    unfold Service.content
    split
    next blob stored => exact chunks_sized (rows _ offset blob stored)
    next =>
      intro hash member
      obtain ⟨i, -, rfl⟩ := List.mem_map.mp member
      exact rootOver_length _

theorem content_stored {level offset : Nat} {blob : Bytes} (stored : d.tiles s.height level offset = some blob) :
    s.content d level offset = s.chunks blob := by
  cases level <;> simp only [Service.content, stored]

theorem agrees_missing {level offset : Nat} (missing : d.tiles s.height (level + 1) offset = none) :
    s.Agrees d level offset := by
  simp only [Service.Agrees, Service.content, missing]
  rfl

/-- The range over a tile's hashes has their Merkle root as its hash. -/
theorem tileRoot_ok (lawful : Compact.Lawful s.pkg) (offset : Nat) {hashes : List Bytes}
    (length : hashes.length = s.tileWidth) : s.tileRoot offset hashes = .ok (s.rootOver hashes) := by
  have filled := lawful.appendAll (v := nodeHash s.hash fun i => hashes.getD (i - offset * s.tileWidth) [])
    (fun l i => nodeHash_parent _ _ l i) (Nat.le_refl (offset * s.tileWidth)) hashes fun j bound => by
      simp [nodeHash, nodeAt, bound]
  have single : cover (offset * s.tileWidth) (offset * s.tileWidth + s.tileWidth) = [⟨s.height, offset⟩] := by
    have perfect := cover_perfect (Nat.dvd_mul_left (2 ^ s.height) offset)
    rwa [Nat.mul_div_cancel _ (Nat.two_pow_pos _)] at perfect
  have covered :
      Merkle.segment (fun i => hashes.getD (i - offset * s.tileWidth) []) (offset * 2 ^ s.height)
        (2 ^ s.height) =
      hashes := by
    rw [← Service.tileWidth]
    apply List.ext_getElem
    · simp [Merkle.segment, length]
    · intro i lower upper
      simp [Merkle.segment, upper]
  have node : nodeHash s.hash (fun i => hashes.getD (i - offset * s.tileWidth) []) ⟨s.height, offset⟩ =
      s.rootOver hashes := by
    rw [nodeHash, nodeAt_eq_treeHash s.hash _ [], covered, ← fit_treeHash]
    refine (fit_of_length ?_).symm
    have several := width_gt_one s
    rw [treeHash_split _ _ (by omega)]
    exact s.hasher.childSize _ _
  rw [length, cover_self, List.map_nil, single, List.map_singleton, node] at filled
  unfold Service.tileRoot
  rw [lawful.newEmptyRange, filled]

end Contents

end Audit
