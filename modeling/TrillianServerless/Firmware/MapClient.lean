import TrillianServerless.Shared.Json
import TrillianServerless.Packages.SparseMap

set_option autoImplicit false

namespace Firmware

open Go Smt Sparse

def mapPrefixStrata : Nat := 1
def mapTreeID : Int := 12345

structure MapTileLeaf where
  path : Bytes
  hash : Bytes
  deriving DecidableEq, Repr

structure MapTile where
  path : Bytes
  leaves : List MapTileLeaf
  deriving DecidableEq, Repr

-- A nil entry of the proof is an empty branch.
structure MapInclusionProof where
  key : Bytes
  value : Option Bytes
  proof : List (Option Bytes)
  deriving DecidableEq, Repr

structure AggregatedFirmware where
  index : Nat
  good : Bool
  deriving DecidableEq, Repr

def aggregationFields : List (Json.Field AggregatedFirmware) :=
  [⟨"Index", fun a v => (v.toUint 64 a.index).map fun n => { a with index := n }⟩,
    ⟨"Good", fun a v => (v.toBool a.good).map fun b => { a with good := b }⟩]

def unmarshalAggregation (raw : Bytes) : Except GoError AggregatedFirmware := do
  (← Json.decodeWhole raw).decodeStruct aggregationFields ⟨0, false⟩

structure MapLibraries where
  hasher : Hasher
  smt : HStar3
  sha512_256 : Bytes → Bytes
  digestSize : ∀ message, (sha512_256 message).length = 32

/-- The answers of a map server, its tiles read from JSON. -/
structure MapServer where
  checkpoint : Except GoError Bytes
  tile : Nat → Bytes → Except GoError MapTile
  aggregation : Nat → Nat → Except GoError Bytes

def toNode (path : Bytes) (l : MapTileLeaf) : Node := ⟨.new (path ++ l.path) (8 * (path ++ l.path).length), l.hash⟩

-- Set of inclusionProofTree.
def MapInclusionProof.set (target : ID) (ip : MapInclusionProof) (n : Node) : Outcome MapInclusionProof :=
  if n.id = target then .ok { ip with value := some n.hash }
  else if target.take n.id.length = n.id.sibling then
    if n.id.length = 0 ∨ ip.proof.length < n.id.length then .panic "index out of range"
    else .ok { ip with proof := ip.proof.set (n.id.length - 1) (some n.hash) }
  else .ok ip

namespace MapLibraries

variable (libs : MapLibraries)

def summaryKey (fwIndex : Nat) : Bytes := libs.sha512_256 (Checkpoints.asciiBytes "summary:" ++ formatUint 10 fwIndex)

def hashEmpty (id : ID) : Bytes := libs.hasher.hashEmpty mapTreeID id

def hashTile (target : ID) (ip : MapInclusionProof) (tile : MapTile) : Outcome MapInclusionProof :=
  match tile.leaves with
  | [] => .panic "index out of range [0] with length 0"
  | first :: _ => do
    let hs ← .ofExcept (hideErr "failed to create HStar3 for tile %x: %v"
      (libs.smt.new (tile.leaves.map (toNode tile.path)) libs.hasher.hashChildren
        (8 * (tile.path.length + first.path.length)) (8 * tile.path.length)))
    let u ← .ofExcept (hideErr "failed to hash tile %x: %v" (libs.smt.update hs libs.hashEmpty))
    let ip ← u.set.foldlM (MapInclusionProof.set target) ip
    if u.roots.length ≠ 1 then .error (.text "wrong number of roots for tile %x: got %v, want %v") else .ok ip

-- The tiles and the aggregation are fetched at once, and the first error ends the call.
def aggregation (server : MapServer) (rev fwIndex : Nat) : Outcome (Bytes × MapInclusionProof) := do
  let kbs := libs.summaryKey fwIndex
  let tiles ← (List.range (mapPrefixStrata + 1)).mapM fun i => .ofExcept (server.tile rev (kbs.take i))
  let agg ← .ofExcept (server.aggregation rev fwIndex)
  let ip ← tiles.reverse.foldlM (libs.hashTile (.new kbs 256)) ⟨kbs, none, List.replicate 256 none⟩
  .ok (agg, ip)

end MapLibraries

def isLeftChild (id : ID) : Bool :=
  let (last, bits) := id.lastByte
  last &&& (1 <<< (8 - bits)) % 256 == 0

namespace MapLibraries

variable (libs : MapLibraries)

-- The loop of the flash tool over the proof, from `pd` up to the root.
def calculateRoot (leafID : ID) (proof : List (Option Bytes)) : Nat → Bytes → Outcome Bytes
  | 0, hash => .ok hash
  | pd + 1, hash =>
    match proof[pd]? with
    | none => .panic "index out of range"
    | some sib =>
      let stem := leafID.take (pd + 1)
      let sib := sib.getD (libs.hashEmpty (ID.sibling stem))
      calculateRoot leafID proof pd
        (if isLeftChild stem then libs.hasher.hashChildren hash sib else libs.hasher.hashChildren sib hash)

-- What verifyAnnotations does when it has the map's checkpoint and has found it consistent with the update.
def verifyAggregation (server : MapServer) (revision : Nat) (rootHash : Bytes) (leafIndex : Nat) : Outcome Unit := do
  let (preimage, ip) ← (libs.aggregation server revision leafIndex).wrap "failed to get map value for %q: %w"
  let kbs := libs.summaryKey leafIndex
  if ip.key ≠ kbs then .error (.text "received inclusion proof for key %x but wanted %x")
  else
    let leafID := ID.new kbs 256
    let expectedCommitment := libs.hasher.hashLeaf mapTreeID leafID preimage
    if ip.value.getD [] ≠ expectedCommitment then
      .error (.text "received inclusion proof for value %x but wanted %x")
    else do
      let calculated ← libs.calculateRoot leafID ip.proof Hasher.bitLen expectedCommitment
      if calculated ≠ rootHash then .error (.text "inclusion proof calculated root %x but wanted %x")
      else do
        let agg ← (Outcome.ofExcept (unmarshalAggregation preimage)).wrap "failed to decode aggregation: %w"
        if agg.good then .ok () else .error (.text "firmware is marked as bad")

end MapLibraries

section Tiles

variable (libs : MapLibraries) (content : ID → Option Bytes)

-- The nodes and the root of the sparse map that holds the leaf hashes `content` at its keys of 256 bits.
def MapLibraries.mapNode (id : ID) : Option Bytes :=
  nodeAt libs.hasher.hashChildren libs.hashEmpty content (256 - id.length) id

def MapLibraries.mapRoot : Bytes := hashAt libs.hasher.hashChildren libs.hashEmpty content 256 []

/-- The tile at `path` over `size` bytes of the keys: its nodes that are not empty, in any order. -/
structure MapTile.IsTile (tile : MapTile) (path : Bytes) (size : Nat) : Prop where
  here : tile.path = path
  leaves : ∀ l, l ∈ tile.leaves ↔
    l.path.length = size ∧ libs.mapNode content (bitsOf (path ++ l.path)) = some l.hash
  distinct : (tile.leaves.map MapTileLeaf.path).Nodup

/-- A server that has the map in a root tile over one byte and the leaf tiles below it. -/
structure MapServer.Serves (server : MapServer) (rev : Nat) : Prop where
  root : ∃ tile, server.tile rev [] = .ok tile ∧ tile.IsTile libs content [] 1
  leaves : ∀ key : Bytes, key.length = 32 → (content (bitsOf key)).isSome →
    ∃ tile, server.tile rev (key.take 1) = .ok tile ∧ tile.IsTile libs content (key.take 1) 31

end Tiles

section Assembly

variable {libs : MapLibraries} {content : ID → Option Bytes}

theorem toNode_id (path : Bytes) (l : MapTileLeaf) : (toNode path l).id = bitsOf (path ++ l.path) := new_all _

theorem isLeftChild_concat (id : ID) (bit : Bool) : isLeftChild (id ++ [bit]) = !bit := by
  obtain ⟨high, used, last, positive, bound⟩ := lastByte_concat id bit
  have small : 1 <<< (8 - used) < 256 := by
    rw [Nat.one_shiftLeft]
    exact Nat.pow_lt_pow_right (by decide) (show 8 - used < 8 by omega)
  have lowest : (2 * high + bit.toNat) &&& 1 = bit.toNat := by
    rw [Nat.and_one_is_mod]
    cases bit <;> simp
  rw [isLeftChild, last]
  simp only [Nat.mod_eq_of_lt small, ← Nat.shiftLeft_eq, ← Nat.shiftLeft_and_distrib, lowest]
  cases bit <;> simp [Nat.shiftLeft_eq]

/-- What the nodes that are set make of a proof: a node is the target, or the target's sibling at some depth, or it
leaves the proof as it is. -/
structure MapInclusionProof.Took (ip : MapInclusionProof) (target : ID) (nodes : List Node)
    (now : MapInclusionProof) : Prop where
  key : now.key = ip.key
  length : now.proof.length = ip.proof.length
  value : (∃ n ∈ nodes, n.id = target ∧ now.value = some n.hash) ∨ (∀ n ∈ nodes, n.id ≠ target) ∧ now.value = ip.value
  proof : ∀ d < target.length,
    (∃ n ∈ nodes, n.id = ID.sibling (target.take (d + 1)) ∧ now.proof[d]? = some (some n.hash)) ∨
      (∀ n ∈ nodes, n.id ≠ ID.sibling (target.take (d + 1))) ∧ now.proof[d]? = ip.proof[d]?

theorem set_took {target : ID} {ip : MapInclusionProof} (size : ip.proof.length = target.length) {n : Node}
    (inner : n.id ≠ []) (bound : n.id.length ≤ target.length) :
    ∃ now, ip.set target n = .ok now ∧ ip.Took target [n] now := by
  have beside (d : Nat) (inside : d < target.length) : (target.take (d + 1)).length = d + 1 := by
    rw [List.length_take]
    omega
  unfold MapInclusionProof.set
  split
  next same =>
    refine ⟨_, rfl, rfl, rfl, .inl ⟨n, by simp, same, rfl⟩, ?_⟩
    intro d inside
    refine .inr ⟨?_, rfl⟩
    intro m member other
    obtain rfl := List.mem_singleton.mp member
    -- The target is not beside itself.
    have length := congrArg List.length other
    rw [sibling_length, beside d inside, same] at length
    rw [← length, List.take_length, same] at other
    exact sibling_ne (same ▸ inner) other.symm
  next different =>
    have value : ∀ m ∈ [n], m.id ≠ target := by simpa using different
    split
    next same =>
      have stem : n.id = ID.sibling (target.take n.id.length) := by rw [same, sibling_sibling]
      have positive := List.length_pos_iff.mpr inner
      rw [if_neg (by omega)]
      refine ⟨_, rfl, rfl, by simp, .inr ⟨value, rfl⟩, ?_⟩
      intro d inside
      by_cases here : n.id.length = d + 1
      · refine .inl ⟨n, by simp, by rw [← here]; exact stem, ?_⟩
        have index : n.id.length - 1 = d := by omega
        rw [index, List.getElem?_set_self (by omega)]
      · refine .inr ⟨?_, by rw [List.getElem?_set_ne (by omega)]⟩
        intro m member other
        obtain rfl := List.mem_singleton.mp member
        have length := congrArg List.length other
        rw [sibling_length, beside d inside] at length
        exact here length
    next apart =>
      refine ⟨_, rfl, rfl, rfl, .inr ⟨value, rfl⟩, ?_⟩
      intro d inside
      refine .inr ⟨?_, rfl⟩
      intro m member other
      obtain rfl := List.mem_singleton.mp member
      have length := congrArg List.length other
      rw [sibling_length, beside d inside] at length
      rw [← length] at other
      exact apart (by rw [other, sibling_sibling, ← other])

theorem MapInclusionProof.Took.trans {target : ID} {ip mid now : MapInclusionProof} {nodes more : List Node}
    (first : ip.Took target nodes mid) (later : mid.Took target more now) : ip.Took target (nodes ++ more) now where
  key := later.key.trans first.key
  length := later.length.trans first.length
  value := by
    rcases later.value with ⟨n, member, same, value⟩ | ⟨others, value⟩
    · exact .inl ⟨n, by simp [member], same, value⟩
    · rw [value]
      rcases first.value with ⟨n, member, same, value⟩ | ⟨none, value⟩
      · exact .inl ⟨n, by simp [member], same, value⟩
      · exact .inr ⟨fun n member => (List.mem_append.mp member).elim (none n) (others n), value⟩
  proof d inside := by
    rcases later.proof d inside with ⟨n, member, same, value⟩ | ⟨others, value⟩
    · exact .inl ⟨n, by simp [member], same, value⟩
    · rw [value]
      rcases first.proof d inside with ⟨n, member, same, value⟩ | ⟨none, value⟩
      · exact .inl ⟨n, by simp [member], same, value⟩
      · exact .inr ⟨fun n member => (List.mem_append.mp member).elim (none n) (others n), value⟩

theorem sets_took {target : ID} {nodes : List Node} {ip : MapInclusionProof} (size : ip.proof.length = target.length)
    (bounds : ∀ n ∈ nodes, n.id ≠ [] ∧ n.id.length ≤ target.length) :
    ∃ now, nodes.foldlM (MapInclusionProof.set target) ip = .ok now ∧ ip.Took target nodes now := by
  induction nodes generalizing ip with
  | nil => exact ⟨ip, rfl, rfl, rfl, .inr ⟨by simp, rfl⟩, fun d _ => .inr ⟨by simp, rfl⟩⟩
  | cons n rest ih =>
    obtain ⟨inner, bound⟩ := bounds n (by simp)
    obtain ⟨mid, set, first⟩ := set_took size inner bound
    obtain ⟨now, others, later⟩ := ih (first.length.trans size) fun m member => bounds m (by simp [member])
    refine ⟨now, ?_, first.trans later⟩
    rw [List.foldlM_cons, set, Outcome.bind_ok, others]

theorem tile_prepared {tile : MapTile} {path : Bytes} {size : Nat} (is : tile.IsTile libs content path size) :
    Prepared (tile.leaves.map (toNode tile.path)) (8 * (path.length + size)) (8 * path.length) where
  below := by omega
  depths n member := by
    obtain ⟨l, listed, rfl⟩ := List.mem_map.mp member
    rw [toNode_id, is.here, bitsOf_length, List.length_append, ((is.leaves l).mp listed).1]
  distinct := by
    rw [List.map_map]
    have ids : Node.id ∘ toNode tile.path = (fun p => bitsOf (tile.path ++ p)) ∘ MapTileLeaf.path := by
      funext l
      exact toNode_id _ _
    rw [ids, ← List.map_map]
    apply is.distinct.map
    intro p q same
    exact List.append_cancel_left (bitsOf_injective same)

-- The nodes of the map above the leaves of a tile are those of the tile.
theorem tile_nodeAt {tile : MapTile} {path : Bytes} {size : Nat} (is : tile.IsTile libs content path size)
    (depth : path.length + size ≤ 32) {bits : List Bool} (inside : bits.length ≤ 8 * size) :
    nodeAt libs.hasher.hashChildren libs.hashEmpty (given (tile.leaves.map (toNode tile.path)))
        (8 * (path.length + size) - (bitsOf path ++ bits).length) (bitsOf path ++ bits) =
      libs.mapNode content (bitsOf path ++ bits) := by
  have levels : 256 - (bitsOf path ++ bits).length =
      8 * (path.length + size) - (bitsOf path ++ bits).length + (256 - 8 * (path.length + size)) := by
    simp only [List.length_append, bitsOf_length]
    omega
  rw [MapLibraries.mapNode, levels, nodeAt_strata]
  apply nodeAt_congr
  intro more length
  have whole : (bits ++ more).length = 8 * size := by
    simp only [List.length_append, bitsOf_length] at length ⊢
    omega
  obtain ⟨p, sized, same⟩ := bitsOf_surjective whole
  have key : bitsOf path ++ bits ++ more = bitsOf (path ++ p) := by rw [List.append_assoc, ← same, bitsOf_append]
  have down : 256 - 8 * (path.length + size) = 256 - (bitsOf (path ++ p)).length := by
    rw [bitsOf_length, List.length_append, sized]
  rw [key, down]
  apply Option.ext
  intro hash
  rw [given_eq_some (tile_prepared is).distinct]
  constructor
  · intro member
    obtain ⟨l, listed, made⟩ := List.mem_map.mp member
    obtain ⟨id, rfl⟩ := Node.mk.inj made
    have here := ((is.leaves l).mp listed).2
    rw [← is.here, ← toNode_id] at here
    have same : (toNode tile.path l).id = bitsOf (path ++ p) := id
    rwa [same] at here
  · intro there
    refine List.mem_map.mpr ⟨⟨p, hash⟩, (is.leaves _).mpr ⟨sized, there⟩, ?_⟩
    rw [toNode, new_all, is.here]

-- The nodes on the way to a key of the map are not empty.
theorem mapNode_stem {target : ID} (length : target.length = 256) {leaf : Bytes} (there : content target = some leaf)
    {d : Nat} (bound : d ≤ 256) : ∃ hash, libs.mapNode content (target.take d) = some hash := by
  have whole : content (target.take d ++ target.drop d) = some leaf := by rwa [List.take_append_drop]
  have path := @nodeAt_path _ libs.hasher.hashChildren libs.hashEmpty _ _ _ _ whole
  have levels : (target.drop d).length = 256 - (target.take d).length := by
    rw [List.length_drop, List.length_take]
    omega
  rw [levels] at path
  exact ⟨_, path⟩

variable (libs content) in
/-- A proof that has the siblings from depth `top` down. -/
structure MapInclusionProof.Built (kbs : Bytes) (top : Nat) (ip : MapInclusionProof) : Prop where
  key : ip.key = kbs
  length : ip.proof.length = 256
  value : top < 256 → ip.value = content (bitsOf kbs)
  proof : ∀ d < 256, ip.proof[d]? =
    some (if top ≤ d then libs.mapNode content (ID.sibling ((bitsOf kbs).take (d + 1))) else none)

theorem sibling_under {target : ID} {top d : Nat} (lower : top ≤ d) (inside : d < target.length) :
    ∃ bits, bits.length = d + 1 - top ∧ ID.sibling (target.take (d + 1)) = target.take top ++ bits := by
  refine ⟨(target.drop top).take (d - top) ++ [!target[d]], ?_, ?_⟩
  · simp
    omega
  · have stem : target.take d = target.take top ++ (target.drop top).take (d - top) := by
      rw [← List.take_add, Nat.add_sub_cancel' lower]
    rw [List.take_succ_eq_append_getElem inside, sibling_concat, stem, List.append_assoc]

-- The nodes of the map that hashing a tile sets: those of the tile, its root apart.
structure MapTile.Sets (libs : MapLibraries) (content : ID → Option Bytes) (path : Bytes) (bytes : Nat)
    (nodes : List Node) : Prop where
  lower : ∀ n ∈ nodes, 8 * path.length < n.id.length
  upper : ∀ n ∈ nodes, n.id.length ≤ 8 * (path.length + bytes)
  under : ∀ bits hash, 0 < bits.length → bits.length ≤ 8 * bytes →
    (⟨bitsOf path ++ bits, hash⟩ ∈ nodes ↔ libs.mapNode content (bitsOf path ++ bits) = some hash)

theorem hashTile_took (lawful : libs.smt.Lawful) {target : ID} (length : target.length = 256) {path : Bytes}
    {bytes : Nat}
    {tile : MapTile} (is : tile.IsTile libs content path bytes) (depth : path.length + bytes ≤ 32)
    (leaves : tile.leaves ≠ []) {ip : MapInclusionProof} (size : ip.proof.length = 256) :
    ∃ now nodes, libs.hashTile target ip tile = .ok now ∧ ip.Took target nodes now ∧
      MapTile.Sets libs content path bytes nodes := by
  have prepared := tile_prepared is
  obtain ⟨hs, new⟩ := (lawful.new _ libs.hasher.hashChildren _ _).mpr prepared
  obtain ⟨u, updated, computes⟩ := lawful.update _ _ _ _ hs libs.hashEmpty new
  have under : ∀ n ∈ tile.leaves.map (toNode tile.path), bitsOf path <+: n.id := by
    intro n member
    obtain ⟨l, -, rfl⟩ := List.mem_map.mp member
    rw [toNode_id, is.here, bitsOf_append]
    exact List.prefix_append _ _
  obtain ⟨hash, -, roots⟩ := computes.root prepared (by simpa using leaves) (bitsOf_length path) under
  have sets : MapTile.Sets libs content path bytes u.set := by
    refine ⟨fun n member => ((computes.set n.id n.hash).mp member).1,
      fun n member => ((computes.set n.id n.hash).mp member).2.1, ?_⟩
    intro bits hash positive inside
    rw [computes.set, tile_nodeAt is depth inside, List.length_append, bitsOf_length]
    constructor
    · exact fun member => member.2.2
    · exact fun there => ⟨by omega, by omega, there⟩
  have bounds : ∀ n ∈ u.set, n.id ≠ [] ∧ n.id.length ≤ target.length := by
    intro n member
    have lower := sets.lower n member
    have upper := sets.upper n member
    exact ⟨List.ne_nil_of_length_pos (by omega), by omega⟩
  obtain ⟨now, ran, took⟩ := sets_took (size.trans length.symm) bounds
  refine ⟨now, u.set, ?_, took, sets⟩
  obtain ⟨first, rest, all⟩ := List.exists_cons_of_ne_nil leaves
  have firstSize : first.path.length = bytes := ((is.leaves first).mp (by simp [all])).1
  rw [all, is.here] at new
  simp only [MapLibraries.hashTile, all, is.here, firstSize, new, hideErr, Except.mapError, Outcome.ofExcept_ok,
    Outcome.bind_ok, updated, ran, roots]
  rfl

section Tile

variable {key leaf : Bytes} {n bytes : Nat} {nodes : List Node} {ip now : MapInclusionProof}
  (size : key.length = 32) (sets : MapTile.Sets libs content (key.take n) bytes nodes)
  (took : ip.Took (bitsOf key) nodes now) (short : (key.take n).length = n) (positive : 0 < bytes)
  (built : ip.Built libs content key (8 * (n + bytes)))
include size sets took short positive built

-- The value is set by the tile that reaches down to the leaves, and by no other.
theorem took_value (depth : n + bytes ≤ 32) (there : content (bitsOf key) = some leaf) :
    now.value = content (bitsOf key) := by
  have length : (bitsOf key).length = 256 := by rw [bitsOf_length, size]
  rcases Nat.lt_or_ge (8 * (n + bytes)) 256 with higher | leafTile
  · rcases took.value with ⟨m, member, same, -⟩ | ⟨-, kept⟩
    · have upper := sets.upper m member
      rw [same, short] at upper
      omega
    · exact kept.trans (built.value higher)
  · have whole : bitsOf key = bitsOf (key.take n) ++ (bitsOf key).drop (8 * n) := by
      rw [bitsOf_take, List.take_append_drop]
    have here (hash : Bytes) : ⟨bitsOf key, hash⟩ ∈ nodes ↔ content (bitsOf key) = some hash := by
      have node := sets.under ((bitsOf key).drop (8 * n)) hash (by simp; omega) (by simp; omega)
      rw [← whole, MapLibraries.mapNode, length] at node
      exact node
    rcases took.value with ⟨m, member, same, set⟩ | ⟨none, -⟩
    · rw [set, (here m.hash).mp (same ▸ member)]
    · exact absurd rfl (none _ ((here leaf).mpr there))

-- A sibling is set by the tile that it is in, and by no other.
theorem took_proof {d : Nat} (inside : d < 256) : now.proof[d]? =
    some (if 8 * n ≤ d then libs.mapNode content (ID.sibling ((bitsOf key).take (d + 1))) else none) := by
  have length : (bitsOf key).length = 256 := by rw [bitsOf_length, size]
  have before := built.proof d inside
  by_cases here : 8 * n ≤ d ∧ d < 8 * (n + bytes)
  · obtain ⟨bits, count, node⟩ := sibling_under here.1 (by omega : d < (bitsOf key).length)
    rw [← bitsOf_take] at node
    have set (hash : Bytes) := sets.under bits hash (by omega) (by omega)
    rw [← node] at set
    rw [if_pos here.1]
    rcases took.proof d (by omega) with ⟨m, member, same, taken⟩ | ⟨none, kept⟩
    · rw [taken, (set m.hash).mp (same ▸ member)]
    · rw [kept, before, if_neg (by omega)]
      cases found : libs.mapNode content (ID.sibling ((bitsOf key).take (d + 1))) with
      | none => rfl
      | some hash => exact absurd rfl (none _ ((set hash).mpr found))
  · rcases took.proof d (by omega) with ⟨m, member, same, -⟩ | ⟨-, kept⟩
    · have above := sets.upper m member
      have below := sets.lower m member
      have sibling : (ID.sibling ((bitsOf key).take (d + 1))).length = d + 1 := by
        rw [sibling_length, List.length_take]
        omega
      rw [same, sibling, short] at above below
      omega
    · rw [kept, before]
      congr 2
      exact propext ⟨fun _ => by omega, fun _ => by omega⟩

end Tile

theorem hashTile_built (lawful : libs.smt.Lawful) {key : Bytes} (size : key.length = 32) {leaf : Bytes}
    (there : content (bitsOf key) = some leaf) {n bytes : Nat} {tile : MapTile}
    (is : tile.IsTile libs content (key.take n) bytes) (positive : 0 < bytes) (depth : n + bytes ≤ 32)
    {ip : MapInclusionProof} (built : ip.Built libs content key (8 * (n + bytes))) :
    ∃ now, libs.hashTile (bitsOf key) ip tile = .ok now ∧ now.Built libs content key (8 * n) := by
  have length : (bitsOf key).length = 256 := by rw [bitsOf_length, size]
  have short : (key.take n).length = n := by
    rw [List.length_take]
    omega
  have leaves : tile.leaves ≠ [] := by
    obtain ⟨hash, stem⟩ := @mapNode_stem libs _ _ length _ there (8 * (n + bytes)) (by omega)
    rw [← bitsOf_take, List.take_add] at stem
    exact List.ne_nil_of_mem ((is.leaves ⟨(key.drop n).take bytes, hash⟩).mpr ⟨by simp; omega, stem⟩)
  obtain ⟨now, nodes, hashed, took, sets⟩ := hashTile_took lawful length is (by omega) leaves built.length
  refine ⟨now, hashed, took.key.trans built.key, took.length.trans built.length, fun _ => ?_, fun d inside => ?_⟩
  · exact took_value size sets took short positive built depth there
  · exact took_proof size sets took short positive built inside

theorem new_key {key : Bytes} (size : key.length = 32) : ID.new key 256 = bitsOf key := by
  have all := new_all key
  rwa [size] at all

theorem aggregation_built (lawful : libs.smt.Lawful) {server : MapServer} {rev fwIndex : Nat}
    (serves : server.Serves libs content rev) {leaf : Bytes}
    (stored : content (bitsOf (libs.summaryKey fwIndex)) = some leaf) {agg : Bytes}
    (answered : server.aggregation rev fwIndex = .ok agg) :
    ∃ ip, libs.aggregation server rev fwIndex = .ok (agg, ip) ∧
      ip.Built libs content (libs.summaryKey fwIndex) 0 := by
  have size : (libs.summaryKey fwIndex).length = 32 := libs.digestSize _
  obtain ⟨root, rootRead, isRoot⟩ := serves.root
  obtain ⟨leaves, leavesRead, isLeaves⟩ := serves.leaves _ size (by simp [stored])
  have start : MapInclusionProof.Built libs content (libs.summaryKey fwIndex) (8 * (1 + 31))
      ⟨libs.summaryKey fwIndex, none, List.replicate 256 none⟩ := by
    refine ⟨rfl, List.length_replicate, fun below => absurd below (by decide), ?_⟩
    intro d inside
    rw [if_neg (by omega), List.getElem?_replicate_of_lt inside]
  obtain ⟨mid, first, half⟩ := hashTile_built lawful size stored isLeaves (by decide) (by decide) start
  have rootTile : root.IsTile libs content ((libs.summaryKey fwIndex).take 0) 1 := isRoot
  obtain ⟨ip, second, built⟩ := hashTile_built lawful size stored rootTile (by decide) (by decide) half
  refine ⟨ip, ?_, built⟩
  have tiles : (List.range (mapPrefixStrata + 1)).mapM
      (fun i => Outcome.ofExcept (server.tile rev ((libs.summaryKey fwIndex).take i))) = .ok [root, leaves] := by
    have strata : List.range (mapPrefixStrata + 1) = [0, 1] := rfl
    rw [strata, Outcome.mapM_eq_ok]
    refine .cons ?_ (.cons ?_ .nil)
    · rw [List.take_zero, rootRead, Outcome.ofExcept_ok]
    · rw [leavesRead, Outcome.ofExcept_ok]
  simp only [MapLibraries.aggregation, tiles, answered, new_key size, Outcome.ofExcept_ok, Outcome.bind_ok,
    List.reverse_cons, List.reverse_nil, List.nil_append, List.singleton_append, List.foldlM_cons, List.foldlM_nil,
    first, second, Outcome.pure_eq]

-- The loop goes from node to node of the map, up to its root.
theorem calculateRoot_built {key : Bytes} (size : key.length = 32) {ip : MapInclusionProof}
    (built : ip.Built libs content key 0) {pd : Nat} (bound : pd ≤ 256) {hash : Bytes}
    (node : libs.mapNode content ((bitsOf key).take pd) = some hash) :
    libs.calculateRoot (bitsOf key) ip.proof pd hash = .ok (libs.mapRoot content) := by
  have length : (bitsOf key).length = 256 := by rw [bitsOf_length, size]
  induction pd generalizing hash with
  | zero =>
    rw [MapLibraries.calculateRoot, MapLibraries.mapRoot, hashAt]
    rw [List.take_zero, MapLibraries.mapNode] at node
    rw [show nodeAt libs.hasher.hashChildren libs.hashEmpty content 256 [] = some hash from node, Option.getD_some]
  | succ pd ih =>
    have stem := List.take_succ_eq_append_getElem (show pd < (bitsOf key).length by omega)
    have sib := built.proof pd (by omega)
    rw [if_pos (Nat.zero_le pd), stem, sibling_concat] at sib
    have levels (bit : Bool) : 256 - ((bitsOf key).take pd ++ [bit]).length = 256 - (pd + 1) := by
      rw [List.length_append, List.length_take, List.length_singleton]
      omega
    rw [stem, MapLibraries.mapNode, levels] at node
    rw [MapLibraries.calculateRoot, sib]
    simp only [stem, sibling_concat, isLeftChild_concat]
    apply ih (by omega)
    have up : 256 - ((bitsOf key).take pd).length = 256 - (pd + 1) + 1 := by
      rw [List.length_take]
      omega
    rw [MapLibraries.mapNode, up, nodeAt_child node, hashAt, MapLibraries.mapNode, levels]
    cases (bitsOf key)[pd] <;> simp [above]

theorem built_root {key : Bytes} (size : key.length = 32) {ip : MapInclusionProof}
    (built : ip.Built libs content key 0) {leaf : Bytes} (stored : content (bitsOf key) = some leaf) :
    libs.calculateRoot (.new key 256) ip.proof Hasher.bitLen leaf = .ok (libs.mapRoot content) := by
  have length : (bitsOf key).length = 256 := by rw [bitsOf_length, size]
  have node : libs.mapNode content ((bitsOf key).take 256) = some leaf := by
    rw [List.take_of_length_le (by omega), MapLibraries.mapNode, length]
    exact stored
  rw [new_key size]
  exact calculateRoot_built size built (Nat.le_refl 256) node

theorem aggregation_verifies (libs : MapLibraries) (lawful : libs.smt.Lawful) (content : ID → Option Bytes)
    (server : MapServer) (rev fwIndex : Nat) (serves : server.Serves libs content rev) (leaf : Bytes)
    (stored : content (bitsOf (libs.summaryKey fwIndex)) = some leaf) (agg : Bytes)
    (answered : server.aggregation rev fwIndex = .ok agg) :
    ∃ ip, libs.aggregation server rev fwIndex = .ok (agg, ip) ∧ ip.key = libs.summaryKey fwIndex ∧
      ip.value = some leaf ∧ ip.proof.length = 256 ∧
      libs.calculateRoot (.new (libs.summaryKey fwIndex) 256) ip.proof Hasher.bitLen leaf =
        .ok (libs.mapRoot content) := by
  obtain ⟨ip, aggregated, built⟩ := aggregation_built lawful serves stored answered
  refine ⟨ip, aggregated, built.key, ?_, built.length, built_root (libs.digestSize _) built stored⟩
  exact (built.value (by decide)).trans stored

-- So the flash tool takes every firmware that the map says is good.
theorem verifyAggregation_ok (lawful : libs.smt.Lawful) {server : MapServer} {rev leafIndex : Nat}
    (serves : server.Serves libs content rev) {preimage : Bytes}
    (stored : content (bitsOf (libs.summaryKey leafIndex)) =
      some (libs.hasher.hashLeaf mapTreeID (bitsOf (libs.summaryKey leafIndex)) preimage))
    (answered : server.aggregation rev leafIndex = .ok preimage) {agg : AggregatedFirmware}
    (read : unmarshalAggregation preimage = .ok agg) (good : agg.good = true) :
    libs.verifyAggregation server rev (libs.mapRoot content) leafIndex = .ok () := by
  obtain ⟨ip, aggregated, built⟩ := aggregation_built lawful serves stored answered
  have size : (libs.summaryKey leafIndex).length = 32 := libs.digestSize _
  have value := (built.value (by decide)).trans stored
  have root := built_root size built stored
  rw [new_key size] at root
  simp [MapLibraries.verifyAggregation, aggregated, built.key, new_key size, value, root, read, good]

end Assembly

section Reference

variable (libs : MapLibraries) (keys : List Bytes) (content : ID → Option Bytes)

-- The tile at a path over some bytes of the keys, and the tiles of a map with one prefix stratum.
def MapLibraries.tileAt (path : Bytes) (size : Nat) : MapTile :=
  ⟨path, ((keys.filter fun k => k.take path.length = path).map fun k => (k.drop path.length).take size).dedup.map
    fun p => ⟨p, (libs.mapNode content (bitsOf (path ++ p))).getD []⟩⟩

def MapLibraries.tilesOf : List MapTile :=
  libs.tileAt keys content [] 1 :: (keys.map fun k => k.take 1).dedup.map fun path => libs.tileAt keys content path 31

-- A server with these tiles, and with some aggregations.
def MapLibraries.serverOf (checkpoint : Except GoError Bytes) (aggregation : Nat → Except GoError Bytes) : MapServer where
  checkpoint := checkpoint
  tile _ path := ((libs.tilesOf keys content).find? fun t => t.path = path).elim (.error (.text "failed to fetch %s")) .ok
  aggregation _ := aggregation

variable {libs keys content} (listed : ∀ id, (content id).isSome ↔ ∃ k ∈ keys, bitsOf k = id)
  (sizes : ∀ k ∈ keys, k.length = 32)
include listed sizes

theorem tileAt_isTile {path : Bytes} {size : Nat} (depth : path.length + size ≤ 32) :
    (libs.tileAt keys content path size).IsTile libs content path size := by
  -- Each key below the path has a node at the tile's lower end.
  have below {k : Bytes} (inside : k ∈ keys) (front : k.take path.length = path) :
      ((k.drop path.length).take size).length = size ∧
        ∃ hash, libs.mapNode content (bitsOf (path ++ (k.drop path.length).take size)) = some hash := by
    have whole := sizes k inside
    have length : (bitsOf k).length = 256 := by rw [bitsOf_length, whole]
    obtain ⟨leaf, there⟩ := Option.isSome_iff_exists.mp ((listed _).mpr ⟨k, inside, rfl⟩)
    obtain ⟨hash, node⟩ := @mapNode_stem libs _ _ length _ there (8 * (path.length + size)) (by omega)
    rw [← bitsOf_take, List.take_add, front] at node
    exact ⟨by simp; omega, hash, node⟩
  refine ⟨rfl, fun l => ?_, ?_⟩
  · simp only [MapLibraries.tileAt, List.mem_map, List.mem_dedup, List.mem_filter, decide_eq_true_eq]
    constructor
    · rintro ⟨p, ⟨k, ⟨inside, front⟩, rfl⟩, rfl⟩
      obtain ⟨sized, hash, node⟩ := below inside front
      exact ⟨sized, by rw [node, Option.getD_some]⟩
    · rintro ⟨sized, node⟩
      obtain ⟨bits, y, -, found⟩ := nodeAt_below node
      obtain ⟨k, inside, same⟩ := (listed _).mp (Option.isSome_iff_exists.mpr ⟨y, found⟩)
      have stem : bitsOf (path ++ l.path) = bitsOf (k.take (path.length + size)) := by
        rw [bitsOf_take, same, List.take_left']
        rw [bitsOf_length, List.length_append, sized]
      have key := bitsOf_injective stem
      rw [List.take_add] at key
      have whole := sizes k inside
      obtain ⟨front, rest⟩ := List.append_inj key (by rw [List.length_take]; omega)
      refine ⟨l.path, ⟨k, ⟨inside, front.symm⟩, rest.symm⟩, ?_⟩
      rw [node, Option.getD_some]
  · simp only [MapLibraries.tileAt, List.map_map]
    have paths : (MapTileLeaf.path ∘ fun p => MapTileLeaf.mk p
        ((libs.mapNode content (bitsOf (path ++ p))).getD [])) = id := rfl
    rw [paths, List.map_id]
    exact List.nodup_dedup _

omit listed in
theorem tilesOf_paths : ((libs.tilesOf keys content).map MapTile.path).Nodup := by
  have paths : (MapTile.path ∘ fun path => libs.tileAt keys content path 31) = id := rfl
  rw [MapLibraries.tilesOf, List.map_cons, List.map_map, paths, List.map_id, List.nodup_cons]
  refine ⟨fun inside => ?_, List.nodup_dedup _⟩
  -- The root tile has a path of no bytes, and the other tiles have one of one byte.
  obtain ⟨k, member, short⟩ := List.mem_map.mp (List.mem_dedup.mp inside)
  have length := congrArg List.length short
  have whole := sizes k member
  rw [List.length_take] at length
  change _ = 0 at length
  omega

theorem tilesOf_root : ∃ t ∈ libs.tilesOf keys content, t.IsTile libs content [] 1 :=
  ⟨_, List.mem_cons_self, tileAt_isTile listed sizes (by decide)⟩

theorem tilesOf_leaves {key : Bytes} (there : (content (bitsOf key)).isSome) :
    ∃ t ∈ libs.tilesOf keys content, t.IsTile libs content (key.take 1) 31 := by
  obtain ⟨k, member, same⟩ := (listed _).mp there
  obtain rfl := bitsOf_injective same
  have short : (k.take 1).length = 1 := by
    have whole := sizes k member
    rw [List.length_take]
    omega
  refine ⟨_, List.mem_cons_of_mem _ (List.mem_map_of_mem (List.mem_dedup.mpr (List.mem_map_of_mem member))), ?_⟩
  exact tileAt_isTile listed sizes (by rw [short])

theorem serverOf_serves (checkpoint : Except GoError Bytes) (aggregation : Nat → Except GoError Bytes) (rev : Nat) :
    (libs.serverOf keys content checkpoint aggregation).Serves libs content rev := by
  have found {t : MapTile} (inside : t ∈ libs.tilesOf keys content) :
      (libs.serverOf keys content checkpoint aggregation).tile rev t.path = .ok t := by
    have some' : ((libs.tilesOf keys content).find? fun t' => t'.path = t.path).isSome :=
      List.find?_isSome.mpr ⟨t, inside, by simp⟩
    obtain ⟨t', first⟩ := Option.isSome_iff_exists.mp some'
    have same : t'.path = t.path := by simpa using List.find?_some first
    obtain rfl := List.inj_on_of_nodup_map (tilesOf_paths sizes) (List.mem_of_find?_eq_some first) inside same
    simp only [MapLibraries.serverOf, first, Option.elim_some]
  refine ⟨?_, fun key _ there => ?_⟩
  · obtain ⟨t, inside, is⟩ := @tilesOf_root libs _ _ listed sizes
    exact ⟨t, is.here ▸ found inside, is⟩
  · obtain ⟨t, inside, is⟩ := @tilesOf_leaves libs _ _ listed sizes _ there
    exact ⟨t, is.here ▸ found inside, is⟩

end Reference

section Sample

-- SHA-512/256 of "summary:0" and of "summary:1".
def summaryZero : Bytes :=
  [70, 33, 16, 166, 200, 38, 48, 74, 138, 207, 124, 159, 205, 94, 169, 100, 101, 213, 88, 190, 206, 10, 42, 212, 88,
    185, 93, 187, 204, 178, 99, 10]

def summaryOne : Bytes :=
  [236, 207, 225, 238, 61, 129, 38, 123, 122, 169, 126, 89, 106, 125, 244, 168, 47, 200, 202, 115, 197, 75, 181, 253,
    231, 142, 31, 231, 86, 137, 44, 8]

def sampleMap : MapLibraries where
  hasher := .tagged
  smt := .reference
  sha512_256 message := if message = Checkpoints.asciiBytes "summary:1" then summaryOne else summaryZero
  digestSize message := by split <;> rfl

def goodFirmware : Bytes := Checkpoints.asciiBytes "\x7b\"Index\":0,\"Good\":true\x7d"

def badFirmware : Bytes := Checkpoints.asciiBytes "\x7b\"Index\":1,\"Good\":false\x7d"

def leafZero : Bytes := sampleMap.hasher.hashLeaf mapTreeID (bitsOf summaryZero) goodFirmware

def leafOne : Bytes := sampleMap.hasher.hashLeaf mapTreeID (bitsOf summaryOne) badFirmware

def twoKeys : ID → Option Bytes := given [⟨bitsOf summaryZero, leafZero⟩, ⟨bitsOf summaryOne, leafOne⟩]

def twoKeysServer : MapServer :=
  sampleMap.serverOf [summaryZero, summaryOne] twoKeys (.error (.text "404 Not Found")) fun fwIndex =>
    .ok (if fwIndex = 1 then badFirmware else goodFirmware)

theorem twoKeys_stored : twoKeys (bitsOf summaryZero) = some leafZero ∧ twoKeys (bitsOf summaryOne) = some leafOne := by
  have apart : bitsOf summaryZero ≠ bitsOf summaryOne := fun same => absurd (bitsOf_injective same) (by decide)
  constructor
  · simp [twoKeys, given]
  · simp [twoKeys, given, apart]

theorem aggregation_verifies_two :
    (∃ ip, sampleMap.aggregation twoKeysServer 1 0 = .ok (goodFirmware, ip) ∧ ip.value = some leafZero ∧
      sampleMap.calculateRoot (.new summaryZero 256) ip.proof 256 leafZero = .ok (sampleMap.mapRoot twoKeys)) ∧
    ∃ ip, sampleMap.aggregation twoKeysServer 1 1 = .ok (badFirmware, ip) ∧ ip.value = some leafOne ∧
      sampleMap.calculateRoot (.new summaryOne 256) ip.proof 256 leafOne = .ok (sampleMap.mapRoot twoKeys) := by
  have serves : twoKeysServer.Serves sampleMap twoKeys 1 := by
    refine serverOf_serves (fun id => ?_) (by decide) _ _ 1
    rw [twoKeys, given_isSome]
    simp [eq_comm]
  have zero : sampleMap.summaryKey 0 = summaryZero := by decide
  have one : sampleMap.summaryKey 1 = summaryOne := by decide
  constructor
  · obtain ⟨ip, aggregated, -, value, -, root⟩ := aggregation_verifies sampleMap reference_lawful twoKeys twoKeysServer
      1 0 serves leafZero (zero ▸ twoKeys_stored.1) goodFirmware rfl
    rw [zero] at root
    exact ⟨ip, aggregated, value, root⟩
  · obtain ⟨ip, aggregated, -, value, -, root⟩ := aggregation_verifies sampleMap reference_lawful twoKeys twoKeysServer
      1 1 serves leafOne (one ▸ twoKeys_stored.2) badFirmware rfl
    rw [one] at root
    exact ⟨ip, aggregated, value, root⟩

end Sample

end Firmware
