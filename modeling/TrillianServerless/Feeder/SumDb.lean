import TrillianServerless.Witness.CompactLog

set_option autoImplicit false

namespace SumDb

open Go Merkle Checkpoints WitnessServer

def tileHeight : Nat := 8

def leavesPerTile : Nat := 2 ^ tileHeight

structure TileIndex where
  level : Nat
  offset : Nat
  deriving DecidableEq, Repr

-- Shifts and products of uint64 and int values wrap around.
def shl (bits : Nat) (x : Nat) : Nat := x * 2 ^ bits % 2 ^ 64

def convertToSumDBTiles (n : NodeID) : Outcome (TileIndex × NodeID) :=
  let sdbLevel := n.level / tileHeight
  let rLevel := n.level % tileHeight
  let lastLeaf := (shl n.level 1 * (n.index + 1) + (2 ^ 64 - 1)) % 2 ^ 64
  let tileLeaves := shl ((1 + sdbLevel) * tileHeight) 1
  if tileLeaves = 0 ∨ shl n.level 1 = 0 then .panic "integer divide by zero"
  else
    let sdbOffset := lastLeaf / tileLeaves
    let rLeaves := lastLeaf % tileLeaves
    let rIndex := rLeaves / shl n.level 1
    .ok (⟨sdbLevel, sdbOffset⟩, ⟨rLevel, rIndex⟩)

structure Tile where
  leaves : List Bytes
  deriving DecidableEq, Repr

-- One call of the lookup function.
structure Request where
  level : Nat
  offset : Nat
  partialWidth : Nat
  deriving DecidableEq, Repr

abbrev Lookup := Request → Except GoError (List Bytes)

-- `asked` lists the lookups that the broker has made.
structure TileBroker where
  pts : List (TileIndex × Nat)
  ts : List (TileIndex × Tile)
  asked : List Request

-- The loop of newTileBroker; a uint64 has eight bytes.
def partialWidths : Nat → Nat → Nat → Nat → List (TileIndex × Nat)
  | 0, l, t, o => [(⟨l, t⟩, o)]
  | fuel + 1, l, t, o =>
    if t = 0 then [(⟨l, t⟩, o)]
    else (⟨l, t⟩, o) :: partialWidths fuel (l + 1) (t / leavesPerTile) (t % leavesPerTile)

def newTileBroker (size : Nat) : TileBroker :=
  ⟨partialWidths 8 0 (size / leavesPerTile) (size % leavesPerTile), [], []⟩

-- A lookup in a map that may be missing gives the zero value.
def TileBroker.width (tb : TileBroker) (i : TileIndex) : Nat := (tb.pts.lookup i).getD 0

def TileBroker.tile (lookup : Lookup) (i : TileIndex) : Eff TileBroker Tile := fun tb =>
  match tb.ts.lookup i with
  | some t => (.ok t, tb)
  | none =>
    let request : Request := ⟨i.level, i.offset, tb.width i⟩
    match lookup request with
    | .error _ => (.error (.text "lookup failed: %v"), { tb with asked := tb.asked ++ [request] })
    | .ok hs => (.ok ⟨hs⟩, ⟨tb.pts, (i, ⟨hs⟩) :: tb.ts, tb.asked ++ [request]⟩)

section Hash

variable (pkg : Compact.Package) (h : LogHasher)

def Tile.hash (t : Tile) (n : NodeID) : Outcome Bytes :=
  let left := shl n.level n.index
  let right := shl n.level (n.index + 1)
  if t.leaves.length < right then .panic "index %d out of range of %d leaves"
  else
    -- The errors of Append are not looked at.
    let r := pkg.appendAll h.hashChildren (pkg.newEmptyRange 0) ((t.leaves.take right).drop left)
    match (pkg.getRootHash h.hashChildren r).1 with
    | .error _ => .panic "begin must be 0"
    | .ok root => .ok root

variable (lookup : Lookup)

def proofNode (n : NodeID) : Eff TileBroker Bytes := do
  let (i, r) ← Eff.lift (convertToSumDBTiles n)
  let t ← Eff.hide "failed to lookup %s: %v" (TileBroker.tile lookup i)
  Eff.lift (t.hash pkg h r)

-- fetchProof of FeedLog, for the sizes of its two checkpoints.
def fetchProof (fromSize toSize : Nat) : Outcome (List Bytes) × TileBroker :=
  Eff.each (proofNode pkg h lookup) (pkg.rangeNodes fromSize toSize) (newTileBroker toSize)

end Hash

section Nodes

-- The node of a tile that a node of the log is, with no overflow.
theorem convert_eq {l r i : Nat} (low : r < 8) (few : 8 * l + r < 56) (small : (i + 1) * 2 ^ (8 * l + r) < 2 ^ 64) :
    convertToSumDBTiles ⟨8 * l + r, i⟩ = .ok (⟨l, i / 2 ^ (8 - r)⟩, ⟨r, i % 2 ^ (8 - r)⟩) := by
  have level : (8 * l + r) / 8 = l := by omega
  have rest : (8 * l + r) % 8 = r := by omega
  have positive := Nat.two_pow_pos (8 * l + r)
  have one : shl (8 * l + r) 1 = 2 ^ (8 * l + r) := by
    rw [shl, Nat.one_mul, Nat.mod_eq_of_lt]
    exact Nat.pow_lt_pow_right (by omega) (by omega)
  have exponent : (1 + l) * 8 = (8 * l + r) + (8 - r) := by omega
  have tile : shl ((1 + l) * 8) 1 = 2 ^ (8 * l + r) * 2 ^ (8 - r) := by
    rw [shl, Nat.one_mul, Nat.mod_eq_of_lt, exponent, pow_add]
    exact Nat.pow_lt_pow_right (by omega) (by omega)
  have last : (2 ^ (8 * l + r) * (i + 1) + (2 ^ 64 - 1)) % 2 ^ 64 =
      2 ^ (8 * l + r) * i + (2 ^ (8 * l + r) - 1) := by
    rw [Nat.mul_comm] at small
    have expand : 2 ^ (8 * l + r) * (i + 1) = 2 ^ (8 * l + r) * i + 2 ^ (8 * l + r) := by ring
    rw [expand] at small ⊢
    omega
  have back : (2 ^ (8 * l + r) * i + (2 ^ (8 * l + r) - 1)) / 2 ^ (8 * l + r) = i := by
    rw [Nat.mul_add_div positive, Nat.div_eq_of_lt (by omega), Nat.add_zero]
  have some' : ¬ (2 ^ (8 * l + r) * 2 ^ (8 - r) = 0 ∨ 2 ^ (8 * l + r) = 0) := by
    have := Nat.mul_pos positive (Nat.two_pow_pos (8 - r))
    omega
  simp only [convertToSumDBTiles, tileHeight, level, rest, one, tile, last, if_neg some',
    ← Nat.div_div_eq_div_mul, Nat.mod_mul_right_div_self, back]

end Nodes

section TileHash

variable {pkg : Compact.Package} (lawful : Compact.Lawful pkg) (h : LogHasher)
include lawful

/-- The hash of a subtree of a tile is the root over its leaves. -/
theorem tile_hash {t : Tile} {r i : Nat} (inside : (i + 1) * 2 ^ r ≤ t.leaves.length)
    (small : (i + 1) * 2 ^ r ≤ 256) :
    t.hash pkg h ⟨r, i⟩ =
      .ok (nodeAt h.hashChildren (fun j => t.leaves.getD (i * 2 ^ r + j) []) r 0) := by
  have positive := Nat.two_pow_pos r
  have next : (i + 1) * 2 ^ r = i * 2 ^ r + 2 ^ r := by ring
  have low' : i * 2 ^ r < 2 ^ 64 := Nat.lt_of_lt_of_le (by omega) (show 256 ≤ 2 ^ 64 by decide)
  have left : shl r i = i * 2 ^ r := Nat.mod_eq_of_lt low'
  have right : shl r (i + 1) = (i + 1) * 2 ^ r :=
    Nat.mod_eq_of_lt (Nat.lt_of_le_of_lt small (by decide))
  have length : ((t.leaves.take ((i + 1) * 2 ^ r)).drop (i * 2 ^ r)).length = 2 ^ r := by
    rw [List.length_drop, List.length_take, Nat.min_eq_left inside, next]
    omega
  have filled := lawful.appendAll (v := nodeHash h.hashChildren fun j => t.leaves.getD (i * 2 ^ r + j) [])
    (fun l i => nodeHash_parent _ _ l i) (Nat.le_refl 0) ((t.leaves.take ((i + 1) * 2 ^ r)).drop (i * 2 ^ r))
    fun j bound => by
      rw [length] at bound
      have known : i * 2 ^ r + j < t.leaves.length := by omega
      simp [nodeHash, nodeAt, known]
  rw [cover_self, List.map_nil, Nat.zero_add, length] at filled
  have root : cover 0 (2 ^ r) = [⟨r, 0⟩] := by
    have perfect := cover_perfect (l := r) (s := 0) (Nat.dvd_zero _)
    rwa [Nat.zero_add, Nat.zero_div] at perfect
  simp only [Tile.hash, left, right, if_neg (Nat.not_lt.mpr inside), lawful.newEmptyRange, filled,
    lawful.getRootHash h.hashChildren ⟨0, 2 ^ r, _⟩ rfl, root]
  rfl

end TileHash

section Width

theorem lookup_cons (k t r l o : Nat) (rest : List (TileIndex × Nat)) :
    ((⟨k, t⟩, r) :: rest : List (TileIndex × Nat)).lookup ⟨l, o⟩ =
      if l = k ∧ o = t then some r else rest.lookup ⟨l, o⟩ := by
  by_cases same : l = k ∧ o = t
  · obtain ⟨rfl, rfl⟩ := same
    simp
  · have other : ((⟨l, o⟩ : TileIndex) == ⟨k, t⟩) = false := by simpa using same
    rw [List.lookup_cons, other, if_neg same]

theorem partialWidths_lower (fuel : Nat) {k l : Nat} (t r o : Nat) (below : l < k) :
    (partialWidths fuel k t r).lookup ⟨l, o⟩ = none := by
  have other : ¬ (l = k ∧ o = t) := by omega
  induction fuel generalizing k t r with
  | zero => rw [partialWidths, lookup_cons, if_neg other, List.lookup_nil]
  | succ fuel ih =>
    rw [partialWidths]
    split
    · rw [lookup_cons, if_neg other, List.lookup_nil]
    · rw [lookup_cons, if_neg other]
      exact ih _ _ (by omega) (by omega)

theorem row_above (m e : Nat) : m / leavesPerTile ^ (e + 1) = m / leavesPerTile / leavesPerTile ^ e := by
  rw [Nat.div_div_eq_div_mul, ← pow_succ']

-- In the row `d` above `k`, only the tile on the right border has an entry.
theorem partialWidths_lookup (fuel k m : Nat) {d : Nat} (o : Nat) (enough : d ≤ fuel)
    (row : m / leavesPerTile ^ d ≠ 0) :
    (partialWidths fuel k (m / leavesPerTile) (m % leavesPerTile)).lookup ⟨k + d, o⟩ =
      if o = m / leavesPerTile ^ (d + 1) then some (m / leavesPerTile ^ d % leavesPerTile) else none := by
  induction fuel generalizing k m d with
  | zero =>
    obtain rfl : d = 0 := by omega
    rw [partialWidths, lookup_cons, List.lookup_nil]
    simp
  | succ fuel ih =>
    rw [partialWidths]
    cases d with
    | zero =>
      split
      · rw [lookup_cons, List.lookup_nil]
        simp
      · rw [lookup_cons, partialWidths_lower _ _ _ _ (by omega)]
        simp
    | succ d =>
      rw [row_above] at row
      have more : m / leavesPerTile ≠ 0 := fun none => row (by rw [none, Nat.zero_div])
      rw [if_neg more, lookup_cons, if_neg (by omega), show k + (d + 1) = k + 1 + d by omega,
        ih (k + 1) (m / leavesPerTile) (by omega) row, row_above m (d + 1), row_above m d]

/-- How many nodes of its row a tile holds in a tree of size `n`. -/
def tileWidth (n : Nat) (i : TileIndex) : Nat :=
  min leavesPerTile (n / leavesPerTile ^ i.level - leavesPerTile * i.offset)

-- A request for 0 nodes asks for a full tile.
def Request.width (q : Request) : Nat := if q.partialWidth = 0 then leavesPerTile else q.partialWidth

def Request.index (q : Request) : TileIndex := ⟨q.level, q.offset⟩

/-- The tile asked for stands in a tree of size `n`, with the width asked for. -/
def Request.Exists (n : Nat) (q : Request) : Prop :=
  q.partialWidth < leavesPerTile ∧ 0 < tileWidth n q.index ∧ q.width = tileWidth n q.index

theorem tile_span {r : Nat} (low : r < 8) (i : Nat) :
    leavesPerTile * (i / 2 ^ (8 - r)) + i % 2 ^ (8 - r) * 2 ^ r = i * 2 ^ r := by
  have whole : 2 ^ (8 - r) * 2 ^ r = leavesPerTile := by
    rw [← pow_add, Nat.sub_add_cancel (Nat.le_of_lt low)]
    rfl
  calc leavesPerTile * (i / 2 ^ (8 - r)) + i % 2 ^ (8 - r) * 2 ^ r
      = (2 ^ (8 - r) * (i / 2 ^ (8 - r)) + i % 2 ^ (8 - r)) * 2 ^ r := by rw [← whole]; ring
    _ = i * 2 ^ r := by rw [Nat.div_add_mod]

/-- A node of the tree lies in the part of its tile that the tree has. -/
theorem le_tileWidth {n l r i : Nat} (low : r < 8) (inside : (i + 1) * 2 ^ (8 * l + r) ≤ n) :
    (i % 2 ^ (8 - r) + 1) * 2 ^ r ≤ tileWidth n ⟨l, i / 2 ^ (8 - r)⟩ := by
  have whole : 2 ^ (8 - r) * 2 ^ r = leavesPerTile := by
    rw [← pow_add, Nat.sub_add_cancel (Nat.le_of_lt low)]
    rfl
  have row : (i + 1) * 2 ^ r ≤ n / leavesPerTile ^ l := by
    rw [Nat.le_div_iff_mul_le (Nat.pow_pos (by decide)), leavesPerTile, tileHeight, ← pow_mul,
      Nat.mul_assoc, ← pow_add, Nat.add_comm r]
    exact inside
  have inTile : (i % 2 ^ (8 - r) + 1) * 2 ^ r ≤ 2 ^ (8 - r) * 2 ^ r :=
    Nat.mul_le_mul_right _ (Nat.mod_lt _ (Nat.two_pow_pos _))
  have span := tile_span low i
  rw [Nat.add_mul] at row inTile ⊢
  simp only [tileWidth]
  omega

theorem newTileBroker_width {n : Nat} (small : n < 2 ^ 64) {i : TileIndex} (some' : 0 < tileWidth n i) :
    (newTileBroker n).width i < leavesPerTile ∧
      (Request.mk i.level i.offset ((newTileBroker n).width i)).width = tileWidth n i := by
  obtain ⟨l, o⟩ := i
  have inside : leavesPerTile * o < n / leavesPerTile ^ l := by
    simp only [tileWidth] at some'
    omega
  have row : n / leavesPerTile ^ l ≠ 0 := by omega
  have low : l ≤ 8 := by
    by_contra high
    have more : leavesPerTile ^ 8 ≤ leavesPerTile ^ l := Nat.pow_le_pow_right (by decide) (by omega)
    exact row (Nat.div_eq_of_lt (Nat.lt_of_lt_of_le small more))
  have known := partialWidths_lookup 8 0 n o low row
  rw [Nat.zero_add, pow_succ, ← Nat.div_div_eq_div_mul] at known
  have width : (newTileBroker n).width ⟨l, o⟩ = _ := congrArg (Option.getD · 0) known
  rw [width]
  simp only [Request.width, tileWidth]
  rw [show leavesPerTile = 256 from rfl] at *
  generalize n / 256 ^ l = nodes at *
  by_cases border : o = nodes / 256
  · rw [if_pos border, Option.getD_some]
    have rest : nodes % 256 ≠ 0 := by omega
    rw [if_neg rest]
    omega
  · rw [if_neg border, Option.getD_none, if_pos rfl]
    omega

end Width

section Proof

variable (h : LogHasher) (entries : List Bytes)

-- The first `width` nodes of a tile of the log.
def tileNodes (i : TileIndex) (width : Nat) : List Bytes :=
  (List.range width).map fun j =>
    h.logNode entries ⟨tileHeight * i.level, leavesPerTile * i.offset + j⟩

/-- The lookup answers each request for a tile of the log with the nodes asked for. -/
def TrueTiles (lookup : Lookup) : Prop :=
  ∀ q : Request, q.Exists entries.length → lookup q = .ok (tileNodes h entries q.index q.width)

/-- What a broker holds for the log is true, and it has asked for nothing else. -/
structure BrokerOk (tb : TileBroker) : Prop where
  widths : tb.pts = (newTileBroker entries.length).pts
  cached : ∀ i t, tb.ts.lookup i = some t →
    t.leaves = tileNodes h entries i (tileWidth entries.length i)
  asked : ∀ q ∈ tb.asked, q.Exists entries.length

variable {h entries}

-- Hashing nodes of a tile gives the node of the log above them.
theorem tileNodes_node {l r i width : Nat} (low : r < 8)
    (within : (i % 2 ^ (8 - r) + 1) * 2 ^ r ≤ width) :
    nodeAt h.hashChildren
        (fun j => (tileNodes h entries ⟨l, i / 2 ^ (8 - r)⟩ width).getD (i % 2 ^ (8 - r) * 2 ^ r + j) []) r 0 =
      h.logNode entries ⟨8 * l + r, i⟩ := by
  have span := tile_span low i
  have rows := nodeAt_rows h.hashChildren (h.leafOf entries) (8 * l) 0 (Nat.dvd_mul_left (2 ^ r) i)
  rw [Nat.mul_div_cancel _ (Nat.two_pow_pos r), Nat.add_zero] at rows
  refine Eq.trans ?_ rows
  refine nodeAt_congr _ fun j _ bound => ?_
  rw [Nat.add_mul] at within
  have known : i % 2 ^ (8 - r) * 2 ^ r + j < width := by omega
  simp [tileNodes, known, LogHasher.logNode, nodeHash, tileHeight, ← Nat.add_assoc, span]

variable {lookup : Lookup} (small : entries.length < 2 ^ 56)
  (tiles : TrueTiles h entries lookup)
include small tiles

theorem tile_ok {tb : TileBroker} (ok : BrokerOk h entries tb) {i : TileIndex}
    (some' : 0 < tileWidth entries.length i) :
    ∃ tb', TileBroker.tile lookup i tb =
        (.ok ⟨tileNodes h entries i (tileWidth entries.length i)⟩, tb') ∧ BrokerOk h entries tb' := by
  unfold TileBroker.tile
  cases known : tb.ts.lookup i with
  | some t =>
    refine ⟨tb, ?_, ok⟩
    dsimp only
    rw [← ok.cached i t known]
  | none =>
    obtain ⟨partial', width⟩ := newTileBroker_width (Nat.lt_trans small (by decide)) some'
    have same : tb.width i = (newTileBroker entries.length).width i := by
      rw [TileBroker.width, ok.widths, TileBroker.width]
    rw [← same] at partial' width
    have there : Request.Exists entries.length ⟨i.level, i.offset, tb.width i⟩ :=
      ⟨partial', some', width⟩
    have answered := tiles _ there
    rw [width] at answered
    dsimp only
    rw [answered]
    refine ⟨_, rfl, ok.widths, fun j t found => ?_, fun q member => ?_⟩
    · by_cases own : j = i
      · subst own
        rw [List.lookup_cons_self] at found
        obtain rfl := Option.some.inj found
        rfl
      · rw [List.lookup_cons, beq_eq_false_iff_ne.mpr own] at found
        exact ok.cached j t found
    · rcases List.mem_append.mp member with old | new
      · exact ok.asked q old
      · rw [List.mem_singleton.mp new]
        exact there

variable {pkg : Compact.Package} (lawful : Compact.Lawful pkg)
include lawful

/-- One round of fetchProof finds the hash of its node. -/
theorem proofNode_ok {id : NodeID} (inside : id.stop ≤ entries.length) {tb : TileBroker}
    (ok : BrokerOk h entries tb) :
    ∃ tb', proofNode pkg h lookup id tb = (.ok (h.logNode entries id), tb') ∧ BrokerOk h entries tb' := by
  obtain ⟨level, i⟩ := id
  obtain ⟨l, r, low, rfl⟩ : ∃ l r, r < 8 ∧ level = 8 * l + r :=
    ⟨level / 8, level % 8, Nat.mod_lt _ (by decide), (Nat.div_add_mod level 8).symm⟩
  rw [NodeID.stop] at inside
  have total := Nat.lt_of_le_of_lt inside small
  have few : 8 * l + r < 56 := (Nat.pow_lt_pow_iff_right (by omega)).mp
    (Nat.lt_of_le_of_lt (Nat.le_mul_of_pos_left _ (by omega)) total)
  have converted := convert_eq low few (Nat.lt_trans total (by decide))
  have within := le_tileWidth low inside
  have full : tileWidth entries.length ⟨l, i / 2 ^ (8 - r)⟩ ≤ 256 := Nat.min_le_left _ _
  have positive : 0 < (i % 2 ^ (8 - r) + 1) * 2 ^ r := by positivity
  obtain ⟨tb', found, ok'⟩ := tile_ok small tiles ok (Nat.lt_of_lt_of_le positive within)
  refine ⟨tb', ?_, ok'⟩
  have hashed := tile_hash lawful h (t := ⟨tileNodes h entries ⟨l, i / 2 ^ (8 - r)⟩ _⟩)
    (by simpa [tileNodes] using within) (Nat.le_trans within full)
  rw [tileNodes_node low within] at hashed
  rw [proofNode, Eff.bind_of_ok (show _ = (_, tb) by rw [Eff.lift_run, converted])]
  dsimp only
  rw [Eff.bind_of_ok (Eff.hide_eq_ok.mpr found), Eff.lift_run, hashed]

/-- fetchProof finds the compact range between two sizes of the log and asks for tiles of the larger
tree only. A witness of compact ranges takes what it finds, from a stored checkpoint and at first. -/
theorem fetchProof_correct {fromSize : Nat} (less : fromSize < entries.length) :
    ∃ proof tb, fetchProof pkg h lookup fromSize entries.length = (.ok proof, tb) ∧
      proof = trueRange h entries fromSize entries.length ∧
      (∀ q ∈ tb.asked, q.Exists entries.length) ∧
      (∀ prev next : Checkpoint, 0 < fromSize →
        prev.size = fromSize → prev.hash = h.logRoot (entries.take fromSize) →
        next.size = entries.length → next.hash = h.logRoot entries →
        verifyRange pkg next prev h (trueRange h entries 0 fromSize) proof =
          .ok (trueRange h entries 0 entries.length)) ∧
      ∀ (info : LogInfo) (next : Checkpoint), fromSize = 0 →
        info.useCompact = true → info.hasher = h →
        next.size = entries.length → next.hash = h.logRoot entries →
        initRange pkg info next proof = .ok (some (marshalProof proof)) := by
  have start : BrokerOk h entries (newTileBroker entries.length) :=
    ⟨rfl, fun i t found => by simp [newTileBroker] at found, fun q member => by cases member⟩
  have round : ∀ id ∈ cover fromSize entries.length, ∀ tb, BrokerOk h entries tb →
      ∃ tb', proofNode pkg h lookup id tb = (.ok (h.logNode entries id), tb') ∧
        BrokerOk h entries tb' := fun id member tb ok =>
    proofNode_ok small tiles lawful ((mem_cover_iff _ _ id).mp member).1.2 ok
  obtain ⟨tb, fetched, ok⟩ := Eff.each_ok round (newTileBroker entries.length) start
  refine ⟨trueRange h entries fromSize entries.length, tb, ?_, rfl, ok.asked, ?_, ?_⟩
  · rw [fetchProof, lawful.rangeNodes _ _ (Nat.le_of_lt less)]
    exact fetched
  · intro prev next positive prevSize prevHash nextSize nextHash
    exact verifyRange_true lawful entries positive (Nat.le_of_lt less) (Nat.le_refl _) prevSize prevHash
      nextSize (by rw [nextHash, List.take_length])
  · rintro info next rfl compact rfl nextSize nextHash
    rw [initRange, if_pos compact, nextSize]
    refine except_bind_eq_ok.mpr ⟨_, hideErr_eq_ok.mpr (lawful.newRange_eq_ok.mpr
      ⟨Nat.zero_le _, by simp [trueRange], rfl⟩), except_bind_eq_ok.mpr ⟨(), ?_, rfl⟩⟩
    refine hideErr_eq_ok.mpr ((verifyRangeHash_ok lawful rfl).mpr ?_)
    rw [nextHash, trueRange, info.hasher.rangeRoot_take entries less (Nat.le_refl _), List.take_length]

end Proof

section Served

-- A server of all tiles of a log.
def serve (h : LogHasher) (entries : List Bytes) (q : Request) : Except GoError (List Bytes) :=
  .ok (tileNodes h entries q.index q.width)

theorem fetchProof_correct_pair :
    ∃ proof tb, fetchProof Compact.reference pairHasher (serve pairHasher [[1], [2]]) 1 2 =
        (.ok proof, tb) ∧
      proof = trueRange pairHasher [[1], [2]] 1 2 ∧ (∀ q ∈ tb.asked, q.Exists 2) ∧
      verifyRange Compact.reference ⟨"", 2, pairHasher.logRoot [[1], [2]]⟩
        ⟨"", 1, pairHasher.logRoot [[1]]⟩ pairHasher (trueRange pairHasher [[1], [2]] 0 1) proof =
          .ok (trueRange pairHasher [[1], [2]] 0 2) := by
  have served : TrueTiles pairHasher [[1], [2]] (serve pairHasher [[1], [2]]) := fun _ _ => rfl
  obtain ⟨proof, tb, fetched, range, asked, accepts, _⟩ :=
    fetchProof_correct (by decide) served Compact.reference_lawful (show 1 < 2 by decide)
  exact ⟨proof, tb, fetched, range, asked, accepts _ _ (by decide) rfl rfl rfl rfl⟩

end Served

end SumDb
