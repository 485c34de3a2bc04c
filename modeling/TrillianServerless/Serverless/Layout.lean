import Mathlib.Tactic.Ring
import TrillianServerless.Serverless.Tile

set_option autoImplicit false

namespace Serverless

open Go Merkle

/-- The files of a log, relative to its root directory. A full tile has size 0 in its name. -/
inductive Path where
  | checkpoint
  | checkpointTmp
  | seq (n : Nat)
  | leaf (hash : Bytes)
  | leafTmp (hash : Bytes)
  | pending (hash : Bytes)
  | tile (level index size : Nat)
  | tileTemp (level index size : Nat)
  | tileLink (level index : Nat)
  deriving DecidableEq, Repr

def partialTileSize (level index logSize : Nat) : Nat :=
  let sizeAtLevel := logSize >>> (level * 8)
  let fullTiles := sizeAtLevel / 256
  if index < fullTiles then 0 else sizeAtLevel % 256

structure TileAddress where
  tileLevel : Nat
  tileIndex : Nat
  nodeLevel : Nat
  nodeIndex : Nat
  deriving DecidableEq, Repr

def nodeCoordsToTileAddress (treeLevel treeIndex : Nat) : TileAddress :=
  let tileRowWidth := 2 ^ (8 - treeLevel % 8)
  { tileLevel := treeLevel / 8
    tileIndex := treeIndex / tileRowWidth
    nodeLevel := treeLevel % 8
    nodeIndex := treeIndex % tileRowWidth }

def tileNodeKey (level index : Nat) : Nat := 2 ^ (level + 1) * index + 2 ^ level - 1

abbrev TileKey := Nat × Nat

def tileOf (id : NodeID) : TileKey :=
  let address := nodeCoordsToTileAddress id.level id.index
  (address.tileLevel, address.tileIndex)

def slotOf (id : NodeID) : Nat :=
  let address := nodeCoordsToTileAddress id.level id.index
  tileNodeKey address.nodeLevel address.nodeIndex

-- How many of its 256 leaves the tile has in a log of size `n`.
def tileCount (key : TileKey) (n : Nat) : Nat := min 256 (n / 2 ^ (8 * key.1) - 256 * key.2)

theorem tileCount_le (key : TileKey) (n : Nat) : tileCount key n ≤ 256 := Nat.min_le_left _ _

theorem tileCount_mono (key : TileKey) {m n : Nat} (order : m ≤ n) :
    tileCount key m ≤ tileCount key n := by
  have := Nat.div_le_div_right (c := 2 ^ (8 * key.1)) order
  unfold tileCount
  omega

-- A tile that has leaves is read at its own path: the full tile, or the partial one for its count.
theorem partialTileSize_eq {level index n : Nat} (nonempty : 0 < tileCount (level, index) n) :
    partialTileSize level index n = tileCount (level, index) n % 256 := by
  rw [partialTileSize, Nat.shiftRight_eq_div_pow, Nat.mul_comm level 8]
  simp only [tileCount] at nonempty ⊢
  generalize n / 2 ^ (8 * level) = size at nonempty ⊢
  split <;> omega

theorem slotOf_succ (id : NodeID) :
    slotOf id + 1 = 2 ^ (id.level % 8) * (2 * (id.index % 2 ^ (8 - id.level % 8)) + 1) := by
  have positive := Nat.two_pow_pos (id.level % 8)
  simp only [slotOf, nodeCoordsToTileAddress, tileNodeKey]
  rw [Nat.sub_add_cancel (by omega), pow_succ]
  ring

-- In units of the tile's leaves, where the node ends.
def tileStop (id : NodeID) : Nat := (id.index % 2 ^ (8 - id.level % 8) + 1) * 2 ^ (id.level % 8)

theorem level_split (id : NodeID) : id.level = 8 * (id.level / 8) + id.level % 8 := by omega

theorem row_width (id : NodeID) : 2 ^ (8 - id.level % 8) * 2 ^ (id.level % 8) = 256 := by
  rw [← pow_add, show 8 - id.level % 8 + id.level % 8 = 8 by omega]
  rfl

theorem tileStop_le (id : NodeID) : tileStop id ≤ 256 := by
  have bound := Nat.mod_lt id.index (Nat.two_pow_pos (8 - id.level % 8))
  calc tileStop id ≤ 2 ^ (8 - id.level % 8) * 2 ^ (id.level % 8) := Nat.mul_le_mul_right _ bound
    _ = 256 := row_width id

theorem stop_eq_tileStop (id : NodeID) :
    id.stop = (256 * (tileOf id).2 + tileStop id) * 2 ^ (8 * (tileOf id).1) := by
  have split := Nat.div_add_mod id.index (2 ^ (8 - id.level % 8))
  have power : 2 ^ id.level = 2 ^ (8 * (id.level / 8)) * 2 ^ (id.level % 8) := by
    rw [← pow_add, ← level_split]
  have width := row_width id
  simp only [NodeID.stop, tileOf, nodeCoordsToTileAddress, tileStop, power]
  generalize 2 ^ (8 * (id.level / 8)) = high
  generalize 2 ^ (8 - id.level % 8) = row at *
  generalize 2 ^ (id.level % 8) = low at *
  calc (id.index + 1) * (high * low)
      = (row * (id.index / row) + id.index % row + 1) * low * high := by rw [split]; ring
    _ = (row * low * (id.index / row) + (id.index % row + 1) * low) * high := by ring
    _ = (256 * (id.index / row) + (id.index % row + 1) * low) * high := by rw [width]

/-- A node is complete in a log of size `n` exactly when its tile has all of the tile leaves below it. -/
theorem stop_le_iff (id : NodeID) (n : Nat) : id.stop ≤ n ↔ tileStop id ≤ tileCount (tileOf id) n := by
  have bound := tileStop_le id
  have positive : 0 < tileStop id := Nat.mul_pos (Nat.succ_pos _) (Nat.two_pow_pos _)
  rw [stop_eq_tileStop, ← Nat.le_div_iff_mul_le (Nat.two_pow_pos _), tileCount]
  omega

theorem slot_lt {id : NodeID} {count : Nat} (inside : tileStop id ≤ count) :
    slotOf id < 2 * count - 1 := by
  have succ := slotOf_succ id
  have positive := Nat.two_pow_pos (id.level % 8)
  have stop : tileStop id = id.index % 2 ^ (8 - id.level % 8) * 2 ^ (id.level % 8) +
      2 ^ (id.level % 8) := by
    simp only [tileStop]
    ring
  have expand : 2 ^ (id.level % 8) * (2 * (id.index % 2 ^ (8 - id.level % 8)) + 1) =
      2 * (id.index % 2 ^ (8 - id.level % 8) * 2 ^ (id.level % 8)) + 2 ^ (id.level % 8) := by ring
  omega

theorem odd_ne_even_part {b x y : Nat} : 2 * x + 1 ≠ 2 ^ (b + 1) * (2 * y + 1) := by
  rw [pow_succ, Nat.mul_comm (2 ^ b) 2, Nat.mul_assoc]
  omega

theorem odd_part_unique {a b x y : Nat} (same : 2 ^ a * (2 * x + 1) = 2 ^ b * (2 * y + 1)) :
    a = b ∧ x = y := by
  induction a generalizing b with
  | zero =>
    cases b with
    | zero => simpa using same
    | succ b => exact absurd (by simpa using same) (odd_ne_even_part (b := b) (x := x) (y := y))
  | succ a ih =>
    cases b with
    | zero => exact absurd (by simpa using same.symm) (odd_ne_even_part (b := a) (x := y) (y := x))
    | succ b =>
      have halved : 2 ^ a * (2 * x + 1) = 2 ^ b * (2 * y + 1) := by
        rw [pow_succ, pow_succ] at same
        have double : 2 * (2 ^ a * (2 * x + 1)) = 2 * (2 ^ b * (2 * y + 1)) := by linarith
        omega
      obtain ⟨rfl, rfl⟩ := ih halved
      exact ⟨rfl, rfl⟩

/-- No two tree nodes share a slot of one tile. -/
theorem slot_injective {a b : NodeID} (tile : tileOf a = tileOf b) (slot : slotOf a = slotOf b) :
    a = b := by
  have keys := slotOf_succ a
  rw [slot, slotOf_succ b] at keys
  obtain ⟨level, index⟩ := odd_part_unique keys
  simp only [tileOf, nodeCoordsToTileAddress, Prod.mk.injEq] at tile
  have sameLevel : a.level = b.level := by omega
  have sameIndex : a.index = b.index := by
    rw [← Nat.div_add_mod a.index (2 ^ (8 - a.level % 8)),
      ← Nat.div_add_mod b.index (2 ^ (8 - b.level % 8)), tile.2, ← index, level]
  obtain ⟨al, ai⟩ := a
  obtain ⟨bl, bi⟩ := b
  simp_all

end Serverless
