import TrillianServerless.Feeder.SumDb
import TrillianServerless.Serverless.TileFill

set_option autoImplicit false

namespace Serverless

open Go Merkle

section Slots

/-- The rightmost leaf of its tile that lies below a node. -/
def rightmostTileLeaf (id : NodeID) : Nat := tileStop id - 1

/-- How many leaves of a tile a tree of size `n` has; negative for a tile further to the right. -/
def leavesInTile (key : TileKey) (n : Nat) : Int := min 256 ((n >>> (8 * key.1) : Nat) - 256 * key.2)

theorem tileStop_pos (id : NodeID) : 0 < tileStop id :=
  Nat.mul_pos (Nat.succ_pos _) (Nat.two_pow_pos _)

theorem rightmostTileLeaf_succ (id : NodeID) : rightmostTileLeaf id + 1 = tileStop id :=
  Nat.sub_add_cancel (tileStop_pos id)

-- The tree leaf on which a node ends is the one on which its rightmost tile leaf ends.
theorem rightmostTileLeaf_stop (id : NodeID) :
    (tileLeaf (tileOf id) (rightmostTileLeaf id)).stop = id.stop := by
  rw [stop_eq_tileStop id, ← rightmostTileLeaf_succ]
  rfl

/-- Only one node of a tile has an even slot, the leaf of half that number. -/
theorem slot_even_iff (id : NodeID) (key : TileKey) {j : Nat} (inside : j < 256) :
    tileOf id = key ∧ slotOf id = 2 * j ↔ id = tileLeaf key j := by
  obtain ⟨leafTile, -, leafSlot⟩ := tileLeaf_facts key inside
  constructor
  · rintro ⟨tile, slot⟩
    exact slot_injective (tile.trans leafTile.symm) (slot.trans leafSlot.symm)
  · rintro rfl
    exact ⟨leafTile, leafSlot⟩

-- A count that is not positive is a tile without leaves.
theorem leavesInTile_toNat (key : TileKey) (n : Nat) : (leavesInTile key n).toNat = tileCount key n := by
  rw [leavesInTile, tileCount, Nat.shiftRight_eq_div_pow]
  omega

theorem complete_iff (id : NodeID) (n : Nat) :
    id.stop ≤ n ↔ (rightmostTileLeaf id : Int) < leavesInTile (tileOf id) n := by
  have succ := rightmostTileLeaf_succ id
  have count := leavesInTile_toNat (tileOf id) n
  rw [stop_le_iff]
  omega

theorem leavesInTile_eq_partialTileSize {level index n : Nat} (some' : 1 ≤ leavesInTile (level, index) n) :
    leavesInTile (level, index) n =
      if partialTileSize level index n = 0 then 256 else (partialTileSize level index n : Int) := by
  have count := leavesInTile_toNat (level, index) n
  have bound := tileCount_le (level, index) n
  rw [partialTileSize_eq (by omega)]
  split <;> omega

/-- The slots of the tiles number the nodes of a tree: no two nodes share one, the nodes that a tile
with `m` leaves has complete stand below the slot of its last leaf, and how many leaves a tile has
decides which of its nodes are complete and under which size it is stored. -/
theorem slots_number_nodes :
    (∀ a b : NodeID, tileOf a = tileOf b → slotOf a = slotOf b → a = b) ∧
      (∀ id : NodeID, slotOf id ≤ 510) ∧
      (∀ (id : NodeID) (n m : Nat), 1 ≤ m → leavesInTile (tileOf id) n = m → id.stop ≤ n →
        slotOf id ≤ 2 * m - 2) ∧
      (∀ (key : TileKey) (m : Nat), 1 ≤ m → m ≤ 256 → ∀ id : NodeID,
        tileOf id = key ∧ slotOf id = 2 * m - 2 ↔ id = tileLeaf key (m - 1)) ∧
      (∀ id : NodeID, rightmostTileLeaf id < 256 ∧
        (tileLeaf (tileOf id) (rightmostTileLeaf id)).stop = id.stop) ∧
      (∀ (id : NodeID) (n : Nat),
        id.stop ≤ n ↔ (rightmostTileLeaf id : Int) < leavesInTile (tileOf id) n) ∧
      (∀ level index n : Nat,
        1 ≤ leavesInTile (level, index) n → leavesInTile (level, index) n ≤ 256 →
        leavesInTile (level, index) n =
          if partialTileSize level index n = 0 then 256 else (partialTileSize level index n : Int)) := by
  refine ⟨fun a b => slot_injective, fun id => ?_, fun id n m positive count complete => ?_,
    fun key m positive few id => ?_, fun id => ⟨?_, rightmostTileLeaf_stop id⟩, complete_iff,
    fun level index n some' _ => leavesInTile_eq_partialTileSize some'⟩
  · have := slot_lt (tileStop_le id)
    omega
  · rw [complete_iff, count] at complete
    have succ := rightmostTileLeaf_succ id
    have inside : tileStop id ≤ m := by omega
    have := slot_lt inside
    omega
  · rw [← slot_even_iff id key (show m - 1 < 256 by omega), show 2 * (m - 1) = 2 * m - 2 by omega]
  · have succ := rightmostTileLeaf_succ id
    have bound := tileStop_le id
    omega

end Slots

section SumDb

theorem complete_level {id : NodeID} {n : Nat} (small : n < 2 ^ 56) (complete : id.stop ≤ n) : id.level < 56 := by
  have first : 2 ^ id.level ≤ id.stop := Nat.le_mul_of_pos_left _ (Nat.succ_pos _)
  exact (Nat.pow_lt_pow_iff_right (by decide)).mp (Nat.lt_of_le_of_lt (first.trans complete) small)

theorem tileWidth_eq_tileCount (n level index : Nat) :
    SumDb.tileWidth n ⟨level, index⟩ = tileCount (level, index) n := by
  rw [SumDb.tileWidth, tileCount, SumDb.leavesPerTile, SumDb.tileHeight, ← pow_mul]
  rfl

/-- A tile that the tree has is asked for in the width under which the serverless log stores it. -/
theorem width_eq_partialTileSize {n level index : Nat} (small : n < 2 ^ 64)
    (some' : 0 < tileCount (level, index) n) :
    (SumDb.newTileBroker n).width ⟨level, index⟩ = partialTileSize level index n := by
  have known := SumDb.newTileBroker_width small (i := ⟨level, index⟩)
    (by rw [tileWidth_eq_tileCount]; exact some')
  have bound := tileCount_le (level, index) n
  simp only [tileWidth_eq_tileCount, SumDb.Request.width, show SumDb.leavesPerTile = 256 from rfl] at known
  rw [partialTileSize_eq some']
  split at known <;> omega

/-- The feeder of the Go checksum database finds each node where the serverless log stores it. -/
theorem sumDb_addresses_agree {n : Nat} (small : n < 2 ^ 56) {id : NodeID} (complete : id.stop ≤ n) :
    let address := nodeCoordsToTileAddress id.level id.index
    SumDb.convertToSumDBTiles id =
        .ok (⟨address.tileLevel, address.tileIndex⟩, ⟨address.nodeLevel, address.nodeIndex⟩) ∧
      (SumDb.newTileBroker n).width ⟨address.tileLevel, address.tileIndex⟩ =
        partialTileSize address.tileLevel address.tileIndex n := by
  intro address
  have low := complete_level small complete
  have large : n < 2 ^ 64 := Nat.lt_trans small (by decide)
  constructor
  · have split := level_split id
    have converted := SumDb.convert_eq (l := id.level / 8) (r := id.level % 8) (i := id.index)
      (Nat.mod_lt _ (by decide)) (by omega) (by rw [← split]; exact Nat.lt_of_le_of_lt complete large)
    rwa [← split] at converted
  · have inside := (stop_le_iff id n).mp complete
    exact width_eq_partialTileSize large (Nat.lt_of_lt_of_le (tileStop_pos id) inside)

theorem sumDb_addresses_agree_at :
    SumDb.convertToSumDBTiles ⟨3, 37⟩ = .ok (⟨0, 1⟩, ⟨3, 5⟩) ∧ (SumDb.newTileBroker 310).width ⟨0, 1⟩ = 54 :=
  @sumDb_addresses_agree 310 (by decide) ⟨3, 37⟩ (by decide)

end SumDb

end Serverless
