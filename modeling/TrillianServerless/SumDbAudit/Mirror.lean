import TrillianServerless.SumDbAudit.Sync

set_option autoImplicit false

namespace Audit

open Go Sql Merkle Service

namespace Service

variable (s : Service) (entries : List Bytes)

-- A checkpoint of the log.
structure Committed (cp : Checkpoint) : Prop where
  long : cp.n ≤ entries.length
  root : cp.hash = s.treeRoot (entries.take cp.n)

/-- A SumDB that sends what is in the log, for a checkpoint of it. -/
structure Honest (server : Server) (cp : Checkpoint) : Prop extends s.Committed entries cp where
  full : ∀ o, (o + 1) * s.tileWidth ≤ cp.n →
    server.fullLeavesAtOffset o = .ok ((entries.drop (o * s.tileWidth)).take s.tileWidth)
  part : 0 < cp.n % s.tileWidth →
    server.partialLeavesAtOffset (cp.n / s.tileWidth) (cp.n % s.tileWidth) =
      .ok ((entries.drop (cp.n / s.tileWidth * s.tileWidth)).take (cp.n % s.tileWidth))

/-- The leaves of the first tiles of the log are stored and hashed. -/
structure Mirrors (count : Nat) (d : Database) : Prop where
  long : count * s.tileWidth ≤ entries.length
  leaves : d.leaves.Holds (entries.take (count * s.tileWidth))
  tilesOk : s.TilesOk d
  stored : ∀ level, ∀ o < count * s.tileWidth / s.span level, d.tiles s.height level o ≠ none

-- What the last golden checkpoint was, if any.
def Trusts (d : Database) : Prop :=
  d.checkpoints = [] ∨ ∃ g, d.checkpoints.head? = some g.raw ∧ s.parse g.raw = .ok g ∧ s.Committed entries g

end Service

section Leaves

variable {s : Service} {entries : List Bytes} {count : Nat} {d d' : Database} {server : Server} {cp : Checkpoint}

theorem length_tiles (long : count * s.tileWidth ≤ entries.length) :
    (entries.take (count * s.tileWidth)).length = count * s.tileWidth := by
  rw [List.length_take, Nat.min_eq_left long]

theorem Service.Mirrors.storedLeaves_eq (mirrors : s.Mirrors entries count d) :
    storedLeaves d = count * s.tileWidth := by
  have max := mirrors.leaves.max?
  rw [length_tiles mirrors.long] at max
  unfold storedLeaves
  rw [max]
  by_cases none : count * s.tileWidth = 0
  · rw [if_pos none, none]
  · rw [if_neg none]
    dsimp only
    omega

theorem rows_holds {t : Table Bytes} {n : Nat} (holds : t.Holds (entries.take n)) (long : n ≤ entries.length)
    {m : Nat} (fewer : m ≤ n) : rows t m = entries.take m := by
  apply List.ext_getElem
  · rw [length_rows, List.length_take]
    omega
  · intro i lower _
    rw [length_rows] at lower
    have inside : i < entries.length := by omega
    simp [rows, holds i, show i < n by omega, inside]

theorem filled_holds {t : Table Bytes} {n : Nat} (holds : t.Holds (entries.take n)) (long : n ≤ entries.length) :
    Filled t n := by
  intro i below
  rw [holds i, List.getElem?_eq_getElem (by rw [List.length_take]; omega)]
  simp

/-- Tile after tile of the log is appended to the leaves. -/
theorem cloneTiles_honest (more first : Nat) (d : Database)
    (holds : d.leaves.Holds (entries.take (first * s.tileWidth)))
    (served : ∀ o, first ≤ o → o < first + more →
      server.fullLeavesAtOffset o = .ok ((entries.drop (o * s.tileWidth)).take s.tileWidth))
    (long : (first + more) * s.tileWidth ≤ entries.length) (small : (first + more) * s.tileWidth ≤ 2 ^ 64) :
    ∃ results d', Eff.each (s.cloneTile server) (List.range' first more) d = (.ok results, d') ∧
      d'.leaves.Holds (entries.take ((first + more) * s.tileWidth)) ∧ Cloned d d' := by
  induction more generalizing first d with
  | zero => exact ⟨[], d, rfl, holds, .refl d⟩
  | succ more ih =>
    have next : first + 1 + more = first + (more + 1) := by omega
    have within : first * s.tileWidth + s.tileWidth ≤ (first + (more + 1)) * s.tileWidth := by
      rw [← Nat.succ_mul]
      exact Nat.mul_le_mul_right _ (by omega)
    obtain ⟨block, fetched, read⟩ : ∃ block, server.fullLeavesAtOffset first = .ok block ∧
        block = (entries.drop (first * s.tileWidth)).take s.tileWidth :=
      ⟨_, served first (Nat.le_refl _) (by omega), rfl⟩
    have width : block.length = s.tileWidth := by
      rw [read, List.length_take, List.length_drop]
      omega
    have start : (entries.take (first * s.tileWidth)).length = first * s.tileWidth := length_tiles (by omega)
    have appended := holds.insertAll 0 block
    rw [start, ← Table.counted_eq (by rw [width]; omega), read, ← List.take_add, ← Nat.succ_mul, ← read] at appended
    obtain ⟨results, d2, rested, holds', later⟩ := ih (first + 1)
      { d with leaves := d.leaves.insertAll (fun _ => false) 0 (Table.counted (first * s.tileWidth) block) } appended
      (fun o lower upper => served o (by omega) (by omega)) (by rw [next]; exact long) (by rw [next]; exact small)
    refine ⟨() :: results, d2, ?_, next ▸ holds', (cloned_insert d _).trans later⟩
    rw [List.range'_succ, Eff.each, Eff.bind_of_ok (cloneTile_ok fetched), Eff.bind_of_ok rested]
    rfl

theorem cloneLeafTiles_honest (mirrors : s.Mirrors entries count d) (honest : s.Honest entries server cp)
    (larger : count * s.tileWidth ≤ cp.n) :
    ∃ d', s.cloneLeafTiles server cp d = (.ok (), d') ∧
      d'.leaves.Holds (entries.take (cp.n / s.tileWidth * s.tileWidth)) ∧ Cloned d d' := by
  have width := width_pos s
  have below := Nat.div_mul_le_self cp.n s.tileWidth
  have fewer : count ≤ cp.n / s.tileWidth := (Nat.le_div_iff_mul_le width).mpr larger
  have whole : count + (cp.n / s.tileWidth - count) = cp.n / s.tileWidth := by omega
  have asked : s.requested cp d = List.range' count (cp.n / s.tileWidth - count) := by
    unfold Service.requested
    rw [mirrors.storedLeaves_eq, Nat.mul_div_cancel _ width, Nat.mul_comm, Nat.sub_mul_div]
  have small := cp.small
  have long := honest.long
  obtain ⟨results, d', ran, holds, later⟩ := @cloneTiles_honest s entries server (cp.n / s.tileWidth - count) count d
    mirrors.leaves (fun o _ upper => honest.full o (by
      have tiles := Nat.mul_le_mul_right s.tileWidth (show o + 1 ≤ cp.n / s.tileWidth by omega)
      omega)) (by rw [whole]; omega) (by rw [whole]; omega)
  rw [whole] at holds
  refine ⟨d', ?_, holds, later⟩
  rw [cloneLeafTiles_eq, mirrors.storedLeaves_eq, if_neg (by omega), asked, Eff.bind_of_ok ran]
  rfl

-- Without a tile to fetch nothing is changed.
theorem cloneLeafTiles_idle (mirrors : s.Mirrors entries count d) (smaller : cp.n < count * s.tileWidth)
    (ran : s.cloneLeafTiles server cp d = (.ok (), d')) : d' = d := by
  have asked : s.requested cp d = [] := by
    unfold Service.requested
    rw [mirrors.storedLeaves_eq, Nat.sub_eq_zero_of_le (Nat.le_of_lt smaller), Nat.zero_div, List.range'_zero]
  rw [cloneLeafTiles_eq, asked] at ran
  split at ran
  · cases (Prod.mk.inj ran).1
  · exact (Prod.mk.inj ran).2.symm

end Leaves

section Syncs

variable {s : Service} {entries : List Bytes} {count : Nat} {d d' : Database} {server : Server} {cp : Checkpoint}

-- What checkConsistency needs to know of a database.
theorem checkConsistency_ok (lawful : Compact.Lawful s.pkg) (mirrors : s.Mirrors entries count d)
    (trusts : s.Trusts entries d) (some' : d.checkpoints ≠ [] → 0 < count) : s.checkConsistency d = .ok () := by
  unfold Service.checkConsistency Database.goldenCheckpoint
  rcases trusts with none | ⟨g, newest, parsed, committed⟩
  · simp [none]
  · obtain ⟨older, listed⟩ : ∃ older, d.checkpoints = g.raw :: older := List.head?_eq_some_iff.mp newest
    have width := width_pos s
    have sum := tiles_stop s g.n
    have less := Nat.mod_lt g.n width
    have positive : 0 < count * s.tileWidth := Nat.mul_pos (some' (by simp [listed])) width
    have max := mirrors.leaves.max?
    rw [length_tiles mirrors.long, if_neg (by omega)] at max
    simp only [listed, parsed, Database.head, max]
    by_cases short : count * s.tileWidth - 1 < g.n
    · rw [if_pos short]
    · have readable : s.Readable d g.n fun _ _ => none :=
        readable_inside ⟨fun _ _ _ => rfl, fun _ => rfl⟩ mirrors.stored (by omega)
      have root := localCheck_eq lawful mirrors.tilesOk readable
      rw [rows_holds mirrors.leaves mirrors.long (by omega), if_pos committed.root.symm] at root
      rw [if_neg short, root]
      rfl

/-- A Sync with an honest SumDB succeeds, and the database follows the log. -/
theorem Service.Mirrors.sync_honest (lawful : Compact.Lawful s.pkg) (mirrors : s.Mirrors entries count d)
    (honest : s.Honest entries server cp) (larger : count * s.tileWidth ≤ cp.n) (trusts : s.Trusts entries d)
    (tile : d.checkpoints ≠ [] → s.tileWidth ≤ cp.n) :
    s.Ends server cp d fun result d' => result = .ok () ∧ s.Mirrors entries (cp.n / s.tileWidth) d' := by
  have width := width_pos s
  have below := Nat.div_mul_le_self cp.n s.tileWidth
  have sum := tiles_stop s cp.n
  have long : cp.n / s.tileWidth * s.tileWidth ≤ entries.length := Nat.le_trans below honest.long
  obtain ⟨d1, cloned, holds, first⟩ := cloneLeafTiles_honest mirrors honest larger
  have filled := filled_holds holds long
  obtain ⟨tilesOk, -, stored⟩ := @hashed_spec s d1 cp.n (mirrors.tilesOk.extends first.tiles first.leaves) filled
  have mirrored : s.Mirrors entries (cp.n / s.tileWidth) (s.hashed d1 cp.n) :=
    ⟨long, holds, tilesOk, fun level o inside =>
      stored level o (Nat.lt_of_lt_of_le inside (Nat.div_le_div_right below))⟩
  have consistent := checkConsistency_ok lawful mirrored
    (by unfold Service.Trusts at trusts ⊢; rwa [← first.checkpoints] at trusts) fun some' =>
      Nat.div_pos (tile (first.checkpoints ▸ some')) width
  have root : s.checkRootHash server cp (s.hashed d1 cp.n) = .ok () := by
    refine (checkRootHash_records lawful tilesOk
      (fun level o wanted => stored level o wanted.2) honest.part ?_).mpr ?_
    · rw [List.length_take, List.length_drop]
      have all := honest.long
      omega
    · rw [rows_holds mirrored.leaves long (Nat.le_refl _), ← List.take_add, sum]
      exact honest.root
  refine ends_finish lawful mirrors.tilesOk cloned filled ?_
  rw [finishSync_ok.mpr ⟨rfl, consistent, root, rfl⟩]
  exact ⟨rfl, mirrored.long, mirrored.leaves, tilesOk, mirrored.stored⟩

end Syncs

theorem pairs_honest :
    pairs.Honest [[1, 10], [2, 10], [3, 10]] (pairServer [1, 2, 3]) (pairNote [1, 2, 3] (by decide)) where
  long := by decide
  root := rfl
  full o inside := by
    have first : (o + 1) * 2 ≤ 3 := inside
    obtain rfl : o = 0 := by omega
    rfl
  part _ := rfl

end Audit
