import TrillianServerless.Shared.TreeBinding
import TrillianServerless.SumDbAudit.Service

set_option autoImplicit false

namespace Audit

open Go Sql Merkle

namespace Service

variable (s : Service)

-- How many leaves a tile of this level covers.
def span (level : Nat) : Nat := 2 ^ ((level + 1) * s.height)

def leafHash (t : Table Bytes) (i : Nat) : Bytes := s.hasher.hashLeaf ((t.row i).getD [])

-- The hashes that tiles of a level are made of.
def tileNode (t : Table Bytes) (level i : Nat) : Bytes := nodeAt s.hash (s.leafHash t) (level * s.height) i

def tileHashes (t : Table Bytes) (level offset : Nat) : List Bytes :=
  (List.range' (offset * s.tileWidth) s.tileWidth).map (s.tileNode t level)

/-- Leaves up to here are all stored. -/
def Filled (t : Table Bytes) (stop : Nat) : Prop := ∀ i < stop, t.row i ≠ none

def Covered (t : Table Bytes) (level offset : Nat) : Prop :=
  ∀ i, offset * s.span level ≤ i → i < (offset + 1) * s.span level → t.row i ≠ none

/-- Every stored tile is that of stored leaves. -/
def TilesOk (d : Database) : Prop :=
  ∀ level offset blob, d.tiles s.height level offset = some blob →
    s.Covered d.leaves level offset ∧ blob = (s.tileHashes d.leaves level offset).flatten

end Service

open Service

section Shapes

variable (s : Service)

theorem width_pos : 0 < s.tileWidth := Nat.two_pow_pos _

theorem width_gt_one : 1 < s.tileWidth := Nat.one_lt_two_pow (Nat.ne_of_gt s.tall)

theorem span_pos (level : Nat) : 0 < s.span level := Nat.two_pow_pos _

theorem span_zero : s.span 0 = s.tileWidth := by simp [Service.span, Service.tileWidth]

theorem span_succ (level : Nat) : s.span (level + 1) = s.span level * s.tileWidth := by
  rw [Service.span, Service.span, Service.tileWidth, ← pow_add]
  congr 1
  ring

theorem tileNode_length (t : Table Bytes) (level i : Nat) : (s.tileNode t level i).length = 32 := by
  unfold Service.tileNode
  cases level * s.height with
  | zero => exact s.hasher.leafSize _
  | succ l => exact s.hasher.childSize _ _

theorem tileHashes_length (t : Table Bytes) (level offset : Nat) :
    (s.tileHashes t level offset).length = s.tileWidth := by
  simp [Service.tileHashes]

theorem tileHashes_sized (t : Table Bytes) (level offset : Nat) :
    ∀ hash ∈ s.tileHashes t level offset, hash.length = 32 := by
  intro hash member
  obtain ⟨i, -, rfl⟩ := List.mem_map.mp member
  exact tileNode_length s t level i

end Shapes

section Blobs

-- Hashes that are all of one size can be cut out of their concatenation.
theorem flatten_chunk {size : Nat} {hashes : List Bytes} (sized : ∀ hash ∈ hashes, hash.length = size) {i : Nat}
    (inside : i < hashes.length) : (hashes.flatten.drop (i * size)).take size = hashes[i] := by
  induction hashes generalizing i with
  | nil => simp at inside
  | cons hash rest ih =>
    have length := sized hash (by simp)
    cases i with
    | zero => simp [← length]
    | succ i =>
      have later := ih (fun other member => sized other (by simp [member])) (by simpa using inside)
      rw [List.flatten_cons, show (i + 1) * size = hash.length + i * size by rw [length]; ring,
        List.drop_append, List.drop_eq_nil_of_le (Nat.le_add_right _ _), List.nil_append, Nat.add_sub_cancel_left,
        List.getElem_cons_succ]
      exact later

theorem flatten_sized {size : Nat} {hashes : List Bytes} (sized : ∀ hash ∈ hashes, hash.length = size) :
    hashes.flatten.length = hashes.length * size := by
  rw [List.length_flatten, List.map_congr_left sized]
  simp

theorem splitTile_flatten {height : Nat} {hashes : List Bytes} (sized : ∀ hash ∈ hashes, hash.length = 32)
    (length : hashes.length = 2 ^ height) : Database.splitTile hashes.flatten height = .ok hashes := by
  unfold Database.splitTile hashLenBytes
  rw [flatten_sized sized, length, if_neg (Nat.lt_irrefl _)]
  congr 1
  apply List.ext_getElem
  · simp [length]
  · intro i _ inside
    simp only [List.getElem_map, List.getElem_range]
    exact flatten_chunk sized inside

variable {s : Service} {d : Database}

theorem tile_eq (ok : s.TilesOk d) {level offset : Nat} (stored : d.tiles s.height level offset ≠ none) :
    d.tile none s.height level offset = .ok (s.tileHashes d.leaves level offset) := by
  obtain ⟨blob, found⟩ := Option.ne_none_iff_exists'.mp stored
  obtain ⟨-, rfl⟩ := ok level offset blob found
  unfold Database.tile
  rw [found]
  exact splitTile_flatten (tileHashes_sized s _ _ _) (tileHashes_length s _ _ _)

theorem tile_missing {level offset : Nat} (missing : d.tiles s.height level offset = none) :
    d.tile none s.height level offset = .error errNoDataFound := by
  unfold Database.tile
  rw [missing]

end Blobs

section Roots

variable {s : Service} (lawful : Compact.Lawful s.pkg)

theorem tileNode_rows (t : Table Bytes) (level offset k : Nat) :
    nodeAt s.hash (fun j => s.tileNode t level (offset * s.tileWidth + j)) s.height k =
      s.tileNode t (level + 1) (offset + k) := by
  have rows := nodeAt_rows s.hash (s.leafHash t) (level * s.height) k (Nat.dvd_mul_left (2 ^ s.height) offset)
  rw [Nat.mul_div_cancel _ (Nat.two_pow_pos _)] at rows
  unfold Service.tileNode
  rw [Nat.succ_mul]
  exact rows

include lawful

/-- The range of a tile has one hash, the one of the level above. -/
theorem tileRoot_eq (t : Table Bytes) (level offset : Nat) :
    s.tileRoot offset (s.tileHashes t level offset) = .ok (s.tileNode t (level + 1) offset) := by
  have filled := lawful.appendAll (v := nodeHash s.hash (s.tileNode t level)) (fun l i => nodeHash_parent _ _ l i)
    (Nat.le_refl (offset * s.tileWidth)) (s.tileHashes t level offset) fun j bound => by
      simp [Service.tileHashes, nodeHash, nodeAt]
  have single : cover (offset * s.tileWidth) (offset * s.tileWidth + s.tileWidth) = [⟨s.height, offset⟩] := by
    have perfect := cover_perfect (Nat.dvd_mul_left (2 ^ s.height) offset)
    rwa [Nat.mul_div_cancel _ (Nat.two_pow_pos _)] at perfect
  rw [tileHashes_length, cover_self, List.map_nil, single] at filled
  have root := tileNode_rows (s := s) t level 0 offset
  simp only [Nat.zero_mul, Nat.zero_add] at root
  unfold Service.tileRoot
  rw [lawful.newEmptyRange, filled]
  exact congrArg Outcome.ok root

end Roots

section Leaves

variable {s : Service} {d : Database}

/-- A tile of stored leaves is put where none was. -/
theorem setTile_ok (ok : s.TilesOk d) {level offset : Nat} (missing : d.tiles s.height level offset = none)
    (covered : s.Covered d.leaves level offset) :
    ∃ d', s.TilesOk d' ∧
      Database.setTile s.height level offset (s.tileHashes d.leaves level offset).flatten d = (.ok (), d') := by
  have length : (s.tileHashes d.leaves level offset).flatten.length = 2 ^ s.height * hashLenBytes := by
    rw [flatten_sized (tileHashes_sized s _ _ _), tileHashes_length]
    rfl
  refine ⟨{ d with
      tiles := fun h l o =>
        if h = s.height ∧ l = level ∧ o = offset then some (s.tileHashes d.leaves level offset).flatten
        else d.tiles h l o },
    fun l o blob found => ?_, ?_⟩
  · dsimp only at found
    split at found
    next here =>
      obtain ⟨-, rfl, rfl⟩ := here
      cases found
      exact ⟨covered, rfl⟩
    next => exact ok l o blob found
  · unfold Database.setTile
    rw [if_neg (by simp [length]), missing]

theorem select_rows {t : Table Bytes} {start count : Nat}
    (present : ∀ i, start ≤ i → i < start + count → t.row i ≠ none) :
    t.select start (start + count) = (List.range' start count).map fun i => (t.row i).getD [] := by
  rw [Table.select_eq, Nat.add_sub_cancel_left, ← List.filterMap_eq_map]
  refine List.filterMap_congr fun i member => ?_
  rw [List.mem_range'_1] at member
  obtain ⟨x, found⟩ := Option.ne_none_iff_exists'.mp (present i member.1 member.2)
  simp [found]

theorem select_short {t : Table Bytes} {start count i : Nat} (lower : start ≤ i) (upper : i < start + count)
    (missing : t.row i = none) : (t.select start (start + count)).length ≠ count := by
  have fewer := (@List.length_filterMap_lt_length_iff_exists _ _ (List.range' start count) t.row).mpr
    ⟨i, by rw [List.mem_range'_1]; omega, missing⟩
  rw [Table.select_eq, Nat.add_sub_cancel_left]
  rw [List.length_range'] at fewer
  omega

theorem leafBlock_eq {offset : Nat} (covered : s.Covered d.leaves 0 offset) :
    (d.leafBlock (s.tileWidth * offset) s.tileWidth).map (List.map s.hasher.hashLeaf) =
      .ok (s.tileHashes d.leaves 0 offset) := by
  rw [Service.Covered, span_zero] at covered
  have rows := @select_rows d.leaves (s.tileWidth * offset) s.tileWidth
    fun i lower upper => covered i (by rw [Nat.mul_comm]; exact lower)
      (by rw [Nat.mul_comm, Nat.mul_add, Nat.mul_one]; exact upper)
  unfold Database.leafBlock
  rw [rows]
  simp only [List.length_map, List.length_range', ne_eq, not_true_eq_false, if_false, Except.map, List.map_map]
  rw [Service.tileHashes, Nat.mul_comm]
  congr 1
  refine List.map_congr_left fun i _ => ?_
  simp [Service.tileNode, Service.leafHash, nodeAt]

theorem leafBlock_short {offset : Nat} (short : ¬ s.Covered d.leaves 0 offset) :
    ∃ reason, d.leafBlock (s.tileWidth * offset) s.tileWidth = .error reason := by
  rw [Service.Covered, span_zero] at short
  push Not at short
  obtain ⟨i, lower, upper, missing⟩ := short
  refine ⟨_, if_pos (select_short (i := i) (by rw [Nat.mul_comm]; exact lower) ?_ missing)⟩
  rw [Nat.succ_mul, Nat.mul_comm] at upper
  exact upper

end Leaves

section Levels

variable {s : Service} {d : Database}

theorem fit_of_length {bytes : Bytes} (length : bytes.length = 32) : LogHasher.fit bytes = bytes := by
  unfold LogHasher.fit
  rw [← length, List.take_left]

theorem map_fit {hashes : List Bytes} (sized : ∀ hash ∈ hashes, hash.length = 32) :
    hashes.map LogHasher.fit = hashes := by
  have same : ∀ hash ∈ hashes, LogHasher.fit hash = id hash := fun hash member => fit_of_length (sized hash member)
  rw [List.map_congr_left same, List.map_id]

theorem leafHashes_sized (s : Service) (leaves : List Bytes) :
    ∀ hash ∈ leaves.map s.hasher.hashLeaf, hash.length = 32 := by
  intro hash member
  obtain ⟨leaf, -, rfl⟩ := List.mem_map.mp member
  exact s.hasher.leafSize leaf

theorem unit_span (level : Nat) : s.span level = s.tileWidth * 2 ^ (level * s.height) := by
  rw [Service.span, Service.tileWidth, ← pow_add]
  congr 1
  ring

theorem covered_of_filled {t : Table Bytes} {stop level offset : Nat} (filled : Filled t stop)
    (inside : (offset + 1) * s.span level ≤ stop) : s.Covered t level offset :=
  fun i _ upper => filled i (by omega)

theorem countLevels_spec {fuel x : Nat} (enough : x ≤ fuel) : x / s.tileWidth ^ s.countLevels fuel x = 0 := by
  induction fuel generalizing x with
  | zero => simp [Service.countLevels, Nat.le_zero.mp enough]
  | succ fuel ih =>
    unfold Service.countLevels
    by_cases none : x = 0
    · simp [none]
    · have less : x / s.tileWidth < x := Nat.div_lt_self (Nat.pos_of_ne_zero none) (width_gt_one s)
      rw [if_neg none, pow_succ', ← Nat.div_div_eq_div_mul]
      exact ih (by omega)

-- No tile of a level from here on is complete.
theorem no_tile_above {n level : Nat} (above : s.levelsForLeafCount n ≤ level) : n / s.span level = 0 := by
  have top : n / s.tileWidth / s.tileWidth ^ s.levelsForLeafCount n = 0 :=
    countLevels_spec (Nat.div_le_self _ _)
  have power : s.span level = s.tileWidth * s.tileWidth ^ level := by
    rw [unit_span, Service.tileWidth, ← pow_mul, Nat.mul_comm level]
  rw [power, ← Nat.div_div_eq_div_mul]
  refine Nat.eq_zero_of_le_zero (top ▸ Nat.div_le_div_left ?_ (Nat.pow_pos (width_pos s)))
  exact Nat.pow_le_pow_right (width_pos s) above

end Levels

end Audit
