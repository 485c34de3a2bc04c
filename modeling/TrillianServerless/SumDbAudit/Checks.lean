import TrillianServerless.SumDbAudit.Tiles

set_option autoImplicit false

namespace Audit

open Go Sql Merkle

namespace Service

variable (s : Service)

-- The tiles that a check of a checkpoint reads, from the highest level it can take them from.
def Wanted (n level offset : Nat) : Prop :=
  n / s.span (level + 1) * s.tileWidth ≤ offset ∧ offset < n / s.span level

def rangeTo (leaf : Nat → Bytes) (stop : Nat) : Compact.Range :=
  ⟨0, stop, (cover 0 stop).map (nodeHash s.hash leaf)⟩

/-- The root over hashes of leaves, each copied into an array. -/
def rootOver (hashes : List Bytes) : Bytes :=
  treeHash s.hasher.hashChildren (LogHasher.fit []) (hashes.map LogHasher.fit)

def leafHashes (t : Table Bytes) (count : Nat) : List Bytes := (List.range count).map (s.leafHash t)

end Service

open Service

section Ranges

variable {s : Service} (lawful : Compact.Lawful s.pkg) {t : Table Bytes} {leaf : Nat → Bytes}
  {getTile : Nat → Nat → Outcome (List Bytes)}
include lawful

/-- A tile is appended as the one node that it is. -/
theorem addTile_ok {level offset : Nat} (read : getTile level offset = .ok (s.tileHashes t level offset))
    (same : ∀ j < (offset + 1) * s.span level, leaf j = s.leafHash t j) :
    s.addTile getTile level (s.rangeTo leaf (offset * s.span level)) offset =
      .ok (s.rangeTo leaf ((offset + 1) * s.span level)) := by
  have perfect : cover (offset * s.span level) ((offset + 1) * s.span level) =
      [⟨(level + 1) * s.height, offset⟩] := by
    have single := cover_perfect (Nat.dvd_mul_left (s.span level) offset)
    rwa [Service.span, Nat.mul_div_cancel _ (Nat.two_pow_pos _), ← Service.span, ← Nat.succ_mul] at single
  have node : nodeHash s.hash leaf ⟨(level + 1) * s.height, offset⟩ = s.tileNode t (level + 1) offset :=
    nodeAt_congr s.hash fun j _ upper => same j upper
  have top : (s.pkg.appendAll s.hash (s.pkg.newEmptyRange 0) (s.tileHashes t level offset)).hashes =
      [s.tileNode t (level + 1) offset] := by
    have filled := lawful.appendAll
      (v := nodeHash s.hash fun j => s.tileNode t level (offset * s.tileWidth + j))
      (fun l i => nodeHash_parent _ _ l i) (Nat.le_refl 0) (s.tileHashes t level offset) fun j bound => by
        simp [Service.tileHashes, nodeHash, nodeAt]
    have whole : cover 0 s.tileWidth = [⟨s.height, 0⟩] := by
      have single := cover_perfect (Nat.dvd_zero (2 ^ s.height))
      rwa [Nat.zero_add, Nat.zero_div] at single
    rw [lawful.newEmptyRange]
    rw [cover_self, List.map_nil, Nat.zero_add, tileHashes_length, whole] at filled
    rw [filled]
    exact congrArg (fun x => [x]) (tileNode_rows t level offset 0)
  have joined := (lawful.appendRange s.hash (s.rangeTo leaf (offset * s.span level))
    ⟨offset * s.span level, (offset + 1) * s.span level, [s.tileNode t (level + 1) offset]⟩ (nodeHash s.hash leaf)
    ⟨Nat.zero_le _, rfl⟩ ⟨Nat.mul_le_mul_right _ (Nat.le_succ _), by rw [perfect, List.map_singleton, node]⟩ rfl
    fun l i _ => nodeHash_parent _ _ l i).2.1
  unfold Service.addTile
  rw [read]
  dsimp only
  rw [top, ← Service.span, lawful.newRange_ok _ _ _ (Nat.mul_le_mul_right _ (Nat.le_succ _)) (by rw [perfect]; rfl)]
  exact congrArg Outcome.ok joined

theorem addTiles_ok {level : Nat} (count first : Nat)
    (read : ∀ o, first ≤ o → o < first + count → getTile level o = .ok (s.tileHashes t level o))
    (same : ∀ j < (first + count) * s.span level, leaf j = s.leafHash t j) :
    (List.range' first count).foldlM (s.addTile getTile level) (s.rangeTo leaf (first * s.span level)) =
      .ok (s.rangeTo leaf ((first + count) * s.span level)) := by
  induction count generalizing first with
  | zero => rfl
  | succ count ih =>
    have within : (first + 1) * s.span level ≤ (first + (count + 1)) * s.span level :=
      Nat.mul_le_mul_right _ (by omega)
    rw [List.range'_succ, List.foldlM_cons,
      addTile_ok lawful (read first (Nat.le_refl _) (by omega)) fun j below => same j (by omega), Outcome.bind_ok,
      ih (first + 1) (fun o lower upper => read o (by omega) (by omega)) (by
        rw [show first + 1 + count = first + (count + 1) by omega]
        exact same), show first + 1 + count = first + (count + 1) by omega]

omit lawful in
theorem addTiles_error {level : Nat} (count first : Nat) (logRange : Compact.Range)
    (read : ∀ o, first ≤ o → o < first + count →
      (∃ hashes, getTile level o = .ok hashes) ∨ ∃ reason, getTile level o = .error reason)
    (fails : ∃ o, first ≤ o ∧ o < first + count ∧ ∃ reason, getTile level o = .error reason) :
    ∃ reason, (List.range' first count).foldlM (s.addTile getTile level) logRange = .error reason := by
  induction count generalizing first logRange with
  | zero =>
    obtain ⟨o, lower, upper, -⟩ := fails
    omega
  | succ count ih =>
    rw [List.range'_succ, List.foldlM_cons]
    have outcome : (∃ more, s.addTile getTile level logRange first = .ok more) ∨
        ∃ reason, s.addTile getTile level logRange first = .error reason := by
      unfold Service.addTile
      rcases read first (Nat.le_refl _) (by omega) with ⟨hashes, found⟩ | ⟨reason, found⟩
      · rw [found]
        dsimp only
        split
        · exact .inr ⟨_, rfl⟩
        · exact .inl ⟨_, rfl⟩
      · rw [found]
        exact .inr ⟨_, rfl⟩
    rcases outcome with ⟨more, added⟩ | ⟨reason, failed⟩
    · rw [added, Outcome.bind_ok]
      refine ih (first + 1) more (fun o lower upper => read o (by omega) (by omega)) ?_
      obtain ⟨o, lower, upper, reason, failed⟩ := fails
      refine ⟨o, ?_, by omega, reason, failed⟩
      by_contra below
      obtain rfl : o = first := by omega
      unfold Service.addTile at added
      rw [failed] at added
      cases added
    · exact ⟨reason, by rw [failed, Outcome.bind_error]⟩

-- Where a level starts, after the one above it.
omit lawful in
theorem level_start (n level : Nat) :
    n / s.span (level + 1) * s.span (level + 1) / s.span level = n / s.span (level + 1) * s.tileWidth ∧
      n / s.span (level + 1) * s.tileWidth ≤ n / s.span level := by
  have positive := span_pos s level
  constructor
  · rw [span_succ, Nat.mul_comm (s.span level), ← Nat.mul_assoc, Nat.mul_div_cancel _ positive]
  · rw [span_succ, ← Nat.div_div_eq_div_mul]
    exact Nat.div_mul_le_self _ _

omit lawful in
theorem level_end (n level : Nat) : n / s.span level * s.span level ≤ n / s.tileWidth * s.tileWidth := by
  rw [unit_span, ← Nat.div_div_eq_div_mul, Nat.mul_comm s.tileWidth, ← Nat.mul_assoc]
  exact Nat.mul_le_mul_right _ (Nat.div_mul_le_self _ _)

omit lawful in
theorem addLevel_eq (n level : Nat) :
    s.addLevel getTile n (s.rangeTo leaf (n / s.span (level + 1) * s.span (level + 1))) level =
      (List.range' (n / s.span (level + 1) * s.tileWidth)
        (n / s.span level - n / s.span (level + 1) * s.tileWidth)).foldlM (s.addTile getTile level)
        (s.rangeTo leaf (n / s.span (level + 1) * s.span (level + 1))) := by
  rw [← (@level_start s n level).1]
  rfl

theorem addLevel_ok {n level : Nat} (read : ∀ o, s.Wanted n level o → getTile level o = .ok (s.tileHashes t level o))
    (same : ∀ j < n / s.tileWidth * s.tileWidth, leaf j = s.leafHash t j) :
    s.addLevel getTile n (s.rangeTo leaf (n / s.span (level + 1) * s.span (level + 1))) level =
      .ok (s.rangeTo leaf (n / s.span level * s.span level)) := by
  obtain ⟨-, fewer⟩ := @level_start s n level
  have aligned : n / s.span (level + 1) * s.span (level + 1) =
      n / s.span (level + 1) * s.tileWidth * s.span level := by
    rw [span_succ, Nat.mul_comm (s.span level), Nat.mul_assoc]
  have all := @addTiles_ok s lawful t leaf getTile level
    (n / s.span level - n / s.span (level + 1) * s.tileWidth) (n / s.span (level + 1) * s.tileWidth)
    (fun o lower upper => read o ⟨lower, by omega⟩) fun j below => same j (by
      rw [Nat.add_sub_cancel' fewer] at below
      exact Nat.lt_of_lt_of_le below (level_end n level))
  rw [Nat.add_sub_cancel' fewer, ← aligned] at all
  rw [addLevel_eq]
  exact all

/-- All complete tiles, from the highest level down. -/
theorem addLevels_ok {n : Nat} (levels : Nat)
    (read : ∀ level < levels, ∀ o, s.Wanted n level o → getTile level o = .ok (s.tileHashes t level o))
    (same : ∀ j < n / s.tileWidth * s.tileWidth, leaf j = s.leafHash t j) :
    (List.range levels).reverse.foldlM (s.addLevel getTile n) (s.rangeTo leaf (n / s.span levels * s.span levels)) =
      .ok (s.rangeTo leaf (n / s.tileWidth * s.tileWidth)) := by
  induction levels with
  | zero =>
    rw [span_zero]
    rfl
  | succ level ih =>
    rw [List.range_succ, List.reverse_append, List.reverse_singleton, List.singleton_append, List.foldlM_cons,
      addLevel_ok lawful (read level (by omega)) same, Outcome.bind_ok]
    exact ih fun l below => read l (by omega)

theorem addLevels_error {n : Nat} (levels : Nat)
    (read : ∀ level < levels, ∀ o, s.Wanted n level o →
      getTile level o = .ok (s.tileHashes t level o) ∨ ∃ reason, getTile level o = .error reason)
    (fails : ∃ level < levels, ∃ o, s.Wanted n level o ∧ ∃ reason, getTile level o = .error reason) :
    ∃ reason, (List.range levels).reverse.foldlM (s.addLevel getTile n)
      (s.rangeTo (s.leafHash t) (n / s.span levels * s.span levels)) = .error reason := by
  induction levels with
  | zero =>
    obtain ⟨level, below, -⟩ := fails
    omega
  | succ top ih =>
    rw [List.range_succ, List.reverse_append, List.reverse_singleton, List.singleton_append, List.foldlM_cons]
    by_cases here : ∃ o, s.Wanted n top o ∧ ∃ reason, getTile top o = .error reason
    · obtain ⟨-, fewer⟩ := @level_start s n top
      obtain ⟨o, ⟨lower, upper⟩, failed⟩ := here
      have broken := @addTiles_error s getTile top
        (n / s.span top - n / s.span (top + 1) * s.tileWidth) (n / s.span (top + 1) * s.tileWidth)
        (s.rangeTo (s.leafHash t) (n / s.span (top + 1) * s.span (top + 1)))
        (fun o lower upper => (read top (by omega) o ⟨lower, by omega⟩).imp_left fun found => ⟨_, found⟩)
        ⟨o, lower, by omega, failed⟩
      obtain ⟨reason, broken⟩ := broken
      refine ⟨reason, ?_⟩
      have level : s.addLevel getTile n
          (s.rangeTo (s.leafHash t) (n / s.span (top + 1) * s.span (top + 1))) top = .error reason := by
        rw [addLevel_eq]
        exact broken
      rw [level, Outcome.bind_error]
    · have fine : ∀ o, s.Wanted n top o → getTile top o = .ok (s.tileHashes t top o) := fun o wanted =>
        (read top (by omega) o wanted).resolve_right fun failed => here ⟨o, wanted, failed⟩
      rw [addLevel_ok lawful fine fun _ _ => rfl, Outcome.bind_ok]
      refine ih (fun l below => read l (by omega)) ?_
      obtain ⟨level, below, o, wanted, failed⟩ := fails
      refine ⟨level, ?_, o, wanted, failed⟩
      by_contra above
      obtain rfl : level = top := by omega
      exact here ⟨o, wanted, failed⟩

end Ranges

section Roots

variable {s : Service}

-- Copying hashes into arrays on the way up is copying the leaves.
theorem fit_treeHash (hashes : List Bytes) : LogHasher.fit (treeHash s.hash [] hashes) = s.rootOver hashes := by
  unfold Service.rootOver
  induction length : hashes.length using Nat.strong_induction_on generalizing hashes with
  | _ n ih =>
    rcases Nat.lt_or_ge 1 hashes.length with several | few
    · have less := splitPoint_lt several
      have positive : 0 < splitPoint hashes.length := Nat.two_pow_pos _
      have left := ih (hashes.take (splitPoint hashes.length)).length (by rw [List.length_take]; omega) _ rfl
      have right := ih (hashes.drop (splitPoint hashes.length)).length (by rw [List.length_drop]; omega) _ rfl
      have several' : 1 < (hashes.map LogHasher.fit).length := by rwa [List.length_map]
      have mapped := treeHash_split s.hasher.hashChildren (LogHasher.fit []) several'
      rw [List.length_map, ← List.map_take, ← List.map_drop, ← left, ← right] at mapped
      rw [treeHash_split _ _ several, mapped]
      exact fit_of_length (s.hasher.childSize _ _)
    · match hashes, few with
      | [], _ => simp
      | [only], _ => simp

variable (lawful : Compact.Lawful s.pkg) {t : Table Bytes} {getTile : Nat → Nat → Outcome (List Bytes)}
  {cp : Checkpoint} {getStragglers : Nat → Outcome (List Bytes)}

-- The leaves of a checkpoint: complete tiles, then the stragglers.
def checkedLeaf (s : Service) (t : Table Bytes) (n : Nat) (stragglers : List Bytes) (i : Nat) : Bytes :=
  if i < n / s.tileWidth * s.tileWidth then s.leafHash t i
  else stragglers.getD (i - n / s.tileWidth * s.tileWidth) []

theorem tiles_stop (s : Service) (n : Nat) : n / s.tileWidth * s.tileWidth + n % s.tileWidth = n := by
  rw [Nat.mul_comm]
  exact Nat.div_add_mod n s.tileWidth

include lawful

/-- A check in which everything can be read compares the root over all leaves with the checkpoint. -/
theorem checkCheckpoint_eq {stragglers : List Bytes}
    (tiles : ∀ level o, s.Wanted cp.n level o → getTile level o = .ok (s.tileHashes t level o))
    (rest : 0 < cp.n % s.tileWidth → ∃ more, getStragglers (cp.n % s.tileWidth) = .ok (stragglers ++ more))
    (length : stragglers.length = cp.n % s.tileWidth) :
    s.checkCheckpoint getTile cp getStragglers =
      if s.rootOver (s.leafHashes t (cp.n / s.tileWidth * s.tileWidth) ++ stragglers) = cp.hash then .ok ()
      else .error (.text "log root mismatch at tree size %d; calculated %x, want %x") := by
  have sum := tiles_stop s cp.n
  have levels := @addLevels_ok s lawful t (checkedLeaf s t cp.n stragglers) getTile cp.n (s.levelsForLeafCount cp.n)
    (fun level _ o wanted => tiles level o wanted) fun j below => if_pos below
  rw [no_tile_above (Nat.le_refl _), Nat.zero_mul] at levels
  have start : s.pkg.newEmptyRange 0 = s.rangeTo (checkedLeaf s t cp.n stragglers) 0 := by
    rw [lawful.newEmptyRange, Service.rangeTo, cover_self, List.map_nil]
  have complete : s.addStragglers cp.n getStragglers
      (s.rangeTo (checkedLeaf s t cp.n stragglers) (cp.n / s.tileWidth * s.tileWidth)) =
        .ok (s.rangeTo (checkedLeaf s t cp.n stragglers) cp.n) := by
    have count : cp.n - cp.n / s.tileWidth * s.tileWidth = cp.n % s.tileWidth := by omega
    unfold Service.addStragglers
    rw [show (s.rangeTo (checkedLeaf s t cp.n stragglers) (cp.n / s.tileWidth * s.tileWidth)).stop =
      cp.n / s.tileWidth * s.tileWidth from rfl, count]
    rcases Nat.eq_zero_or_pos (cp.n % s.tileWidth) with none | some'
    · rw [none, Nat.add_zero] at sum
      simp only [none, Nat.lt_irrefl, if_false, sum]
      rfl
    · obtain ⟨more, read⟩ := rest some'
      have appended := lawful.appendAll (v := nodeHash s.hash (checkedLeaf s t cp.n stragglers))
        (fun l i => nodeHash_parent _ _ l i) (Nat.zero_le (cp.n / s.tileWidth * s.tileWidth)) stragglers
        fun j bound => by simp [nodeHash, nodeAt, checkedLeaf, bound]
      rw [length, sum] at appended
      simp only [some', if_true, read, Outcome.wrap_ok, Outcome.bind_ok]
      rw [if_neg (by simp [length]), ← length, List.take_left]
      exact congrArg Outcome.ok appended
  have hashes : (cover 0 cp.n).map (nodeHash s.hash (checkedLeaf s t cp.n stragglers)) =
      (s.rangeTo (checkedLeaf s t cp.n stragglers) cp.n).hashes := rfl
  have all : (s.leafHashes t (cp.n / s.tileWidth * s.tileWidth) ++ stragglers).length = cp.n := by
    simp [Service.leafHashes, length, sum]
  have root := rangeRoot_cover s.hash (checkedLeaf s t cp.n stragglers) []
    (s.leafHashes t (cp.n / s.tileWidth * s.tileWidth) ++ stragglers) fun i bound => by
      rw [List.getElem_append]
      by_cases inside : i < cp.n / s.tileWidth * s.tileWidth
      · simp [Service.leafHashes, checkedLeaf, inside]
      · have behind : i - cp.n / s.tileWidth * s.tileWidth < stragglers.length := by omega
        simp [Service.leafHashes, checkedLeaf, inside, behind]
  rw [all] at root
  unfold Service.checkCheckpoint
  rw [start, levels, Outcome.bind_ok, complete, Outcome.bind_ok, lawful.getRootHash _ _ rfl, ← hashes, root]
  simp only [Service.rangeTo, ne_eq, not_true_eq_false, if_false, fit_treeHash, ite_not]

-- A tile that cannot be read fails the check.
theorem checkCheckpoint_unread
    (tiles : ∀ level o, s.Wanted cp.n level o →
      getTile level o = .ok (s.tileHashes t level o) ∨ ∃ reason, getTile level o = .error reason)
    (fails : ∃ level o, s.Wanted cp.n level o ∧ ∃ reason, getTile level o = .error reason) :
    ∃ reason, s.checkCheckpoint getTile cp getStragglers = .error reason := by
  obtain ⟨level, o, wanted, failed⟩ := fails
  have below : level < s.levelsForLeafCount cp.n := by
    by_contra above
    have none := wanted.2
    rw [no_tile_above (by omega)] at none
    omega
  obtain ⟨reason, broken⟩ := addLevels_error lawful (s.levelsForLeafCount cp.n)
    (fun level _ o wanted => tiles level o wanted) ⟨level, below, o, wanted, failed⟩
  rw [no_tile_above (Nat.le_refl _), Nat.zero_mul] at broken
  refine ⟨reason, ?_⟩
  unfold Service.checkCheckpoint
  rw [lawful.newEmptyRange, show (⟨0, 0, []⟩ : Compact.Range) = s.rangeTo (s.leafHash t) 0 by
    rw [Service.rangeTo, cover_self, List.map_nil], broken, Outcome.bind_error]

-- So do stragglers, in the same way.
theorem checkCheckpoint_stragglers
    (tiles : ∀ level o, s.Wanted cp.n level o → getTile level o = .ok (s.tileHashes t level o))
    (some' : 0 < cp.n % s.tileWidth) :
    (∀ reason, getStragglers (cp.n % s.tileWidth) = .error reason →
      ∃ reason, s.checkCheckpoint getTile cp getStragglers = .error reason) ∧
    ∀ reason, getStragglers (cp.n % s.tileWidth) = .panic reason →
      s.checkCheckpoint getTile cp getStragglers = .panic reason := by
  have sum := tiles_stop s cp.n
  have levels := @addLevels_ok s lawful t (s.leafHash t) getTile cp.n (s.levelsForLeafCount cp.n)
    (fun level _ o wanted => tiles level o wanted) fun j _ => rfl
  rw [no_tile_above (Nat.le_refl _), Nat.zero_mul] at levels
  have start : s.pkg.newEmptyRange 0 = s.rangeTo (s.leafHash t) 0 := by
    rw [lawful.newEmptyRange, Service.rangeTo, cover_self, List.map_nil]
  have count : cp.n - cp.n / s.tileWidth * s.tileWidth = cp.n % s.tileWidth := by omega
  unfold Service.checkCheckpoint Service.addStragglers
  rw [start, levels, Outcome.bind_ok, show (s.rangeTo (s.leafHash t) (cp.n / s.tileWidth * s.tileWidth)).stop =
    cp.n / s.tileWidth * s.tileWidth from rfl, count, if_pos some']
  constructor
  · intro reason failed
    rw [failed]
    exact ⟨_, rfl⟩
  · intro reason failed
    rw [failed]
    rfl

end Roots

section Levels

/-- The hashes of a tile, each the root over the leaves that it covers. -/
def Service.subtreeHashes (s : Service) (leaves : List Bytes) (level offset : Nat) : List Bytes :=
  (List.range' (offset * s.tileWidth) s.tileWidth).map fun i =>
    s.hasher.logRoot ((leaves.drop (i * 2 ^ (level * s.height))).take (2 ^ (level * s.height)))

def Service.StoredTiles (s : Service) (leaves : List Bytes) (d : Database) : Prop :=
  ∀ level, ∀ o < leaves.length / s.span level,
    d.tiles s.height level o = some (s.subtreeHashes leaves level o).flatten

-- The leaves as rows of a table.
def leafRows (leaves : List Bytes) : Table Bytes where
  row i := leaves[i]?
  bound := leaves.length
  fits _ beyond := List.getElem?_eq_none beyond

variable {s : Service} {leaves : List Bytes} {d : Database} {cp : Checkpoint}

theorem leafHash_rows {i : Nat} (inside : i < leaves.length) :
    s.leafHash (leafRows leaves) i = s.hasher.hashLeaf leaves[i] := by
  simp [Service.leafHash, leafRows, inside]

theorem rootOver_leaves (nonempty : 0 < leaves.length) :
    s.rootOver (leaves.map s.hasher.hashLeaf) = s.hasher.logRoot leaves := by
  unfold Service.rootOver LogHasher.logRoot
  rw [map_fit (leafHashes_sized s leaves)]
  exact treeHash_empty _ _ _ (by rwa [List.length_map])

theorem tileNode_root {level i : Nat} (inside : (i + 1) * 2 ^ (level * s.height) ≤ leaves.length) :
    s.tileNode (leafRows leaves) level i =
      s.hasher.logRoot ((leaves.drop (i * 2 ^ (level * s.height))).take (2 ^ (level * s.height))) := by
  have positive := Nat.two_pow_pos (level * s.height)
  rw [Nat.succ_mul] at inside
  have covered : Merkle.segment (s.leafHash (leafRows leaves)) (i * 2 ^ (level * s.height)) (2 ^ (level * s.height)) =
      ((leaves.drop (i * 2 ^ (level * s.height))).take (2 ^ (level * s.height))).map s.hasher.hashLeaf := by
    apply List.ext_getElem
    · simp [Merkle.segment]
      omega
    · intro j lower upper
      simp only [Merkle.segment, List.length_map, List.length_range'] at lower
      simp only [Merkle.segment, List.getElem_map, List.getElem_range', List.getElem_take, List.getElem_drop,
        Nat.one_mul]
      exact leafHash_rows (by omega)
  rw [← fit_of_length (tileNode_length s (leafRows leaves) level i), Service.tileNode,
    nodeAt_eq_treeHash s.hash _ [], covered, fit_treeHash, rootOver_leaves]
  simp only [List.length_take, List.length_drop]
  omega

theorem tileHashes_roots {level o : Nat} (complete : o < leaves.length / s.span level) :
    s.tileHashes (leafRows leaves) level o = s.subtreeHashes leaves level o := by
  refine List.map_congr_left fun i member => tileNode_root ?_
  rw [List.mem_range'_1] at member
  have tile : (o + 1) * s.span level ≤ leaves.length :=
    Nat.le_trans (Nat.mul_le_mul_right _ complete) (Nat.div_mul_le_self _ _)
  rw [unit_span, ← Nat.mul_assoc] at tile
  refine Nat.le_trans (Nat.mul_le_mul_right _ ?_) tile
  rw [Nat.succ_mul]
  omega

theorem localTile_complete (stored : s.StoredTiles leaves d) {fault : Nat → Nat → Option GoError} {level o : Nat}
    (complete : o < leaves.length / s.span level) (readable : fault level o = none) :
    s.localTile fault d level o = .ok (s.tileHashes (leafRows leaves) level o) := by
  unfold Service.localTile Database.tile
  rw [readable, stored level o complete, ← tileHashes_roots complete]
  exact splitTile_flatten (tileHashes_sized s _ _ _) (tileHashes_length s _ _ _)

theorem leafHashes_split (stop : Nat) (inside : stop ≤ leaves.length) :
    s.leafHashes (leafRows leaves) stop ++ (leaves.drop stop).map s.hasher.hashLeaf =
      leaves.map s.hasher.hashLeaf := by
  have start : s.leafHashes (leafRows leaves) stop = (leaves.take stop).map s.hasher.hashLeaf := by
    apply List.ext_getElem
    · simp [Service.leafHashes, inside]
    · intro i lower upper
      simp only [Service.leafHashes, List.length_map, List.length_range] at lower
      simp only [Service.leafHashes, List.getElem_map, List.getElem_range, List.getElem_take]
      exact leafHash_rows (by omega)
  rw [start, ← List.map_append, List.take_append_drop]

/-- Over the right tiles a check is one of the root of all leaves. Nothing but complete tiles is read, and as
many leaf hashes are asked for as come after them. -/
theorem checkCheckpoint_levels (s : Service) (lawful : Compact.Lawful s.pkg) (leaves : List Bytes) (cp : Checkpoint)
    (size : leaves.length = cp.n) (nonempty : 1 ≤ cp.n) (d : Database) (stored : s.StoredTiles leaves d)
    (fault : Nat → Nat → Option GoError) (readable : ∀ level, ∀ o < cp.n / s.span level, fault level o = none)
    (getStragglers : Nat → Outcome (List Bytes))
    (trailing : 0 < cp.n % 2 ^ s.height → getStragglers (cp.n % 2 ^ s.height) =
      .ok ((leaves.drop (cp.n - cp.n % 2 ^ s.height)).map s.hasher.hashLeaf)) :
    (s.checkCheckpoint (s.localTile fault d) cp getStragglers = .ok () ↔ cp.hash = s.hasher.logRoot leaves) ∧
    (∀ getTile : Nat → Nat → Outcome (List Bytes), ∀ ask : Nat → Outcome (List Bytes),
      (∀ level, ∀ o < cp.n / s.span level, getTile level o = s.localTile fault d level o) →
      (0 < cp.n % 2 ^ s.height → ask (cp.n % 2 ^ s.height) = getStragglers (cp.n % 2 ^ s.height)) →
      s.checkCheckpoint getTile cp ask = s.checkCheckpoint (s.localTile fault d) cp getStragglers) ∧
    (0 < cp.n % 2 ^ s.height → ∀ ask : Nat → Outcome (List Bytes), ∀ reason,
      ask (cp.n % 2 ^ s.height) = .panic reason →
      s.checkCheckpoint (s.localTile fault d) cp ask = .panic reason) := by
  have sum := tiles_stop s cp.n
  have stop : cp.n - cp.n % 2 ^ s.height = cp.n / s.tileWidth * s.tileWidth := by
    rw [← Service.tileWidth]
    omega
  rw [stop, ← Service.tileWidth] at trailing
  have tiles : ∀ level, ∀ o < cp.n / s.span level,
      s.localTile fault d level o = .ok (s.tileHashes (leafRows leaves) level o) := fun level o complete =>
    localTile_complete stored (by rwa [size]) (readable level o complete)
  have length : ((leaves.drop (cp.n / s.tileWidth * s.tileWidth)).map s.hasher.hashLeaf).length =
      cp.n % s.tileWidth := by
    rw [List.length_map, List.length_drop, size]
    omega
  have result : ∀ getTile : Nat → Nat → Outcome (List Bytes), ∀ ask : Nat → Outcome (List Bytes),
      (∀ level, ∀ o < cp.n / s.span level, getTile level o = s.localTile fault d level o) →
      (0 < cp.n % s.tileWidth → ask (cp.n % s.tileWidth) = getStragglers (cp.n % s.tileWidth)) →
      s.checkCheckpoint getTile cp ask =
        if s.hasher.logRoot leaves = cp.hash then .ok ()
        else .error (.text "log root mismatch at tree size %d; calculated %x, want %x") := by
    intro getTile ask same asked
    rw [checkCheckpoint_eq lawful (t := leafRows leaves)
      (fun level o wanted => by rw [same level o wanted.2, tiles level o wanted.2])
      (fun some' => ⟨[], by rw [asked some', trailing some', List.append_nil]⟩) length,
      leafHashes_split _ (by omega), rootOver_leaves (by omega)]
  refine ⟨?_, fun getTile ask same asked => ?_, fun some' ask reason panics => ?_⟩
  · rw [result _ _ (fun _ _ _ => rfl) fun _ => rfl]
    by_cases same : s.hasher.logRoot leaves = cp.hash
    · simp [same]
    · simp [same, Ne.symm same]
  · rw [result _ _ same asked, result _ _ (fun _ _ _ => rfl) fun _ => rfl]
  · exact (checkCheckpoint_stragglers lawful (fun level o wanted => tiles level o wanted.2) some').2 reason panics

-- Three records in tiles of two: one complete tile and one hash after it.
theorem checkCheckpoint_levels_three :
    pairs.checkCheckpoint
      (pairs.localTile (fun _ _ => none) { Database.empty with
        tiles := fun h l o => if h = 1 ∧ l = 0 ∧ o = 0 then some (pairLeaf 1 ++ pairLeaf 2) else none })
      (pairNote [1, 2, 3] (by decide)) (fun _ => .ok [pairLeaf 3]) = .ok () := by
  refine (checkCheckpoint_levels pairs Compact.reference_lawful [[1, 10], [2, 10], [3, 10]]
    (pairNote [1, 2, 3] (by decide)) rfl (by decide) _ ?_ _ (fun _ _ _ => rfl) _ (fun _ => by decide)).1.mpr rfl
  intro level o complete
  cases level with
  | zero =>
    obtain rfl : o = 0 := Nat.lt_one_iff.mp complete
    have hashes : pairs.subtreeHashes [[1, 10], [2, 10], [3, 10]] 0 0 =
        [pairs.hasher.logRoot [[1, 10]], pairs.hasher.logRoot [[2, 10]]] := rfl
    rw [hashes, LogHasher.logRoot, LogHasher.logRoot, List.map_singleton, List.map_singleton, treeHash_single,
      treeHash_single]
    decide
  | succ level =>
    have wide : 2 ^ 2 ≤ pairs.span (level + 1) := Nat.pow_le_pow_right (by decide) (by simp [pairs])
    rw [Nat.div_eq_of_lt (Nat.lt_of_lt_of_le (by decide) wide)] at complete
    omega

end Levels

end Audit
