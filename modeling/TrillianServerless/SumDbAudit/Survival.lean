import TrillianServerless.SumDbAudit.Mirror

set_option autoImplicit false

namespace Audit

open Go Sql Merkle Service Runs

/-- The databases that Syncs lead to, whatever the SumDB answers and however far each of them gets: it may return,
hang or be killed. -/
inductive Synced (s : Service) : Database → Prop
  | start : Synced s .empty
  | step {d : Database} {call : SyncCall} (server : Server) (cp : Checkpoint) :
      Synced s d → s.Syncs server cp d call → Synced s call.db

/-- Every leaf below a complete tile of the second level is stored or comes, if all tiles do. -/
def Service.Whole (s : Service) (d : Database) (server : Server) (cp : Checkpoint) : Prop :=
  s.Served server cp d → ∀ i < cp.n / s.span 1 * s.span 1, d.leaves.row i ≠ none ∨ s.Fetched server cp d i

/-- No leaf behind the complete tiles is stored or comes with one of them, and no more records come for an
incomplete tile than were asked for. A checkpoint far enough behind the stored leaves is refused. -/
structure Service.Bounded (s : Service) (d : Database) (server : Server) (cp : Checkpoint) : Prop where
  stored : storedLeaves d ≤ cp.n / s.tileWidth * s.tileWidth ∨ cp.n + 1 < storedLeaves d
  full : ∀ o ∈ s.requested cp d, ∀ records, server.fullLeavesAtOffset o = .ok records →
    o * s.tileWidth + records.length ≤ cp.n / s.tileWidth * s.tileWidth
  part : 0 < cp.n % s.tileWidth → ∀ records,
    server.partialLeavesAtOffset (cp.n / s.tileWidth) (cp.n % s.tileWidth) = .ok records →
    records.length ≤ cp.n % s.tileWidth
  whole : s.Whole d server cp

section Outcomes

variable {s : Service} (lawful : Compact.Lawful s.pkg) {server : Server} {cp : Checkpoint} {d d' : Database}

include lawful

-- Local tiles are of full size, so reading stragglers from one stays inside.
theorem localCheck_no_panic (ok : s.TilesOk d) (cp : Checkpoint) (reason : String) :
    s.checkCheckpoint (s.localTile (fun _ _ => none) d) cp (fun _ => s.localStragglers (fun _ _ => none) cp d) ≠
      .panic reason := by
  by_cases readable : s.Readable d cp.n fun _ _ => none
  · rw [localCheck_eq lawful ok readable]
    split <;> exact nofun
  · obtain ⟨reason', failed⟩ := localCheck_unread lawful ok readable
    rw [failed]
    exact nofun

theorem checkConsistency_no_panic (ok : s.TilesOk d) (reason : String) : s.checkConsistency d ≠ .panic reason := by
  unfold Service.checkConsistency
  cases d.goldenCheckpoint s.parse none with
  | error failed =>
    dsimp only
    split <;> exact nofun
  | ok golden =>
    dsimp only
    cases d.head none with
    | error failed => exact nofun
    | ok head =>
      dsimp only
      split
      · exact nofun
      · have check := localCheck_no_panic lawful ok golden reason
        revert check
        cases s.checkCheckpoint (s.localTile (fun _ _ => none) d) golden
            (fun _ => s.localStragglers (fun _ _ => none) golden d) with
        | ok => exact fun _ => nofun
        | error failed => exact fun _ => nofun
        | panic failed => exact fun check same => check same

theorem checkRootHash_no_panic (ok : s.TilesOk d)
    (stored : ∀ level o, s.Wanted cp.n level o → d.tiles s.height level o ≠ none)
    (part : 0 < cp.n % s.tileWidth → ∀ records,
      server.partialLeavesAtOffset (cp.n / s.tileWidth) (cp.n % s.tileWidth) = .ok records →
      records.length ≤ cp.n % s.tileWidth) (reason : String) : s.checkRootHash server cp d ≠ .panic reason := by
  rcases Nat.eq_zero_or_pos (cp.n % s.tileWidth) with none | some'
  · rw [@checkRootHash_eq s d cp server lawful ok [] stored (by omega) none.symm]
    split <;> exact nofun
  · cases fetched : server.partialLeavesAtOffset (cp.n / s.tileWidth) (cp.n % s.tileWidth) with
    | ok records =>
      have fewer := part some' records fetched
      rw [checkRootHash_eq lawful ok stored (fun _ => remoteStragglers_eq fetched fewer) (by simp; omega)]
      split <;> exact nofun
    | error failed =>
      have stragglers : s.remoteStragglers server cp (cp.n % s.tileWidth) =
          .error (.wrap "failed to get stragglers: %w" failed) := by
        unfold Service.remoteStragglers
        rw [fetched]
      obtain ⟨reason', failed⟩ := (checkCheckpoint_stragglers lawful (wanted_read ok stored) some').1 _ stragglers
      unfold Service.checkRootHash
      rw [failed]
      exact nofun

end Outcomes

section Runs

variable {s : Service} (lawful : Compact.Lawful s.pkg) {server : Server} {cp : Checkpoint} {d d' : Database}

include lawful in
theorem syncs_tilesOk {call : SyncCall} (ok : s.TilesOk d) (reached : s.Syncs server cp d call) :
    s.TilesOk call.db := by
  obtain rfl | ⟨reason, d1, failed, rfl⟩ | ⟨d1, p, cloned, steps, next⟩ := syncs_cases reached
  · exact ok
  · have first := (cloneLeafTiles_cloned failed).1
    exact ok.extends first.tiles first.leaves
  · have first := (cloneLeafTiles_cloned cloned).1
    have kept := (hashing_sound lawful (ok.extends first.tiles first.leaves) steps).tilesOk
    obtain rfl | ⟨hashed, -, rfl⟩ := next
    · exact kept
    · have finish : Eff.Keeps s.TilesOk (s.finishSync server cp hashed) :=
        Eff.Keeps.bind (fun _ ok => ok) fun _ => Eff.Keeps.bind (fun _ ok => ok) fun _ =>
          Eff.Keeps.bind (fun _ ok => ok) fun _ _ ok => ok
      exact finish _ kept

include lawful in
theorem synced_tilesOk (reached : Synced s d) : s.TilesOk d := by
  induction reached with
  | start => exact tilesOk_empty s
  | step server cp _ ran ih => exact syncs_tilesOk lawful ih ran

include lawful in
/-- A call of Sync returns under every schedule exactly if no leaf is missing below the tiles of the second level. -/
theorem sync_ends_iff (ok : s.TilesOk d) : s.Ends server cp d (fun _ _ => True) ↔ s.Whole d server cp := by
  obtain ⟨d1, first, ⟨served, cloned, present⟩ | ⟨unserved, reason, failed⟩⟩ :=
    cloneLeafTiles_outcome (s := s) server cp d
  · have kept := ok.extends first.tiles first.leaves
    have rooted : s.Whole d server cp ↔ s.Rooted d1.leaves cp.n := by
      constructor
      · exact fun whole i below => (present i).mpr (whole served i below)
      · exact fun rooted _ i below => (present i).mp (rooted i below)
    rw [rooted, ← hashing_returns_iff lawful kept]
    constructor
    · intro ends p steps stuck now
      -- Nothing can happen but in the goroutines.
      obtain ⟨result, d', same, -⟩ := ends.returns (.hashing p) (syncs_hashing cloned steps) (by
        intro e call clean stepped
        rcases syncStep_cases stepped with ⟨d, other, -⟩ | ⟨q, e', q', same, rfl, worked, -⟩ | ⟨q, hashed, same, back, -⟩
        · cases other
        · obtain rfl := SyncCall.hashing.inj same
          exact stuck e' q' clean worked
        · obtain rfl := SyncCall.hashing.inj same
          rw [now] at back
          cases back)
      cases same
    · intro returns
      refine ends_of (fun d2 p cloned' => ?_) fun _ _ _ => trivial
      obtain rfl := (Prod.mk.inj (cloned.symm.trans cloned')).2
      exact returns p
  · refine iff_of_true (ends_of (fun d2 p cloned => ?_) fun _ _ _ => trivial) fun served => absurd served unserved
    cases (Prod.mk.inj (failed.symm.trans cloned)).1

theorem finishSync_panic {reason : String} (panicked : (s.finishSync server cp (.ok ()) d).1 = .panic reason) :
    s.checkConsistency d = .panic reason ∨ s.checkRootHash server cp d = .panic reason := by
  have ran : s.finishSync server cp (.ok ()) d = (.panic reason, (s.finishSync server cp (.ok ()) d).2) :=
    Prod.ext panicked rfl
  generalize (s.finishSync server cp (.ok ()) d).2 = final at ran
  unfold Service.finishSync at ran
  rcases Eff.bind_eq_panic ran with early | ⟨_, d1, lifted, ran⟩
  · cases (Prod.mk.inj (Eff.wrap_eq_panic.mp early)).1
  obtain ⟨-, rfl⟩ := Prod.mk.inj (Eff.wrap_eq_ok.mp lifted)
  rcases Eff.bind_eq_panic ran with early | ⟨_, d2, checked, ran⟩
  · exact .inl (Prod.mk.inj (Eff.wrap_eq_panic.mp early)).1
  obtain ⟨-, rfl⟩ := Prod.mk.inj (Eff.wrap_eq_ok.mp checked)
  rcases Eff.bind_eq_panic ran with early | ⟨_, d3, compared, ran⟩
  · exact .inr (Prod.mk.inj (Eff.wrap_eq_panic.mp early)).1
  · cases (Prod.mk.inj ran).1

include lawful in
/-- A Sync panics only over the records of an incomplete tile. -/
theorem sync_no_panic (ok : s.TilesOk d)
    (part : 0 < cp.n % s.tileWidth → ∀ records,
      server.partialLeavesAtOffset (cp.n / s.tileWidth) (cp.n % s.tileWidth) = .ok records →
      records.length ≤ cp.n % s.tileWidth) {result : Outcome Unit}
    (ran : s.Syncs server cp d (.returned result d')) (reason : String) : result ≠ .panic reason := by
  rintro rfl
  obtain other | ⟨reason, d1, -, other⟩ | ⟨d1, p, cloned, steps, other | ⟨hashed, back, last⟩⟩ := syncs_cases ran
  · cases other
  · cases other
  · cases other
  have first := (cloneLeafTiles_cloned cloned).1
  have kept := ok.extends first.tiles first.leaves
  have panicked := (SyncCall.returned.inj last).1.symm
  obtain ⟨rfl, filled, db⟩ | ⟨-, failure, rfl⟩ := hashing_outcome lawful kept steps back
  · rw [db] at panicked
    obtain ⟨kept', -, stored⟩ := hashed_spec kept filled
    rcases finishSync_panic panicked with early | late
    · exact checkConsistency_no_panic lawful kept' reason early
    · exact checkRootHash_no_panic lawful kept' (fun level o wanted => stored level o wanted.2) part reason late
  · cases panicked

-- No leaf gets behind the complete tiles.
theorem cloned_bounded (bounded : s.Bounded d server cp) (ran : s.cloneLeafTiles server cp d = (.ok (), d')) :
    ∀ i, cp.n / s.tileWidth * s.tileWidth ≤ i → d'.leaves.row i = none := by
  have below := Nat.div_mul_le_self cp.n s.tileWidth
  have small := cp.small
  obtain ⟨d1, -, ⟨served, cloned, present⟩ | ⟨-, reason, failed⟩⟩ := cloneLeafTiles_outcome (s := s) server cp d
  swap
  · cases (Prod.mk.inj (ran.symm.trans failed)).1
  obtain rfl := (Prod.mk.inj (ran.symm.trans cloned)).2
  have fewer : storedLeaves d ≤ cp.n / s.tileWidth * s.tileWidth :=
    bounded.stored.resolve_right fun refused => absurd served.1 (by omega)
  intro i behind
  by_contra there
  rcases (present i).mp there with before | ⟨o, member, records, fetched, listed⟩
  · obtain ⟨last, max, reaches, -⟩ := Table.le_max? before
    simp only [storedLeaves, max] at fewer
    omega
  · have length := bounded.full o member records fetched
    rw [Table.counted_eq (by omega), Table.numbered_keys, List.mem_range'_1] at listed
    omega

end Runs

section Binding

variable {s : Service} {entries : List Bytes} {cp : Checkpoint}

-- Any hashes that give the root of the log are those of its leaves.
theorem rootOver_binds {hashes : List Bytes} (binds : s.hasher.Binds (entries.take cp.n))
    (committed : s.Committed entries cp) (root : cp.hash = s.rootOver hashes) (length : hashes.length = cp.n)
    {i : Nat}
    (inside : i < cp.n) : LogHasher.fit (hashes.getD i []) = s.hasher.leafOf (entries.take cp.n) i := by
  have whole : (entries.take cp.n).length = cp.n := by
    rw [List.length_take, Nat.min_eq_left committed.long]
  have sized : Sized s.hasher.hashChildren (fun i => LogHasher.fit (hashes.getD i [])) 32 :=
    ⟨fun _ => LogHasher.fit_length _, s.hasher.childSize⟩
  have spanned : s.rootOver hashes =
      spanHash s.hasher.hashChildren (fun i => LogHasher.fit (hashes.getD i [])) [] ⟨0, cp.n⟩ := by
    have listed : Merkle.segment (fun i => LogHasher.fit (hashes.getD i [])) 0 cp.n = hashes.map LogHasher.fit := by
      apply List.ext_getElem
      · simp [Merkle.segment, length]
      · intro j lower upper
        simp only [List.length_map] at upper
        simp [Merkle.segment, upper]
    rw [spanHash, listed]
    exact treeHash_empty _ _ _ (by rw [List.length_map, length]; omega)
  have under : s.treeRoot (entries.take cp.n) =
      spanHash s.hasher.hashChildren (s.hasher.leafOf (entries.take cp.n)) [] ⟨0, cp.n⟩ := by
    rw [spanHash, s.hasher.segment_leafOf _ _ (by rw [whole]), List.take_take, Nat.min_self]
    exact treeHash_empty _ _ _ (by rw [List.length_map, whole]; omega)
  have same := spanned.symm.trans (root.symm.trans (committed.root.trans under))
  have all := spanHash_injective (s.hasher.sized (entries.take cp.n)) binds.nodes sized
    (by rw [whole, Nat.zero_add]) same
  exact all i (Nat.zero_le _) (by rw [Nat.zero_add]; exact inside)

-- Stored leaves below a checkpoint of the log are its own.
theorem holds_binds {t : Table Bytes} {m : Nat} {stragglers : List Bytes} (binds : s.hasher.Binds (entries.take cp.n))
    (committed : s.Committed entries cp) (root : cp.hash = s.rootOver (s.leafHashes t m ++ stragglers))
    (length : m + stragglers.length = cp.n) (present : ∀ i, t.row i ≠ none ↔ i < m) : t.Holds (entries.take m) := by
  have long := committed.long
  intro i
  by_cases inside : i < m
  · obtain ⟨leaf, row⟩ := Option.ne_none_iff_exists'.mp ((present i).mpr inside)
    have hashes := rootOver_binds binds committed root (by simp [Service.leafHashes, length]) (show i < cp.n by omega)
    have known : i < entries.length := by omega
    have listed : (s.leafHashes t m ++ stragglers).getD i [] = s.hasher.hashLeaf leaf := by
      rw [List.getD_eq_getElem?_getD, List.getElem?_append_left (by simp [Service.leafHashes, inside])]
      simp [Service.leafHashes, Service.leafHash, inside, row]
    have entry : s.hasher.leafOf (entries.take cp.n) i = s.hasher.hashLeaf entries[i] := by
      simp [LogHasher.leafOf, show i < cp.n by omega, known]
    rw [listed, fit_of_length (s.hasher.leafSize _), entry] at hashes
    have member : entries[i] ∈ entries.take cp.n := by
      rw [List.mem_take_iff_getElem]
      exact ⟨i, by omega, rfl⟩
    rw [row, binds.leaves _ member _ hashes]
    simp [inside, known]
  · have none : t.row i = none := by
      by_contra some'
      exact inside ((present i).mp some')
    rw [none, List.getElem?_eq_none]
    rw [List.length_take]
    omega

end Binding

section Survives

variable {s : Service} (lawful : Compact.Lawful s.pkg) {server : Server} {cp : Checkpoint} {d d' : Database}

include lawful in
-- The hashes behind the complete tiles, nil where no record came.
theorem Accepted.stragglers (accepted : Accepted s server cp d d')
    (part : 0 < cp.n % s.tileWidth → ∀ records,
      server.partialLeavesAtOffset (cp.n / s.tileWidth) (cp.n % s.tileWidth) = .ok records →
      records.length ≤ cp.n % s.tileWidth) :
    ∃ stragglers : List Bytes, stragglers.length = cp.n % s.tileWidth ∧
      cp.hash = s.rootOver (s.leafHashes d'.leaves (cp.n / s.tileWidth * s.tileWidth) ++ stragglers) := by
  obtain ⟨stragglers, length, fetched⟩ : ∃ stragglers : List Bytes, stragglers.length = cp.n % s.tileWidth ∧
      (0 < cp.n % s.tileWidth → s.remoteStragglers server cp (cp.n % s.tileWidth) = .ok stragglers) := by
    rcases Nat.eq_zero_or_pos (cp.n % s.tileWidth) with none | some'
    · exact ⟨[], none.symm, by omega⟩
    · obtain ⟨records, fetched⟩ := checkRootHash_fetched lawful accepted.tilesOk accepted.wanted accepted.root some'
      have fewer := part some' records fetched
      exact ⟨_, by simp; omega, fun _ => remoteStragglers_eq fetched fewer⟩
  have root := accepted.root
  rw [checkRootHash_eq lawful accepted.tilesOk accepted.wanted fetched length] at root
  refine ⟨stragglers, length, ?_⟩
  by_contra differs
  rw [if_neg (Ne.symm differs)] at root
  cases root

theorem Accepted.present (accepted : Accepted s server cp d d') (bounded : s.Bounded d server cp) (i : Nat) :
    d'.leaves.row i ≠ none ↔ i < cp.n / s.tileWidth * s.tileWidth := by
  obtain ⟨d1, cloned, leaves⟩ := accepted.cloned
  constructor
  · intro present
    by_contra behind
    rw [leaves] at present
    exact present (cloned_bounded bounded cloned i (by omega))
  · exact accepted.filled i

theorem Accepted.leafTile (accepted : Accepted s server cp d d') {o : Nat} (inside : o < cp.n / s.tileWidth) :
    d'.tiles s.height 0 o =
      some ((List.range' (o * s.tileWidth) s.tileWidth).map (s.leafHash d'.leaves)).flatten := by
  obtain ⟨blob, found⟩ := Option.ne_none_iff_exists'.mp (accepted.stored 0 o (by rw [span_zero]; exact inside))
  obtain ⟨-, rfl⟩ := accepted.tilesOk 0 o blob found
  rw [found]
  congr 2
  refine List.map_congr_left fun i _ => ?_
  simp [Service.tileNode, nodeAt]

include lawful in
theorem Accepted.later {entries : List Bytes} {server' : Server} {cp' : Checkpoint}
    (accepted : Accepted s server cp d d') (bounded : s.Bounded d server cp) (parsed : s.parse cp.raw = .ok cp)
    (committed : s.Committed entries cp) (binds : s.hasher.Binds (entries.take cp.n))
    (honest : s.Honest entries server' cp') (larger : cp.n ≤ cp'.n) (tile : s.tileWidth ≤ cp'.n) :
    s.Ends server' cp' d' fun result _ => result = .ok () := by
  have below := Nat.div_mul_le_self cp.n s.tileWidth
  have sum := tiles_stop s cp.n
  have long := committed.long
  obtain ⟨stragglers, length, root⟩ := accepted.stragglers lawful bounded.part
  have holds := holds_binds binds committed root (by omega) (accepted.present bounded)
  have mirrors : s.Mirrors entries (cp.n / s.tileWidth) d' :=
    ⟨by omega, holds, accepted.tilesOk, fun level o inside =>
      accepted.stored level o (Nat.lt_of_lt_of_le inside (Nat.div_le_div_right below))⟩
  have trusts : s.Trusts entries d' :=
    .inr ⟨cp, by rw [accepted.checkpoints]; rfl, parsed, committed⟩
  exact (mirrors.sync_honest lawful honest (by omega) trusts fun _ => tile).imp fun _ _ _ good => good.1

end Survives

/-- Whatever happened before, a Sync that gets no more records than fit its checkpoint, and all that its tiles need,
returns under every schedule and does not panic. If it succeeds then exactly the leaves of complete tiles are stored,
hashed into tiles, and a later one with an honest SumDB succeeds under every schedule. -/
theorem sync_survives (s : Service) (lawful : Compact.Lawful s.pkg) (d : Database) (reached : Synced s d)
    (server : Server) (cp : Checkpoint) (bounded : s.Bounded d server cp) :
    s.Ends server cp d fun result d' =>
      (∀ reason, result ≠ .panic reason) ∧
      (result = .ok () →
        (∀ i, d'.leaves.row i ≠ none ↔ i < cp.n / s.tileWidth * s.tileWidth) ∧
        (∀ o < cp.n / s.tileWidth, d'.tiles s.height 0 o =
          some ((List.range' (o * s.tileWidth) s.tileWidth).map (s.leafHash d'.leaves)).flatten) ∧
        ∀ entries server' cp', s.parse cp.raw = .ok cp → s.Committed entries cp → s.hasher.Binds (entries.take cp.n) →
          s.Honest entries server' cp' → cp.n ≤ cp'.n → s.tileWidth ≤ cp'.n →
          s.Ends server' cp' d' fun result' _ => result' = .ok ()) := by
  have ok := synced_tilesOk lawful reached
  refine ((sync_ends_iff lawful ok).mpr bounded.whole).imp fun result d' ran _ => ?_
  refine ⟨sync_no_panic lawful ok bounded.part ran, ?_⟩
  rintro rfl
  have accepted := sync_ok lawful ok ran
  exact ⟨accepted.present bounded, fun o inside => accepted.leafTile inside,
    fun entries server' cp' parsed committed binds honest larger tile =>
      accepted.later lawful bounded parsed committed binds honest larger tile⟩

section Pairs

def fiveRecords : List Bytes := [[1, 10], [2, 10], [3, 10], [4, 10], [5, 10]]

theorem fiveRecords_binds : pairs.hasher.Binds (fiveRecords.take 4) := by
  refine LogHasher.listing_binds_of (by decide) (by decide) (by decide) fun s c several inside => ?_
  have few : s + c ≤ 4 := inside
  obtain ⟨rfl, rfl⟩ | ⟨rfl, rfl⟩ | ⟨rfl, rfl⟩ | ⟨rfl, rfl⟩ | ⟨rfl, rfl⟩ | ⟨rfl, rfl⟩ :
      s = 0 ∧ c = 2 ∨ s = 1 ∧ c = 2 ∨ s = 2 ∧ c = 2 ∨ s = 0 ∧ c = 3 ∨ s = 1 ∧ c = 3 ∨ s = 0 ∧ c = 4 := by
    omega
  all_goals decide +kernel

theorem fiveRecords_honest :
    pairs.Honest fiveRecords (pairServer [1, 2, 3, 4, 5]) (pairNote [1, 2, 3, 4, 5] (by decide)) where
  long := by decide
  root := rfl
  full o inside := by
    have few : (o + 1) * 2 ≤ 5 := inside
    obtain rfl | rfl : o = 0 ∨ o = 1 := by omega
    · rfl
    · rfl
  part _ := rfl

-- The first tile is stored, and the next checkpoint has a tile above it.
def twoRecords : Database := (pairSync [1, 2] (by decide) .empty).2

theorem twoRecords_synced : Synced pairs twoRecords :=
  .step (pairServer [1, 2]) (pairNote [1, 2] (by decide)) .start
    (pair_syncs (tilesOk_empty pairs) (by decide +kernel) (by unfold Filled; decide +kernel))

theorem twoRecords_bounded :
    pairs.Bounded twoRecords (pairServer [1, 2, 3, 4]) (pairNote [1, 2, 3, 4] (by decide)) := by
  have asked : pairs.requested (pairNote [1, 2, 3, 4] (by decide)) twoRecords = [1] := by decide +kernel
  have fetched : (pairServer [1, 2, 3, 4]).fullLeavesAtOffset 1 = .ok [[3, 10], [4, 10]] := by rfl
  refine ⟨.inl (by decide +kernel), fun o member records came => ?_, fun some' => absurd some' (by decide),
    fun _ i below => ?_⟩
  · rw [asked, List.mem_singleton] at member
    subst member
    rw [fetched] at came
    obtain rfl := Except.ok.inj came
    decide
  · have inside : i < 4 := below
    by_cases stored : i < 2
    · have rows : ∀ i < 2, twoRecords.leaves.row i ≠ none := by decide +kernel
      exact .inl (rows i stored)
    · refine .inr ⟨1, by simp [asked], _, fetched, ?_⟩
      obtain rfl | rfl : i = 2 ∨ i = 3 := by omega
      · decide
      · decide

theorem sync_survives_pair :
    pairs.Ends (pairServer [1, 2, 3, 4, 5]) (pairNote [1, 2, 3, 4, 5] (by decide))
      (pairSync [1, 2, 3, 4] (by decide) twoRecords).2 fun result _ => result = .ok () := by
  have survives := sync_survives pairs Compact.reference_lawful twoRecords twoRecords_synced (pairServer [1, 2, 3, 4])
    (pairNote [1, 2, 3, 4] (by decide)) twoRecords_bounded
  have ran := @pair_syncs [1, 2, 3, 4] (by decide) twoRecords
    (synced_tilesOk Compact.reference_lawful twoRecords_synced) (by decide +kernel) (by unfold Filled; decide +kernel)
  obtain ⟨result, d', same, -, good⟩ := survives.returns _ ran returned_stuck
  obtain ⟨rfl, rfl⟩ := SyncCall.returned.inj same
  exact (good (by decide +kernel)).2.2 fiveRecords _ _ rfl ⟨by decide, rfl⟩ fiveRecords_binds fiveRecords_honest
    (by decide) (by decide)

def chattyServer : Server where
  full offset := (pairServer [1, 2, 3]).full offset
  part _ _ := .ok [3, 10, 10, 4, 10]

-- A tile with only one record.
def terseServer : Server where
  full offset := if offset = 0 then .ok [1, 10] else (pairServer [1, 2, 3, 4]).full offset
  part _ _ := .error (.text "not found")

/-- One record was asked for and two came. With one for a tile of two, no schedule lets the call return. -/
theorem sync_panics : Synced pairs .empty ∧
    (∃ d', pairs.Syncs chattyServer (pairNote [1, 2, 3] (by decide)) .empty
      (.returned (.panic "index out of range") d')) ∧
    ¬ pairs.Ends terseServer (pairNote [1, 2, 3, 4] (by decide)) .empty fun _ _ => True := by
  refine ⟨.start, ?_, fun ends => ?_⟩
  · have ran := @syncs_finish pairs chattyServer (pairNote [1, 2, 3] (by decide)) .empty _ Compact.reference_lawful
      (tilesOk_empty pairs) (Prod.ext (by decide +kernel) rfl) (by unfold Filled; decide +kernel)
    have panicked : (pairs.finishSync chattyServer (pairNote [1, 2, 3] (by decide)) (.ok ()) (pairs.hashed
        (pairs.cloneLeafTiles chattyServer (pairNote [1, 2, 3] (by decide)) .empty).2
        (pairNote [1, 2, 3] (by decide)).n)).1 = .panic "index out of range" := by decide +kernel
    rw [panicked] at ran
    exact ⟨_, ran⟩
  · have asked : pairs.requested (pairNote [1, 2, 3, 4] (by decide)) .empty = [0, 1] := by decide
    have short : terseServer.fullLeavesAtOffset 0 = .ok [[1, 10]] := by rfl
    have next : terseServer.fullLeavesAtOffset 1 = .ok [[3, 10], [4, 10]] := by rfl
    have whole := (sync_ends_iff Compact.reference_lawful (tilesOk_empty pairs)).mp ends
    obtain missing | ⟨o, member, records, came, listed⟩ := whole ⟨by decide, fun o member => by
      rw [asked] at member
      rcases List.mem_pair.mp member with rfl | rfl
      · exact ⟨_, short⟩
      · exact ⟨_, next⟩⟩ 1 (by decide)
    · exact missing rfl
    · rw [asked] at member
      rcases List.mem_pair.mp member with rfl | rfl
      · obtain rfl := Except.ok.inj (short.symm.trans came)
        exact absurd listed (by decide)
      · obtain rfl := Except.ok.inj (next.symm.trans came)
        exact absurd listed (by decide)

end Pairs

end Audit
