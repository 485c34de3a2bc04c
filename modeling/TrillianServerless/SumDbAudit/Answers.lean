import TrillianServerless.SumDbAudit.Mirror

set_option autoImplicit false

namespace Audit

open Go Sql Merkle Service

/-- The databases that successful Syncs with an honest SumDB lead to. -/
inductive Followed (s : Service) (entries : List Bytes) : Database → Prop
  | first {server : Server} {cp : Checkpoint} {d : Database} :
      s.Honest entries server cp → s.parse cp.raw = .ok cp → s.Syncs server cp .empty (.returned (.ok ()) d) →
      Followed s entries d
  | next {server : Server} {cp : Checkpoint} {d d' : Database} :
      Followed s entries d → s.Honest entries server cp → s.parse cp.raw = .ok cp →
      s.Syncs server cp d (.returned (.ok ()) d') → Followed s entries d'

section Follow

variable {s : Service} (lawful : Compact.Lawful s.pkg) {entries : List Bytes} {count : Nat} {d d' : Database}
  {server : Server} {cp : Checkpoint}

theorem mirrors_empty (s : Service) (entries : List Bytes) : s.Mirrors entries 0 .empty where
  long := by simp
  leaves := by
    intro i
    simp [Database.empty, Table.empty]
  tilesOk := nofun
  stored := by simp

include lawful in
/-- A Sync that succeeds has the leaves of the complete tiles, if there were not more before. -/
theorem Service.Mirrors.step (mirrors : s.Mirrors entries count d) (honest : s.Honest entries server cp)
    (ran : s.Syncs server cp d (.returned (.ok ()) d')) : ∃ count', s.Mirrors entries count' d' := by
  have accepted := sync_ok lawful mirrors.tilesOk ran
  have below := Nat.div_mul_le_self cp.n s.tileWidth
  have long := honest.long
  obtain ⟨d1, cloned, leaves⟩ := accepted.cloned
  rcases Nat.lt_or_ge cp.n (count * s.tileWidth) with smaller | larger
  · obtain rfl := cloneLeafTiles_idle mirrors smaller cloned
    exact ⟨count, mirrors.long, leaves ▸ mirrors.leaves, accepted.tilesOk, fun level o inside =>
      accepted.kept level o (mirrors.stored level o inside)⟩
  · obtain ⟨d2, same, holds, -⟩ := cloneLeafTiles_honest mirrors honest larger
    obtain rfl := (Prod.mk.inj (cloned.symm.trans same)).2
    exact ⟨cp.n / s.tileWidth, by omega, leaves ▸ holds, accepted.tilesOk, fun level o inside =>
      accepted.stored level o (Nat.lt_of_lt_of_le inside (Nat.div_le_div_right below))⟩

include lawful in
theorem followed_mirrors (followed : Followed s entries d) :
    (∃ count, s.Mirrors entries count d) ∧
      ∃ golden, d.checkpoints.head? = some golden.raw ∧ s.parse golden.raw = .ok golden := by
  induction followed with
  | first honest parsed ran =>
    have accepted := sync_ok lawful (mirrors_empty s entries).tilesOk ran
    exact ⟨(mirrors_empty s entries).step lawful honest ran, _, by rw [accepted.checkpoints]; rfl, parsed⟩
  | next _ honest parsed ran ih =>
    obtain ⟨⟨count, mirrors⟩, -⟩ := ih
    have accepted := sync_ok lawful mirrors.tilesOk ran
    exact ⟨mirrors.step lawful honest ran, _, by rw [accepted.checkpoints]; rfl, parsed⟩

end Follow

section Answers

variable {s : Service} (lawful : Compact.Lawful s.pkg) {entries : List Bytes} {count : Nat} {d : Database}
  {faults : ReadFaults} {c golden : Checkpoint} (mirrors : s.Mirrors entries count d)
  (newest : d.goldenCheckpoint s.parse none = .ok golden)

theorem goldenCheckpoint_unread (failed : faults.golden ≠ none) :
    ∃ reason, s.checkConsistencyOf faults c d = .failed reason := by
  obtain ⟨reason, fault⟩ := Option.ne_none_iff_exists'.mp failed
  unfold Service.checkConsistencyOf Database.goldenCheckpoint
  rw [fault]
  exact ⟨_, rfl⟩

include newest

-- The golden checkpoint itself is not looked at any further.
theorem answer_golden (read : faults.golden = none) (same : c.raw = golden.raw) :
    s.checkConsistencyOf faults c d = .consistent := by
  unfold Service.checkConsistencyOf
  rw [read, newest]
  exact if_pos same

theorem answer_other (read : faults.golden = none) (other : c.raw ≠ golden.raw) :
    s.checkConsistencyOf faults c d =
      match d.head faults.head with
      | .error reason => .failed (.wrap "cannot find head of local log: %w" reason)
      | .ok head =>
        if head < c.n then .checkpointTooFresh c.n head
        else
          match s.checkCheckpoint (s.localTile faults.tile d) c (fun _ => s.localStragglers faults.tile c d) with
          | .ok _ => .consistent
          | .error _ => .inconsistentCheckpoints golden c
          | .panic reason => .panicked reason := by
  unfold Service.checkConsistencyOf
  rw [read, newest]
  exact if_neg other

include mirrors

omit newest in
theorem head_mirrors (read : faults.head = none) (some' : 0 < count) :
    d.head faults.head = .ok (count * s.tileWidth - 1) := by
  have positive : 0 < count * s.tileWidth := Nat.mul_pos some' (width_pos s)
  have max := mirrors.leaves.max?
  rw [length_tiles mirrors.long, if_neg (by omega)] at max
  unfold Database.head
  rw [read, max]

-- Without a leaf there is no head.
theorem answer_headless (read : faults.golden = none) (other : c.raw ≠ golden.raw)
    (failed : faults.head ≠ none ∨ count = 0) : ∃ reason, s.checkConsistencyOf faults c d = .failed reason := by
  rw [answer_other newest read other]
  unfold Database.head
  cases fault : faults.head with
  | some reason => exact ⟨_, rfl⟩
  | none =>
    have empty : count = 0 := failed.resolve_left (by simp [fault])
    have max := mirrors.leaves.max?
    rw [length_tiles mirrors.long, empty, Nat.zero_mul, if_pos rfl] at max
    rw [max]
    exact ⟨_, rfl⟩

theorem answer_fresh (read : faults.golden = none) (other : c.raw ≠ golden.raw) (head : faults.head = none)
    (some' : 0 < count) (large : count * s.tileWidth ≤ c.n) :
    s.checkConsistencyOf faults c d = .checkpointTooFresh c.n (count * s.tileWidth - 1) := by
  have positive : 0 < count * s.tileWidth := Nat.mul_pos some' (width_pos s)
  rw [answer_other newest read other, head_mirrors mirrors head some']
  exact if_pos (by omega)

include lawful

theorem answer_checked (read : faults.golden = none) (other : c.raw ≠ golden.raw) (head : faults.head = none)
    (small : c.n < count * s.tileWidth) (clean : s.Clean c.n faults.tile) :
    s.checkConsistencyOf faults c d =
      if c.hash = s.treeRoot (entries.take c.n) then .consistent else .inconsistentCheckpoints golden c := by
  have some' : 0 < count := Nat.pos_of_mul_pos_right (Nat.zero_lt_of_lt small)
  rw [answer_other newest read other, head_mirrors mirrors head some']
  dsimp only
  rw [if_neg (by omega), localCheck_eq lawful mirrors.tilesOk (readable_inside clean mirrors.stored small),
    rows_holds mirrors.leaves mirrors.long (Nat.le_of_lt small)]
  by_cases same : c.hash = s.treeRoot (entries.take c.n)
  · rw [if_pos same.symm, if_pos same]
  · rw [if_neg (Ne.symm same), if_neg same]

-- A tile that cannot be read counts against the checkpoint.
theorem answer_unread (read : faults.golden = none) (other : c.raw ≠ golden.raw) (head : faults.head = none)
    (small : c.n < count * s.tileWidth) (faulty : ¬ s.Clean c.n faults.tile) :
    s.checkConsistencyOf faults c d = .inconsistentCheckpoints golden c := by
  have some' : 0 < count := Nat.pos_of_mul_pos_right (Nat.zero_lt_of_lt small)
  have unreadable : ¬ s.Readable d c.n faults.tile := fun readable =>
    faulty ⟨fun level o wanted => (readable.tiles level o wanted).1, fun more => (readable.last more).1⟩
  obtain ⟨reason, failed⟩ := localCheck_unread lawful mirrors.tilesOk unreadable
  rw [answer_other newest read other, head_mirrors mirrors head some']
  dsimp only
  rw [if_neg (by omega), failed]

end Answers

section Exact

variable {s : Service} (lawful : Compact.Lawful s.pkg) {entries : List Bytes} {count : Nat} {d : Database}
  {c golden : Checkpoint} (mirrors : s.Mirrors entries count d)
  (newest : d.goldenCheckpoint s.parse none = .ok golden)

-- Where nil and CheckpointTooFresh mean what they should.
def Service.AnswersExactly (s : Service) (d : Database) (golden c : Checkpoint) (leaves : List Bytes) : Prop :=
  (s.checkConsistencyOf .clean c d = .consistent ↔
    c.raw = golden.raw ∨ c.n ≤ leaves.length ∧ c.hash = s.treeRoot (leaves.take c.n)) ∧
  ((∃ requestedSize maxSize, s.checkConsistencyOf .clean c d = .checkpointTooFresh requestedSize maxSize) ↔
    c.raw ≠ golden.raw ∧ leaves.length < c.n)

-- Where InconsistentCheckpoints is not a false alarm.
def Service.AlarmsRightly (s : Service) (d : Database) (faults : ReadFaults) (c : Checkpoint) (leaves : List Bytes) :
    Prop :=
  ∀ a b, s.checkConsistencyOf faults c d = .inconsistentCheckpoints a b →
    c.n ≤ leaves.length ∧ c.hash ≠ s.treeRoot (leaves.take c.n)

include lawful mirrors newest

theorem answersExactly_iff (positive : 1 ≤ c.n) :
    s.AnswersExactly d golden c (entries.take (count * s.tileWidth)) ↔
      c.raw = golden.raw ∨ 0 < (entries.take (count * s.tileWidth)).length ∧
        c.n ≠ (entries.take (count * s.tileWidth)).length := by
  unfold Service.AnswersExactly
  rw [length_tiles mirrors.long]
  by_cases same : c.raw = golden.raw
  · have answer := @answer_golden s d .clean c golden newest rfl same
    simp [answer, same]
  have width := width_pos s
  rcases Nat.eq_zero_or_pos count with none | some'
  · obtain ⟨reason, answer⟩ := @answer_headless s entries count d .clean c golden mirrors newest rfl same (.inr none)
    have large : 0 < c.n := positive
    simp [answer, none, same, large]
  have full : 0 < count * s.tileWidth := Nat.mul_pos some' width
  rcases Nat.lt_or_ge c.n (count * s.tileWidth) with small | large
  · have answer := @answer_checked s lawful entries count d .clean c golden mirrors newest rfl same rfl small
      ⟨fun _ _ _ => rfl, fun _ => rfl⟩
    have taken : (entries.take (count * s.tileWidth)).take c.n = entries.take c.n := by
      rw [List.take_take, Nat.min_eq_left (Nat.le_of_lt small)]
    rw [answer, taken]
    by_cases root : c.hash = s.treeRoot (entries.take c.n)
    · simp [root, same]
      omega
    · simp [root, same]
      omega
  · have answer := @answer_fresh s entries count d .clean c golden mirrors newest rfl same rfl some' large
    simp [answer, same]
    omega

theorem alarmsRightly_iff (faults : ReadFaults) :
    s.AlarmsRightly d faults c (entries.take (count * s.tileWidth)) ↔
      faults.golden ≠ none ∨ c.raw = golden.raw ∨ faults.head ≠ none ∨
        (entries.take (count * s.tileWidth)).length ≤ c.n ∨
        c.hash ≠ s.treeRoot ((entries.take (count * s.tileWidth)).take c.n) ∨ s.Clean c.n faults.tile := by
  unfold Service.AlarmsRightly
  rw [length_tiles mirrors.long]
  by_cases read : faults.golden = none
  swap
  · obtain ⟨reason, answer⟩ := @goldenCheckpoint_unread s d faults c read
    simp [answer, read]
  by_cases same : c.raw = golden.raw
  · simp [answer_golden newest read same, same]
  by_cases head : faults.head = none ∧ count ≠ 0
  swap
  · have failed : faults.head ≠ none ∨ count = 0 := by
      rw [not_and_or, not_not] at head
      exact head
    obtain ⟨reason, answer⟩ := answer_headless mirrors newest read same failed
    rcases failed with failed | none
    · simp [answer, failed]
    · simp [answer, none]
  have some' : 0 < count := Nat.pos_of_ne_zero head.2
  rcases Nat.lt_or_ge c.n (count * s.tileWidth) with small | large
  · have taken : (entries.take (count * s.tileWidth)).take c.n = entries.take c.n := by
      rw [List.take_take, Nat.min_eq_left (Nat.le_of_lt small)]
    rw [taken]
    by_cases clean : s.Clean c.n faults.tile
    · rw [answer_checked lawful mirrors newest read same head.1 small clean]
      by_cases root : c.hash = s.treeRoot (entries.take c.n)
      · simp [root, clean]
      · simp [root, clean, Nat.le_of_lt small]
    · rw [answer_unread lawful mirrors newest read same head.1 small clean]
      simp [read, same, head.1, clean, small, Nat.le_of_lt small]
  · simp [answer_fresh mirrors newest read same head.1 some' large, large]

end Exact

/-- The answers of CheckConsistency are exact for the golden checkpoint, and for others when there are leaves and
the checkpoint is not over all of them. An alarm is right unless a tile could not be read. -/
theorem answers_exact_iff (s : Service) (lawful : Compact.Lawful s.pkg) (entries : List Bytes) (d : Database)
    (followed : Followed s entries d) :
    ∃ golden leaves, d.goldenCheckpoint s.parse none = .ok golden ∧ d.leaves.Holds leaves ∧
      ∀ c : Checkpoint, 1 ≤ c.n →
        (s.AnswersExactly d golden c leaves ↔
          c.raw = golden.raw ∨ 0 < leaves.length ∧ c.n ≠ leaves.length) ∧
        ∀ faults, s.AlarmsRightly d faults c leaves ↔
          faults.golden ≠ none ∨ c.raw = golden.raw ∨ faults.head ≠ none ∨ leaves.length ≤ c.n ∨
            c.hash ≠ s.treeRoot (leaves.take c.n) ∨ s.Clean c.n faults.tile := by
  obtain ⟨⟨count, mirrors⟩, golden, first, parsed⟩ := followed_mirrors lawful followed
  obtain ⟨older, listed⟩ : ∃ older, d.checkpoints = golden.raw :: older := List.head?_eq_some_iff.mp first
  have newest : d.goldenCheckpoint s.parse none = .ok golden := by
    unfold Database.goldenCheckpoint
    rw [listed]
    exact parsed
  exact ⟨golden, _, newest, mirrors.leaves, fun c positive =>
    ⟨answersExactly_iff lawful mirrors newest positive, alarmsRightly_iff lawful mirrors newest⟩⟩

section Pairs

-- Three records, of which the first two are stored.
def threeRecords : Database := (pairSync [1, 2, 3] (by decide) .empty).2

theorem threeRecords_followed : Followed pairs [[1, 10], [2, 10], [3, 10]] threeRecords := by
  have synced := @pair_syncs [1, 2, 3] (by decide) .empty (mirrors_empty pairs []).tilesOk (by decide +kernel)
    (by unfold Filled; decide +kernel)
  rw [show (pairSync [1, 2, 3] (by decide) .empty).1 = .ok () by decide +kernel] at synced
  exact .first pairs_honest rfl synced

theorem threeRecords_leaves : threeRecords.leaves.Holds [[1, 10], [2, 10]] := by
  obtain ⟨⟨count, mirrors⟩, -⟩ := followed_mirrors Compact.reference_lawful threeRecords_followed
  have stored : storedLeaves threeRecords = 2 := by decide +kernel
  have holds := mirrors.leaves
  rw [← mirrors.storedLeaves_eq, stored] at holds
  exact holds

theorem answers_exact_first :
    pairs.checkConsistencyOf .clean (pairNote [1] (by decide)) threeRecords = .consistent := by
  obtain ⟨golden, leaves, newest, holds, answers⟩ :=
    answers_exact_iff pairs Compact.reference_lawful _ _ threeRecords_followed
  obtain rfl := holds.unique threeRecords_leaves
  have exactly := (answers (pairNote [1] (by decide)) (by decide)).1.mpr (.inr ⟨by decide, by decide⟩)
  exact exactly.1.mpr (.inr ⟨by decide, rfl⟩)

/-- A checkpoint over all the stored leaves is taken for one over more. -/
theorem stored_too_fresh :
    Followed pairs [[1, 10], [2, 10], [3, 10]] threeRecords ∧ threeRecords.leaves.Holds [[1, 10], [2, 10]] ∧
      (pairNote [1, 2] (by decide)).hash = pairs.treeRoot [[1, 10], [2, 10]] ∧
      pairs.checkConsistencyOf .clean (pairNote [1, 2] (by decide)) threeRecords = .checkpointTooFresh 2 1 :=
  ⟨threeRecords_followed, threeRecords_leaves, rfl, by decide +kernel⟩

end Pairs

end Audit
