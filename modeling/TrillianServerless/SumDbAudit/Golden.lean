import TrillianServerless.SumDbAudit.Sync

set_option autoImplicit false

namespace Audit

open Go Sql Merkle Service

/-- The checkpoints of a run of Syncs that all succeed, the newest first. Sizes do not fall, and `Allowed` may
limit what a Sync is called with after the last one. -/
inductive Recorded (s : Service) (Allowed : Option Checkpoint → Server → Checkpoint → Prop) :
    Database → List Checkpoint → Prop
  | start : Recorded s Allowed .empty []
  | step {d d' : Database} {goldens : List Checkpoint} {server : Server} {cp : Checkpoint} :
      Recorded s Allowed d goldens → Allowed goldens.head? server cp → (∀ g ∈ goldens.head?, g.n ≤ cp.n) →
      s.parse cp.raw = .ok cp → s.Syncs server cp d (.returned (.ok ()) d') → Recorded s Allowed d' (cp :: goldens)

namespace Service

variable (s : Service)

-- One list of leaves has both roots.
def Consistent (a b : Checkpoint) : Prop :=
  ∃ leaves : List Bytes, a.n ≤ leaves.length ∧ b.n ≤ leaves.length ∧
    a.hash = s.treeRoot (leaves.take a.n) ∧ b.hash = s.treeRoot (leaves.take b.n)

/-- As many records come for an incomplete tile as were asked for, and a checkpoint after one with an
incomplete tile completes it or is the same again. -/
structure Checked (previous : Option Checkpoint) (server : Server) (cp : Checkpoint) : Prop where
  counted : 0 < cp.n % s.tileWidth → ∀ records,
    server.partialLeavesAtOffset (cp.n / s.tileWidth) (cp.n % s.tileWidth) = .ok records →
    records.length = cp.n % s.tileWidth
  completes : ∀ g ∈ previous, g.n % s.tileWidth = 0 ∨ g.n / s.tileWidth < cp.n / s.tileWidth ∨
    cp.n = g.n ∧ cp.hash = g.hash

-- What is known after the last checkpoint: older ones are in complete tiles, or are the same.
structure Settled (d : Database) (g : Checkpoint) (goldens : List Checkpoint) : Prop where
  tilesOk : s.TilesOk d
  filled : Filled d.leaves (g.n / s.tileWidth * s.tileWidth)
  parsed : s.parse g.raw = .ok g
  newest : d.checkpoints.head? = some g.raw
  root : ∃ records : List Bytes, records.length = g.n % s.tileWidth ∧
    g.hash = s.treeRoot (rows d.leaves (g.n / s.tileWidth * s.tileWidth) ++ records)
  older : ∀ a ∈ goldens, a.n ≤ g.n / s.tileWidth * s.tileWidth ∧ a.hash = s.treeRoot (rows d.leaves a.n) ∨
    a.n = g.n ∧ a.hash = g.hash

end Service

section Steps

variable {s : Service} (lawful : Compact.Lawful s.pkg) {server : Server} {cp g : Checkpoint} {d d' : Database}

include lawful in
theorem Accepted.records (accepted : Accepted s server cp d d')
    (counted : 0 < cp.n % s.tileWidth → ∀ records,
      server.partialLeavesAtOffset (cp.n / s.tileWidth) (cp.n % s.tileWidth) = .ok records →
      records.length = cp.n % s.tileWidth) :
    ∃ records : List Bytes, records.length = cp.n % s.tileWidth ∧
      cp.hash = s.treeRoot (rows d'.leaves (cp.n / s.tileWidth * s.tileWidth) ++ records) := by
  rcases Nat.eq_zero_or_pos (cp.n % s.tileWidth) with none | some'
  · refine ⟨[], none.symm, ?_⟩
    exact (@checkRootHash_records s d' cp server lawful accepted.tilesOk [] accepted.wanted (by omega) none.symm).mp
      accepted.root
  · obtain ⟨records, fetched⟩ := checkRootHash_fetched lawful accepted.tilesOk accepted.wanted accepted.root some'
    have length := counted some' records fetched
    exact ⟨records, length,
      (checkRootHash_records lawful accepted.tilesOk accepted.wanted (fun _ => fetched) length).mp accepted.root⟩

-- Once its tile is complete, a golden checkpoint is checked against the leaves.
include lawful in
theorem Accepted.golden (accepted : Accepted s server cp d d') (parsed : s.parse g.raw = .ok g)
    (newest : d.checkpoints.head? = some g.raw) (complete : g.n / s.tileWidth < cp.n / s.tileWidth) :
    g.hash = s.treeRoot (rows d'.leaves g.n) := by
  have width := width_pos s
  have sum := tiles_stop s g.n
  have less := Nat.mod_lt g.n width
  have tiles := Nat.mul_le_mul_right s.tileWidth (show g.n / s.tileWidth + 1 ≤ cp.n / s.tileWidth from complete)
  rw [Nat.succ_mul] at tiles
  obtain ⟨last, max, reaches, -⟩ :=
    Table.le_max? (accepted.filled (cp.n / s.tileWidth * s.tileWidth - 1) (by omega))
  have readable : s.Readable d' g.n fun _ _ => none :=
    readable_inside ⟨fun _ _ _ => rfl, fun _ => rfl⟩ (fun level o inside => accepted.stored level o
      (Nat.lt_of_lt_of_le inside (Nat.div_le_div_right (Nat.div_mul_le_self _ _)))) (by omega)
  have check := @localCheck_eq s d' g lawful accepted.tilesOk _ readable
  have consistent := accepted.consistent
  obtain ⟨older, listed⟩ : ∃ older, d.checkpoints = g.raw :: older := List.head?_eq_some_iff.mp newest
  unfold Service.checkConsistency Database.goldenCheckpoint Database.head at consistent
  simp only [listed, parsed, max] at consistent
  rw [if_neg (by omega), Outcome.wrap_eq_ok] at consistent
  have same := check.symm.trans consistent
  by_contra differs
  rw [if_neg (Ne.symm differs)] at same
  cases same

include lawful in
-- An older checkpoint stays in complete tiles, comes to be in them or is the new one.
theorem Service.Settled.stays {goldens : List Checkpoint} (settled : s.Settled d g goldens)
    (checked : s.Checked (some g) server cp) (larger : g.n ≤ cp.n) (accepted : Accepted s server cp d d')
    {a : Checkpoint} (member : a ∈ goldens) :
    a.n ≤ cp.n / s.tileWidth * s.tileWidth ∧ a.hash = s.treeRoot (rows d'.leaves a.n) ∨
      a.n = cp.n ∧ a.hash = cp.hash := by
  have tiles : g.n / s.tileWidth * s.tileWidth ≤ cp.n / s.tileWidth * s.tileWidth :=
    Nat.mul_le_mul_right _ (Nat.div_le_div_right larger)
  have sum := tiles_stop s g.n
  rcases settled.older a member with ⟨inside, root⟩ | ⟨size, root⟩
  · refine .inl ⟨by omega, ?_⟩
    rw [rows_extends (fun i below => settled.filled i (by omega)) accepted.leaves]
    exact root
  · rcases checked.completes g rfl with whole | complete | ⟨same, hash⟩
    · obtain ⟨records, length, root'⟩ := settled.root
      obtain rfl := List.eq_nil_of_length_eq_zero (length.trans whole)
      have reaches : g.n / s.tileWidth * s.tileWidth = a.n := by omega
      rw [List.append_nil, reaches] at root'
      refine .inl ⟨by omega, ?_⟩
      rw [rows_extends (fun i below => settled.filled i (by omega)) accepted.leaves, root, root']
    · have less := Nat.mod_lt g.n (width_pos s)
      have next := Nat.mul_le_mul_right s.tileWidth (show g.n / s.tileWidth + 1 ≤ cp.n / s.tileWidth from complete)
      rw [Nat.succ_mul] at next
      refine .inl ⟨by omega, ?_⟩
      rw [root, size]
      exact accepted.golden lawful settled.parsed settled.newest complete
    · exact .inr ⟨size.trans same.symm, root.trans hash.symm⟩

end Steps

section History

variable {s : Service} {d : Database} {goldens : List Checkpoint}

theorem recorded_tilesOk {Allowed : Option Checkpoint → Server → Checkpoint → Prop} (lawful : Compact.Lawful s.pkg)
    (run : Recorded s Allowed d goldens) : s.TilesOk d := by
  induction run with
  | start => exact tilesOk_empty s
  | step _ _ _ _ ran ih => exact (sync_ok lawful ih ran).tilesOk

theorem recorded_settled (lawful : Compact.Lawful s.pkg) (run : Recorded s s.Checked d goldens) :
    ∀ g ∈ goldens.head?, s.Settled d g goldens := by
  induction run with
  | start =>
    rintro g newest
    cases newest
  | @step d d' goldens server cp before checked larger parsed ran newest =>
    have accepted := sync_ok lawful (recorded_tilesOk lawful before) ran
    intro g first
    obtain rfl : cp = g := Option.some.inj first
    refine ⟨accepted.tilesOk, accepted.filled, parsed, by rw [accepted.checkpoints]; rfl,
      accepted.records lawful checked.counted, fun a member => ?_⟩
    rcases List.mem_cons.mp member with rfl | member
    · exact .inr ⟨rfl, rfl⟩
    · cases goldens with
      | nil => cases member
      | cons g older => exact (newest g rfl).stays lawful checked (larger g rfl) accepted member

-- Every golden checkpoint is over the first leaves of the newest.
theorem Service.Settled.root_take {g a : Checkpoint} (settled : s.Settled d g goldens) {records : List Bytes}
    (length : records.length = g.n % s.tileWidth)
    (root : g.hash = s.treeRoot (rows d.leaves (g.n / s.tileWidth * s.tileWidth) ++ records)) (member : a ∈ goldens) :
    a.n ≤ (rows d.leaves (g.n / s.tileWidth * s.tileWidth) ++ records).length ∧
      a.hash = s.treeRoot ((rows d.leaves (g.n / s.tileWidth * s.tileWidth) ++ records).take a.n) := by
  have sum := tiles_stop s g.n
  have whole : (rows d.leaves (g.n / s.tileWidth * s.tileWidth) ++ records).length = g.n := by
    rw [List.length_append, length_rows, length, sum]
  rw [whole]
  rcases settled.older a member with ⟨inside, older⟩ | ⟨size, same⟩
  · refine ⟨by omega, ?_⟩
    rw [List.take_append_of_le_length (by rw [length_rows]; exact inside), take_rows _ inside]
    exact older
  · refine ⟨by omega, ?_⟩
    rw [List.take_of_length_le (by omega), same]
    exact root

/-- The golden checkpoints of a run are all consistent with each other. -/
theorem goldens_consistent (s : Service) (lawful : Compact.Lawful s.pkg) (d : Database) (goldens : List Checkpoint)
    (run : Recorded s s.Checked d goldens) : ∀ a ∈ goldens, ∀ b ∈ goldens, s.Consistent a b := by
  intro a first b second
  have newest := recorded_settled lawful run
  cases goldens with
  | nil => cases first
  | cons g older =>
    have settled := newest g rfl
    obtain ⟨records, length, root⟩ := settled.root
    obtain ⟨inside, root_a⟩ := settled.root_take length root first
    obtain ⟨inside', root_b⟩ := settled.root_take length root second
    exact ⟨_, inside, inside', root_a, root_b⟩

end History

section Pairs

theorem pair_step {Allowed : Option Checkpoint → Server → Checkpoint → Prop} {d : Database}
    {goldens : List Checkpoint} {records : Bytes} {few : records.length < 2 ^ 63}
    (run : Recorded pairs Allowed d goldens)
    (allowed : Allowed goldens.head? (pairServer records) (pairNote records few))
    (larger : ∀ g ∈ goldens.head?, g.n ≤ records.length)
    (cloned : (pairs.cloneLeafTiles (pairServer records) (pairNote records few) d).1 = .ok ())
    (filled : Filled (pairs.cloneLeafTiles (pairServer records) (pairNote records few) d).2.leaves
      (records.length / 2 * 2)) (ran : (pairSync records few d).1 = .ok ()) :
    Recorded pairs Allowed (pairSync records few d).2 (pairNote records few :: goldens) := by
  have synced := pair_syncs (recorded_tilesOk Compact.reference_lawful run) cloned filled
  rw [ran] at synced
  exact .step run allowed larger (dif_pos few) synced

-- The tile of the third record is completed by the fourth.
theorem goldens_consistent_completed :
    pairs.Consistent (pairNote [1, 2, 3, 4] (by decide)) (pairNote [1, 2, 3] (by decide)) := by
  have first : Recorded pairs pairs.Checked (pairSync [1, 2, 3] (by decide) .empty).2
    [pairNote [1, 2, 3] (by decide)] := by
    refine pair_step .start ⟨?_, ?_⟩ ?_ (by decide +kernel) (by unfold Filled; decide +kernel)
      (by decide +kernel)
    · rintro - records fetched
      cases fetched
      decide
    · rintro g newest
      cases newest
    · rintro g newest
      cases newest
  have second := @pair_step _ _ _ [1, 2, 3, 4] (by decide) first ⟨fun some' => absurd some' (by decide), by
    rintro g newest
    cases newest
    exact .inr (.inl (by decide))⟩ (by
      rintro g newest
      cases newest
      decide) (by decide +kernel) (by unfold Filled; decide +kernel) (by decide +kernel)
  exact goldens_consistent pairs Compact.reference_lawful _ _ second _ (by simp) _ (by simp)

/-- Two checkpoints that differ in the incomplete tile are both accepted. -/
theorem fork_recorded :
    Recorded pairs (fun _ _ _ => True) (pairSync [1, 2, 4] (by decide) (pairSync [1, 2, 3] (by decide) .empty).2).2
        [pairNote [1, 2, 4] (by decide), pairNote [1, 2, 3] (by decide)] ∧
      ¬ pairs.Consistent (pairNote [1, 2, 4] (by decide)) (pairNote [1, 2, 3] (by decide)) := by
  constructor
  · have first := @pair_step (fun _ _ _ => True) _ _ [1, 2, 3] (by decide) .start trivial (by
      rintro g newest
      cases newest) (by decide +kernel) (by unfold Filled; decide +kernel) (by decide +kernel)
    refine pair_step first trivial ?_ (by decide +kernel) (by unfold Filled; decide +kernel)
      (by decide +kernel)
    rintro g newest
    cases newest
    decide
  · rintro ⟨leaves, -, -, first, second⟩
    exact absurd (first.trans second.symm) (by decide +kernel)

end Pairs

end Audit
