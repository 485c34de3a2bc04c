import TrillianServerless.SumDbAudit.PipelineSound

set_option autoImplicit false

namespace Audit

open Go Sql Merkle Service Runs

section Growth

-- Rows are added and never changed.
def Extends (t t' : Table Bytes) : Prop := ∀ i, t.row i ≠ none → t'.row i = t.row i

theorem Extends.refl (t : Table Bytes) : Extends t t := fun _ _ => rfl

theorem Extends.trans {t t' t'' : Table Bytes} (first : Extends t t') (second : Extends t' t'') : Extends t t'' := by
  intro i present
  have same := first i present
  rw [second i (same ▸ present), same]

theorem extends_insertAll (t : Table Bytes) (fails : Nat → Bool) (i : Nat) (rows : List (Nat × Bytes)) :
    Extends t (t.insertAll fails i rows) := by
  induction rows generalizing i t with
  | nil => exact .refl t
  | cons r rest ih =>
    refine Extends.trans (fun id present => ?_) (ih (t.insert (fails i) r.1 r.2) (i + 1))
    rw [Table.insert_row, if_neg]
    rintro ⟨rfl, -, free⟩
    exact present free

theorem Service.Filled.extends {t t' : Table Bytes} {stop : Nat} (filled : Filled t stop) (extends' : Extends t t') :
    Filled t' stop := by
  intro i below
  rw [extends' i (filled i below)]
  exact filled i below

variable {s : Service} {d d' : Database}

theorem Service.TilesOk.extends (ok : s.TilesOk d) (tiles : d'.tiles = d.tiles)
    (extends' : Extends d.leaves d'.leaves) :
    s.TilesOk d' := by
  intro level offset blob found
  rw [tiles] at found
  obtain ⟨covered, rfl⟩ := ok level offset blob found
  refine ⟨fun i lower upper => ?_, ?_⟩
  · rw [extends' i (covered i lower upper)]
    exact covered i lower upper
  · congr 1
    refine List.map_congr_left fun i member => ?_
    rw [List.mem_range'_1] at member
    refine nodeAt_congr s.hash fun j lower upper => ?_
    have unit := unit_span (s := s) level
    have inside : d.leaves.row j ≠ none := by
      refine covered j ?_ ?_
      · rw [unit, ← Nat.mul_assoc]
        exact Nat.le_trans (Nat.mul_le_mul_right _ member.1) lower
      · rw [unit, ← Nat.mul_assoc, Nat.succ_mul]
        exact Nat.lt_of_lt_of_le upper (Nat.mul_le_mul_right _ (by omega))
    simp only [Service.leafHash, extends' j inside]

theorem tilesOk_empty (s : Service) : s.TilesOk .empty := nofun

end Growth

section Clone

variable {s : Service} {server : Server} {cp : Checkpoint} {d d' : Database}

-- Only leaves are added.
structure Cloned (d d' : Database) : Prop where
  leaves : Extends d.leaves d'.leaves
  tiles : d'.tiles = d.tiles
  checkpoints : d'.checkpoints = d.checkpoints

theorem Cloned.refl (d : Database) : Cloned d d := ⟨.refl _, rfl, rfl⟩

theorem Cloned.trans {d'' : Database} (first : Cloned d d') (second : Cloned d' d'') : Cloned d d'' :=
  ⟨first.leaves.trans second.leaves, second.tiles.trans first.tiles, second.checkpoints.trans first.checkpoints⟩

theorem cloned_insert (d : Database) (more : List (Nat × Bytes)) :
    Cloned d { d with leaves := d.leaves.insertAll (fun _ => false) 0 more } := ⟨extends_insertAll _ _ _ _, rfl, rfl⟩

theorem cloneTile_ok {offset : Nat} {leaves : List Bytes} (fetched : server.fullLeavesAtOffset offset = .ok leaves) :
    s.cloneTile server offset d =
      (.ok (), { d with
        leaves := d.leaves.insertAll (fun _ => false) 0 (Table.counted (offset * s.tileWidth) leaves) }) := by
  unfold Service.cloneTile
  rw [fetched]
  rfl

theorem cloneTile_error {offset : Nat} {reason : GoError}
    (failed : server.fullLeavesAtOffset offset = .error reason) :
    s.cloneTile server offset d = (.error reason, d) := by
  unfold Service.cloneTile
  rw [failed]

-- How many leaves are counted as stored.
def storedLeaves (d : Database) : Nat :=
  match d.leaves.max? with
  | none => 0
  | some head => head + 1

-- The offsets of the tiles that are asked for.
def Service.requested (s : Service) (cp : Checkpoint) (d : Database) : List Nat :=
  List.range' (storedLeaves d / s.tileWidth) ((cp.n - storedLeaves d) / s.tileWidth)

theorem localLeaves_eq (d : Database) : localLeaves d = .ok (storedLeaves d) := by
  unfold localLeaves Database.head storedLeaves
  cases d.leaves.max? with
  | none => simp
  | some head => rfl

theorem cloneLeafTiles_eq (server : Server) (cp : Checkpoint) (d : Database) :
    s.cloneLeafTiles server cp d =
      if cp.n + 1 < storedLeaves d then
        (.error (.text "illegal state; more leaves locally (%d) than in SumDB (%d)"), d)
      else (Eff.each (s.cloneTile server) (s.requested cp d) >>= fun _ => pure ()) d := by
  unfold Service.cloneLeafTiles
  rw [localLeaves_eq]
  rfl

-- A leaf that comes with one of the tiles.
def Service.Fetched (s : Service) (server : Server) (cp : Checkpoint) (d : Database) (i : Nat) : Prop :=
  ∃ o ∈ s.requested cp d, ∃ records, server.fullLeavesAtOffset o = .ok records ∧
    i ∈ (Table.counted (o * s.tileWidth) records).map Prod.fst

/-- The checkpoint is not behind the stored leaves, and all tiles that are asked for come. -/
def Service.Served (s : Service) (server : Server) (cp : Checkpoint) (d : Database) : Prop :=
  storedLeaves d ≤ cp.n + 1 ∧ ∀ o ∈ s.requested cp d, ∃ records, server.fullLeavesAtOffset o = .ok records

/-- Tiles are fetched up to the first that cannot be, and their leaves are stored with those that were there. -/
theorem cloneLeafTiles_outcome (server : Server) (cp : Checkpoint) (d : Database) :
    ∃ d', Cloned d d' ∧
      ((s.Served server cp d ∧ s.cloneLeafTiles server cp d = (.ok (), d') ∧
          ∀ i, d'.leaves.row i ≠ none ↔ d.leaves.row i ≠ none ∨ s.Fetched server cp d i) ∨
        ¬ s.Served server cp d ∧ ∃ reason, s.cloneLeafTiles server cp d = (.error reason, d')) := by
  rw [cloneLeafTiles_eq]
  by_cases ahead : cp.n + 1 < storedLeaves d
  · rw [if_pos ahead]
    exact ⟨d, .refl d, .inr ⟨fun served => absurd served.1 (by omega), _, rfl⟩⟩
  rw [if_neg ahead]
  obtain ⟨d', only, later, ⟨all, ran, stored⟩ | ⟨⟨o, member, failed⟩, reason, ran⟩⟩ :=
    @Eff.each_outcome _ _ _ (fun now => ∀ i, now.leaves.row i ≠ none → d.leaves.row i ≠ none ∨ s.Fetched server cp d i)
      Cloned .refl .trans (fun offset => ∃ leaves, server.fullLeavesAtOffset offset = .ok leaves)
      (fun offset now => ∀ leaves, server.fullLeavesAtOffset offset = .ok leaves →
        ∀ i ∈ (Table.counted (offset * s.tileWidth) leaves).map Prod.fst, now.leaves.row i ≠ none)
      (fun done cloned leaves fetched i listed => by
        rw [cloned.leaves i (done leaves fetched i listed)]
        exact done leaves fetched i listed)
      (s.cloneTile server) (fun _ => ()) (s.requested cp d) (by
        intro offset member now held
        cases fetched : server.fullLeavesAtOffset offset with
        | ok leaves =>
          refine ⟨_, fun i present => ?_, cloned_insert now _, .inl ⟨⟨leaves, rfl⟩, cloneTile_ok fetched, ?_⟩⟩
          · rcases (Table.insertAll_present _ _).mp present with before | listed
            · exact held i before
            · exact .inr ⟨offset, member, leaves, fetched, listed⟩
          · intro leaves' same i listed
            obtain rfl := Except.ok.inj same
            exact (Table.insertAll_present _ _).mpr (.inr listed)
        | error reason => exact ⟨now, held, .refl now, .inr ⟨by simp, reason, cloneTile_error fetched⟩⟩)
      d fun _ present => .inl present
  · refine ⟨d', later, .inl ⟨⟨by omega, all⟩, by rw [Eff.bind_of_ok ran]; rfl, fun i => ⟨only i, ?_⟩⟩⟩
    rintro (before | ⟨o, member, leaves, fetched, listed⟩)
    · rw [later.leaves i before]
      exact before
    · exact stored o member leaves fetched i listed
  · exact ⟨d', later, .inr ⟨fun served => failed (served.2 o member), reason, by rw [Eff.bind_of_error ran]⟩⟩

end Clone

section Calls

variable {s : Service} {server : Server} {cp : Checkpoint} {d d1 d' : Database} {call call' : SyncCall} {p : Pipeline}

-- Leaves are added and no panic comes from it.
theorem cloneLeafTiles_cloned {result : Outcome Unit} (ran : s.cloneLeafTiles server cp d = (result, d')) :
    Cloned d d' ∧ ∀ reason, result ≠ .panic reason := by
  obtain ⟨d1, cloned, ⟨-, same, -⟩ | ⟨-, failed, same⟩⟩ := cloneLeafTiles_outcome (s := s) server cp d
  · rw [ran] at same
    obtain ⟨rfl, rfl⟩ := Prod.mk.inj same
    exact ⟨cloned, nofun⟩
  · rw [ran] at same
    obtain ⟨rfl, rfl⟩ := Prod.mk.inj same
    exact ⟨cloned, nofun⟩

/-- A call of Sync, over a database that works, comes to this under some schedule. -/
def Service.Syncs (s : Service) (server : Server) (cp : Checkpoint) (d : Database) (call : SyncCall) : Prop :=
  Reaches (s.SyncStep server cp) SyncEvent.Clean (.cloning d) call

/-- However its goroutines are scheduled, a call of Sync returns, and returns like this. -/
structure Service.Ends (s : Service) (server : Server) (cp : Checkpoint) (d : Database)
    (Good : Outcome Unit → Database → Prop) : Prop where
  finite : ∀ run : Nat → SyncCall, run 0 = .cloning d →
    ¬ ∀ i, ∃ e, SyncEvent.Clean e ∧ s.SyncStep server cp (run i) e (run (i + 1))
  returns : ∀ call, s.Syncs server cp d call → Stuck (s.SyncStep server cp) SyncEvent.Clean call →
    ∃ result d', call = .returned result d' ∧ Good result d'

theorem syncStep_cases {e : SyncEvent} (stepped : s.SyncStep server cp call e call') :
    (∃ d, call = .cloning d ∧
      ((∃ d', s.cloneLeafTiles server cp d = (.ok (), d') ∧ call' = .hashing (.init d')) ∨
        ∃ reason d', s.cloneLeafTiles server cp d = (.error reason, d') ∧
          call' = .returned (.error (.wrap "cloneLeafTiles: %w" reason)) d')) ∨
    (∃ p e' p', call = .hashing p ∧ e = .hash e' ∧ s.PipelineStep cp.n p e' p' ∧ call' = .hashing p') ∨
    ∃ p hashed, call = .hashing p ∧ p.returned = some hashed ∧
      call' = .returned (s.finishSync server cp hashed p.db).1 (s.finishSync server cp hashed p.db).2 := by
  unfold Service.SyncStep Service.sync at stepped
  split at stepped
  next d =>
    refine .inl ⟨d, rfl, ?_⟩
    cases ran : s.cloneLeafTiles server cp d with
    | mk result d' =>
      rw [Eff.wrap_run, ran] at stepped
      cases result with
      | ok =>
        cases stepped
        exact .inl ⟨d', rfl, rfl⟩
      | error reason =>
        cases stepped
        exact .inr ⟨reason, d', rfl, rfl⟩
      | panic reason => exact absurd rfl ((cloneLeafTiles_cloned ran).2 reason)
  next p e =>
    obtain ⟨p', worked, rfl⟩ := Option.map_eq_some_iff.mp stepped
    exact .inr (.inl ⟨p, e, p', rfl, rfl, worked, rfl⟩)
  next p =>
    split at stepped
    next => cases stepped
    next hashed back =>
      cases stepped
      exact .inr (.inr ⟨p, hashed, rfl, back, rfl⟩)
  next => cases stepped

/-- How far a call of Sync can have got. -/
theorem syncs_cases (reached : s.Syncs server cp d call) :
    call = .cloning d ∨
    (∃ reason d1, s.cloneLeafTiles server cp d = (.error reason, d1) ∧
      call = .returned (.error (.wrap "cloneLeafTiles: %w" reason)) d1) ∨
    ∃ d1 p, s.cloneLeafTiles server cp d = (.ok (), d1) ∧
      Reaches (s.PipelineStep cp.n) PipelineEvent.Clean (.init d1) p ∧
      (call = .hashing p ∨ ∃ hashed, p.returned = some hashed ∧
        call = .returned (s.finishSync server cp hashed p.db).1 (s.finishSync server cp hashed p.db).2) := by
  induction reached with
  | refl => exact .inl rfl
  | step _ clean stepped ih =>
    refine .inr ?_
    rcases syncStep_cases stepped with ⟨d0, rfl, next⟩ | ⟨p, e, p', rfl, rfl, worked, rfl⟩ | ⟨p, hashed, rfl, back, rfl⟩
    · obtain rfl : d0 = d := by
        rcases ih with same | ⟨reason, d1, -, other⟩ | ⟨d1, p, -, -, other | ⟨hashed, -, other⟩⟩
        · exact SyncCall.cloning.inj same
        all_goals cases other
      rcases next with ⟨d1, cloned, rfl⟩ | ⟨reason, d1, failed, rfl⟩
      · exact .inr ⟨d1, .init d1, cloned, .refl, .inl rfl⟩
      · exact .inl ⟨reason, d1, failed, rfl⟩
    · rcases ih with other | ⟨reason, d1, -, other⟩ | ⟨d1, q, cloned, hashing, same | ⟨hashed, -, other⟩⟩
      · cases other
      · cases other
      · obtain rfl := SyncCall.hashing.inj same
        exact .inr ⟨d1, p', cloned, hashing.step clean worked, .inl rfl⟩
      · cases other
    · rcases ih with other | ⟨reason, d1, -, other⟩ | ⟨d1, q, cloned, hashing, same | ⟨hashed, -, other⟩⟩
      · cases other
      · cases other
      · obtain rfl := SyncCall.hashing.inj same
        exact .inr ⟨d1, p, cloned, hashing, .inr ⟨hashed, back, rfl⟩⟩
      · cases other

theorem syncs_hashing (cloned : s.cloneLeafTiles server cp d = (.ok (), d1))
    (reached : Reaches (s.PipelineStep cp.n) PipelineEvent.Clean (.init d1) p) :
    s.Syncs server cp d (.hashing p) := by
  induction reached with
  | refl =>
    refine .step .refl (e := .clone) trivial ?_
    simp only [Service.SyncStep, Service.sync, Eff.wrap_run, cloned]
    rfl
  | @step p p' e _ clean worked ih =>
    refine .step ih (e := .hash e) clean ?_
    simp only [Service.SyncStep, Service.sync]
    exact Option.map_eq_some_iff.mpr ⟨p', worked, rfl⟩

theorem check_step {hashed : Outcome Unit} (back : p.returned = some hashed) :
    s.SyncStep server cp (.hashing p) .check
      (.returned (s.finishSync server cp hashed p.db).1 (s.finishSync server cp hashed p.db).2) := by
  simp only [Service.SyncStep, Service.sync, back]

theorem returned_stuck {result : Outcome Unit} :
    Stuck (s.SyncStep server cp) SyncEvent.Clean (.returned result d) := by
  intro e call _ stepped
  rcases syncStep_cases stepped with ⟨_, other, -⟩ | ⟨_, _, _, other, -⟩ | ⟨_, _, other, -⟩
  all_goals cases other

-- How many steps a call of Sync can still make.
def Service.syncLeft (s : Service) (n : Nat) : SyncCall → Nat
  | .cloning d => s.pipelineLeft n (.init d) + 2
  | .hashing p => s.pipelineLeft n p + 1
  | .returned _ _ => 0

-- The goroutines of a call are where they can be.
def Service.SyncShape (s : Service) (n : Nat) : SyncCall → Prop
  | .hashing p => p.started ≤ s.goroutines n ∧ ∀ level, s.Shape n level (p.stage level)
  | .cloning _ | .returned _ _ => True

theorem sync_lowers {e : SyncEvent} (shape : s.SyncShape cp.n call) (stepped : s.SyncStep server cp call e call') :
    s.SyncShape cp.n call' ∧ s.syncLeft cp.n call' < s.syncLeft cp.n call := by
  rcases syncStep_cases stepped with ⟨d, rfl, ⟨d', -, rfl⟩ | ⟨reason, d', -, rfl⟩⟩ | ⟨p, e, p', rfl, -, worked, rfl⟩ |
    ⟨p, hashed, rfl, -, rfl⟩
  · exact ⟨⟨Nat.zero_le _, fun _ => Nat.zero_le _⟩, Nat.lt_succ_self _⟩
  · exact ⟨trivial, Nat.succ_pos _⟩
  · exact ⟨shapes_step shape worked, Nat.succ_lt_succ (step_lowers shape.1 shape.2 worked)⟩
  · exact ⟨trivial, Nat.succ_pos _⟩

/-- A call returns under every schedule if hashTiles does, should it come to that. -/
theorem ends_of {Good : Outcome Unit → Database → Prop}
    (hashing : ∀ d1 p, s.cloneLeafTiles server cp d = (.ok (), d1) →
      Reaches (s.PipelineStep cp.n) PipelineEvent.Clean (.init d1) p →
      Stuck (s.PipelineStep cp.n) PipelineEvent.Clean p → p.returned ≠ none)
    (good : ∀ result d', s.Syncs server cp d (.returned result d') → Good result d') : s.Ends server cp d Good where
  finite run start := by
    refine no_endless_run (Nat.lt_wfRel.wf) (s.SyncShape cp.n) (s.syncLeft cp.n) ?_ run ?_
    · exact fun _ stepped shape => sync_lowers shape stepped
    · rw [start]
      trivial
  returns call reached stuck := by
    rcases syncs_cases reached with rfl | ⟨reason, d1, -, rfl⟩ | ⟨d1, p, cloned, steps, rfl | ⟨hashed, -, rfl⟩⟩
    · -- The leaves can be cloned, with whatever result.
      cases ran : s.cloneLeafTiles server cp d with
      | mk result d1 =>
        cases result with
        | ok =>
          refine absurd ?_ (stuck .clone (.hashing (.init d1)) trivial)
          simp only [Service.SyncStep, Service.sync, Eff.wrap_run, ran]
          rfl
        | error reason =>
          refine absurd ?_ (stuck .clone (.returned (.error (.wrap "cloneLeafTiles: %w" reason)) d1) trivial)
          simp only [Service.SyncStep, Service.sync, Eff.wrap_run, ran]
          rfl
        | panic reason => exact absurd rfl ((cloneLeafTiles_cloned ran).2 reason)
    · exact ⟨_, _, rfl, good _ _ reached⟩
    · have back : p.returned ≠ none := hashing d1 p cloned steps fun e p' clean worked =>
        stuck (.hash e) (.hashing p') clean (Option.map_eq_some_iff.mpr ⟨p', worked, rfl⟩)
      obtain ⟨hashed, returned⟩ := Option.ne_none_iff_exists'.mp back
      exact absurd (check_step returned) (stuck .check _ trivial)
    · exact ⟨_, _, rfl, good _ _ reached⟩

theorem Service.Ends.imp {Good Better : Outcome Unit → Database → Prop} (ends : s.Ends server cp d Good)
    (better : ∀ result d', s.Syncs server cp d (.returned result d') → Good result d' → Better result d') :
    s.Ends server cp d Better where
  finite := ends.finite
  returns call reached stuck := by
    obtain ⟨result, d', rfl, good⟩ := ends.returns call reached stuck
    exact ⟨result, d', rfl, better result d' reached good⟩

theorem finishSync_ok {hashed : Outcome Unit} :
    s.finishSync server cp hashed d = (.ok (), d') ↔
      hashed = .ok () ∧ s.checkConsistency d = .ok () ∧ s.checkRootHash server cp d = .ok () ∧
        d' = { d with checkpoints := cp.raw :: d.checkpoints } := by
  unfold Service.finishSync
  constructor
  · intro ran
    obtain ⟨_, d1, lifted, ran⟩ := Eff.bind_eq_ok.mp ran
    obtain ⟨_, d2, checked, ran⟩ := Eff.bind_eq_ok.mp ran
    obtain ⟨_, d3, compared, ran⟩ := Eff.bind_eq_ok.mp ran
    obtain ⟨rfl, rfl⟩ := Prod.mk.inj (Eff.wrap_eq_ok.mp lifted)
    obtain ⟨consistent, rfl⟩ := Prod.mk.inj (Eff.wrap_eq_ok.mp checked)
    obtain ⟨root, rfl⟩ := Prod.mk.inj (Eff.wrap_eq_ok.mp compared)
    exact ⟨rfl, consistent, root, (Prod.mk.inj ran).2.symm⟩
  · rintro ⟨rfl, consistent, root, rfl⟩
    have checked : Eff.wrap "checkConsistency: %w" (fun d => (s.checkConsistency d, d)) d = (.ok (), d) :=
      Eff.wrap_eq_ok.mpr (Prod.ext consistent rfl)
    have compared : Eff.wrap "checkRootHash: %w" (fun d => (s.checkRootHash server cp d, d)) d = (.ok (), d) :=
      Eff.wrap_eq_ok.mpr (Prod.ext root rfl)
    exact (Eff.bind_of_ok checked).trans (Eff.bind_of_ok compared)

/-- A call that finds or clones all leaves of complete tiles gets to its checks. -/
theorem syncs_finish (lawful : Compact.Lawful s.pkg) (ok : s.TilesOk d)
    (cloned : s.cloneLeafTiles server cp d = (.ok (), d1))
    (filled : Filled d1.leaves (cp.n / s.tileWidth * s.tileWidth)) :
    s.Syncs server cp d (.returned (s.finishSync server cp (.ok ()) (s.hashed d1 cp.n)).1
      (s.finishSync server cp (.ok ()) (s.hashed d1 cp.n)).2) := by
  have first := (cloneLeafTiles_cloned cloned).1
  obtain ⟨p, reached, back, db⟩ := hashing_ok lawful (ok.extends first.tiles first.leaves) filled
  rw [← db]
  exact (syncs_hashing cloned reached).step (e := .check) trivial (check_step back)

-- and there is no other way for it to go.
theorem ends_finish (lawful : Compact.Lawful s.pkg) (ok : s.TilesOk d)
    (cloned : s.cloneLeafTiles server cp d = (.ok (), d1))
    (filled : Filled d1.leaves (cp.n / s.tileWidth * s.tileWidth)) {Good : Outcome Unit → Database → Prop}
    (good : Good (s.finishSync server cp (.ok ()) (s.hashed d1 cp.n)).1
      (s.finishSync server cp (.ok ()) (s.hashed d1 cp.n)).2) : s.Ends server cp d Good := by
  have first := (cloneLeafTiles_cloned cloned).1
  have kept := ok.extends first.tiles first.leaves
  refine ends_of (fun d2 p cloned' => ?_) fun result d' ran => ?_
  · obtain rfl := (Prod.mk.inj (cloned.symm.trans cloned')).2
    exact (hashing_returns_iff lawful kept).mpr (rooted_of_filled filled) p
  · obtain other | ⟨reason, d2, failed, -⟩ | ⟨d2, p, cloned', steps, other | ⟨hashed, back, last⟩⟩ := syncs_cases ran
    · cases other
    · cases (Prod.mk.inj (cloned.symm.trans failed)).1
    · cases other
    · obtain rfl := (Prod.mk.inj (cloned.symm.trans cloned')).2
      obtain ⟨rfl, rfl⟩ := SyncCall.returned.inj last
      obtain ⟨rfl, -, db⟩ | ⟨short, -⟩ := hashing_outcome lawful kept steps back
      · rw [db]
        exact good
      · exact absurd filled short

end Calls

section Accept

variable {s : Service} {server : Server} {cp : Checkpoint} {d d' : Database}

/-- What a Sync that succeeds has done. -/
structure Accepted (s : Service) (server : Server) (cp : Checkpoint) (d d' : Database) : Prop where
  leaves : Extends d.leaves d'.leaves
  cloned : ∃ d1, s.cloneLeafTiles server cp d = (.ok (), d1) ∧ d'.leaves = d1.leaves
  tilesOk : s.TilesOk d'
  kept : ∀ level o, d.tiles s.height level o ≠ none → d'.tiles s.height level o ≠ none
  filled : Filled d'.leaves (cp.n / s.tileWidth * s.tileWidth)
  stored : ∀ level, ∀ o < cp.n / s.span level, d'.tiles s.height level o ≠ none
  consistent : s.checkConsistency { d' with checkpoints := d.checkpoints } = .ok ()
  root : s.checkRootHash server cp d' = .ok ()
  checkpoints : d'.checkpoints = cp.raw :: d.checkpoints

theorem sync_ok (lawful : Compact.Lawful s.pkg) (ok : s.TilesOk d)
    (ran : s.Syncs server cp d (.returned (.ok ()) d')) : Accepted s server cp d d' := by
  obtain other | ⟨reason, d1, -, other⟩ | ⟨d1, p, cloned, steps, other | ⟨hashed, back, last⟩⟩ := syncs_cases ran
  · cases other
  · cases other
  · cases other
  obtain ⟨nil, final⟩ := SyncCall.returned.inj last
  obtain ⟨rfl, consistent, root, rfl⟩ := finishSync_ok.mp (Prod.ext nil.symm final.symm)
  have first := (cloneLeafTiles_cloned cloned).1
  have kept := ok.extends first.tiles first.leaves
  obtain ⟨-, filled, db⟩ | ⟨-, reason, failed⟩ := hashing_outcome lawful kept steps back
  · rw [db] at consistent root ⊢
    obtain ⟨kept', later, stored⟩ := hashed_spec kept filled
    refine ⟨first.leaves, ⟨d1, cloned, rfl⟩, kept', fun level o present => ?_, filled, stored, ?_, root, ?_⟩
    · rw [← first.tiles] at present
      exact later level o present
    · rw [← first.checkpoints]
      exact consistent
    · exact congrArg _ first.checkpoints
  · cases failed

theorem Accepted.wanted (accepted : Accepted s server cp d d') (level o : Nat) (wanted : s.Wanted cp.n level o) :
    d'.tiles s.height level o ≠ none := accepted.stored level o wanted.2

end Accept

section Roots

variable (s : Service)

/-- The hash of a tree as tlog has it, which is zero for no records. -/
def Service.treeRoot (leaves : List Bytes) : Bytes :=
  treeHash s.hasher.hashChildren (LogHasher.fit []) (leaves.map s.hasher.hashLeaf)

def rows (t : Table Bytes) (count : Nat) : List Bytes := (List.range count).map fun i => (t.row i).getD []

theorem length_rows (t : Table Bytes) (count : Nat) : (rows t count).length = count := by
  simp [rows]

theorem take_rows (t : Table Bytes) {count more : Nat} (fewer : count ≤ more) :
    (rows t more).take count = rows t count := by
  rw [rows, ← List.map_take, List.take_range, Nat.min_eq_left fewer, rows]

theorem rows_extends {t t' : Table Bytes} {count : Nat} (filled : Filled t count) (extends' : Extends t t') :
    rows t' count = rows t count := by
  refine List.map_congr_left fun i member => ?_
  rw [extends' i (filled i (List.mem_range.mp member))]

theorem rootOver_hashed (leaves : List Bytes) : s.rootOver (leaves.map s.hasher.hashLeaf) = s.treeRoot leaves := by
  unfold Service.rootOver Service.treeRoot
  rw [map_fit (leafHashes_sized s leaves)]

theorem leafHashes_rows (t : Table Bytes) (count : Nat) :
    s.leafHashes t count = (rows t count).map s.hasher.hashLeaf := by
  simp [Service.leafHashes, rows, Service.leafHash]

variable {s} {d : Database} {cp : Checkpoint} {server : Server} (lawful : Compact.Lawful s.pkg) (ok : s.TilesOk d)

omit lawful in
include ok in
theorem wanted_read (stored : ∀ level o, s.Wanted cp.n level o → d.tiles s.height level o ≠ none) (level o : Nat)
    (wanted : s.Wanted cp.n level o) :
    s.localTile (fun _ _ => none) d level o = .ok (s.tileHashes d.leaves level o) :=
  tile_eq ok (stored level o wanted)

include lawful ok

/-- The new checkpoint is compared with the root over the stored leaves and what was fetched. -/
theorem checkRootHash_eq {stragglers : List Bytes}
    (stored : ∀ level o, s.Wanted cp.n level o → d.tiles s.height level o ≠ none)
    (fetched : 0 < cp.n % s.tileWidth → s.remoteStragglers server cp (cp.n % s.tileWidth) = .ok stragglers)
    (length : stragglers.length = cp.n % s.tileWidth) :
    s.checkRootHash server cp d =
      if s.rootOver (s.leafHashes d.leaves (cp.n / s.tileWidth * s.tileWidth) ++ stragglers) = cp.hash then .ok ()
      else .error (.wrap "local log does not match the SumDB checkpoint: %w"
        (.text "log root mismatch at tree size %d; calculated %x, want %x")) := by
  have check := @checkCheckpoint_eq s lawful d.leaves (s.localTile (fun _ _ => none) d) cp
    (s.remoteStragglers server cp) stragglers (wanted_read ok stored)
    (fun some' => ⟨[], by rw [List.append_nil, fetched some']⟩) length
  unfold Service.checkRootHash
  rw [check]
  split <;> rfl

omit lawful ok in
theorem remoteStragglers_eq {records : List Bytes} {count : Nat}
    (fetched : server.partialLeavesAtOffset (cp.n / s.tileWidth) count = .ok records)
    (length : records.length ≤ count) :
    s.remoteStragglers server cp count =
      .ok (records.map s.hasher.hashLeaf ++ List.replicate (count - records.length) []) := by
  unfold Service.remoteStragglers
  rw [fetched]
  exact if_neg (by omega)

-- With a record for each leaf that is the root of a log.
theorem checkRootHash_records {records : List Bytes}
    (stored : ∀ level o, s.Wanted cp.n level o → d.tiles s.height level o ≠ none)
    (fetched : 0 < cp.n % s.tileWidth →
      server.partialLeavesAtOffset (cp.n / s.tileWidth) (cp.n % s.tileWidth) = .ok records)
    (length : records.length = cp.n % s.tileWidth) :
    s.checkRootHash server cp d = .ok () ↔
      cp.hash = s.treeRoot (rows d.leaves (cp.n / s.tileWidth * s.tileWidth) ++ records) := by
  have check := @checkRootHash_eq s d cp server lawful ok (records.map s.hasher.hashLeaf) stored
    (fun some' => by
      rw [remoteStragglers_eq (fetched some') (by omega), length, Nat.sub_self, List.replicate_zero, List.append_nil])
    (by rw [List.length_map, length])
  rw [leafHashes_rows, ← List.map_append, rootOver_hashed] at check
  rw [check, @eq_comm _ cp.hash]
  split <;> simp [*]

-- A root was compared, so the records of an incomplete tile were there.
theorem checkRootHash_fetched
    (stored : ∀ level o, s.Wanted cp.n level o → d.tiles s.height level o ≠ none)
    (checked : s.checkRootHash server cp d = .ok ()) (some' : 0 < cp.n % s.tileWidth) :
    ∃ records, server.partialLeavesAtOffset (cp.n / s.tileWidth) (cp.n % s.tileWidth) = .ok records := by
  cases fetched : server.partialLeavesAtOffset (cp.n / s.tileWidth) (cp.n % s.tileWidth) with
  | ok records => exact ⟨records, rfl⟩
  | error reason =>
    have stragglers : s.remoteStragglers server cp (cp.n % s.tileWidth) =
        .error (.wrap "failed to get stragglers: %w" reason) := by
      unfold Service.remoteStragglers
      rw [fetched]
    obtain ⟨reason', failed⟩ :=
      (checkCheckpoint_stragglers lawful (wanted_read ok stored) some').1 _ stragglers
    unfold Service.checkRootHash at checked
    rw [failed] at checked
    cases checked

omit lawful ok in
theorem tile_stragglers (t : Table Bytes) (n : Nat) :
    (s.tileHashes t 0 (n / s.tileWidth)).take (n % s.tileWidth) =
      (List.range' (n / s.tileWidth * s.tileWidth) (n % s.tileWidth)).map (s.leafHash t) := by
  have less := Nat.mod_lt n (width_pos s)
  rw [Service.tileHashes, ← List.map_take, List.take_range'_of_length_ge (Nat.le_of_lt less)]
  refine List.map_congr_left fun i _ => ?_
  simp [Service.tileNode, nodeAt]

-- What of the local tiles a check reads can be read.
structure Service.Readable (s : Service) (d : Database) (n : Nat) (fault : Nat → Nat → Option GoError) : Prop where
  tiles : ∀ level o, s.Wanted n level o → fault level o = none ∧ d.tiles s.height level o ≠ none
  last : 0 < n % s.tileWidth → fault 0 (n / s.tileWidth) = none ∧ d.tiles s.height 0 (n / s.tileWidth) ≠ none

-- No read of a check fails.
def Service.Clean (s : Service) (n : Nat) (fault : Nat → Nat → Option GoError) : Prop :=
  (∀ level o, s.Wanted n level o → fault level o = none) ∧ (0 < n % s.tileWidth → fault 0 (n / s.tileWidth) = none)

omit lawful ok in
theorem readable_inside {fault : Nat → Nat → Option GoError} {n count : Nat} (clean : s.Clean n fault)
    (stored : ∀ level, ∀ o < count * s.tileWidth / s.span level, d.tiles s.height level o ≠ none)
    (inside : n < count * s.tileWidth) : s.Readable d n fault where
  tiles level o wanted := ⟨clean.1 level o wanted,
    stored level o (Nat.lt_of_lt_of_le wanted.2 (Nat.div_le_div_right (Nat.le_of_lt inside)))⟩
  last some' := by
    refine ⟨clean.2 some', stored 0 _ ?_⟩
    rw [span_zero, Nat.mul_div_cancel _ (width_pos s)]
    exact (Nat.div_lt_iff_lt_mul (width_pos s)).mpr inside

/-- A checkpoint whose leaves are all in local tiles is compared with the root over them. -/
theorem localCheck_eq {fault : Nat → Nat → Option GoError} (readable : s.Readable d cp.n fault) :
    s.checkCheckpoint (s.localTile fault d) cp (fun _ => s.localStragglers fault cp d) =
      if s.treeRoot (rows d.leaves cp.n) = cp.hash then .ok ()
      else .error (.text "log root mismatch at tree size %d; calculated %x, want %x") := by
  have sum := tiles_stop s cp.n
  have less := Nat.mod_lt cp.n (width_pos s)
  have check := @checkCheckpoint_eq s lawful d.leaves (s.localTile fault d) cp
    (fun _ => s.localStragglers fault cp d)
    ((s.tileHashes d.leaves 0 (cp.n / s.tileWidth)).take (cp.n % s.tileWidth))
    (fun level o wanted => by
      unfold Service.localTile
      rw [(readable.tiles level o wanted).1, tile_eq ok (readable.tiles level o wanted).2])
    (fun some' => ⟨(s.tileHashes d.leaves 0 (cp.n / s.tileWidth)).drop (cp.n % s.tileWidth), by
      unfold Service.localStragglers
      rw [(readable.last some').1, tile_eq ok (readable.last some').2, List.take_append_drop]⟩)
    (by rw [List.length_take, tileHashes_length, Nat.min_eq_left (Nat.le_of_lt less)])
  have all : s.leafHashes d.leaves (cp.n / s.tileWidth * s.tileWidth) ++
      (s.tileHashes d.leaves 0 (cp.n / s.tileWidth)).take (cp.n % s.tileWidth) =
        (rows d.leaves cp.n).map s.hasher.hashLeaf := by
    have joined := @List.range'_append_1 0 (cp.n / s.tileWidth * s.tileWidth) (cp.n % s.tileWidth)
    rw [Nat.zero_add, sum] at joined
    rw [tile_stragglers, Service.leafHashes, ← List.map_append, List.range_eq_range', joined, ← leafHashes_rows,
      Service.leafHashes, List.range_eq_range']
  rw [all, rootOver_hashed] at check
  exact check

/-- It fails over a tile that cannot be read. -/
theorem localCheck_unread {fault : Nat → Nat → Option GoError} (unreadable : ¬ s.Readable d cp.n fault) :
    ∃ reason, s.checkCheckpoint (s.localTile fault d) cp (fun _ => s.localStragglers fault cp d) = .error reason := by
  have outcome : ∀ level o,
      (fault level o = none ∧ d.tiles s.height level o ≠ none ∧
        s.localTile fault d level o = .ok (s.tileHashes d.leaves level o)) ∨
      ¬ (fault level o = none ∧ d.tiles s.height level o ≠ none) ∧
        ∃ reason, s.localTile fault d level o = .error reason := by
    intro level o
    unfold Service.localTile
    cases fault level o with
    | some reason => exact .inr ⟨by simp, reason, rfl⟩
    | none =>
      by_cases missing : d.tiles s.height level o = none
      · exact .inr ⟨by simp [missing], _, tile_missing missing⟩
      · exact .inl ⟨rfl, missing, tile_eq ok missing⟩
  by_cases fails : ∃ level o, s.Wanted cp.n level o ∧ ∃ reason, s.localTile fault d level o = .error reason
  · exact checkCheckpoint_unread lawful
      (fun level o _ => (outcome level o).imp (fun read => read.2.2) fun failed => failed.2) fails
  · have read : ∀ level o, s.Wanted cp.n level o →
        fault level o = none ∧ d.tiles s.height level o ≠ none ∧
          s.localTile fault d level o = .ok (s.tileHashes d.leaves level o) := fun level o wanted =>
      (outcome level o).resolve_right fun failed => fails ⟨level, o, wanted, failed.2⟩
    obtain ⟨some', unread⟩ : 0 < cp.n % s.tileWidth ∧
        ¬ (fault 0 (cp.n / s.tileWidth) = none ∧ d.tiles s.height 0 (cp.n / s.tileWidth) ≠ none) := by
      by_contra readable
      push Not at readable
      exact unreadable ⟨fun level o wanted => ⟨(read level o wanted).1, (read level o wanted).2.1⟩, readable⟩
    rcases outcome 0 (cp.n / s.tileWidth) with ⟨clean, stored, -⟩ | ⟨-, reason, failed⟩
    · exact absurd ⟨clean, stored⟩ unread
    · exact (checkCheckpoint_stragglers lawful
        (fun level o wanted => (read level o wanted).2.2) some').1 reason failed

end Roots

section Pairs

-- A Sync over these records that gets to its checks.
def pairSync (records : Bytes) (few : records.length < 2 ^ 63) (d : Database) : Outcome Unit × Database :=
  pairs.finishSync (pairServer records) (pairNote records few) (.ok ())
    (pairs.hashed (pairs.cloneLeafTiles (pairServer records) (pairNote records few) d).2 records.length)

theorem pair_syncs {records : Bytes} {few : records.length < 2 ^ 63} {d : Database} (ok : pairs.TilesOk d)
    (cloned : (pairs.cloneLeafTiles (pairServer records) (pairNote records few) d).1 = .ok ())
    (filled : Filled (pairs.cloneLeafTiles (pairServer records) (pairNote records few) d).2.leaves
      (records.length / 2 * 2)) :
    pairs.Syncs (pairServer records) (pairNote records few) d
      (.returned (pairSync records few d).1 (pairSync records few d).2) :=
  syncs_finish Compact.reference_lawful ok (Prod.ext cloned rfl) filled

end Pairs

end Audit
