import TrillianServerless.Clone.Bulk
import TrillianServerless.Clone.LogDb

set_option autoImplicit false

namespace Cloning

open Go Sql Download

/-- The settings of a cloner and the size it is called with. -/
structure Cloner where
  workers : Nat
  fetchBatchSize : Nat
  writeBatchSize : Nat
  treeSize : Nat
  someWorker : 0 < workers
  someFetch : 0 < fetchBatchSize
  someWrite : 0 < writeBatchSize
  word : treeSize < 2 ^ 64

inductive ClonePhase where
  | receiving
  | writing
  | final
  | returned (result : Except GoError Unit)

/-- A call of Clone from its download on. -/
structure Clone where
  bulk : State
  next : Nat
  bs : Nat
  bi : Nat
  batch : List Bytes
  phase : ClonePhase
  db : LogDb.Database

-- Next is also the name of the count in Clone.
def firstLeaf (fault : Option GoError) (db : LogDb.Database) : Except GoError Nat :=
  match db.head fault with
  | .ok head => .ok (head + 1)
  | .error reason =>
    if reason = LogDb.errNoDataFound then .ok 0
    else .error (.text "failed to query for head of local log: %q")

/-- What Clone does before the download: it has a result, or a first leaf to ask for. -/
def start (treeSize : Nat) (headFault checkpointFault : Option GoError) (db : LogDb.Database) :
    Except (Except GoError Unit) Nat :=
  match firstLeaf headFault db with
  | .error _ => .error (.error (.text "couldn't determine first leaf: %v"))
  | .ok next =>
    if treeSize ≤ next then .error (.ok ())
    else
      match db.getLatestCheckpoint checkpointFault with
      | .error reason =>
        if reason = LogDb.errNoDataFound then .ok next
        else .error (.error (.text "failed to query for any checkpoints: %q"))
      | .ok (verifiedSize, _, _) =>
        if next < verifiedSize then
          .error (.error (.text "illegal state: verified size %d > downloaded leaf count %d"))
        else .ok next

/-- The outcomes of a write to a database whose transactions are atomic: one with a failed statement is
not committed, and the answer to a commit can get lost. -/
def Writes (cancelled : Option GoError) (start : Nat) (leaves : List Bytes) (db : LogDb.Database)
    (result : Except GoError Unit × LogDb.Database) : Prop :=
  (∃ faults : Faults, (faults.commits = none → ∀ i, faults.statement i = false) ∧
    (cancelled ≠ none → faults.begins ≠ none) ∧ result = db.writeLeaves faults start leaves) ∨
  cancelled = none ∧ ∃ reason, result = (.error reason, (db.writeLeaves .clean start leaves).2)

namespace Clone

variable (c : Cloner)

def init (cfg : Config) (db : LogDb.Database) : Clone where
  bulk := cfg.init
  next := cfg.first
  bs := cfg.first
  bi := 0
  batch := List.replicate c.writeBatchSize []
  phase := .receiving
  db := db

def receive (s : Clone) (bulk : State) (br : BulkResult) : Clone :=
  match br.err with
  | some _ => { s with bulk := bulk, phase := .returned (.error (.text "failed to get leaf at %d: %v")) }
  | none =>
    let bi := (s.bi + 1) % c.writeBatchSize
    { s with
      bulk := bulk
      next := s.next + 1
      batch := s.batch.set s.bi br.leaf
      bi := bi
      phase := if bi = 0 then .writing else .receiving }

def written (s : Clone) : Except GoError Unit × LogDb.Database → Clone
  | (.ok (), db) => { s with bs := s.next, phase := .receiving, db := db }
  | (.error _, db) =>
    { s with db := db, phase := .returned (.error (.text "failed to write to DB for batch starting at %d: %q")) }

def finalWritten (s : Clone) : Except GoError Unit × LogDb.Database → Clone
  | (.ok (), db) => { s with db := db, phase := .returned (.ok ()) }
  | (.error _, db) =>
    { s with db := db,
             phase := .returned (.error (.text "failed to write to DB for final batch starting at %d: %q")) }

end Clone

/-- The main thread of Clone beside its download. -/
inductive CloneStep (c : Cloner) (cfg : Config) (leaf : Nat → Bytes) : Clone → Event → Clone → Prop
  | download {s : Clone} {e : Event} {bulk : State} (taken : Step cfg leaf s.bulk e bulk)
      (quiet : ∀ x, e ≠ .received x) : CloneStep c cfg leaf s e { s with bulk := bulk }
  | receive {s : Clone} {br : BulkResult} {bulk : State} (at' : s.phase = .receiving)
      (taken : Step cfg leaf s.bulk (.received br) bulk) :
      CloneStep c cfg leaf s (.received br) (s.receive c bulk br)
  | write {s : Clone} {result : Except GoError Unit × LogDb.Database} (at' : s.phase = .writing)
      (writes : Writes s.bulk.cancelled s.bs s.batch s.db result) : CloneStep c cfg leaf s .worked (s.written result)
  -- The channel is closed and has been read to its end.
  | drained {s : Clone} (at' : s.phase = .receiving) (closed : s.bulk.collector = .returned)
      (empty : s.bulk.taken = s.bulk.sent.length) :
      CloneStep c cfg leaf s .worked { s with phase := if 0 < s.bi then .final else .returned (.ok ()) }
  | writeFinal {s : Clone} {result : Except GoError Unit × LogDb.Database} (at' : s.phase = .final)
      (writes : Writes s.bulk.cancelled s.bs (s.batch.take s.bi) s.db result) :
      CloneStep c cfg leaf s .worked (s.finalWritten result)

def Cloner.config (c : Cloner) (next : Nat) (some' : next < c.treeSize) : Config where
  first := next
  treeSize := c.treeSize
  workers := c.workers
  batchSize := c.fetchBatchSize
  capacity := c.writeBatchSize * 2
  nonempty := some'
  word := c.word
  someWorker := c.someWorker
  someBatch := c.someFetch

section Batches

variable (leaf : Nat → Bytes)

-- The first leaves of the log.
def cloned (m : Nat) : List Bytes := (List.range m).map leaf

def leavesFrom (start count : Nat) : List Bytes := (List.range' start count).map leaf

theorem cloned_append (m count : Nat) : cloned leaf m ++ leavesFrom leaf m count = cloned leaf (m + count) := by
  unfold cloned leavesFrom
  rw [← List.map_append, List.range_eq_range', List.range_eq_range', ← List.range'_append_1, Nat.zero_add]

variable {leaf} {db : LogDb.Database} {m count : Nat} {cancelled : Option GoError}
  {result : Except GoError Unit × LogDb.Database}

theorem stored_batch (holds : db.leaves.Holds (cloned leaf m)) (inside : m + count ≤ 2 ^ 64)
    {fails : Nat → Bool} (works : ∀ i, fails i = false) :
    (db.leaves.insertAll fails 0 (Table.counted m (leavesFrom leaf m count))).Holds (cloned leaf (m + count)) := by
  have rows : Table.counted m (leavesFrom leaf m count) =
      Table.numbered (cloned leaf m).length (leavesFrom leaf m count) := by
    rw [Table.counted_eq (by simpa [leavesFrom] using inside)]
    simp [cloned]
  rw [rows, show fails = fun _ => false from funext works, ← cloned_append]
  exact holds.insertAll 0 _

/-- A write stores its batch behind the others or nothing. -/
theorem Writes.holds (writes : Writes cancelled m (leavesFrom leaf m count) db result)
    (holds : db.leaves.Holds (cloned leaf m)) (inside : m + count ≤ 2 ^ 64) :
    (result.1 = .ok () ∧ result.2.leaves.Holds (cloned leaf (m + count))) ∨
      ((∃ reason, result.1 = .error reason) ∧
        ∃ m', (m' = m ∨ m' = m + count) ∧ result.2.leaves.Holds (cloned leaf m')) := by
  rcases writes with ⟨faults, atomic, -, rfl⟩ | ⟨-, reason, rfl⟩
  · unfold LogDb.Database.writeLeaves transact
    cases begins : faults.begins with
    | some reason => exact .inr ⟨⟨_, rfl⟩, m, .inl rfl, holds⟩
    | none =>
      cases commits : faults.commits with
      | some reason => exact .inr ⟨⟨_, rfl⟩, m, .inl rfl, holds⟩
      | none => exact .inl ⟨rfl, stored_batch holds inside (atomic commits)⟩
  · exact .inr ⟨⟨_, rfl⟩, m + count, .inr rfl, stored_batch holds inside fun _ => rfl⟩

-- Nothing is written under a cancelled context.
theorem Writes.unchanged {start : Nat} {leaves : List Bytes} (writes : Writes cancelled start leaves db result)
    (gone : cancelled ≠ none) : (∃ reason, result.1 = .error reason) ∧ result.2 = db := by
  rcases writes with ⟨faults, -, begins, rfl⟩ | ⟨running, -⟩
  · unfold LogDb.Database.writeLeaves transact
    cases first : faults.begins with
    | some reason => exact ⟨⟨_, rfl⟩, rfl⟩
    | none => exact absurd first (begins gone)
  · exact absurd running gone

-- A row is from before or of the batch.
theorem Writes.origin {start : Nat} {leaves : List Bytes} (writes : Writes cancelled start leaves db result)
    {id : Nat} {x : Bytes} (present : result.2.leaves.row id = some x) :
    db.leaves.row id = some x ∨ x ∈ leaves := by
  have listed : ∀ {fails : Nat → Bool},
      (db.leaves.insertAll fails 0 (Table.counted start leaves)).row id = some x →
        db.leaves.row id = some x ∨ x ∈ leaves := by
    intro fails stored
    refine (Table.insertAll_origin _ _ _ stored).imp_right fun member => ?_
    obtain ⟨i, inside, same⟩ := List.mem_mapIdx.mp member
    cases same
    exact List.getElem_mem inside
  rcases writes with ⟨faults, -, -, rfl⟩ | ⟨-, reason, rfl⟩
  · unfold LogDb.Database.writeLeaves transact at present
    split at present
    · exact .inl present
    · exact .inl present
    · exact listed present
  · exact listed present

end Batches

section Invariant

variable (c : Cloner) (cfg : Config) (leaf : Nat → Bytes)

/-- How the batch, the table and the results received belong together. -/
def Stage (s : Clone) : Prop :=
  match s.phase with
  | .receiving => s.next = cfg.first + s.bulk.taken ∧ s.bulk.received = delivered cfg leaf s.bulk.taken ∧
      cfg.first ≤ s.bs ∧ s.bs + s.bi = s.next ∧ s.bi < c.writeBatchSize ∧ s.batch.length = c.writeBatchSize ∧
      s.batch.take s.bi = leavesFrom leaf s.bs s.bi ∧ s.db.leaves.Holds (cloned leaf s.bs)
  | .writing => s.next = cfg.first + s.bulk.taken ∧ s.bulk.received = delivered cfg leaf s.bulk.taken ∧
      cfg.first ≤ s.bs ∧ s.bs + c.writeBatchSize = s.next ∧ s.bi = 0 ∧
      s.batch = leavesFrom leaf s.bs c.writeBatchSize ∧ s.db.leaves.Holds (cloned leaf s.bs)
  | .final => cfg.first ≤ s.bs ∧ s.bs + s.bi = cfg.treeSize ∧
      s.batch.take s.bi = leavesFrom leaf s.bs s.bi ∧ s.db.leaves.Holds (cloned leaf s.bs)
  | .returned (.ok ()) => s.db.leaves.Holds (cloned leaf cfg.treeSize)
  | .returned (.error _) => ∃ m, cfg.first ≤ m ∧ s.db.leaves.Holds (cloned leaf m)

/-- A call whose download has kept its order. -/
structure CloneOk (s : Clone) : Prop where
  buffer : s.bulk.taken ≤ s.bulk.sent.length
  order : ∃ k batch, BulkOk cfg leaf s.bulk k batch
  stage : Stage c cfg leaf s

variable {c cfg leaf} {s s' : Clone} {e : Event}

theorem CloneOk.table (ok : CloneOk c cfg leaf s) :
    ∃ m, cfg.first ≤ m ∧ s.db.leaves.Holds (cloned leaf m) := by
  have stage := ok.stage
  unfold Stage at stage
  split at stage
  · exact ⟨s.bs, stage.2.2.1, stage.2.2.2.2.2.2.2⟩
  · exact ⟨s.bs, stage.2.2.1, stage.2.2.2.2.2.2⟩
  · exact ⟨s.bs, stage.1, stage.2.2.2⟩
  · exact ⟨cfg.treeSize, Nat.le_of_lt cfg.nonempty, stage⟩
  · exact stage

-- The download goes on beside the main thread.
theorem Stage.download {bulk : State} (stage : Stage c cfg leaf s) (taken : bulk.taken = s.bulk.taken)
    (received : bulk.received = s.bulk.received) : Stage c cfg leaf { s with bulk := bulk } := by
  unfold Stage at stage ⊢
  dsimp only
  rw [taken, received]
  exact stage

theorem err_of_delivered {x : BulkResult} {count : Nat} (member : x ∈ delivered cfg leaf count) : x.err = none := by
  obtain ⟨i, -, rfl⟩ := List.mem_map.mp member
  rfl

theorem taken_le_total {bulk : State} {k : Nat} {batch : Nat → Nat} (order : BulkOk cfg leaf bulk k batch)
    (received : bulk.received = delivered cfg leaf bulk.taken) : bulk.taken ≤ cfg.total := by
  obtain ⟨count, upper, same | ⟨reason, same⟩⟩ := order.collector.inOrder.take bulk.taken
  · have lengths := congrArg List.length (received.symm.trans same)
    rw [length_delivered, length_delivered] at lengths
    omega
  · have member : (⟨[], some reason⟩ : BulkResult) ∈ delivered cfg leaf bulk.taken := by
      rw [← received, State.received, same]
      simp
    cases err_of_delivered member

theorem set_take {batch : List Bytes} {i : Nat} (l : Bytes) (inside : i < batch.length) :
    (batch.set i l).take (i + 1) = batch.take i ++ [l] := by
  rw [List.take_add_one, List.take_set_of_le (Nat.le_refl i)]
  simp [inside]

theorem leavesFrom_succ (start count : Nat) :
    leavesFrom leaf start (count + 1) = leavesFrom leaf start count ++ [leaf (start + count)] := by
  unfold leavesFrom
  rw [← List.range'_append_1, List.map_append]
  simp

theorem CloneOk.receive {bulk : State} {br : BulkResult} (ok : CloneOk c cfg leaf s) (at' : s.phase = .receiving)
    (taken : Step cfg leaf s.bulk (.received br) bulk) : CloneOk c cfg leaf (s.receive c bulk br) := by
  obtain ⟨k, batch, order⟩ := ok.order
  obtain ⟨k', batch', order'⟩ := order.step taken nofun
  obtain ⟨count, received⟩ := taken.received_append
  have stage := ok.stage
  unfold Stage at stage
  rw [at'] at stage
  obtain ⟨next, before, lower, sum, inside, length, filled, holds⟩ := stage
  unfold Clone.receive
  cases err : br.err with
  | some reason => exact ⟨taken.taken_le ok.buffer, ⟨k', batch', order'⟩, s.bs, lower, holds⟩
  | none =>
    rw [before] at received
    have inOrder := order'.collector.inOrder.take bulk.taken
    rw [← State.received, received] at inOrder
    obtain ⟨rfl, -⟩ := inOrder.next err
    have all : bulk.received = delivered cfg leaf bulk.taken := by
      rw [received, count, delivered_add]
      simp
    have more : (s.batch.set s.bi (leaf (cfg.first + s.bulk.taken))).take (s.bi + 1) =
        leavesFrom leaf s.bs (s.bi + 1) := by
      rw [set_take _ (by omega), filled, leavesFrom_succ, sum, next]
    refine ⟨taken.taken_le ok.buffer, ⟨k', batch', order'⟩, ?_⟩
    dsimp only
    by_cases full : s.bi + 1 = c.writeBatchSize
    · rw [full, Nat.mod_self, if_pos rfl]
      unfold Stage
      dsimp only
      refine ⟨by omega, all, lower, by omega, rfl, ?_, holds⟩
      rw [full, List.take_of_length_le (by simp [length])] at more
      exact more
    · rw [Nat.mod_eq_of_lt (by omega), if_neg (Nat.succ_ne_zero _)]
      unfold Stage
      dsimp only
      exact ⟨by omega, all, lower, by omega, by omega, by simpa using length, more, holds⟩

theorem CloneOk.write {result : Except GoError Unit × LogDb.Database} (ok : CloneOk c cfg leaf s)
    (at' : s.phase = .writing) (writes : Writes s.bulk.cancelled s.bs s.batch s.db result) :
    CloneOk c cfg leaf (s.written result) := by
  obtain ⟨k, batch, order⟩ := ok.order
  have stage := ok.stage
  unfold Stage at stage
  rw [at'] at stage
  obtain ⟨next, received, lower, sum, empty, filled, holds⟩ := stage
  have upper := taken_le_total order received
  have word := cfg.word
  have nonempty := cfg.nonempty
  unfold Config.total at upper
  rw [filled] at writes
  obtain ⟨outcome, db⟩ := result
  rcases writes.holds holds (by omega) with ⟨good, stored⟩ | ⟨⟨reason, bad⟩, m, _, kept⟩
  · dsimp only at good stored
    subst good
    rw [sum] at stored
    refine ⟨ok.buffer, ok.order, ?_⟩
    unfold Clone.written Stage
    dsimp only
    refine ⟨next, received, by omega, by omega, ?_, ?_, ?_, stored⟩
    · rw [empty]
      exact c.someWrite
    · simp [filled, leavesFrom]
    · simp [empty, leavesFrom]
  · dsimp only at bad
    subst bad
    exact ⟨ok.buffer, ok.order, m, by omega, kept⟩

theorem CloneOk.writeFinal {result : Except GoError Unit × LogDb.Database} (ok : CloneOk c cfg leaf s)
    (at' : s.phase = .final) (writes : Writes s.bulk.cancelled s.bs (s.batch.take s.bi) s.db result) :
    CloneOk c cfg leaf (s.finalWritten result) := by
  have stage := ok.stage
  unfold Stage at stage
  rw [at'] at stage
  obtain ⟨lower, sum, filled, holds⟩ := stage
  have word := cfg.word
  rw [filled] at writes
  obtain ⟨outcome, db⟩ := result
  rcases writes.holds holds (by omega) with ⟨good, stored⟩ | ⟨⟨reason, bad⟩, m, _, kept⟩
  · dsimp only at good stored
    subst good
    rw [sum] at stored
    exact ⟨ok.buffer, ok.order, stored⟩
  · dsimp only at bad
    subst bad
    exact ⟨ok.buffer, ok.order, m, by omega, kept⟩

-- A channel that was closed without an error has brought every leaf.
theorem CloneOk.drained (ok : CloneOk c cfg leaf s) (at' : s.phase = .receiving)
    (closed : s.bulk.collector = .returned) (empty : s.bulk.taken = s.bulk.sent.length) :
    CloneOk c cfg leaf { s with phase := if 0 < s.bi then .final else .returned (.ok ()) } := by
  obtain ⟨k, batch, order⟩ := ok.order
  have stage := ok.stage
  unfold Stage at stage
  rw [at'] at stage
  obtain ⟨next, received, lower, sum, inside, length, filled, holds⟩ := stage
  have whole : s.bulk.received = s.bulk.sent := by rw [State.received, empty, List.take_length]
  have standing := order.collector
  rw [closed] at standing
  rcases standing with ⟨before, -, -, -, sent⟩ | ⟨count, reason, upper, sent⟩
  · have total : s.bulk.taken = cfg.total := by rw [empty, sent, length_delivered]
    have end' : s.next = cfg.treeSize := by
      have := cfg.nonempty
      rw [next, total, Config.total]
      omega
    refine ⟨ok.buffer, ok.order, ?_⟩
    by_cases left : 0 < s.bi
    · rw [if_pos left]
      exact ⟨lower, sum.trans end', filled, holds⟩
    · rw [if_neg left]
      have bs : s.bs = cfg.treeSize := by omega
      exact bs ▸ holds
  · have member : (⟨[], some reason⟩ : BulkResult) ∈ delivered cfg leaf s.bulk.taken := by
      rw [← received, whole, sent]
      simp
    cases err_of_delivered member

theorem CloneOk.step (ok : CloneOk c cfg leaf s) (taken : CloneStep c cfg leaf s e s') (open' : e ≠ .closedTaken) :
    CloneOk c cfg leaf s' := by
  cases taken with
  | download taken quiet =>
    obtain ⟨k, batch, order⟩ := ok.order
    obtain ⟨same, received⟩ := taken.received_eq ok.buffer quiet
    exact ⟨taken.taken_le ok.buffer, order.step taken open', ok.stage.download same received⟩
  | receive at' taken => exact ok.receive at' taken
  | write at' writes => exact ok.write at' writes
  | drained at' closed empty => exact ok.drained at' closed empty
  | writeFinal at' writes => exact ok.writeFinal at' writes

theorem CloneOk.init {db : LogDb.Database} (holds : db.leaves.Holds (cloned leaf cfg.first)) :
    CloneOk c cfg leaf (Clone.init c cfg db) where
  buffer := Nat.le_refl _
  order := ⟨0, id, .init⟩
  stage := ⟨rfl, rfl, Nat.le_refl _, rfl, c.someWrite, List.length_replicate, rfl, holds⟩

-- Once the context is cancelled the tables stay as they are.
theorem CloneStep.unchanged (taken : CloneStep c cfg leaf s e s') (gone : s.bulk.cancelled ≠ none) :
    s'.db = s.db ∧ s'.bulk.cancelled ≠ none := by
  cases taken with
  | download taken quiet =>
    refine ⟨rfl, ?_⟩
    by_cases again : e = .cancelled
    · subst again
      cases taken with
      | cancel running => exact absurd running gone
    · rw [taken.cancelled_eq again]
      exact gone
  | @receive br bulk at' taken =>
    have same : bulk.cancelled = s.bulk.cancelled := taken.cancelled_eq nofun
    unfold Clone.receive
    cases br.err with
    | some reason => exact ⟨rfl, same ▸ gone⟩
    | none => exact ⟨rfl, same ▸ gone⟩
  | @write result at' writes =>
    obtain ⟨outcome, db⟩ := result
    obtain ⟨⟨reason, rfl⟩, rfl⟩ := writes.unchanged gone
    exact ⟨rfl, gone⟩
  | drained => exact ⟨rfl, gone⟩
  | @writeFinal result at' writes =>
    obtain ⟨outcome, db⟩ := result
    obtain ⟨⟨reason, rfl⟩, rfl⟩ := writes.unchanged gone
    exact ⟨rfl, gone⟩

/-- The order is kept, or it does not matter any more since nothing is written. -/
def CloneSafe (c : Cloner) (cfg : Config) (leaf : Nat → Bytes) (s : Clone) : Prop :=
  CloneOk c cfg leaf s ∨
    s.bulk.cancelled ≠ none ∧ ∃ m, cfg.first ≤ m ∧ s.db.leaves.Holds (cloned leaf m)

theorem CloneSafe.step (safe : CloneSafe c cfg leaf s) (taken : CloneStep c cfg leaf s e s') :
    CloneSafe c cfg leaf s' := by
  by_cases gone : s.bulk.cancelled = none
  · have ok := safe.resolve_right fun other => other.1 gone
    refine .inl (ok.step taken ?_)
    rintro rfl
    obtain ⟨k, batch, order⟩ := ok.order
    cases taken with
    | download taken quiet =>
      cases taken with
      | takeClosed at' worker => exact order.not_closed gone at' worker
  · obtain ⟨same, still⟩ := taken.unchanged gone
    have table : ∃ m, cfg.first ≤ m ∧ s.db.leaves.Holds (cloned leaf m) := by
      rcases safe with ok | ⟨-, table⟩
      · exact ok.table
      · exact table
    exact .inr ⟨still, same ▸ table⟩

end Invariant

section Calls

variable {leaf : Nat → Bytes} {db : LogDb.Database} {m : Nat}

theorem firstLeaf_of_holds {fault : Option GoError} {next : Nat} (holds : db.leaves.Holds (cloned leaf m))
    (first : firstLeaf fault db = .ok next) : next = m := by
  unfold firstLeaf LogDb.Database.head at first
  rw [holds.max?] at first
  cases fault with
  | some reason => simp [LogDb.errNoDataFound] at first
  | none =>
    simp only [cloned, List.length_map, List.length_range] at first
    by_cases none : m = 0
    · simpa [none] using first.symm
    · simp only [if_neg none, Except.ok.injEq] at first
      omega

theorem start_of_holds {treeSize : Nat} {headFault checkpointFault : Option GoError}
    (holds : db.leaves.Holds (cloned leaf m)) :
    (start treeSize headFault checkpointFault db = .error (.ok ()) → treeSize ≤ m) ∧
    ∀ next, start treeSize headFault checkpointFault db = .ok next → next = m ∧ next < treeSize := by
  unfold start
  cases first : firstLeaf headFault db with
  | error reason => simp
  | ok found =>
    obtain rfl := firstLeaf_of_holds holds first
    by_cases enough : treeSize ≤ found
    · simp [enough]
    · simp only [if_neg enough]
      cases db.getLatestCheckpoint checkpointFault with
      | error reason =>
        dsimp only
        split
        · simp; omega
        · simp
      | ok latest =>
        obtain ⟨verifiedSize, checkpoint, compactRange⟩ := latest
        dsimp only
        split
        · simp
        · simp; omega

/-- The databases that calls of Clone leave behind, whatever their settings and wherever they end. -/
inductive Cloned (leaf : Nat → Bytes) : LogDb.Database → Prop
  | fresh {db : LogDb.Database} : db.leaves.Holds [] → Cloned leaf db
  | call {db : LogDb.Database} {c : Cloner} {headFault checkpointFault : Option GoError} {next : Nat} {s : Clone}
      (some' : next < c.treeSize) : Cloned leaf db → start c.treeSize headFault checkpointFault db = .ok next →
      Runs.Reaches (CloneStep c (c.config next some') leaf) (fun _ => True)
        (Clone.init c (c.config next some') db) s → Cloned leaf s.db

theorem Clone.safe {c : Cloner} {headFault checkpointFault : Option GoError} {next : Nat} {s : Clone}
    (some' : next < c.treeSize) (holds : db.leaves.Holds (cloned leaf m))
    (begins : start c.treeSize headFault checkpointFault db = .ok next)
    (reached : Runs.Reaches (CloneStep c (c.config next some') leaf) (fun _ => True)
      (Clone.init c (c.config next some') db) s) : CloneSafe c (c.config next some') leaf s := by
  obtain ⟨rfl, -⟩ := (start_of_holds holds).2 next begins
  exact reached.keeps _ (.inl (.init holds)) fun _ taken safe => safe.step taken

theorem CloneSafe.table {c : Cloner} {cfg : Config} {s : Clone} (safe : CloneSafe c cfg leaf s) :
    ∃ m, cfg.first ≤ m ∧ s.db.leaves.Holds (cloned leaf m) := by
  rcases safe with ok | ⟨-, table⟩
  · exact ok.table
  · exact table

theorem Cloned.holds (reached : Cloned leaf db) : ∃ m, db.leaves.Holds (cloned leaf m) := by
  induction reached with
  | fresh empty => exact ⟨0, empty⟩
  | call some' _ begins run ih =>
    obtain ⟨m, holds⟩ := ih
    obtain ⟨m', -, stored⟩ := (Clone.safe some' holds begins run).table
    exact ⟨m', stored⟩

/-- The leaves table is a prefix of the log that only grows, and reaches the size of a call that returns
nil without having been cancelled. -/
theorem clone_prefix (leaf : Nat → Bytes) (db : LogDb.Database) (reached : Cloned leaf db) :
    ∃ m, db.leaves.Holds (cloned leaf m) ∧
      ∀ (c : Cloner) (headFault checkpointFault : Option GoError),
        (start c.treeSize headFault checkpointFault db = .error (.ok ()) → c.treeSize ≤ m) ∧
        ∀ (next : Nat) (some' : next < c.treeSize) (s : Clone),
          start c.treeSize headFault checkpointFault db = .ok next →
          Runs.Reaches (CloneStep c (c.config next some') leaf) (fun _ => True)
            (Clone.init c (c.config next some') db) s →
          ∃ m', m ≤ m' ∧ s.db.leaves.Holds (cloned leaf m') ∧
            (s.phase = .returned (.ok ()) → s.bulk.cancelled = none → c.treeSize ≤ m') := by
  obtain ⟨m, holds⟩ := reached.holds
  refine ⟨m, holds, fun c headFault checkpointFault => ⟨(start_of_holds holds).1, ?_⟩⟩
  intro next some' s begins run
  obtain ⟨rfl, -⟩ := (start_of_holds holds).2 next begins
  have safe := Clone.safe some' holds begins run
  by_cases done : s.phase = .returned (.ok ()) ∧ s.bulk.cancelled = none
  · have ok := safe.resolve_right fun other => other.1 done.2
    have stage := ok.stage
    unfold Stage at stage
    rw [done.1] at stage
    exact ⟨c.treeSize, Nat.le_of_lt some', stage, fun _ _ => Nat.le_refl _⟩
  · obtain ⟨m', more, stored⟩ := safe.table
    exact ⟨m', more, stored, fun phase running => absurd ⟨phase, running⟩ done⟩

/-- As long as Bulk does not read from a closed channel, a cancelled download is not taken for a whole one. -/
theorem cancelled_not_success (leaf : Nat → Bytes) :
    (∀ (cfg : Config) (b : State), Runs.Reaches (Step cfg leaf) (· ≠ .closedTaken) cfg.init b →
      InOrder cfg leaf b.received ∧
      (b.collector = .returned → b.taken = b.sent.length → (∀ x ∈ b.received, x.err = none) →
        b.received = delivered cfg leaf cfg.total)) ∧
    ∀ (db : LogDb.Database) (c : Cloner) (headFault checkpointFault : Option GoError) (next : Nat)
      (some' : next < c.treeSize) (s : Clone), Cloned leaf db →
      start c.treeSize headFault checkpointFault db = .ok next →
      Runs.Reaches (CloneStep c (c.config next some') leaf) (· ≠ .closedTaken)
        (Clone.init c (c.config next some') db) s →
      s.phase = .returned (.ok ()) → s.db.leaves.Holds (cloned leaf c.treeSize) := by
  refine ⟨fun cfg b run => ?_, fun db c headFault checkpointFault next some' s reached begins run done => ?_⟩
  · obtain ⟨k, batch, order⟩ : ∃ k batch, BulkOk cfg leaf b k batch :=
      run.keeps (fun b => ∃ k batch, BulkOk cfg leaf b k batch) ⟨0, id, .init⟩ fun open' taken ok => by
        obtain ⟨k, batch, order⟩ := ok
        exact order.step taken open'
    refine ⟨order.collector.inOrder.take _, fun returned empty fine => ?_⟩
    have whole : b.received = b.sent := by rw [State.received, empty, List.take_length]
    have standing := order.collector
    rw [returned] at standing
    rcases standing with ⟨before, -, -, -, sent⟩ | ⟨count, reason, upper, sent⟩
    · rw [whole, sent]
    · have none := fine ⟨[], some reason⟩ (by rw [whole, sent]; simp)
      cases none
  · obtain ⟨m, holds⟩ := reached.holds
    obtain ⟨rfl, -⟩ := (start_of_holds holds).2 next begins
    have ok : CloneOk c (c.config next some') leaf s :=
      run.keeps _ (.init holds) fun open' taken ok => ok.step taken open'
    have stage := ok.stage
    unfold Stage at stage
    rw [done] at stage
    exact stage

end Calls

section OneLeaf

def oneLeaf : Cloner := ⟨1, 1, 1, 1, by decide, by decide, by decide, by decide⟩

def oneConfig : Config := oneLeaf.config 0 (by decide)

/-- The worker sees the cancellation first and closes its channel; Bulk takes what a closed channel gives
for its last batch, and Clone returns nil with an empty table. -/
theorem cancelled_taken_for_success :
    ∃ s, Runs.Reaches (CloneStep oneLeaf oneConfig fun _ => [7]) (fun _ => True)
        (Clone.init oneLeaf oneConfig .empty) s ∧
      s.bulk.collector = .returned ∧ s.bulk.sent = [] ∧ s.phase = .returned (.ok ()) ∧
      s.db.leaves.row 0 = none := by
  have begin : Runs.Reaches (CloneStep oneLeaf oneConfig fun _ => [7]) (fun _ => True)
      (Clone.init oneLeaf oneConfig .empty) (Clone.init oneLeaf oneConfig .empty) := .refl
  have asked := begin.step trivial (.download (.ask (j := 0) (by decide) rfl (by decide) 0) nofun)
  have fetched := asked.step trivial (.download (.fetched (j := 0) (by decide) rfl) nofun)
  have cancelled := fetched.step trivial (.download (.cancel rfl (.text "context canceled")) nofun)
  have stopped := cancelled.step trivial (.download (.stop (j := 0) (by decide) rfl (.inl nofun)) nofun)
  have taken := stopped.step trivial (.download (.takeClosed (i := 0) rfl rfl) nofun)
  have returned := taken.step trivial (.download (.returns rfl (by decide)) nofun)
  have drained := returned.step trivial (.drained rfl rfl rfl)
  exact ⟨_, drained, rfl, rfl, rfl, rfl⟩

end OneLeaf

section FiveLeaves

def fiveLeaves : Cloner := ⟨2, 2, 2, 5, by decide, by decide, by decide, by decide⟩

def byteLeaf (i : Nat) : Bytes := [UInt8.ofNat i]

def fiveConfig : Config := fiveLeaves.config 0 (by decide)

-- The first batch of two is written, and the call is killed.
def firstBatch : LogDb.Database := (LogDb.Database.writeLeaves .clean 0 [[0], [1]] .empty).2

theorem firstBatch_cloned : Cloned byteLeaf firstBatch := by
  have begin : Runs.Reaches (CloneStep fiveLeaves fiveConfig byteLeaf) (fun _ => True)
      (Clone.init fiveLeaves fiveConfig .empty) (Clone.init fiveLeaves fiveConfig .empty) := .refl
  have other := begin.step trivial (.download (.ask (j := 1) (by decide) rfl (by decide) 3) nofun)
  have asked := other.step trivial (.download (.ask (j := 0) (by decide) rfl (by decide) 0) nofun)
  have fetched := asked.step trivial (.download (.fetched (j := 0) (by decide) rfl) nofun)
  have taken := fetched.step trivial (.download (.handover (i := 0) rfl rfl) nofun)
  have first := taken.step trivial (.receive rfl (.handoff ⟨rfl, rfl⟩ rfl))
  have second := first.step trivial (.receive rfl (.handoff ⟨rfl, rfl⟩ rfl))
  have written := second.step trivial (.write rfl (.inl ⟨.clean, fun _ _ => rfl, absurd rfl, rfl⟩))
  exact @Cloned.call _ _ fiveLeaves none none 0 _ (by decide) (.fresh fun _ => rfl) rfl written

-- The next call goes on behind it, and the second worker has its batch before the first.
theorem clone_prefix_restarted : ∃ s : Clone, s.phase = .returned (.ok ()) ∧
    ∃ m', 5 ≤ m' ∧ s.db.leaves.Holds (cloned byteLeaf m') := by
  have begin : Runs.Reaches (CloneStep fiveLeaves (fiveLeaves.config 2 (by decide)) byteLeaf) (fun _ => True)
      (Clone.init fiveLeaves (fiveLeaves.config 2 (by decide)) firstBatch)
      (Clone.init fiveLeaves (fiveLeaves.config 2 (by decide)) firstBatch) := .refl
  have other := begin.step trivial (.download (.ask (j := 1) (by decide) rfl (by decide) 0) nofun)
  have early := other.step trivial (.download (.fetched (j := 1) (by decide) rfl) nofun)
  have asked := early.step trivial (.download (.ask (j := 0) (by decide) rfl (by decide) 0) nofun)
  have fetched := asked.step trivial (.download (.fetched (j := 0) (by decide) rfl) nofun)
  have taken := fetched.step trivial (.download (.handover (i := 0) rfl rfl) nofun)
  have third := taken.step trivial (.receive rfl (.handoff ⟨rfl, rfl⟩ rfl))
  have fourth := third.step trivial (.receive rfl (.handoff ⟨rfl, rfl⟩ rfl))
  have written := fourth.step trivial (.write rfl (.inl ⟨.clean, fun _ _ => rfl, absurd rfl, rfl⟩))
  have more := written.step trivial (.download (.goOn rfl (by decide)) nofun)
  have last := more.step trivial (.download (.handover (i := 1) rfl rfl) nofun)
  have fifth := last.step trivial (.receive rfl (.handoff ⟨rfl, rfl⟩ rfl))
  have returned := fifth.step trivial (.download (.returns rfl (by decide)) nofun)
  have drained := returned.step trivial (.drained rfl rfl rfl)
  have final := drained.step trivial (.writeFinal rfl (.inl ⟨.clean, fun _ _ => rfl, absurd rfl, rfl⟩))
  obtain ⟨m, -, calls⟩ := clone_prefix byteLeaf firstBatch firstBatch_cloned
  obtain ⟨m', -, holds, whole⟩ := (calls fiveLeaves none none).2 2 (by decide) _ (by decide +kernel) final
  exact ⟨_, rfl, m', whole rfl rfl, holds⟩

end FiveLeaves

end Cloning
