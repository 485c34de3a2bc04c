import TrillianServerless.Clone.Cloner
import TrillianServerless.SumDbAudit.LeafData

set_option autoImplicit false

namespace SumDbClone

open Go Sql Cloning Download Audit

def tileHeight : Nat := 8

def fullTileSize : Nat := 1 <<< tileHeight

-- A permanent error, which is not retried.
def errNotFirst : GoError := .text "%d is not the first leaf in a tile"

-- copy(dst, src).
def copyInto (dst src : List Bytes) : List Bytes := src.take dst.length ++ dst.drop src.length

/-- What the SumDB answers to a request for the first `count` leaves of the tile at `start`. -/
def answer (server : Server) (start count : Nat) : Except GoError Bytes :=
  if count = fullTileSize then server.full (start >>> tileHeight) else server.part (start >>> tileHeight) count

-- `leaves` after a call that returns nil. One that fails does not write to it.
def batchFetch (server : Server) (start : Nat) (leaves : List Bytes) : Except GoError (List Bytes) :=
  if 0 < start % fullTileSize then .error errNotFirst
  else
    let offset := start >>> tileHeight
    let got := if leaves.length = fullTileSize then server.fullLeavesAtOffset offset
      else server.partialLeavesAtOffset offset leaves.length
    match got with
    | .error _ => .error (.text "failed to get leaves at offset %d: %v")
    | .ok got => .ok (copyInto leaves got)

theorem batchFetch_eq {server : Server} {start : Nat} {leaves : List Bytes} (aligned : start % fullTileSize = 0) :
    batchFetch server start leaves =
      match answer server start leaves.length with
      | .error _ => .error (.text "failed to get leaves at offset %d: %v")
      | .ok data => .ok (copyInto leaves (dataToLeaves data)) := by
  rw [batchFetch, if_neg (by omega)]
  unfold answer Server.fullLeavesAtOffset Server.partialLeavesAtOffset
  by_cases full : leaves.length = fullTileSize
  · simp only [if_pos full]
    cases server.full (start >>> tileHeight) <;> rfl
  · simp only [if_neg full]
    cases server.part (start >>> tileHeight) leaves.length <;> rfl

section Contract

/-- The contract of BatchFetch: every slot has its record of the response, or there is an error. -/
def Fills (server : Server) (start count : Nat) : Prop :=
  ∀ leaves : List Bytes, leaves.length = count → ∀ filled, batchFetch server start leaves = .ok filled →
    ∃ data, answer server start count = .ok data ∧ filled.length = count ∧
      ∀ i < count, ∃ record, (dataToLeaves data)[i]? = some record ∧ filled[i]? = some record

/-- The response, if there is one, has as many records as were asked for. -/
def Enough (server : Server) (start count : Nat) : Prop :=
  ∀ data, answer server start count = .ok data → count ≤ (dataToLeaves data).length

theorem copyInto_of_enough {leaves got : List Bytes} (enough : leaves.length ≤ got.length) :
    copyInto leaves got = got.take leaves.length := by
  rw [copyInto, List.drop_eq_nil_of_le enough, List.append_nil]

theorem fills_iff_enough {server : Server} {start count : Nat} (aligned : start % fullTileSize = 0) :
    Fills server start count ↔ Enough server start count := by
  constructor
  · intro fills data answered
    have fetched : batchFetch server start (List.replicate count []) =
        .ok (copyInto (List.replicate count []) (dataToLeaves data)) := by
      rw [batchFetch_eq aligned, List.length_replicate, answered]
    obtain ⟨same, answered', -, slots⟩ := fills _ List.length_replicate _ fetched
    rw [answered] at answered'
    cases answered'
    by_contra short
    obtain ⟨record, there, -⟩ := slots (dataToLeaves data).length (by omega)
    rw [List.getElem?_eq_none (le_refl _)] at there
    cases there
  · rintro enough leaves rfl filled fetched
    rw [batchFetch_eq aligned] at fetched
    cases answered : answer server start leaves.length with
    | error reason =>
      rw [answered] at fetched
      cases fetched
    | ok data =>
      rw [answered] at fetched
      cases fetched
      have sized := enough data answered
      rw [copyInto_of_enough sized]
      refine ⟨data, rfl, by simpa using sized, fun i inside => ?_⟩
      exact ⟨_, List.getElem?_eq_getElem (by omega), by
        rw [List.getElem?_take_of_lt inside, List.getElem?_eq_getElem (by omega)]⟩

end Contract

/-- The flags of sumdbclone and the size of the target checkpoint, an int64. -/
structure Settings where
  workers : Nat
  writeBatchSize : Nat
  n : Nat
  someWorker : 0 < workers
  someWrite : 0 < writeBatchSize
  word : n < 2 ^ 63

def Settings.cloner (t : Settings) : Cloner where
  workers := t.workers
  fetchBatchSize := fullTileSize
  writeBatchSize := t.writeBatchSize
  treeSize := t.n
  someWorker := t.someWorker
  someFetch := by decide
  someWrite := t.someWrite
  word := Nat.lt_trans t.word (by decide)

/-- A call of clone: at its begin, before and after the fetch of the tile that the database ends in, before
and in Clone of the cloner, at its end. -/
inductive Call where
  | begin (db : LogDb.Database)
  | prefetch (next : Nat) (db : LogDb.Database)
  | prefetched (next : Nat) (leaves : List Bytes) (db : LogDb.Database)
  | aligned (db : LogDb.Database)
  | cloning (cfg : Config) (s : Clone)
  | returned (result : Except GoError Unit) (db : LogDb.Database)

-- The tables at that point.
def Call.db : Call → LogDb.Database
  | .begin db | .prefetch _ db | .prefetched _ _ db | .aligned db | .returned _ db => db
  | .cloning _ s => s.db

/-- A call of batchFetch with what the SumDB answers to it, the end of the context, or anything else. -/
inductive CallEvent where
  | fetch (start count : Nat) (server : Server)
  | cancelled
  | quiet

def afterNext (t : Settings) (db : LogDb.Database) : Except GoError Nat → Call
  | .error _ => .returned (.error (.text "couldn't determine first leaf to fetch: %v")) db
  | .ok next =>
    if t.n ≤ next then .returned (.ok ()) db
    else if 0 < next % fullTileSize then .prefetch next db
    else .aligned db

-- The tile that `next` is in, and how many of its leaves there are.
def tileStart (next : Nat) : Nat := next - next % fullTileSize

def needed (t : Settings) (next : Nat) : Nat :=
  if t.n - tileStart next < fullTileSize then t.n - tileStart next else fullTileSize

def afterPrefetch (next : Nat) (db : LogDb.Database) : Except GoError (List Bytes) → Call
  | .error reason => .returned (.error reason) db
  | .ok leaves => .prefetched next leaves db

def afterWrite : Except GoError Unit × LogDb.Database → Call
  | (.error _, db) => .returned (.error (.text "failed to write to DB for batch starting at %d: %q")) db
  | (.ok (), db) => .aligned db

-- What a worker has after its call of batchFetch: its leaves, or an error that is the last one or is retried.
inductive Fetched (cfg : Config) (server : Server) (start : Nat) : FetchPhase → FetchPhase → Prop
  | filled {leaves : List Bytes} (good : batchFetch server start (List.replicate (cfg.count start) []) = .ok leaves) :
      Fetched cfg server start (.fetching 0) (.sending ⟨start, leaves, none⟩)
  | gaveUp {reason : GoError}
      (bad : batchFetch server start (List.replicate (cfg.count start) []) = .error reason) :
      Fetched cfg server start (.fetching 0)
        (.sending ⟨0, [], some (.wrap "LeafFetcher.Batch(%d, %d): %w" reason)⟩)
  | retried {reason : GoError} {retries : Nat}
      (bad : batchFetch server start (List.replicate (cfg.count start) []) = .error reason)
      (retryable : reason ≠ errNotFirst) :
      Fetched cfg server start (.fetching (retries + 1)) (.fetching retries)

-- In this step no fetch ends.
def Waiting (s s' : State) : Prop :=
  ∀ j start retries, s.worker j = ⟨start, .fetching retries⟩ → s'.worker j = ⟨start, .fetching retries⟩

def cloneEvent : Event → CallEvent
  | .cancelled => .cancelled
  | _ => .quiet

inductive CallStep (t : Settings) : Call → CallEvent → Call → Prop
  | next {db : LogDb.Database} (fault : Option GoError) :
      CallStep t (.begin db) .quiet (afterNext t db (firstLeaf fault db))
  | prefetch {next : Nat} {db : LogDb.Database} (server : Server) :
      CallStep t (.prefetch next db) (.fetch (tileStart next) (needed t next) server)
        (afterPrefetch next db
          (batchFetch server (tileStart next) (List.replicate (needed t next) [])))
  | write {next : Nat} {leaves : List Bytes} {db : LogDb.Database} {cancelled : Option GoError}
      {result : Except GoError Unit × LogDb.Database}
      (writes : Writes cancelled next (leaves.drop (next % fullTileSize)) db result) :
      CallStep t (.prefetched next leaves db) .quiet (afterWrite result)
  | refused {db : LogDb.Database} {headFault checkpointFault : Option GoError} {result : Except GoError Unit}
      (done : start t.n headFault checkpointFault db = .error result) :
      CallStep t (.aligned db) .quiet (.returned (result.mapError fun _ => .text "failed to clone log: %v") db)
  | clone {db : LogDb.Database} {headFault checkpointFault : Option GoError} {next : Nat} (some' : next < t.n)
      (begins : start t.n headFault checkpointFault db = .ok next) :
      CallStep t (.aligned db) .quiet
        (.cloning (t.cloner.config next some') (Clone.init t.cloner (t.cloner.config next some') db))
  | fetch {cfg : Config} {s : Clone} {j start : Nat} {before after : FetchPhase} (server : Server)
      (bound : j < cfg.workers) (at' : s.bulk.worker j = ⟨start, before⟩)
      (fetched : Fetched cfg server start before after) :
      CallStep t (.cloning cfg s) (.fetch start (cfg.count start) server)
        (.cloning cfg { s with bulk := s.bulk.setWorker j ⟨start, after⟩ })
  -- The other steps do not look at the log.
  | other {cfg : Config} {leaf : Nat → Bytes} {s s' : Clone} {e : Event}
      (taken : CloneStep t.cloner cfg leaf s e s') (waiting : Waiting s.bulk s'.bulk) :
      CallStep t (.cloning cfg s) (cloneEvent e) (.cloning cfg s')
  | returns {cfg : Config} {s : Clone} {result : Except GoError Unit} (done : s.phase = .returned result) :
      CallStep t (.cloning cfg s) .quiet
        (.returned (result.mapError fun _ => .text "failed to clone log: %v") s.db)

section Provenance

variable {P : Bytes → Prop} {t : Settings}

/-- Every leaf on its way through a download has the property. -/
structure Carries (P : Bytes → Prop) (s : State) : Prop where
  workers : ∀ j start w, s.worker j = ⟨start, .sending w⟩ → ∀ l ∈ w.leaves, P l
  collector : ∀ i start left, s.collector = .emit i start left → ∀ l ∈ left, P l
  sent : ∀ x ∈ s.sent, x.err = none → P x.leaf

theorem Carries.setWorker {s : State} (carries : Carries P s) {j start : Nat} {next : FetchPhase}
    (fine : ∀ w, next = .sending w → ∀ l ∈ w.leaves, P l) : Carries P (s.setWorker j ⟨start, next⟩) where
  workers i start' w at' := by
    by_cases here : i = j
    · subst here
      rw [s.setWorker_same] at at'
      cases at'
      exact fine w rfl
    · rw [s.setWorker_other _ here] at at'
      exact carries.workers i start' w at'
  collector := carries.collector
  sent := carries.sent

theorem Carries.offer {s : State} (carries : Carries P s) {x : BulkResult} {next : Collector}
    (offers : s.collector.Offers x next) : Carries P (s.send x next) := by
  cases at' : s.collector with
  | select _ | returned =>
    rw [at'] at offers
    cases offers
  | fail reason =>
    rw [at'] at offers
    obtain ⟨rfl, rfl⟩ := offers
    refine ⟨carries.workers, nofun, fun x member fine => ?_⟩
    rcases List.mem_append.mp member with before | last
    · exact carries.sent x before fine
    · cases List.mem_singleton.mp last
      cases fine
  | emit i start left =>
    have held := carries.collector i start left at'
    rw [at'] at offers
    cases left with
    | nil => cases offers
    | cons l left =>
      obtain ⟨rfl, rfl⟩ := offers
      refine ⟨carries.workers, fun i' start' left' same => ?_, fun x member fine => ?_⟩
      · cases same
        exact fun l' member => held l' (List.mem_cons_of_mem _ member)
      · rcases List.mem_append.mp member with before | last
        · exact carries.sent x before fine
        · cases List.mem_singleton.mp last
          exact held l List.mem_cons_self

/-- Leaves come into a download where a fetch ends, and nowhere else. -/
theorem Carries.step {cfg : Config} {leaf : Nat → Bytes} {s s' : State} {e : Event} (carries : Carries P s)
    (taken : Step cfg leaf s e s') (waiting : Waiting s s') : Carries P s' := by
  cases taken with
  | finish | ask | stop => exact carries.setWorker nofun
  | retry => exact carries.setWorker nofun
  | gaveUp => exact carries.setWorker fun w same => by cases same; nofun
  | @fetched j start bound at' =>
    have still := waiting j start 0 at'
    rw [s.setWorker_same] at still
    cases still
  | @handover i start w at' worker =>
    have moved : Carries P (s.setWorker i ⟨(start + cfg.increment) % 2 ^ 64, .looping⟩) :=
      carries.setWorker nofun
    refine ⟨moved.workers, fun i' start' left same => ?_, carries.sent⟩
    cases err : w.err with
    | some reason => simp [err] at same
    | none =>
      simp only [err, Collector.emit.injEq] at same
      obtain ⟨-, -, rfl⟩ := same
      exact carries.workers i start w worker
  | takeClosed =>
    refine ⟨carries.workers, fun i' start' left same => ?_, carries.sent⟩
    cases same
    nofun
  | ctxDone | goOn | returns => exact ⟨carries.workers, nofun, carries.sent⟩
  | send offers room => exact carries.offer offers
  | handoff offers empty =>
    have sent := carries.offer offers
    exact ⟨sent.workers, sent.collector, sent.sent⟩
  | receive => exact ⟨carries.workers, carries.collector, carries.sent⟩
  | cancel => exact ⟨carries.workers, carries.collector, carries.sent⟩

-- What has been received was sent.
theorem Carries.received {cfg : Config} {leaf : Nat → Bytes} {s s' : State} {x : BulkResult}
    (carries : Carries P s') (taken : Step cfg leaf s (.received x) s') (fine : x.err = none) : P x.leaf := by
  refine carries.sent x ?_ fine
  have member : x ∈ s'.received := by
    rw [taken.received_append.2]
    simp
  exact List.mem_of_mem_take member

/-- A table whose rows are of an earlier one or have the property. -/
def Adds (P : Bytes → Prop) (old new : LogDb.Database) : Prop :=
  ∀ id x, new.leaves.row id = some x → old.leaves.row id = some x ∨ P x

theorem Adds.writes {old db : LogDb.Database} {cancelled : Option GoError} {start : Nat} {leaves : List Bytes}
    {result : Except GoError Unit × LogDb.Database} (adds : Adds P old db)
    (writes : Writes cancelled start leaves db result) (fine : ∀ l ∈ leaves, P l) : Adds P old result.2 := by
  intro id x present
  rcases writes.origin present with before | member
  · exact adds id x before
  · exact .inr (fine x member)

def BatchCarries (P : Bytes → Prop) (s : Clone) : Prop :=
  match s.phase with
  | .receiving | .final => ∀ l ∈ s.batch.take s.bi, P l
  | .writing => ∀ l ∈ s.batch, P l
  | .returned _ => True

structure CloneCarries (P : Bytes → Prop) (c : Cloner) (old : LogDb.Database) (s : Clone) : Prop where
  bulk : Carries P s.bulk
  length : s.batch.length = c.writeBatchSize
  index : s.bi < c.writeBatchSize
  writing : s.phase = .writing → s.bi = 0
  batch : BatchCarries P s
  db : Adds P old s.db

theorem CloneCarries.init {c : Cloner} {cfg : Config} {old db : LogDb.Database} (adds : Adds P old db) :
    CloneCarries P c old (Clone.init c cfg db) where
  bulk := ⟨nofun, nofun, nofun⟩
  length := List.length_replicate
  index := c.someWrite
  writing := nofun
  batch := by simp [BatchCarries, Clone.init]
  db := adds

theorem CloneCarries.receive {c : Cloner} {old : LogDb.Database} {s : Clone} {bulk : State} {br : BulkResult}
    (carries : CloneCarries P c old s) (at' : s.phase = .receiving) (after : Carries P bulk)
    (fine : br.err = none → P br.leaf) : CloneCarries P c old (s.receive c bulk br) := by
  have held := carries.batch
  have length := carries.length
  have index := carries.index
  unfold BatchCarries at held
  rw [at'] at held
  unfold Clone.receive
  cases err : br.err with
  | some reason => exact ⟨after, carries.length, carries.index, nofun, trivial, carries.db⟩
  | none =>
    have more : ∀ l ∈ (s.batch.set s.bi br.leaf).take (s.bi + 1), P l := by
      rw [set_take _ (by omega)]
      intro l member
      rcases List.mem_append.mp member with before | last
      · exact held l before
      · cases List.mem_singleton.mp last
        exact fine err
    by_cases full : s.bi + 1 = c.writeBatchSize
    · rw [List.take_of_length_le (by simp; omega)] at more
      simp only [full, Nat.mod_self, if_pos]
      exact ⟨after, by simpa using length, c.someWrite, fun _ => rfl, more, carries.db⟩
    · have inside : s.bi + 1 < c.writeBatchSize := by omega
      simp only [Nat.mod_eq_of_lt inside, if_neg (Nat.succ_ne_zero _)]
      exact ⟨after, by simpa using length, inside, nofun, more, carries.db⟩

theorem CloneCarries.step {c : Cloner} {cfg : Config} {leaf : Nat → Bytes} {old : LogDb.Database} {s s' : Clone}
    {e : Event} (carries : CloneCarries P c old s) (taken : CloneStep c cfg leaf s e s')
    (waiting : Waiting s.bulk s'.bulk) : CloneCarries P c old s' := by
  have held := carries.batch
  unfold BatchCarries at held
  cases taken with
  | download taken quiet =>
    exact ⟨carries.bulk.step taken waiting, carries.length, carries.index, carries.writing, carries.batch,
      carries.db⟩
  | @receive br bulk at' taken =>
    have same : (s.receive c bulk br).bulk = bulk := by
      unfold Clone.receive
      cases br.err <;> rfl
    rw [same] at waiting
    have after := carries.bulk.step taken waiting
    exact carries.receive at' after (after.received taken)
  | @write result at' writes =>
    rw [at'] at held
    have adds := carries.db.writes writes held
    have empty := carries.writing at'
    obtain ⟨outcome, db⟩ := result
    cases outcome with
    | ok _ =>
      exact ⟨carries.bulk, carries.length, carries.index, nofun,
        by simp [BatchCarries, Clone.written, empty], adds⟩
    | error reason => exact ⟨carries.bulk, carries.length, carries.index, nofun, trivial, adds⟩
  | drained at' closed empty =>
    rw [at'] at held
    by_cases left : 0 < s.bi
    · rw [if_pos left]
      exact ⟨carries.bulk, carries.length, carries.index, nofun, held, carries.db⟩
    · rw [if_neg left]
      exact ⟨carries.bulk, carries.length, carries.index, nofun, trivial, carries.db⟩
  | @writeFinal result at' writes =>
    rw [at'] at held
    have adds := carries.db.writes writes held
    obtain ⟨outcome, db⟩ := result
    cases outcome with
    | ok _ => exact ⟨carries.bulk, carries.length, carries.index, nofun, trivial, adds⟩
    | error reason => exact ⟨carries.bulk, carries.length, carries.index, nofun, trivial, adds⟩

-- The leaves that a call of clone has are in place as well.
def CallCarries (P : Bytes → Prop) (t : Settings) (old : LogDb.Database) : Call → Prop
  | .prefetched _ leaves db => (∀ l ∈ leaves, P l) ∧ Adds P old db
  | .cloning _ s => CloneCarries P t.cloner old s
  | s => Adds P old s.db

theorem CallCarries.db {old : LogDb.Database} {s : Call} (carries : CallCarries P t old s) : Adds P old s.db := by
  cases s with
  | prefetched => exact carries.2
  | cloning => exact CloneCarries.db carries
  | begin | prefetch | aligned | returned => exact carries

/-- Every response of the run is one of these and has enough records. -/
def Answers (responses : Bytes → Prop) : CallEvent → Prop
  | .fetch start count server =>
    Enough server start count ∧ ∀ data, answer server start count = .ok data → responses data
  | _ => True

def RecordOf (responses : Bytes → Prop) (leaf : Bytes) : Prop :=
  ∃ data, responses data ∧ leaf ∈ dataToLeaves data

-- A call that gets enough records brings nothing else.
theorem batchFetch_records {responses : Bytes → Prop} {server : Server} {start count : Nat} {leaves : List Bytes}
    (answers : Answers responses (.fetch start count server))
    (good : batchFetch server start (List.replicate count []) = .ok leaves) :
    ∀ l ∈ leaves, RecordOf responses l := by
  have aligned : start % fullTileSize = 0 := by
    by_contra other
    rw [batchFetch, if_pos (Nat.pos_of_ne_zero other)] at good
    cases good
  rw [batchFetch_eq aligned, List.length_replicate] at good
  cases answered : answer server start count with
  | error reason =>
    rw [answered] at good
    cases good
  | ok data =>
    rw [answered] at good
    cases good
    intro l member
    rw [copyInto_of_enough (by simpa using answers.1 data answered)] at member
    exact ⟨data, answers.2 data answered, List.mem_of_mem_take member⟩

theorem CallCarries.step {responses : Bytes → Prop} {old : LogDb.Database} {s s' : Call} {e : CallEvent}
    (carries : CallCarries (RecordOf responses) t old s) (answers : Answers responses e)
    (taken : CallStep t s e s') : CallCarries (RecordOf responses) t old s' := by
  cases taken with
  | @next db fault =>
    have adds : Adds (RecordOf responses) old db := carries
    cases firstLeaf fault db with
    | error reason => exact adds
    | ok next =>
      unfold afterNext
      dsimp only
      split
      · exact adds
      · split <;> exact adds
  | @prefetch next db server =>
    cases fetched : batchFetch server (tileStart next) (List.replicate (needed t next) []) with
    | error reason => exact carries
    | ok leaves => exact ⟨batchFetch_records answers fetched, carries⟩
  | @write next leaves db cancelled result writes =>
    have adds := carries.2.writes writes fun l member => carries.1 l (List.mem_of_mem_drop member)
    obtain ⟨outcome, db⟩ := result
    cases outcome <;> exact adds
  | refused => exact carries
  | clone => exact CloneCarries.init carries
  | @fetch cfg s j start before after server bound at' fetched =>
    have held : CloneCarries (RecordOf responses) t.cloner old s := carries
    have moved : Carries (RecordOf responses) (s.bulk.setWorker j ⟨start, after⟩) := by
      cases fetched with
      | filled good =>
        refine held.bulk.setWorker fun w same => ?_
        cases same
        exact batchFetch_records answers good
      | gaveUp bad =>
        refine held.bulk.setWorker fun w same => ?_
        cases same
        nofun
      | retried bad retryable => exact held.bulk.setWorker nofun
    exact ⟨moved, held.length, held.index, held.writing, held.batch, held.db⟩
  | other taken waiting => exact CloneCarries.step carries taken waiting
  | returns => exact CloneCarries.db carries

/-- batchFetch keeps its contract where the response has enough records, and only there; and in a run in
which every response does, the leaves stored come from the responses. -/
theorem clone_stores_responses (t : Settings) :
    (∀ (server : Server) (start count : Nat), start % fullTileSize = 0 → 1 ≤ count → count ≤ fullTileSize →
      (Fills server start count ↔ Enough server start count)) ∧
    ∀ (responses : Bytes → Prop) (db : LogDb.Database) (s : Call),
      Runs.Reaches (CallStep t) (Answers responses) (.begin db) s →
      ∀ id x, s.db.leaves.row id = some x → db.leaves.row id = some x ∨ RecordOf responses x := by
  refine ⟨fun server start count aligned _ _ => fills_iff_enough aligned, fun responses db s run => ?_⟩
  have begin : CallCarries (RecordOf responses) t db (.begin db) := fun id x present => .inl present
  have carries : CallCarries (RecordOf responses) t db s :=
    run.keeps _ begin fun answers taken carries => carries.step answers taken
  exact carries.db

def threeLeaves : Settings := ⟨1, 1, 3, Nat.one_pos, Nat.one_pos, by decide⟩

-- One leaf of the three has been cloned before.
def oneStored : LogDb.Database := ⟨.set .empty 0 [97, 10], .empty⟩

def partAnswer (data : Bytes) : Server := ⟨fun _ => .error (.text "not found"), fun _ _ => .ok data⟩

theorem oneStored_first : firstLeaf none oneStored = .ok 1 := by
  have holds : oneStored.leaves.Holds [[97, 10]] := by
    intro id
    cases id with
    | zero => rfl
    | succ id => rfl
  unfold firstLeaf LogDb.Database.head
  rw [holds.max?]
  rfl

-- The call up to the write of what came with the tile.
theorem threeLeaves_run {Allowed : CallEvent → Prop} {server : Server} {data : Bytes} (quiet : Allowed .quiet)
    (allowed : Allowed (.fetch 0 3 server)) (answered : server.part 0 3 = .ok data) :
    Runs.Reaches (CallStep threeLeaves) Allowed (.begin oneStored)
      (.aligned (oneStored.writeLeaves .clean 1 ((copyInto [[], [], []] (dataToLeaves data)).drop 1)).2) := by
  have begin : Runs.Reaches (CallStep threeLeaves) Allowed (.begin oneStored) (.begin oneStored) := .refl
  have first := begin.step quiet (.next none)
  rw [oneStored_first] at first
  have fetched := first.step allowed (.prefetch server)
  have brought : batchFetch server 0 [[], [], []] = .ok (copyInto [[], [], []] (dataToLeaves data)) := by
    have same : answer server 0 3 = .ok data := answered
    rw [batchFetch_eq (by decide)]
    simp only [List.length_cons, List.length_nil, Nat.zero_add, Nat.reduceAdd, same]
  have prefetched : Runs.Reaches (CallStep threeLeaves) Allowed (.begin oneStored)
      (afterPrefetch 1 oneStored (batchFetch server 0 [[], [], []])) := fetched
  rw [brought] at prefetched
  exact prefetched.step quiet (@CallStep.write _ _ _ _ none _ (.inl ⟨.clean, fun _ _ => rfl, absurd rfl, rfl⟩))

theorem clone_stores_responses_three :
    ∃ s, Runs.Reaches (CallStep threeLeaves) (Answers (· = [97, 10, 10, 98, 10, 10, 99, 10])) (.begin oneStored) s ∧
      s.db.leaves.row 1 = some [98, 10] ∧ RecordOf (· = [97, 10, 10, 98, 10, 10, 99, 10]) [98, 10] := by
  have run := @threeLeaves_run (Answers (· = [97, 10, 10, 98, 10, 10, 99, 10]))
    (partAnswer [97, 10, 10, 98, 10, 10, 99, 10]) _ trivial
    ⟨fun data same => by cases same; decide, fun data same => by cases same; rfl⟩ rfl
  have stored := (clone_stores_responses threeLeaves).2 _ _ _ run 1 [98, 10] rfl
  exact ⟨_, run, rfl, stored.resolve_left nofun⟩

/-- The server sends one record where three are asked for: two slots stay empty, batchFetch returns nil and
clone stores leaves that nobody sent. -/
theorem short_response_stored :
    ¬ Fills (partAnswer [97, 10]) 0 3 ∧
    ∃ s, Runs.Reaches (CallStep threeLeaves)
        (fun e => ∀ start count server, e = .fetch start count server → server = partAnswer [97, 10])
        (.begin oneStored) s ∧
      oneStored.leaves.row 1 = none ∧ s.db.leaves.row 1 = some [] ∧ s.db.leaves.row 2 = some [] ∧
      ¬ RecordOf (· = [97, 10]) [] := by
  refine ⟨fun fills => ?_, _, @threeLeaves_run _ (partAnswer [97, 10]) _ nofun ?_ rfl, rfl, rfl, rfl, ?_⟩
  · have enough := (fills_iff_enough (by decide)).mp fills [97, 10] rfl
    exact absurd enough (by decide)
  · intro start count server same
    cases same
    rfl
  · rintro ⟨data, rfl, member⟩
    exact absurd member (by decide)

end Provenance

end SumDbClone
