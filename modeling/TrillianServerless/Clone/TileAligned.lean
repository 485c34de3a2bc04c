import TrillianServerless.Clone.SumDbClone

set_option autoImplicit false

namespace SumDbClone

open Go Sql Cloning Download Audit

section Honest

variable (leaf : Nat → Bytes) (n : Nat)

/-- A SumDB whose leaves before `n` are records, which it sends joined by newlines or not at all. -/
structure Honest (server : Server) : Prop where
  full : ∀ offset data, (offset + 1) * fullTileSize ≤ n → server.full offset = .ok data →
    data = [10].intercalate (leavesFrom leaf (offset * fullTileSize) fullTileSize)
  part : ∀ offset count data, offset * fullTileSize + count ≤ n → server.part offset count = .ok data →
    data = [10].intercalate (leavesFrom leaf (offset * fullTileSize) count)

variable {leaf n} {server : Server} {start count : Nat}

theorem Honest.answer (honest : Honest leaf n server) (aligned : start % fullTileSize = 0)
    (inside : start + count ≤ n) {data : Bytes} (answered : answer server start count = .ok data) :
    data = [10].intercalate (leavesFrom leaf start count) := by
  have offset : start >>> tileHeight * fullTileSize = start := by
    simp only [tileHeight, Nat.shiftRight_eq_div_pow]
    exact Nat.div_mul_cancel (Nat.dvd_of_mod_eq_zero aligned)
  unfold SumDbClone.answer at answered
  split at answered
  next all =>
    have whole := honest.full (start >>> tileHeight) data (by rw [Nat.succ_mul, offset, ← all]; exact inside) answered
    rwa [offset, ← all] at whole
  next =>
    have some' := honest.part (start >>> tileHeight) count data (by rw [offset]; exact inside) answered
    rwa [offset] at some'

-- A call that is answered brings the leaves it was made for.
theorem Honest.fetched (honest : Honest leaf n server) (records : ∀ i < n, IsRecord (leaf i))
    (aligned : start % fullTileSize = 0) (positive : 0 < count) (inside : start + count ≤ n) {leaves : List Bytes}
    (good : batchFetch server start (List.replicate count []) = .ok leaves) : leaves =
      leavesFrom leaf start count := by
  rw [batchFetch_eq aligned, List.length_replicate] at good
  cases answered : SumDbClone.answer server start count with
  | error reason =>
    rw [answered] at good
    cases good
  | ok data =>
    rw [answered] at good
    cases good
    have length : (leavesFrom leaf start count).length = count := by simp [leavesFrom]
    have nonempty : leavesFrom leaf start count ≠ [] := List.ne_nil_of_length_pos (by omega)
    rw [honest.answer aligned inside answered, dataToLeaves_records _ nonempty, copyInto_of_enough (by simp [length]),
      List.length_replicate]
    · exact List.take_of_length_le (Nat.le_of_eq length)
    · intro record member
      obtain ⟨i, inRange, rfl⟩ := List.mem_map.mp member
      rw [List.mem_range'_1] at inRange
      exact records i (by omega)

theorem aligned_not_refused (aligned : start % fullTileSize = 0) (leaves : List Bytes) :
    batchFetch server start leaves ≠ .error errNotFirst := by
  rw [batchFetch_eq aligned]
  cases SumDbClone.answer server start leaves.length with
  | error reason => simp [errNotFirst]
  | ok data => simp

end Honest

section Workers

/-- Every worker stands at the first leaf of a tile, and one that fetches has leaves to fetch. -/
def WorkersAligned (cfg : Config) (s : State) : Prop :=
  ∀ j, (s.worker j).start % fullTileSize = 0 ∧
    ∀ retries, (s.worker j).phase = .fetching retries → (s.worker j).start < cfg.treeSize

variable {cfg : Config} {leaf : Nat → Bytes} {s s' : State} {e : Event}

theorem WorkersAligned.init (size : cfg.batchSize = fullTileSize) (first : cfg.first % fullTileSize = 0) :
    WorkersAligned cfg cfg.init := by
  intro j
  refine ⟨?_, nofun⟩
  simp only [Config.init, Config.startOf, size, fullTileSize, tileHeight, Nat.reduceShiftLeft] at first ⊢
  omega

theorem WorkersAligned.setWorker (aligned : WorkersAligned cfg s) {j : Nat} {w : FetchWorker}
    (start : w.start % fullTileSize = 0) (fetching : ∀ retries, w.phase = .fetching retries →
      w.start < cfg.treeSize) :
    WorkersAligned cfg (s.setWorker j w) := by
  intro i
  by_cases here : i = j
  · subst here
    rw [s.setWorker_same]
    exact ⟨start, fetching⟩
  · rw [s.setWorker_other _ here]
    exact aligned i

theorem WorkersAligned.at (aligned : WorkersAligned cfg s) {j start : Nat} {phase : FetchPhase}
    (at' : s.worker j = ⟨start, phase⟩) :
    start % fullTileSize = 0 ∧ ∀ retries, phase = .fetching retries → start < cfg.treeSize := by
  have here := aligned j
  rwa [at'] at here

-- The strides of the workers are whole tiles, also where they run over.
theorem WorkersAligned.step (aligned : WorkersAligned cfg s) (size : cfg.batchSize = fullTileSize)
    (taken : Step cfg leaf s e s') : WorkersAligned cfg s' := by
  cases taken with
  | finish bound at' | stop bound at' | fetched bound at' | gaveUp bound at' =>
    exact aligned.setWorker (aligned.at at').1 nofun
  | ask bound at' inside => exact aligned.setWorker (aligned.at at').1 fun _ _ => inside
  | retry bound at' => exact aligned.setWorker (aligned.at at').1 fun _ _ => (aligned.at at').2 _ rfl
  | @handover i start c at' worker =>
    have begin := (aligned.at worker).1
    refine aligned.setWorker ?_ nofun
    simp only [Config.increment, size, fullTileSize, tileHeight, Nat.reduceShiftLeft] at begin ⊢
    omega
  | takeClosed | ctxDone | goOn | returns | send | handoff | receive | cancel => exact aligned

end Workers

section Calls

variable {t : Settings} {leaf : Nat → Bytes} {m : Nat} {running : Prop}

def HonestEvent (leaf : Nat → Bytes) (n : Nat) : CallEvent → Prop
  | .fetch _ _ server => Honest leaf n server
  | _ => True

-- A download of whole tiles for this call.
structure TileConfig (t : Settings) (cfg : Config) : Prop where
  size : cfg.batchSize = fullTileSize
  target : cfg.treeSize = t.n
  first : cfg.first % fullTileSize = 0

/-- Where a call on a database with the first `m` leaves stands; `running` says that nobody cancels it. -/
def CallOk (t : Settings) (leaf : Nat → Bytes) (m : Nat) (running : Prop) : Call → Prop
  | .begin db => db.leaves.Holds (cloned leaf m)
  | .prefetch next db => next = m ∧ m < t.n ∧ db.leaves.Holds (cloned leaf m)
  | .prefetched next leaves db => next = m ∧ m < t.n ∧ db.leaves.Holds (cloned leaf m) ∧
      leaves = leavesFrom leaf (tileStart m) (needed t m)
  | .aligned db => m ≤ t.n ∧ ∃ m', (m' % fullTileSize = 0 ∨ m' = t.n) ∧ m' ≤ t.n ∧ db.leaves.Holds (cloned leaf m')
  | .cloning cfg s => m ≤ t.n ∧ TileConfig t cfg ∧ WorkersAligned cfg s.bulk ∧ CloneSafe t.cloner cfg leaf s ∧
      (running → s.bulk.cancelled = none)
  | .returned result db => running → result = .ok () → db.leaves.Holds (cloned leaf (max m t.n))

theorem tileStart_add (next : Nat) : tileStart next + next % fullTileSize = next := by
  have := Nat.mod_le next fullTileSize
  unfold tileStart
  omega

theorem tileStart_aligned (next : Nat) : tileStart next % fullTileSize = 0 := by
  unfold tileStart
  simp only [fullTileSize, tileHeight, Nat.reduceShiftLeft]
  omega

-- The rest of the tile, as far as the log has it.
theorem needed_cases (inside : m < t.n) :
    m % fullTileSize < needed t m ∧ tileStart m + needed t m ≤ t.n ∧
      (needed t m = fullTileSize ∨ needed t m < fullTileSize ∧ tileStart m + needed t m = t.n) := by
  have sum := tileStart_add m
  have small : m % fullTileSize < fullTileSize := Nat.mod_lt _ (by decide)
  unfold needed
  split <;> omega

theorem count_cases {cfg : Config} (tiles : TileConfig t cfg) {start : Nat} (inside : start < cfg.treeSize) :
    0 < cfg.count start ∧ start + cfg.count start ≤ t.n ∧
      (cfg.count start = fullTileSize ∨ cfg.count start < fullTileSize ∧ start + cfg.count start = t.n) := by
  have positive : 0 < fullTileSize := by decide
  have target := tiles.target
  unfold Config.count
  rw [tiles.size]
  split <;> omega

theorem CallOk.next {db : LogDb.Database} {fault : Option GoError} (holds : db.leaves.Holds (cloned leaf m)) :
    CallOk t leaf m running (afterNext t db (firstLeaf fault db)) := by
  cases first : firstLeaf fault db with
  | error reason => nofun
  | ok next =>
    obtain rfl := firstLeaf_of_holds holds first
    unfold afterNext
    dsimp only
    split
    next enough =>
      intro _ _
      rwa [Nat.max_eq_left enough]
    next more =>
      split
      next rem => exact ⟨rfl, by omega, holds⟩
      next rem => exact ⟨by omega, next, .inl (by omega), by omega, holds⟩

theorem CallOk.prefetch {next : Nat} {db : LogDb.Database} {server : Server}
    (ok : CallOk t leaf m running (.prefetch next db)) (records : ∀ i < t.n, IsRecord (leaf i))
    (honest : Honest leaf t.n server) :
    CallOk t leaf m running (afterPrefetch next db
      (batchFetch server (tileStart next) (List.replicate (needed t next) []))) := by
  obtain ⟨rfl, inside, holds⟩ := ok
  cases fetched : batchFetch server (tileStart next) (List.replicate (needed t next) []) with
  | error reason => nofun
  | ok leaves =>
    obtain ⟨some', within, -⟩ := needed_cases inside
    exact ⟨rfl, inside, holds, honest.fetched records (tileStart_aligned _) (by omega) within fetched⟩

theorem drop_leavesFrom (start rem count : Nat) :
    (leavesFrom leaf start (rem + count)).drop rem = leavesFrom leaf (start + rem) count := by
  unfold leavesFrom
  rw [← List.range'_append_1, List.map_append]
  exact List.drop_left' (by simp)

theorem CallOk.write {next : Nat} {leaves : List Bytes} {db : LogDb.Database} {cancelled : Option GoError}
    {result : Except GoError Unit × LogDb.Database} (ok : CallOk t leaf m running (.prefetched next leaves db))
    (writes : Writes cancelled next (leaves.drop (next % fullTileSize)) db result) :
    CallOk t leaf m running (afterWrite result) := by
  obtain ⟨rfl, inside, holds, rfl⟩ := ok
  obtain ⟨some', within, rest⟩ := needed_cases inside
  have sum := tileStart_add next
  have word := t.word
  obtain ⟨count, split⟩ : ∃ count, needed t next = next % fullTileSize + count :=
    ⟨_, (Nat.add_sub_of_le some'.le).symm⟩
  rw [split, drop_leavesFrom, sum] at writes
  obtain ⟨outcome, db'⟩ := result
  rcases writes.holds holds (by omega) with ⟨good, stored⟩ | ⟨⟨reason, bad⟩, -⟩
  · dsimp only at good stored
    subst good
    refine ⟨by omega, next + count, ?_, by omega, stored⟩
    rcases rest with full | ⟨-, all⟩
    · left
      rw [← sum, Nat.add_assoc, ← split, full, Nat.add_mod_right]
      exact tileStart_aligned next
    · exact .inr (by omega)
  · dsimp only at bad
    subst bad
    nofun

theorem CallOk.refused {db : LogDb.Database} {headFault checkpointFault : Option GoError}
    {result : Except GoError Unit} (ok : CallOk t leaf m running (.aligned db))
    (done : start t.n headFault checkpointFault db = .error result) :
    CallOk t leaf m running (.returned (result.mapError fun _ => .text "failed to clone log: %v") db) := by
  obtain ⟨within, m', -, upper, holds⟩ := ok
  intro _ good
  cases result with
  | error reason => cases good
  | ok _ =>
    have enough := (start_of_holds holds).1 done
    rw [Nat.max_eq_right within, show t.n = m' by omega]
    exact holds

theorem CallOk.clone {db : LogDb.Database} {headFault checkpointFault : Option GoError} {next : Nat}
    (some' : next < t.n) (ok : CallOk t leaf m running (.aligned db))
    (begins : start t.n headFault checkpointFault db = .ok next) :
    CallOk t leaf m running
      (.cloning (t.cloner.config next some') (Clone.init t.cloner (t.cloner.config next some') db)) := by
  obtain ⟨within, m', whole, upper, holds⟩ := ok
  obtain ⟨rfl, -⟩ := (start_of_holds holds).2 next begins
  have first : next % fullTileSize = 0 := whole.resolve_right (by omega)
  exact ⟨within, ⟨rfl, rfl, first⟩, .init rfl first, .inl (.init holds), fun _ => rfl⟩

-- The end of a fetch is a step of the download from an honest log.
theorem Fetched.step {cfg : Config} {s : Clone} {server : Server} {j begin : Nat} {before after : FetchPhase}
    (fetched : Fetched cfg server begin before after) (bound : j < cfg.workers)
    (at' : s.bulk.worker j = ⟨begin, before⟩)
    (filled : ∀ leaves, batchFetch server begin (List.replicate (cfg.count begin) []) = .ok leaves →
      leaves = leavesFrom leaf begin (cfg.count begin)) :
    ∃ e, e ≠ .cancelled ∧
      CloneStep t.cloner cfg leaf s e { s with bulk := s.bulk.setWorker j ⟨begin, after⟩ } := by
  cases fetched with
  | filled good =>
    cases filled _ good
    exact ⟨.worked, nofun, .download (.fetched bound at') nofun⟩
  | gaveUp bad => exact ⟨.failed, nofun, .download (.gaveUp bound at' _) nofun⟩
  | retried bad retryable => exact ⟨.worked, nofun, .download (.retry bound at') nofun⟩

-- A step in which no fetch ends is one whatever the log is.
theorem Waiting.step {cfg : Config} {any : Nat → Bytes} {s s' : State} {e : Event}
    (waiting : Waiting s s') (taken : Step cfg any s e s') : Step cfg leaf s e s' := by
  cases taken with
  | finish bound at' beyond => exact .finish bound at' beyond
  | ask bound at' inside retries => exact .ask bound at' inside retries
  | retry bound at' => exact .retry bound at'
  | @fetched j start bound at' =>
    have still := waiting j start 0 at'
    rw [s.setWorker_same] at still
    cases still
  | gaveUp bound at' reason => exact .gaveUp bound at' reason
  | stop bound at' done => exact .stop bound at' done
  | handover at' worker => exact .handover at' worker
  | takeClosed at' worker => exact .takeClosed at' worker
  | ctxDone at' done => exact .ctxDone at' done
  | goOn at' more => exact .goOn at' more
  | returns at' last => exact .returns at' last
  | send offers room => exact .send offers room
  | handoff offers empty => exact .handoff offers empty
  | receive buffered => exact .receive buffered
  | cancel running reason => exact .cancel running reason

theorem receive_bulk (c : Cloner) (s : Clone) (bulk : State) (br : BulkResult) : (s.receive c bulk br).bulk =
    bulk := by
  unfold Clone.receive
  cases br.err <;> rfl

theorem written_bulk (s : Clone) (result : Except GoError Unit × LogDb.Database) :
    (s.written result).bulk = s.bulk ∧ (s.finalWritten result).bulk = s.bulk := by
  obtain ⟨outcome, db⟩ := result
  cases outcome <;> exact ⟨rfl, rfl⟩

theorem Waiting.cloneStep {c : Cloner} {cfg : Config} {any : Nat → Bytes} {s s' : Clone} {e : Event}
    (waiting : Waiting s.bulk s'.bulk) (taken : CloneStep c cfg any s e s') : CloneStep c cfg leaf s e s' := by
  cases taken with
  | download taken quiet => exact .download (waiting.step taken) quiet
  | receive at' taken =>
    rw [receive_bulk] at waiting
    exact .receive at' (waiting.step taken)
  | write at' writes => exact .write at' writes
  | drained at' closed empty => exact .drained at' closed empty
  | writeFinal at' writes => exact .writeFinal at' writes

-- What a step of Clone does to the download is a step of that or nothing.
theorem bulk_of_cloneStep {c : Cloner} {cfg : Config} {s s' : Clone} {e : Event}
    (taken : CloneStep c cfg leaf s e s') :
    Step cfg leaf s.bulk e s'.bulk ∨ s'.bulk = s.bulk ∧ e = .worked := by
  cases taken with
  | download taken quiet => exact .inl taken
  | receive at' taken =>
    rw [receive_bulk]
    exact .inl taken
  | write at' writes => exact .inr ⟨(written_bulk _ _).1, rfl⟩
  | drained at' closed empty => exact .inr ⟨rfl, rfl⟩
  | writeFinal at' writes => exact .inr ⟨(written_bulk _ _).2, rfl⟩

theorem CallOk.cloneStep {cfg : Config} {s s' : Clone} {e : Event} (ok : CallOk t leaf m running (.cloning cfg s))
    (taken : CloneStep t.cloner cfg leaf s e s') (uncancelled : running → e ≠ .cancelled) :
    CallOk t leaf m running (.cloning cfg s') := by
  obtain ⟨within, tiles, aligned, safe, quiet⟩ := ok
  refine ⟨within, tiles, ?_, safe.step taken, fun run => ?_⟩
  · rcases bulk_of_cloneStep taken with moved | ⟨same, -⟩
    · exact aligned.step tiles.size moved
    · rw [same]
      exact aligned
  · rcases bulk_of_cloneStep taken with moved | ⟨same, -⟩
    · rw [moved.cancelled_eq (uncancelled run)]
      exact quiet run
    · rw [same]
      exact quiet run

theorem CallOk.step {s s' : Call} {e : CallEvent} (ok : CallOk t leaf m running s)
    (records : ∀ i < t.n, IsRecord (leaf i)) (honest : HonestEvent leaf t.n e)
      (uncancelled : running → e ≠ .cancelled)
    (taken : CallStep t s e s') : CallOk t leaf m running s' := by
  cases taken with
  | next fault => exact CallOk.next ok
  | prefetch server => exact ok.prefetch records honest
  | write writes => exact ok.write writes
  | refused done => exact ok.refused done
  | clone some' begins => exact ok.clone some' begins
  | @fetch cfg s j begin before after server bound at' fetched =>
    obtain ⟨e, quiet, taken⟩ := @Fetched.step t leaf _ _ _ _ _ _ _ fetched bound at' fun leaves good => by
      obtain ⟨-, tiles, aligned, -, -⟩ := ok
      obtain ⟨first, inside⟩ := aligned.at at'
      have within : begin < cfg.treeSize := by
        cases fetched with
        | filled | gaveUp | retried => exact inside _ rfl
      obtain ⟨positive, upper, -⟩ := count_cases tiles within
      exact honest.fetched records first positive upper good
    exact ok.cloneStep taken fun _ => quiet
  | @other cfg any s s' e taken waiting =>
    exact ok.cloneStep (waiting.cloneStep taken) fun run same => by
      subst same
      exact uncancelled run rfl
  | @returns cfg s result done =>
    obtain ⟨within, tiles, -, safe, quiet⟩ := ok
    intro run good
    cases result with
    | error reason => cases good
    | ok _ =>
      have stage := (safe.resolve_right fun other => other.1 (quiet run)).stage
      unfold Stage at stage
      rw [done] at stage
      rw [Nat.max_eq_right within, ← tiles.target]
      exact stage

/-- A call of batchFetch asks for a whole tile or for what the target has of its last one. -/
def TileRequest (n start count : Nat) : Prop :=
  start % fullTileSize = 0 ∧ (count = fullTileSize ∧ start + count ≤ n ∨ count < fullTileSize ∧ start + count = n)

theorem CallOk.request {s s' : Call} {start count : Nat} {server : Server} (ok : CallOk t leaf m running s)
    (taken : CallStep t s (.fetch start count server) s') : TileRequest t.n start count := by
  generalize event : CallEvent.fetch start count server = e at taken
  cases taken with
  | @prefetch next db server =>
    cases event
    obtain ⟨rfl, inside, -⟩ := ok
    obtain ⟨-, upper, size⟩ := needed_cases inside
    exact ⟨tileStart_aligned next, size.imp_left fun full => ⟨full, upper⟩⟩
  | @fetch cfg s j begin before after server bound at' fetched =>
    cases event
    obtain ⟨-, tiles, aligned, -, -⟩ := ok
    obtain ⟨first, inside⟩ := aligned.at at'
    have within : start < cfg.treeSize := by
      cases fetched with
      | filled | gaveUp | retried => exact inside _ rfl
    obtain ⟨-, upper, size⟩ := count_cases tiles within
    exact ⟨first, size.imp_left fun full => ⟨full, upper⟩⟩
  | @other cfg any s s' e taken waiting => cases e <;> cases event
  | next | write | refused | clone | returns => cases event

/-- Whatever the schedule, batchFetch is called for tiles only and never refuses a call; and a call of clone
that returns nil has cloned the log up to its target. -/
theorem clone_tile_aligned (t : Settings) (leaf : Nat → Bytes) (records : ∀ i < t.n, IsRecord (leaf i))
    (db : LogDb.Database) (next : Nat) (holds : db.leaves.Holds (cloned leaf next)) :
    (∀ s, Runs.Reaches (CallStep t) (HonestEvent leaf t.n) (.begin db) s →
      ∀ start count server s', CallStep t s (.fetch start count server) s' →
        TileRequest t.n start count ∧
          batchFetch server start (List.replicate count []) ≠ .error errNotFirst) ∧
    ∀ db', Runs.Reaches (CallStep t) (fun e => HonestEvent leaf t.n e ∧ e ≠ .cancelled) (.begin db)
        (.returned (.ok ()) db') →
      db'.leaves.Holds (cloned leaf (max next t.n)) := by
  constructor
  · intro s run start count server s' taken
    have ok : CallOk t leaf next False s :=
      run.keeps _ (show CallOk t leaf next False (.begin db) from holds) fun honest taken ok =>
        ok.step records honest nofun taken
    have request := ok.request taken
    exact ⟨request, aligned_not_refused request.1 _⟩
  · intro db' run
    have ok : CallOk t leaf next True (.returned (.ok ()) db') :=
      run.keeps (CallOk t leaf next True) holds fun allowed taken ok =>
        ok.step records allowed.1 (fun _ => allowed.2) taken
    exact ok trivial rfl

section Abc

def abc (i : Nat) : Bytes := if i = 0 then [97, 10] else if i = 1 then [98, 10] else [99, 10]

def abcServer : Server where
  full offset := .ok ([10].intercalate (leavesFrom abc (offset * fullTileSize) fullTileSize))
  part offset count := .ok ([10].intercalate (leavesFrom abc (offset * fullTileSize) count))

theorem abcServer_honest : Honest abc 3 abcServer := by
  refine ⟨fun offset data _ same => ?_, fun offset count data _ same => ?_⟩
  · cases same
    rfl
  · cases same
    rfl

theorem abc_record (i : Nat) : IsRecord (abc i) := by
  have twoBytes : ∀ c : UInt8, c ≠ 10 → IsRecord [c, 10] := by
    intro c other
    refine ⟨rfl, by simpa using other, fun j => ?_⟩
    match j with
    | 0 => simp [other]
    | 1 | j + 2 => simp
  unfold abc
  split
  · exact twoBytes 97 (by decide)
  · split
    · exact twoBytes 98 (by decide)
    · exact twoBytes 99 (by decide)

-- The call that has to fetch the rest of the first tile.
theorem clone_tile_aligned_three :
    ∃ db' : LogDb.Database, Runs.Reaches (CallStep threeLeaves)
        (fun e => HonestEvent abc 3 e ∧ e ≠ .cancelled) (.begin oneStored) (.returned (.ok ()) db') ∧
      db'.leaves.Holds (cloned abc 3) := by
  have stored : oneStored.leaves.Holds (cloned abc 1) := by
    intro id
    cases id with
    | zero => rfl
    | succ id => rfl
  obtain ⟨db', aligned, enough⟩ : ∃ db', Runs.Reaches (CallStep threeLeaves)
      (fun e => HonestEvent abc 3 e ∧ e ≠ .cancelled) (.begin oneStored) (.aligned db') ∧
      start threeLeaves.n none none db' = .error (.ok ()) :=
    ⟨_, @threeLeaves_run _ abcServer _ ⟨trivial, nofun⟩ ⟨abcServer_honest, nofun⟩ rfl, rfl⟩
  have quiet : HonestEvent abc 3 .quiet ∧ CallEvent.quiet ≠ .cancelled := ⟨trivial, nofun⟩
  have returned := aligned.step quiet (.refused enough)
  exact ⟨_, returned, (clone_tile_aligned threeLeaves abc (fun i _ => abc_record i) oneStored 1 stored).2 _ returned⟩

end Abc

end Calls

end SumDbClone
