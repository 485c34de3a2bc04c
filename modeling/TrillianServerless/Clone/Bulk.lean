import Mathlib.Algebra.BigOperators.Group.Finset.Basic
import TrillianServerless.Shared.Go
import TrillianServerless.Shared.Runs

set_option autoImplicit false

namespace Download

open Go

structure BulkResult where
  leaf : Bytes
  err : Option GoError
  deriving DecidableEq

structure WorkerResult where
  start : Nat
  leaves : List Bytes
  err : Option GoError
  deriving DecidableEq

/-- The arguments of a download, with the capacity of its result channel. -/
structure Config where
  first : Nat
  treeSize : Nat
  workers : Nat
  batchSize : Nat
  capacity : Nat
  nonempty : first < treeSize
  word : treeSize < 2 ^ 64
  someWorker : 0 < workers
  someBatch : 0 < batchSize

-- A fetch has `retries` retryable errors still to come.
inductive FetchPhase where
  | looping
  | fetching (retries : Nat)
  | sending (c : WorkerResult)
  | closed

structure FetchWorker where
  start : Nat
  phase : FetchPhase

-- Where the main loop stands: at its select, on the way through r.leaves, with an error to pass on, done.
inductive Collector where
  | select (i : Nat)
  | emit (i start : Nat) (left : List Bytes)
  | fail (reason : GoError)
  | returned

/-- What has been sent on the result channel, and how much of it has been taken; the rest is its buffer. -/
structure State where
  worker : Nat → FetchWorker
  collector : Collector
  sent : List BulkResult
  taken : Nat
  cancelled : Option GoError

inductive Event where
  | worked
  | failed
  | closedTaken
  | cancelled
  | received (x : BulkResult)

namespace Config

variable (cfg : Config)

def increment : Nat := cfg.workers * cfg.batchSize % 2 ^ 64

def startOf (i : Nat) : Nat := (cfg.first + i * cfg.batchSize % 2 ^ 64) % 2 ^ 64

def lastStart : Nat := if cfg.batchSize < cfg.treeSize then cfg.treeSize - cfg.batchSize else 0

-- How many leaves a worker asks for.
def count (start : Nat) : Nat :=
  if cfg.treeSize - start < cfg.batchSize then cfg.treeSize - start else cfg.batchSize

def init : State where
  worker i := ⟨cfg.startOf i, .looping⟩
  collector := .select 0
  sent := []
  taken := 0
  cancelled := none

end Config

namespace State

def setWorker (s : State) (j : Nat) (w : FetchWorker) : State :=
  { s with worker := Function.update s.worker j w }

def send (s : State) (x : BulkResult) (next : Collector) : State :=
  { s with sent := s.sent ++ [x], collector := next }

theorem setWorker_same (s : State) (j : Nat) (w : FetchWorker) : (s.setWorker j w).worker j = w := by
  simp [setWorker]

theorem setWorker_other (s : State) {i j : Nat} (w : FetchWorker) (other : i ≠ j) :
    (s.setWorker j w).worker i = s.worker i := by
  simp [setWorker, other]

-- The context of the workers ends with its parent or when Bulk returns.
def Done (s : State) : Prop := s.cancelled ≠ none ∨ s.collector = .returned

def received (s : State) : List BulkResult := s.sent.take s.taken

end State

/-- What Bulk has to send at this point, and where it goes on from there. -/
def Collector.Offers : Collector → BulkResult → Collector → Prop
  | .emit i start (l :: left), x, next => x = ⟨l, none⟩ ∧ next = .emit i start left
  | .fail reason, x, next => x = ⟨[], some reason⟩ ∧ next = .returned
  | _, _, _ => False

theorem State.done_offer (s : State) {x : BulkResult} {next : Collector} (offers : s.collector.Offers x next)
    (done : s.Done) : (s.send x next).Done := by
  refine .inl (done.resolve_right fun returned => ?_)
  rw [returned] at offers
  exact offers

/-- The goroutines of Bulk and the other end of its channel. `leaf` is the log. -/
inductive Step (cfg : Config) (leaf : Nat → Bytes) : State → Event → State → Prop
  | finish {s : State} {j start : Nat} (bound : j < cfg.workers) (at' : s.worker j = ⟨start, .looping⟩)
      (beyond : cfg.treeSize ≤ start) : Step cfg leaf s .worked (s.setWorker j ⟨start, .closed⟩)
  | ask {s : State} {j start : Nat} (bound : j < cfg.workers) (at' : s.worker j = ⟨start, .looping⟩)
      (inside : start < cfg.treeSize) (retries : Nat) :
      Step cfg leaf s .worked (s.setWorker j ⟨start, .fetching retries⟩)
  | retry {s : State} {j start retries : Nat} (bound : j < cfg.workers)
      (at' : s.worker j = ⟨start, .fetching (retries + 1)⟩) :
      Step cfg leaf s .worked (s.setWorker j ⟨start, .fetching retries⟩)
  | fetched {s : State} {j start : Nat} (bound : j < cfg.workers) (at' : s.worker j = ⟨start, .fetching 0⟩) :
      Step cfg leaf s .worked
        (s.setWorker j ⟨start, .sending ⟨start, (List.range' start (cfg.count start)).map leaf, none⟩⟩)
  | gaveUp {s : State} {j start : Nat} (bound : j < cfg.workers) (at' : s.worker j = ⟨start, .fetching 0⟩)
      (reason : GoError) :
      Step cfg leaf s .failed
        (s.setWorker j ⟨start, .sending ⟨0, [], some (.wrap "LeafFetcher.Batch(%d, %d): %w" reason)⟩⟩)
  | stop {s : State} {j start : Nat} {c : WorkerResult} (bound : j < cfg.workers)
      (at' : s.worker j = ⟨start, .sending c⟩) (done : s.Done) :
      Step cfg leaf s .worked (s.setWorker j ⟨start, .closed⟩)
  -- The channels between workers and Bulk are unbuffered: a result is handed over in one step.
  | handover {s : State} {i start : Nat} {c : WorkerResult} (at' : s.collector = .select i)
      (worker : s.worker i = ⟨start, .sending c⟩) :
      Step cfg leaf s .worked
        { s.setWorker i ⟨(start + cfg.increment) % 2 ^ 64, .looping⟩ with
          collector := match c.err with
            | some reason => .fail reason
            | none => .emit i c.start c.leaves }
  -- A closed channel gives the zero value.
  | takeClosed {s : State} {i start : Nat} (at' : s.collector = .select i)
      (worker : s.worker i = ⟨start, .closed⟩) :
      Step cfg leaf s .closedTaken { s with collector := .emit i 0 [] }
  | ctxDone {s : State} {i : Nat} {reason : GoError} (at' : s.collector = .select i)
      (done : s.cancelled = some reason) : Step cfg leaf s .worked { s with collector := .fail reason }
  | goOn {s : State} {i start : Nat} (at' : s.collector = .emit i start [])
      (more : start < cfg.lastStart) :
      Step cfg leaf s .worked { s with collector := .select ((i + 1) % cfg.workers) }
  | returns {s : State} {i start : Nat} (at' : s.collector = .emit i start [])
      (last : cfg.lastStart ≤ start) : Step cfg leaf s .worked { s with collector := .returned }
  | send {s : State} {x : BulkResult} {next : Collector} (offers : s.collector.Offers x next)
      (room : s.sent.length < s.taken + cfg.capacity) : Step cfg leaf s .worked (s.send x next)
  -- The buffer is empty and the receiver waits.
  | handoff {s : State} {x : BulkResult} {next : Collector} (offers : s.collector.Offers x next)
      (empty : s.taken = s.sent.length) :
      Step cfg leaf s (.received x) { s.send x next with taken := s.taken + 1 }
  | receive {s : State} {x : BulkResult} (buffered : s.sent[s.taken]? = some x) :
      Step cfg leaf s (.received x) { s with taken := s.taken + 1 }
  | cancel {s : State} (running : s.cancelled = none) (reason : GoError) :
      Step cfg leaf s .cancelled { s with cancelled := some reason }

section Order

variable (cfg : Config) (leaf : Nat → Bytes)

-- The first `count` results of a download without errors.
def delivered (count : Nat) : List BulkResult := (List.range' cfg.first count).map fun i => ⟨leaf i, none⟩

def Config.total : Nat := cfg.treeSize - cfg.first

/-- What a worker does at its place. -/
def FetchPhase.Ok (done : Prop) (start : Nat) : FetchPhase → Prop
  | .looping => True
  | .fetching _ => start < cfg.treeSize
  | .sending c => start < cfg.treeSize ∧
      (c = ⟨start, (List.range' start (cfg.count start)).map leaf, none⟩ ∨ ∃ reason, c = ⟨0, [], some reason⟩)
  | .closed => cfg.treeSize ≤ start ∨ done

/-- Where Bulk stands after `k` batches. -/
def Collector.Ok (k : Nat) (sent : List BulkResult) : Collector → Prop
  | .select i => i = k % cfg.workers ∧ k * cfg.batchSize < cfg.total ∧ sent = delivered cfg leaf (k * cfg.batchSize)
  | .emit i start left => ∃ before count, k = before + 1 ∧ i = before % cfg.workers ∧
      start = cfg.first + before * cfg.batchSize ∧ before * cfg.batchSize < cfg.total ∧
      sent = delivered cfg leaf count ∧ count + left.length = min (k * cfg.batchSize) cfg.total ∧
      left = (List.range' (cfg.first + count) left.length).map leaf
  | .fail _ => ∃ count, count ≤ cfg.total ∧ sent = delivered cfg leaf count
  | .returned => (∃ before, k = before + 1 ∧ before * cfg.batchSize < cfg.total ∧
        cfg.total ≤ k * cfg.batchSize ∧ sent = delivered cfg leaf cfg.total) ∨
      ∃ count reason, count ≤ cfg.total ∧ sent = delivered cfg leaf count ++ [⟨[], some reason⟩]

/-- After `k` batches the workers are at the next ones, each at one of its own. -/
structure BulkOk (s : State) (k : Nat) (batch : Nat → Nat) : Prop where
  start : ∀ j < cfg.workers, (s.worker j).start = (cfg.first + batch j * cfg.batchSize) % 2 ^ 64
  own : ∀ j < cfg.workers, batch j % cfg.workers = j
  next : ∀ j < cfg.workers, k ≤ batch j ∧ batch j < k + cfg.workers
  phase : ∀ j < cfg.workers, (s.worker j).phase.Ok cfg leaf s.Done (s.worker j).start
  collector : s.collector.Ok cfg leaf k s.sent

variable {cfg leaf} {s : State} {k : Nat} {batch : Nat → Nat}

theorem BulkOk.init : BulkOk cfg leaf cfg.init 0 id where
  start j _ := by
    simp only [Config.init, Config.startOf, id]
    rw [Nat.add_mod_mod]
  own j bound := Nat.mod_eq_of_lt bound
  next j bound := ⟨Nat.zero_le _, by simpa using bound⟩
  phase j _ := trivial
  collector := ⟨by simp, by have := cfg.nonempty; simp [Config.total]; omega, by simp [Config.init, delivered]⟩

-- The worker whose turn it is has the next batch.
theorem BulkOk.turn (ok : BulkOk cfg leaf s k batch) : batch (k % cfg.workers) = k := by
  have bound := Nat.mod_lt k cfg.someWorker
  obtain ⟨lower, upper⟩ := ok.next _ bound
  have same : (batch (k % cfg.workers) - k) % cfg.workers = 0 :=
    Nat.sub_mod_eq_zero_of_mod_eq (ok.own _ bound)
  rw [Nat.mod_eq_of_lt (by omega)] at same
  omega

theorem BulkOk.turn_start (ok : BulkOk cfg leaf s k batch) (inside : k * cfg.batchSize < cfg.total) :
    (s.worker (k % cfg.workers)).start = cfg.first + k * cfg.batchSize := by
  rw [ok.start _ (Nat.mod_lt k cfg.someWorker), ok.turn]
  have := cfg.word
  unfold Config.total at inside
  exact Nat.mod_eq_of_lt (by omega)

theorem FetchPhase.Ok.of_done {done later : Prop} {start : Nat} {phase : FetchPhase}
    (ok : phase.Ok cfg leaf done start) (still : done → later) : phase.Ok cfg leaf later start := by
  cases phase with
  | looping | fetching _ | sending _ => exact ok
  | closed => exact ok.imp_right still

theorem BulkOk.phase_at (ok : BulkOk cfg leaf s k batch) {j start : Nat} {phase : FetchPhase}
    (bound : j < cfg.workers) (at' : s.worker j = ⟨start, phase⟩) : phase.Ok cfg leaf s.Done start := by
  have fits := ok.phase j bound
  rwa [at'] at fits

-- A worker goes on at the same start.
theorem BulkOk.setWorker (ok : BulkOk cfg leaf s k batch) {j start : Nat} {phase next : FetchPhase}
    (at' : s.worker j = ⟨start, phase⟩) (fits : next.Ok cfg leaf s.Done start) :
    BulkOk cfg leaf (s.setWorker j ⟨start, next⟩) k batch where
  start i bound := by
    by_cases here : i = j
    · subst here
      have before := ok.start i bound
      rw [at'] at before
      rw [s.setWorker_same]
      exact before
    · rw [s.setWorker_other _ here]
      exact ok.start i bound
  own := ok.own
  next := ok.next
  phase i bound := by
    by_cases here : i = j
    · subst here
      rw [s.setWorker_same]
      exact fits
    · rw [s.setWorker_other _ here]
      exact ok.phase i bound
  collector := ok.collector

-- Only Bulk itself goes on.
theorem BulkOk.collect (ok : BulkOk cfg leaf s k batch) {s' : State} (worker : s'.worker = s.worker)
    (done : s.Done → s'.Done) (collector : s'.collector.Ok cfg leaf k s'.sent) : BulkOk cfg leaf s' k batch where
  start := worker ▸ ok.start
  own := ok.own
  next := ok.next
  phase j bound := by
    rw [worker]
    exact (ok.phase j bound).of_done done
  collector := collector

theorem delivered_add (count more : Nat) :
    delivered cfg leaf (count + more) =
      delivered cfg leaf count ++ (List.range' (cfg.first + count) more).map fun i => ⟨leaf i, none⟩ := by
  unfold delivered
  rw [← List.map_append, ← List.range'_append_1]

theorem length_delivered (count : Nat) : (delivered cfg leaf count).length = count := by
  simp [delivered]

-- The batch of a worker whose start has not run over.
theorem Config.count_eq (cfg : Config) (k : Nat) :
    k * cfg.batchSize + cfg.count (cfg.first + k * cfg.batchSize) = min ((k + 1) * cfg.batchSize) cfg.total ∨
      cfg.total ≤ k * cfg.batchSize := by
  unfold Config.count Config.total
  rw [Nat.succ_mul]
  split <;> omega

/-- Bulk takes the batch of the worker whose turn it is, and that worker goes on to its next. -/
theorem BulkOk.handover (ok : BulkOk cfg leaf s k batch) {i start : Nat} {c : WorkerResult}
    (at' : s.collector = .select i) (worker : s.worker i = ⟨start, .sending c⟩) :
    BulkOk cfg leaf
      { s.setWorker i ⟨(start + cfg.increment) % 2 ^ 64, .looping⟩ with
        collector := match c.err with
          | some reason => .fail reason
          | none => .emit i c.start c.leaves }
      (k + 1) (Function.update batch i (k + cfg.workers)) := by
  have standing := ok.collector
  rw [at'] at standing
  obtain ⟨rfl, inside, sent⟩ := standing
  have bound := Nat.mod_lt k cfg.someWorker
  have begin : start = cfg.first + k * cfg.batchSize := by
    simpa [worker] using ok.turn_start inside
  obtain ⟨within, result⟩ := ok.phase_at bound worker
  refine ⟨fun j below => ?_, fun j below => ?_, fun j below => ?_, fun j below => ?_, ?_⟩
  · by_cases here : j = k % cfg.workers
    · subst here
      dsimp only
      rw [s.setWorker_same, Function.update_self]
      dsimp only
      rw [begin, Config.increment, Nat.add_mod_mod, Nat.add_assoc,
        ← Nat.add_mul]
    · dsimp only
      rw [s.setWorker_other _ here, Function.update_of_ne here, ok.start j below]
  · by_cases here : j = k % cfg.workers
    · subst here
      rw [Function.update_self, Nat.add_mod_right]
    · rw [Function.update_of_ne here, ok.own j below]
  · by_cases here : j = k % cfg.workers
    · subst here
      have := cfg.someWorker
      rw [Function.update_self]
      omega
    · have other : batch j ≠ k := fun same => here (same ▸ (ok.own j below).symm)
      have between := ok.next j below
      rw [Function.update_of_ne here]
      omega
  · by_cases here : j = k % cfg.workers
    · subst here
      dsimp only
      rw [s.setWorker_same]
      trivial
    · dsimp only
      rw [s.setWorker_other _ here]
      refine (ok.phase j below).of_done fun done => .inl (done.resolve_right ?_)
      rw [at']
      nofun
  · rcases result with rfl | ⟨reason, rfl⟩
    · subst begin
      refine ⟨k, k * cfg.batchSize, rfl, rfl, rfl, inside, sent, ?_, ?_⟩
      · rcases cfg.count_eq k with whole | beyond
        · simpa using whole
        · omega
      · simp
    · exact ⟨_, Nat.le_of_lt inside, sent⟩

theorem Collector.Ok.offer {c next : Collector} {sent : List BulkResult} {x : BulkResult}
    (ok : c.Ok cfg leaf k sent) (offers : c.Offers x next) : next.Ok cfg leaf k (sent ++ [x]) := by
  cases c with
  | select _ | returned => cases offers
  | emit i start left =>
    cases left with
    | nil => cases offers
    | cons l left =>
      obtain ⟨rfl, rfl⟩ := offers
      obtain ⟨before, count, rfl, rfl, rfl, inside, rfl, total, rest⟩ := ok
      rw [List.length_cons, List.range'_succ, List.map_cons, List.cons.injEq] at rest
      rw [List.length_cons] at total
      refine ⟨before, count + 1, rfl, rfl, rfl, inside, ?_, by omega, ?_⟩
      · rw [delivered_add, rest.1]
        simp
      · rw [← Nat.add_assoc]
        exact rest.2
  | fail reason =>
    obtain ⟨rfl, rfl⟩ := offers
    obtain ⟨count, upper, rfl⟩ := ok
    exact .inr ⟨count, reason, upper, rfl⟩

/-- A step that does not take from a closed channel keeps the order. -/
theorem BulkOk.step (ok : BulkOk cfg leaf s k batch) {e : Event} {s' : State} (taken : Step cfg leaf s e s')
    (open' : e ≠ .closedTaken) : ∃ k' batch', BulkOk cfg leaf s' k' batch' := by
  cases taken with
  | finish bound at' beyond => exact ⟨k, batch, ok.setWorker at' (.inl beyond)⟩
  | ask bound at' inside retries => exact ⟨k, batch, ok.setWorker at' inside⟩
  | retry bound at' =>
    have inside := ok.phase_at bound at'
    exact ⟨k, batch, ok.setWorker at' inside⟩
  | fetched bound at' =>
    exact ⟨k, batch, ok.setWorker at' ⟨ok.phase_at bound at', .inl rfl⟩⟩
  | gaveUp bound at' reason =>
    exact ⟨k, batch, ok.setWorker at' ⟨ok.phase_at bound at', .inr ⟨_, rfl⟩⟩⟩
  | stop bound at' done => exact ⟨k, batch, ok.setWorker at' (.inr done)⟩
  | handover at' worker => exact ⟨_, _, ok.handover at' worker⟩
  | takeClosed => exact absurd rfl open'
  | ctxDone at' done =>
    have standing := ok.collector
    rw [at'] at standing
    exact ⟨k, batch, ok.collect rfl (fun _ => .inl (by simp [done]))
      ⟨_, Nat.le_of_lt standing.2.1, standing.2.2⟩⟩
  | goOn at' more =>
    have standing := ok.collector
    rw [at'] at standing
    refine ⟨k, batch, ok.collect rfl (fun done => .inl (done.resolve_right (by rw [at']; nofun))) ?_⟩
    obtain ⟨before, count, rfl, rfl, rfl, inside, sent, total, -⟩ := standing
    have further : (before + 1) * cfg.batchSize < cfg.total := by
      unfold Config.lastStart at more
      unfold Config.total
      rw [Nat.succ_mul]
      split at more <;> omega
    refine ⟨Nat.mod_add_mod _ _ _, further, ?_⟩
    rw [sent]
    congr 1
    simp only [List.length_nil] at total
    omega
  | returns at' last =>
    have standing := ok.collector
    rw [at'] at standing
    refine ⟨k, batch, ok.collect rfl (fun _ => .inr rfl) ?_⟩
    obtain ⟨before, count, rfl, rfl, rfl, inside, sent, total, -⟩ := standing
    have covered : cfg.total ≤ (before + 1) * cfg.batchSize := by
      unfold Config.lastStart at last
      unfold Config.total
      rw [Nat.succ_mul]
      split at last <;> omega
    refine .inl ⟨before, rfl, inside, covered, ?_⟩
    rw [sent]
    congr 1
    simp only [List.length_nil] at total
    omega
  | send offers room =>
    exact ⟨k, batch, ok.collect rfl (s.done_offer offers) (ok.collector.offer offers)⟩
  | handoff offers empty =>
    exact ⟨k, batch, ok.collect rfl (s.done_offer offers) (ok.collector.offer offers)⟩
  | receive buffered => exact ⟨k, batch, ok.collect rfl id ok.collector⟩
  | cancel running reason =>
    exact ⟨k, batch, ok.collect rfl (fun _ => .inl (by simp)) ok.collector⟩

end Order

section Uncancelled

variable {cfg : Config} {leaf : Nat → Bytes} {s s' : State} {e : Event} {k : Nat} {batch : Nat → Nat}

theorem Step.cancelled_eq (taken : Step cfg leaf s e s') (running : e ≠ .cancelled) :
    s'.cancelled = s.cancelled := by
  cases taken with
  | cancel => exact absurd rfl running
  | _ => rfl

theorem Step.taken_le (taken : Step cfg leaf s e s') (buffer : s.taken ≤ s.sent.length) :
    s'.taken ≤ s'.sent.length := by
  cases taken with
  | send => exact Nat.le_trans buffer (by simp [State.send])
  | handoff => simpa [State.send] using buffer
  | receive buffered => exact (List.getElem?_eq_some_iff.mp buffered).1
  | _ => exact buffer

/-- As long as nobody cancels, Bulk waits for a worker that has not closed its channel. -/
theorem BulkOk.not_closed (ok : BulkOk cfg leaf s k batch) (running : s.cancelled = none) {i start : Nat}
    (at' : s.collector = .select i) : s.worker i ≠ ⟨start, .closed⟩ := by
  intro worker
  have standing := ok.collector
  rw [at'] at standing
  obtain ⟨rfl, inside, -⟩ := standing
  have begin : start = cfg.first + k * cfg.batchSize := by
    simpa [worker] using ok.turn_start inside
  rcases ok.phase_at (Nat.mod_lt k cfg.someWorker) worker with beyond | cancelled | returned
  · unfold Config.total at inside
    omega
  · exact cancelled running
  · rw [at'] at returned
    cases returned

/-- What holds of a download that nobody cancels. -/
structure Running (cfg : Config) (leaf : Nat → Bytes) (s : State) : Prop where
  running : s.cancelled = none
  buffer : s.taken ≤ s.sent.length
  order : ∃ k batch, BulkOk cfg leaf s k batch

theorem Running.init : Running cfg leaf cfg.init := ⟨rfl, Nat.le_refl _, 0, id, .init⟩

theorem Running.step (ok : Running cfg leaf s) (taken : Step cfg leaf s e s') (running : e ≠ .cancelled) :
    Running cfg leaf s' := by
  obtain ⟨k, batch, order⟩ := ok.order
  refine ⟨taken.cancelled_eq running ▸ ok.running, taken.taken_le ok.buffer, order.step taken ?_⟩
  rintro rfl
  cases taken with
  | takeClosed at' worker => exact order.not_closed ok.running at' worker

-- Steps of workers and of Bulk, as far as they depend on each other.
theorem Running.not_done (ok : Running cfg leaf s) (open' : s.collector ≠ .returned) : ¬ s.Done := by
  rintro (cancelled | returned)
  · exact cancelled ok.running
  · exact open' returned

end Uncancelled

section Failures

variable {cfg : Config} {leaf : Nat → Bytes} {s s' : State} {e : Event}

/-- No error is on its way. -/
structure Clean (cfg : Config) (s : State) : Prop where
  workers : ∀ j < cfg.workers, ∀ start c, s.worker j = ⟨start, .sending c⟩ → c.err = none
  collector : ∀ reason, s.collector ≠ .fail reason
  sent : ∀ x ∈ s.sent, x.err = none

theorem Clean.setWorker (clean : Clean cfg s) {j start : Nat} {next : FetchPhase}
    (fine : ∀ c, next = .sending c → c.err = none) : Clean cfg (s.setWorker j ⟨start, next⟩) where
  workers i bound start' c at' := by
    by_cases here : i = j
    · subst here
      rw [s.setWorker_same] at at'
      cases at'
      exact fine c rfl
    · rw [s.setWorker_other _ here] at at'
      exact clean.workers i bound start' c at'
  collector := clean.collector
  sent := clean.sent

theorem Clean.offer (clean : Clean cfg s) {x : BulkResult} {next : Collector} (offers : s.collector.Offers x next) :
    Clean cfg (s.send x next) := by
  have notFail := clean.collector
  cases at' : s.collector with
  | select _ | returned =>
    rw [at'] at offers
    cases offers
  | fail reason => exact absurd at' (notFail reason)
  | emit i start left =>
    rw [at'] at offers
    cases left with
    | nil => cases offers
    | cons l left =>
      obtain ⟨rfl, rfl⟩ := offers
      refine ⟨clean.workers, fun reason => nofun, fun x member => ?_⟩
      rcases List.mem_append.mp member with before | last
      · exact clean.sent x before
      · cases List.mem_singleton.mp last
        rfl

theorem Clean.step (clean : Clean cfg s) (ok : Running cfg leaf s) (taken : Step cfg leaf s e s')
    (running : e ≠ .cancelled) (works : e ≠ .failed) : Clean cfg s' := by
  cases taken with
  | finish | ask | retry | stop => exact clean.setWorker nofun
  | fetched => exact clean.setWorker fun c same => by cases same; rfl
  | gaveUp => exact absurd rfl works
  | @handover i start c at' worker =>
    obtain ⟨k, batch, order⟩ := ok.order
    have bound : i < cfg.workers := by
      have standing := order.collector
      rw [at'] at standing
      exact standing.1 ▸ Nat.mod_lt k cfg.someWorker
    have fine := clean.workers i bound start c worker
    have moved : Clean cfg (s.setWorker i ⟨(start + cfg.increment) % 2 ^ 64, .looping⟩) :=
      clean.setWorker nofun
    refine ⟨moved.workers, fun reason => ?_, clean.sent⟩
    simp [fine]
  | takeClosed => exact ⟨clean.workers, fun reason => nofun, clean.sent⟩
  | ctxDone at' done =>
    rw [ok.running] at done
    cases done
  | goOn => exact ⟨clean.workers, fun reason => nofun, clean.sent⟩
  | returns => exact ⟨clean.workers, fun reason => nofun, clean.sent⟩
  | send offers room => exact clean.offer offers
  | handoff offers empty =>
    have sent := clean.offer offers
    exact ⟨sent.workers, sent.collector, sent.sent⟩
  | receive => exact ⟨clean.workers, clean.collector, clean.sent⟩
  | cancel => exact absurd rfl running

-- A worker has an error for Bulk.
def Failing (cfg : Config) (s : State) : Prop :=
  ∃ j < cfg.workers, ∃ start reason, s.worker j = ⟨start, .sending ⟨0, [], some reason⟩⟩

/-- An error is on its way or has come through. -/
def Doomed (cfg : Config) (leaf : Nat → Bytes) (s : State) : Prop :=
  (s.collector ≠ .returned ∧ Failing cfg s) ∨
  (∃ reason, s.collector = .fail reason) ∨
  s.collector = .returned ∧
    ∃ count reason, count ≤ cfg.total ∧ s.sent = delivered cfg leaf count ++ [⟨[], some reason⟩]

-- A batch that a worker has is one that Bulk still needs, unless the indices run over.
theorem BulkOk.needed {before : Nat} {batch : Nat → Nat} (ok : BulkOk cfg leaf s (before + 1) batch)
    (range : cfg.treeSize + cfg.workers * cfg.batchSize ≤ 2 ^ 64) (inside : before * cfg.batchSize < cfg.total)
    {j : Nat} (bound : j < cfg.workers) (within : (s.worker j).start < cfg.treeSize) :
    (before + 1) * cfg.batchSize < cfg.total := by
  have begin := ok.start j bound
  obtain ⟨lower, upper⟩ := ok.next j bound
  have atLeast : (before + 1) * cfg.batchSize ≤ batch j * cfg.batchSize := Nat.mul_le_mul_right _ lower
  have atMost : batch j * cfg.batchSize ≤ (before + cfg.workers) * cfg.batchSize :=
    Nat.mul_le_mul_right _ (by omega)
  rw [Nat.add_mul] at atMost
  unfold Config.total at inside ⊢
  rw [Nat.mod_eq_of_lt (by omega)] at begin
  omega

theorem Failing.setWorker (failing : Failing cfg s) {i start : Nat} {phase : FetchPhase} (w : FetchWorker)
    (at' : s.worker i = ⟨start, phase⟩) (other : ∀ reason, phase ≠ .sending ⟨0, [], some reason⟩) :
    Failing cfg (s.setWorker i w) := by
  obtain ⟨j, bound, start', reason, worker⟩ := failing
  have apart : j ≠ i := by
    rintro rfl
    rw [worker] at at'
    cases at'
    exact other reason rfl
  exact ⟨j, bound, start', reason, (s.setWorker_other w apart).trans worker⟩

theorem Doomed.offer {k : Nat} {batch : Nat → Nat} (order : BulkOk cfg leaf s k batch)
    (failing : Failing cfg s ∨ ∃ reason, s.collector = .fail reason) {x : BulkResult} {next : Collector}
    (offers : s.collector.Offers x next) : Doomed cfg leaf (s.send x next) := by
  cases at' : s.collector with
  | select _ | returned =>
    rw [at'] at offers
    cases offers
  | emit i start left =>
    rw [at'] at offers failing
    cases left with
    | nil => cases offers
    | cons l left =>
      obtain ⟨rfl, rfl⟩ := offers
      exact .inl ⟨nofun, failing.resolve_right nofun⟩
  | fail reason =>
    have standing := order.collector
    rw [at'] at offers standing
    obtain ⟨rfl, rfl⟩ := offers
    obtain ⟨count, upper, sent⟩ := standing
    exact .inr (.inr ⟨rfl, count, reason, upper, by rw [State.send, sent]⟩)

theorem Doomed.waiting (ok : Running cfg leaf s) (open' : s.collector ≠ .returned) (failing : Failing cfg s)
    (range : cfg.treeSize + cfg.workers * cfg.batchSize ≤ 2 ^ 64) (taken : Step cfg leaf s e s')
    (running : e ≠ .cancelled) : Doomed cfg leaf s' := by
  obtain ⟨k, batch, order⟩ := ok.order
  cases taken with
  | finish bound at' | ask bound at' | retry bound at' | fetched bound at' | gaveUp bound at' =>
    exact .inl ⟨open', failing.setWorker _ at' nofun⟩
  | stop bound at' done => exact absurd done (ok.not_done open')
  | @handover i start c at' worker =>
    cases err : c.err with
    | some reason => exact .inr (.inl ⟨reason, rfl⟩)
    | none =>
      refine .inl ⟨nofun, failing.setWorker _ worker fun reason same => ?_⟩
      cases same
      cases err
  | takeClosed at' worker => exact absurd worker (order.not_closed ok.running at')
  | ctxDone at' done =>
    rw [ok.running] at done
    cases done
  | goOn => exact .inl ⟨nofun, failing⟩
  | returns at' last =>
    obtain ⟨j, bound, start, reason, worker⟩ := failing
    have standing := order.collector
    rw [at'] at standing
    obtain ⟨before, count, rfl, rfl, rfl, inside, -, -, -⟩ := standing
    have within := (order.phase_at bound worker).1
    have more := order.needed range inside bound (by rw [worker]; exact within)
    unfold Config.lastStart at last
    unfold Config.total at more
    rw [Nat.succ_mul] at more
    split at last <;> omega
  | send offers room => exact .offer order (.inl failing) offers
  | handoff offers empty => exact .offer order (.inl failing) offers
  | receive => exact .inl ⟨open', failing⟩
  | cancel => exact absurd rfl running

-- A fetch that is given up is one that Bulk needs.
theorem Doomed.begin (ok : Running cfg leaf s) (range : cfg.treeSize + cfg.workers * cfg.batchSize ≤ 2 ^ 64)
    (taken : Step cfg leaf s .failed s') : Doomed cfg leaf s' := by
  obtain ⟨k, batch, order⟩ := ok.order
  cases taken with
  | @gaveUp j start bound at' reason =>
    have failing : Failing cfg (s.setWorker j
        ⟨start, .sending ⟨0, [], some (.wrap "LeafFetcher.Batch(%d, %d): %w" reason)⟩⟩) :=
      ⟨j, bound, start, _, s.setWorker_same _ _⟩
    by_cases open' : s.collector = .returned
    · have standing := order.collector
      rw [open'] at standing
      rcases standing with ⟨before, rfl, inside, covered, -⟩ | failed
      · have within := order.phase_at bound at'
        have more := order.needed range inside bound (by rw [at']; exact within)
        omega
      · exact .inr (.inr ⟨open', failed⟩)
    · exact .inl ⟨open', failing⟩

theorem Doomed.step (doomed : Doomed cfg leaf s) (ok : Running cfg leaf s)
    (range : cfg.treeSize + cfg.workers * cfg.batchSize ≤ 2 ^ 64) (taken : Step cfg leaf s e s')
    (running : e ≠ .cancelled) : Doomed cfg leaf s' := by
  rcases doomed with ⟨open', failing⟩ | ⟨reason, at'⟩ | ⟨returned, sent⟩
  · exact .waiting ok open' failing range taken running
  · obtain ⟨k, batch, order⟩ := ok.order
    cases taken with
    | finish | ask | retry | fetched | gaveUp | stop => exact .inr (.inl ⟨reason, at'⟩)
    | handover other | takeClosed other | ctxDone other | goOn other | returns other =>
      rw [at'] at other
      cases other
    | send offers room => exact .offer order (.inr ⟨reason, at'⟩) offers
    | handoff offers empty => exact .offer order (.inr ⟨reason, at'⟩) offers
    | receive => exact .inr (.inl ⟨reason, at'⟩)
    | cancel => exact absurd rfl running
  · cases taken with
    | finish | ask | retry | fetched | gaveUp | stop | receive => exact .inr (.inr ⟨returned, sent⟩)
    | handover other | takeClosed other | ctxDone other | goOn other | returns other =>
      rw [returned] at other
      cases other
    | send offers | handoff offers =>
      rw [returned] at offers
      cases offers
    | cancel => exact absurd rfl running

end Failures

section Progress

variable {cfg : Config} {leaf : Nat → Bytes} {s s' : State} {e : Event}

-- Something else than a cancellation can happen.
def Moves (cfg : Config) (leaf : Nat → Bytes) (s : State) : Prop :=
  ∃ e s', e ≠ Event.cancelled ∧ Step cfg leaf s e s'

theorem Step.moves (taken : Step cfg leaf s e s') (running : e ≠ .cancelled) : Moves cfg leaf s :=
  ⟨e, s', running, taken⟩

-- Whatever Bulk offers can be sent: there is something in the buffer or the receiver waits for it.
theorem offered_moves {x : BulkResult} {next : Collector} (buffer : s.taken ≤ s.sent.length)
    (offers : s.collector.Offers x next) : Moves cfg leaf s := by
  rcases Nat.lt_or_eq_of_le buffer with some' | none'
  · exact (Step.receive (List.getElem?_eq_getElem some')).moves nofun
  · exact (Step.handoff offers none').moves nofun

-- A worker that has not finished can go on, or waits for Bulk.
theorem worker_moves {j start : Nat} {phase : FetchPhase} (bound : j < cfg.workers)
    (at' : s.worker j = ⟨start, phase⟩) :
    Moves cfg leaf s ∨ phase = .closed ∨ ∃ c, phase = .sending c := by
  cases phase with
  | looping =>
    rcases Nat.lt_or_ge start cfg.treeSize with inside | beyond
    · exact .inl ((Step.ask bound at' inside 0).moves nofun)
    · exact .inl ((Step.finish bound at' beyond).moves nofun)
  | fetching retries =>
    cases retries with
    | zero => exact .inl ((Step.fetched bound at').moves nofun)
    | succ retries => exact .inl ((Step.retry bound at').moves nofun)
  | sending c => exact .inr (.inr ⟨c, rfl⟩)
  | closed => exact .inr (.inl rfl)

/-- A download that cannot go on has ended: the channel is closed and empty, the workers are gone. -/
theorem Running.stuck (ok : Running cfg leaf s) (stuck : Runs.Stuck (Step cfg leaf) (· ≠ .cancelled) s) :
    s.collector = .returned ∧ s.taken = s.sent.length ∧ ∀ j < cfg.workers, (s.worker j).phase = .closed := by
  have never : ¬ Moves cfg leaf s := by
    rintro ⟨e, s', allowed, taken⟩
    exact stuck e s' allowed taken
  have moves_or : ∀ j < cfg.workers, Moves cfg leaf s ∨ (s.worker j).phase = .closed ∨
      ∃ c, (s.worker j).phase = .sending c := fun j bound => worker_moves bound rfl
  obtain ⟨k, batch, order⟩ := ok.order
  have returned : s.collector = .returned := by
    cases at' : s.collector with
    | returned => rfl
    | select i =>
      have bound : i < cfg.workers := by
        have standing := order.collector
        rw [at'] at standing
        exact standing.1 ▸ Nat.mod_lt k cfg.someWorker
      rcases moves_or i bound with moves | closed | ⟨c, sending⟩
      · exact absurd moves never
      · exact absurd (congrArg (FetchWorker.mk _) closed) (order.not_closed ok.running at')
      · exact absurd ((Step.handover at' (congrArg (FetchWorker.mk _) sending)).moves nofun) never
    | emit i start left =>
      cases left with
      | nil =>
        rcases Nat.lt_or_ge start cfg.lastStart with more | last
        · exact absurd ((Step.goOn at' more).moves nofun) never
        · exact absurd ((Step.returns at' last).moves nofun) never
      | cons l left =>
        have offers : s.collector.Offers ⟨l, none⟩ (.emit i start left) := by
          rw [at']
          exact ⟨rfl, rfl⟩
        exact absurd (offered_moves ok.buffer offers) never
    | fail reason =>
      have offers : s.collector.Offers ⟨[], some reason⟩ .returned := by
        rw [at']
        exact ⟨rfl, rfl⟩
      exact absurd (offered_moves ok.buffer offers) never
  refine ⟨returned, ?_, fun j bound => ?_⟩
  · rcases Nat.lt_or_eq_of_le ok.buffer with some' | none'
    · exact absurd ((Step.receive (List.getElem?_eq_getElem some')).moves nofun) never
    · exact none'
  · rcases moves_or j bound with moves | closed | ⟨c, sending⟩
    · exact absurd moves never
    · exact closed
    · exact absurd ((Step.stop bound (congrArg (FetchWorker.mk _) sending) (.inr returned)).moves nofun) never

def FetchPhase.weight : FetchPhase → Nat
  | .looping => 3
  | .fetching _ => 2
  | .sending _ => 1
  | .closed => 0

def FetchPhase.retries : FetchPhase → Nat
  | .fetching retries => retries
  | _ => 0

def Collector.weight : Collector → Nat
  | .select _ => 4
  | .emit _ _ _ => 5
  | .fail _ => 1
  | .returned => 0

def Collector.left : Collector → Nat
  | .emit _ _ left => left.length
  | _ => 0

def tally (cfg : Config) (weight : FetchPhase → Nat) (s : State) : Nat :=
  ∑ j ∈ Finset.range cfg.workers, weight (s.worker j).phase

/-- The leaves that Bulk has not taken from a worker weigh most, since each lets a worker go round once more. -/
def work (cfg : Config) (s : State) : Nat :=
  8 * (cfg.total - (s.sent.length + s.collector.left)) + tally cfg FetchPhase.weight s + s.collector.weight +
    (cfg.total + 1 - s.sent.length) + (cfg.total + 1 - s.taken)

theorem tally_setWorker (weight : FetchPhase → Nat) {j start : Nat} {phase : FetchPhase} (w : FetchWorker)
    (bound : j < cfg.workers) (at' : s.worker j = ⟨start, phase⟩) :
    tally cfg weight (s.setWorker j w) + weight phase = tally cfg weight s + weight w.phase := by
  have member : j ∈ Finset.range cfg.workers := Finset.mem_range.mpr bound
  have others : ∑ i ∈ (Finset.range cfg.workers).erase j, weight ((s.setWorker j w).worker i).phase =
      ∑ i ∈ (Finset.range cfg.workers).erase j, weight (s.worker i).phase := by
    refine Finset.sum_congr rfl fun i inside => ?_
    rw [s.setWorker_other w (Finset.ne_of_mem_erase inside)]
  have before := Finset.add_sum_erase _ (fun i => weight (s.worker i).phase) member
  have after := Finset.add_sum_erase _ (fun i => weight ((s.setWorker j w).worker i).phase) member
  simp only [at'] at before
  rw [others, s.setWorker_same] at after
  unfold tally
  omega

theorem Collector.Ok.sent_le {k : Nat} {sent : List BulkResult} {c : Collector} (ok : c.Ok cfg leaf k sent) :
    sent.length + c.left ≤ cfg.total + 1 ∧ (c ≠ .returned → sent.length + c.left ≤ cfg.total) := by
  cases c with
  | select i =>
    obtain ⟨-, inside, rfl⟩ := ok
    simp only [length_delivered, Collector.left]
    omega
  | emit i start left =>
    obtain ⟨before, count, rfl, -, -, -, rfl, total, -⟩ := ok
    simp only [length_delivered, Collector.left]
    omega
  | fail reason =>
    obtain ⟨count, upper, rfl⟩ := ok
    simp only [length_delivered, Collector.left]
    omega
  | returned =>
    rcases ok with ⟨before, -, -, -, rfl⟩ | ⟨count, reason, upper, rfl⟩
    · simp [length_delivered, Collector.left]
    · simpa [length_delivered, Collector.left] using upper

theorem offers_left {c next : Collector} {x : BulkResult} (offers : c.Offers x next) :
    c ≠ .returned ∧ next.left ≤ c.left ∧ c.left ≤ next.left + 1 ∧ next.weight ≤ c.weight := by
  cases c with
  | select _ | returned => cases offers
  | emit i start left =>
    cases left with
    | nil => cases offers
    | cons l left =>
      obtain ⟨rfl, rfl⟩ := offers
      exact ⟨nofun, by simp [Collector.left], by simp [Collector.left], Nat.le_refl _⟩
  | fail reason =>
    obtain ⟨rfl, rfl⟩ := offers
    exact ⟨nofun, by simp [Collector.left], by simp [Collector.left], by simp [Collector.weight]⟩

theorem work_setWorker {j start : Nat} {phase : FetchPhase} {w : FetchWorker} (bound : j < cfg.workers)
    (at' : s.worker j = ⟨start, phase⟩) (lower : w.phase.weight < phase.weight) :
    work cfg (s.setWorker j w) < work cfg s := by
  have tallied := tally_setWorker FetchPhase.weight w bound at'
  unfold work
  simp only [State.setWorker] at tallied ⊢
  omega

-- The leaves that Bulk takes now weigh more than the worker's next round.
theorem work_handover {k i start : Nat} {batch : Nat → Nat} {c : WorkerResult}
    (order : BulkOk cfg leaf s k batch) (at' : s.collector = .select i)
    (worker : s.worker i = ⟨start, .sending c⟩) :
    work cfg { s.setWorker i ⟨(start + cfg.increment) % 2 ^ 64, .looping⟩ with
      collector := match c.err with
        | some reason => .fail reason
        | none => .emit i c.start c.leaves } < work cfg s := by
  have standing := order.collector
  rw [at'] at standing
  obtain ⟨rfl, inside, sent⟩ := standing
  have bound := Nat.mod_lt k cfg.someWorker
  have begin : start = cfg.first + k * cfg.batchSize := by
    simpa [worker] using order.turn_start inside
  have tallied := tally_setWorker FetchPhase.weight ⟨(start + cfg.increment) % 2 ^ 64, .looping⟩ bound worker
  have length : s.sent.length = k * cfg.batchSize := by rw [sent, length_delivered]
  rcases (order.phase_at bound worker).2 with rfl | ⟨reason, rfl⟩
  · have batch : 1 ≤ cfg.count start ∧ s.sent.length + cfg.count start ≤ cfg.total := by
      have := cfg.someBatch
      unfold Config.count
      unfold Config.total at inside ⊢
      split <;> omega
    simp only [tally, State.setWorker, FetchPhase.weight, work, at', Collector.left, Collector.weight,
      List.length_map, List.length_range'] at tallied ⊢
    omega
  · simp only [tally, State.setWorker, FetchPhase.weight, work, at', Collector.left, Collector.weight]
      at tallied ⊢
    omega

theorem work_send {k taken : Nat} {batch : Nat → Nat} {x : BulkResult} {next : Collector}
    (order : BulkOk cfg leaf s k batch) (offers : s.collector.Offers x next) (more : s.taken ≤ taken) :
    work cfg { s.send x next with taken := taken } < work cfg s := by
  obtain ⟨open', lower, upper, lighter⟩ := offers_left offers
  have inside := order.collector.sent_le.2 open'
  unfold work tally
  simp only [State.send, List.length_append, List.length_singleton]
  omega

-- A fetch that is tried again is the one step that does not lower the work.
theorem work_step (ok : Running cfg leaf s) (taken : Step cfg leaf s e s') (running : e ≠ .cancelled) :
    work cfg s' < work cfg s ∨
      work cfg s' = work cfg s ∧ tally cfg FetchPhase.retries s' < tally cfg FetchPhase.retries s := by
  obtain ⟨k, batch, order⟩ := ok.order
  have most := order.collector.sent_le.1
  have buffer := ok.buffer
  cases taken with
  | finish bound at' | ask bound at' | fetched bound at' | gaveUp bound at' | stop bound at' =>
    exact .inl (work_setWorker bound at' (by simp [FetchPhase.weight]))
  | @retry j start retries bound at' =>
    have weight := tally_setWorker FetchPhase.weight ⟨start, .fetching retries⟩ bound at'
    have tries := tally_setWorker FetchPhase.retries ⟨start, .fetching retries⟩ bound at'
    simp only [FetchPhase.weight, FetchPhase.retries] at weight tries
    refine .inr ⟨?_, by omega⟩
    unfold work
    rw [show tally cfg FetchPhase.weight (s.setWorker j ⟨start, .fetching retries⟩) =
      tally cfg FetchPhase.weight s by omega]
    rfl
  | handover at' worker => exact .inl (work_handover order at' worker)
  | takeClosed at' worker => exact absurd worker (order.not_closed ok.running at')
  | ctxDone at' done =>
    rw [ok.running] at done
    cases done
  | goOn at' more =>
    left
    unfold work tally
    simp only [at', Collector.left, Collector.weight, List.length_nil]
    omega
  | returns at' last =>
    left
    unfold work tally
    simp only [at', Collector.left, Collector.weight, List.length_nil]
    omega
  | send offers room => exact .inl (work_send order offers (Nat.le_refl _))
  | handoff offers empty => exact .inl (work_send order offers (Nat.le_succ _))
  | receive buffered =>
    left
    have some' := (List.getElem?_eq_some_iff.mp buffered).1
    unfold work tally
    dsimp only
    omega
  | cancel => exact absurd rfl running

end Progress

section Delivery

variable (cfg : Config) (leaf : Nat → Bytes)

/-- The leaves from the first on, and at most one error behind them. -/
def InOrder (results : List BulkResult) : Prop :=
  ∃ count ≤ cfg.total, results = delivered cfg leaf count ∨
    ∃ reason, results = delivered cfg leaf count ++ [⟨[], some reason⟩]

variable {cfg leaf} {s : State}

theorem Collector.Ok.inOrder {k : Nat} {sent : List BulkResult} {c : Collector} (ok : c.Ok cfg leaf k sent) :
    InOrder cfg leaf sent := by
  cases c with
  | select i => exact ⟨_, Nat.le_of_lt ok.2.1, .inl ok.2.2⟩
  | emit i start left =>
    obtain ⟨before, count, -, -, -, -, sent, total, -⟩ := ok
    exact ⟨count, by omega, .inl sent⟩
  | fail reason =>
    obtain ⟨count, upper, sent⟩ := ok
    exact ⟨count, upper, .inl sent⟩
  | returned =>
    rcases ok with ⟨before, -, -, -, sent⟩ | ⟨count, reason, upper, sent⟩
    · exact ⟨_, Nat.le_refl _, .inl sent⟩
    · exact ⟨count, upper, .inr ⟨reason, sent⟩⟩

theorem take_delivered (n count : Nat) :
    (delivered cfg leaf count).take n = delivered cfg leaf (min n count) := by
  unfold delivered
  rw [← List.map_take]
  rcases Nat.le_total n count with less | more
  · rw [List.take_range'_of_length_ge less, Nat.min_eq_left less]
  · rw [List.take_range'_of_length_le more, Nat.min_eq_right more]

theorem InOrder.take {results : List BulkResult} (order : InOrder cfg leaf results) (n : Nat) :
    InOrder cfg leaf (results.take n) := by
  obtain ⟨count, upper, rfl | ⟨reason, rfl⟩⟩ := order
  · exact ⟨min n count, by omega, .inl (take_delivered n count)⟩
  · rcases Nat.lt_or_ge count n with all | some'
    · exact ⟨count, upper, .inr ⟨reason, List.take_of_length_le (by simp [length_delivered]; omega)⟩⟩
    · refine ⟨n, by omega, .inl ?_⟩
      rw [List.take_append_of_le_length (by simpa [length_delivered] using some'), take_delivered,
        Nat.min_eq_left some']

-- What the receiver sees of a step.
theorem Step.received_eq {s' : State} {e : Event} (taken : Step cfg leaf s e s') (buffer : s.taken ≤ s.sent.length)
    (quiet : ∀ x, e ≠ .received x) : s'.taken = s.taken ∧ s'.received = s.received := by
  cases taken with
  | send => exact ⟨rfl, List.take_append_of_le_length buffer⟩
  | handoff => exact absurd rfl (quiet _)
  | receive => exact absurd rfl (quiet _)
  | _ => exact ⟨rfl, rfl⟩

theorem Step.received_append {s' : State} {x : BulkResult} (taken : Step cfg leaf s (.received x) s') :
    s'.taken = s.taken + 1 ∧ s'.received = s.received ++ [x] := by
  cases taken with
  | handoff offers empty =>
    refine ⟨rfl, ?_⟩
    simp only [State.received, State.send, empty, List.take_length]
    exact List.take_of_length_le (by simp)
  | receive buffered =>
    obtain ⟨inside, rfl⟩ := List.getElem?_eq_some_iff.mp buffered
    exact ⟨rfl, by simp [State.received]⟩

theorem InOrder.next {count : Nat} {x : BulkResult} (order : InOrder cfg leaf (delivered cfg leaf count ++ [x]))
    (fine : x.err = none) : x = ⟨leaf (cfg.first + count), none⟩ ∧ count + 1 ≤ cfg.total := by
  obtain ⟨other, upper, same | ⟨reason, same⟩⟩ := order
  · obtain rfl : other = count + 1 := by
      simpa [length_delivered] using (congrArg List.length same).symm
    rw [delivered_add] at same
    have last := (List.append_inj same rfl).2
    simp only [List.range'_one, List.map_singleton, List.cons.injEq, and_true] at last
    exact ⟨last, upper⟩
  · have last := (List.append_inj' same rfl).2
    simp only [List.cons.injEq, and_true] at last
    rw [last] at fine
    cases fine

theorem Running.of_reached (reached : Runs.Reaches (Step cfg leaf) (· ≠ .cancelled) cfg.init s) :
    Running cfg leaf s :=
  reached.keeps _ .init fun allowed taken ok => ok.step taken allowed

-- A download that cannot go on has returned, and the receiver has everything.
theorem Running.stuck_received (ok : Running cfg leaf s) (stuck : Runs.Stuck (Step cfg leaf) (· ≠ .cancelled) s) :
    s.collector = .returned ∧ s.received = s.sent ∧ ∀ j < cfg.workers, (s.worker j).phase = .closed := by
  obtain ⟨returned, drained, closed⟩ := ok.stuck stuck
  exact ⟨returned, by rw [State.received, drained, List.take_length], closed⟩

theorem Clean.of_reached (reached : Runs.Reaches (Step cfg leaf) (fun e => e ≠ .cancelled ∧ e ≠ .failed) cfg.init s) :
    Running cfg leaf s ∧ Clean cfg s := by
  refine reached.keeps (fun s => Running cfg leaf s ∧ Clean cfg s) ⟨.init, nofun, nofun, nofun⟩ ?_
  rintro s e s' ⟨running, works⟩ taken ⟨ok, clean⟩
  exact ⟨ok.step taken running, clean.step ok taken running works⟩

theorem Clean.all_sent (ok : Running cfg leaf s) (clean : Clean cfg s) (returned : s.collector = .returned) :
    s.sent = delivered cfg leaf cfg.total := by
  obtain ⟨k, batch, order⟩ := ok.order
  have standing := order.collector
  rw [returned] at standing
  rcases standing with ⟨before, -, -, -, sent⟩ | ⟨count, reason, upper, sent⟩
  · exact sent
  · have none := clean.sent ⟨[], some reason⟩ (by simp [sent])
    cases none

theorem Doomed.of_failed (range : cfg.treeSize + cfg.workers * cfg.batchSize ≤ 2 ^ 64) {failed s' : State}
    (reached : Runs.Reaches (Step cfg leaf) (· ≠ .cancelled) cfg.init s) (taken : Step cfg leaf s .failed failed)
    (later : Runs.Reaches (Step cfg leaf) (· ≠ .cancelled) failed s') :
    Running cfg leaf s' ∧ Doomed cfg leaf s' := by
  have before := Running.of_reached reached
  refine later.keeps (fun s => Running cfg leaf s ∧ Doomed cfg leaf s)
    ⟨before.step taken nofun, .begin before range taken⟩ ?_
  rintro s e s' running taken ⟨ok, doomed⟩
  exact ⟨ok.step taken running, doomed.step ok range taken running⟩

theorem no_endless_download (run : Nat → State) (start : run 0 = cfg.init) :
    ¬ ∀ n, ∃ e, e ≠ .cancelled ∧ Step cfg leaf (run n) e (run (n + 1)) := by
  refine Runs.no_endless_run (WellFounded.prod_lex Nat.lt_wfRel.wf Nat.lt_wfRel.wf) (Running cfg leaf)
    (fun s => (work cfg s, tally cfg FetchPhase.retries s)) ?_ run (start ▸ .init)
  intro s e s' running taken ok
  refine ⟨ok.step taken running, ?_⟩
  rcases work_step ok taken running with less | ⟨same, less⟩
  · exact .left _ _ less
  · rw [same]
    exact .right _ less

/-- Every leaf comes once and in order, whatever the schedule. -/
theorem bulk_delivers (cfg : Config) (leaf : Nat → Bytes) :
    (∀ s, Runs.Reaches (Step cfg leaf) (· ≠ .cancelled) cfg.init s →
      InOrder cfg leaf s.received ∧
      (∀ j < cfg.workers, ∀ start retries, s.worker j = ⟨start, .fetching retries⟩ →
        start + cfg.count start ≤ cfg.treeSize) ∧
      (∀ i start, s.collector = .select i → s.worker i ≠ ⟨start, .closed⟩) ∧
      (Runs.Stuck (Step cfg leaf) (· ≠ .cancelled) s →
        s.collector = .returned ∧ s.received = s.sent ∧ ∀ j < cfg.workers, (s.worker j).phase = .closed)) ∧
    (∀ s, Runs.Reaches (Step cfg leaf) (fun e => e ≠ .cancelled ∧ e ≠ .failed) cfg.init s →
      Runs.Stuck (Step cfg leaf) (· ≠ .cancelled) s →
      s.collector = .returned ∧ s.received = delivered cfg leaf cfg.total) ∧
    (cfg.treeSize + cfg.workers * cfg.batchSize ≤ 2 ^ 64 →
      ∀ s failed s', Runs.Reaches (Step cfg leaf) (· ≠ .cancelled) cfg.init s → Step cfg leaf s .failed failed →
      Runs.Reaches (Step cfg leaf) (· ≠ .cancelled) failed s' → Runs.Stuck (Step cfg leaf) (· ≠ .cancelled) s' →
      s'.collector = .returned ∧
      ∃ count ≤ cfg.total, ∃ reason, s'.received = delivered cfg leaf count ++ [⟨[], some reason⟩]) ∧
    ∀ run : Nat → State, run 0 = cfg.init →
      ¬ ∀ n, ∃ e, e ≠ .cancelled ∧ Step cfg leaf (run n) e (run (n + 1)) := by
  refine ⟨fun s reached => ?_, fun s reached stuck => ?_, ?_, no_endless_download⟩
  · have ok := Running.of_reached reached
    obtain ⟨k, batch, order⟩ := ok.order
    refine ⟨order.collector.inOrder.take _, ?_, ?_, ok.stuck_received⟩
    · intro j bound start retries at'
      have inside : start < cfg.treeSize := order.phase_at bound at'
      unfold Config.count
      split <;> omega
    · intro i start at'
      exact order.not_closed ok.running at'
  · obtain ⟨ok, clean⟩ := Clean.of_reached reached
    obtain ⟨returned, all, -⟩ := ok.stuck_received stuck
    exact ⟨returned, all.trans (clean.all_sent ok returned)⟩
  · intro range s failed s' reached taken later stuck
    obtain ⟨ok, doomed⟩ := Doomed.of_failed range reached taken later
    obtain ⟨returned, all, -⟩ := ok.stuck_received stuck
    refine ⟨returned, ?_⟩
    rw [all]
    rcases doomed with ⟨open', -⟩ | ⟨reason, at'⟩ | ⟨-, count, reason, upper, sent⟩
    · exact absurd returned open'
    · rw [returned] at at'
      cases at'
    · exact ⟨count, upper, reason, sent⟩

end Delivery

end Download
