import TrillianServerless.Clone.Verify

set_option autoImplicit false

namespace Verify

open Go Sql

/-- How reading the leaves can go wrong: at the query, at the scan of a row by its number, or by rows that
do not come. -/
structure StreamFaults where
  query : Option GoError
  scan : Nat → Option GoError
  ends : Option Nat

-- Where the goroutine of StreamLeaves stands.
inductive Streamer where
  | query
  | next (i : Nat) (rows : List Bytes)
  | offer (data : Bytes) (i : Nat) (rows : List Bytes)
  | raise (reason : GoError)
  | waiting (reason : GoError)
  | closed

-- Where MerkleRoot stands.
inductive Reader where
  | range (index : Nat) (cr : Compact.Range)
  | poll (leaf : Bytes) (index : Nat) (cr : Compact.Range)
  | returned (result : Except GoError (Bytes × List Bytes))

/-- The two goroutines and the one place of the channel between them. -/
structure Streaming where
  streamer : Streamer
  buffer : Option Bytes
  reader : Reader

variable (v : LogVerifier) (d : LogDb.Database) (size : Nat) (faults : StreamFaults)

-- The rows that the query gives.
def StreamFaults.rows (start : Nat) : List Bytes :=
  match faults.ends with
  | none => d.leaves.select start size
  | some count => (d.leaves.select start size).take count

/-- A step of one goroutine, or of both where they meet at the error channel. `start` is where the leaves
are read from. -/
inductive StreamStep (start : Nat) : Streaming → Streaming → Prop
  | queryFails {s : Streaming} {reason : GoError} (at' : s.streamer = .query) (fails : faults.query = some reason) :
      StreamStep start s { s with streamer := .raise reason }
  | queried {s : Streaming} (at' : s.streamer = .query) (works : faults.query = none) :
      StreamStep start s { s with streamer := .next 0 (faults.rows d size start) }
  | scanFails {s : Streaming} {i : Nat} {data : Bytes} {rows : List Bytes} {reason : GoError}
      (at' : s.streamer = .next i (data :: rows)) (fails : faults.scan i = some reason) :
      StreamStep start s { s with streamer := .raise reason }
  | scanned {s : Streaming} {i : Nat} {data : Bytes} {rows : List Bytes}
      (at' : s.streamer = .next i (data :: rows)) (works : faults.scan i = none) :
      StreamStep start s { s with streamer := .offer data i rows }
  | finished {s : Streaming} {i : Nat} (at' : s.streamer = .next i []) :
      StreamStep start s { s with streamer := .closed }
  | put {s : Streaming} {data : Bytes} {i : Nat} {rows : List Bytes} (at' : s.streamer = .offer data i rows)
      (room : s.buffer = none) :
      StreamStep start s { s with streamer := .next (i + 1) rows, buffer := some data }
  -- The send on the error channel has begun: from here on a poll finds it.
  | raised {s : Streaming} {reason : GoError} (at' : s.streamer = .raise reason) :
      StreamStep start s { s with streamer := .waiting reason }
  | take {s : Streaming} {leaf : Bytes} {index : Nat} {cr : Compact.Range} (at' : s.reader = .range index cr)
      (full : s.buffer = some leaf) :
      StreamStep start s { s with buffer := none, reader := .poll leaf index cr }
  | ended {s : Streaming} {index : Nat} {cr : Compact.Range} (at' : s.reader = .range index cr)
      (empty : s.buffer = none) (closed : s.streamer = .closed) :
      StreamStep start s { s with reader := .returned (v.conclude size index cr) }
  | polled {s : Streaming} {leaf : Bytes} {index : Nat} {cr : Compact.Range} {reason : GoError}
      (at' : s.reader = .poll leaf index cr) (sender : s.streamer = .waiting reason) :
      StreamStep start s
        { s with streamer := .closed, reader := .returned (.error (.wrap "failed to get leaves from DB: %w" reason)) }
  | default {s : Streaming} {leaf : Bytes} {index : Nat} {cr : Compact.Range}
      (at' : s.reader = .poll leaf index cr) (nobody : ∀ reason, s.streamer ≠ .waiting reason) :
      StreamStep start s { s with reader := .range (index + 1) (v.add index cr leaf) }

-- What the goroutines come to from the go statement on.
def Started (start : Nat) (cr : Compact.Range) (s : Streaming) : Prop :=
  Relation.ReflTransGen (StreamStep v d size faults start) ⟨.query, none, .range start cr⟩ s

/-- No call is stuck before it returns, and one that met an error of the database returns one. -/
def NeverHangs (fault : Option GoError) : Prop :=
  ∀ start cr, v.resume fault d size = .ok (start, cr) → ∀ s, Started v d size faults start cr s →
    ((∃ result, s.reader = .returned result) ∨ ∃ s', StreamStep v d size faults start s s') ∧
    ∀ result, s.reader = .returned result →
      (faults.query ≠ none ∨ (∃ i < (faults.rows d size start).length, faults.scan i ≠ none) ∨
        (faults.rows d size start).length < (d.leaves.select start size).length) →
      ∃ reason, result = .error reason

section Working

variable (start : Nat) (cr : Compact.Range) (rows : List Bytes)

-- The streamer has put `put` rows on the channel.
def Streamer.At (put : Nat) : Streamer → Prop
  | .query => put = 0
  | .next i rest => put = i ∧ i ≤ rows.length ∧ rest = rows.drop i
  | .offer data i rest => put = i ∧ data :: rest = rows.drop i
  | .closed => put = rows.length
  | _ => False

-- The reader has taken `taken` of them.
def Reader.At (taken : Nat) : Reader → Prop
  | .range index now => index = start + taken ∧ now = v.addAll start cr (rows.take taken)
  | .poll leaf index now => ∃ before, taken = before + 1 ∧ rows[before]? = some leaf ∧ index = start + before ∧
      now = v.addAll start cr (rows.take before)
  | .returned result => result = v.conclude size (start + rows.length) (v.addAll start cr rows)

/-- Nothing has failed, and the row between the two is the one in the channel. -/
def StreamOk (s : Streaming) : Prop :=
  ∃ put taken, s.streamer.At rows put ∧ s.reader.At v size start cr rows taken ∧
    match s.buffer with
    | none => put = taken
    | some data => put = taken + 1 ∧ rows[taken]? = some data

variable {v d size faults start cr rows} {s s' : Streaming}

theorem addAll_append (first more : List Bytes) (index : Nat) (now : Compact.Range) :
    v.addAll index now (first ++ more) = v.addAll (index + first.length) (v.addAll index now first) more := by
  induction first generalizing index now with
  | nil => rfl
  | cons leaf rest ih =>
    rw [List.cons_append, LogVerifier.addAll, ih, LogVerifier.addAll, List.length_cons, Nat.add_assoc,
      Nat.add_comm 1]

theorem drop_cons {i : Nat} {data : Bytes} {rest : List Bytes} (at' : data :: rest = rows.drop i) :
    i < rows.length ∧ rows[i]? = some data ∧ rest = rows.drop (i + 1) := by
  have inside : i < rows.length := by
    by_contra beyond
    rw [List.drop_eq_nil_of_le (by omega)] at at'
    cases at'
  rw [List.drop_eq_getElem_cons inside, List.cons.injEq] at at'
  exact ⟨inside, by rw [List.getElem?_eq_getElem inside, at'.1], at'.2⟩

theorem StreamOk.step (ok : StreamOk v size start cr (faults.rows d size start) s) (query : faults.query = none)
    (scan : ∀ i < (faults.rows d size start).length, faults.scan i = none)
    (taken : StreamStep v d size faults start s s') : StreamOk v size start cr (faults.rows d size start) s' := by
  obtain ⟨put, count, streamer, reader, buffer⟩ := ok
  cases taken with
  | queryFails at' fails =>
    rw [query] at fails
    cases fails
  | queried at' works =>
    rw [at'] at streamer
    exact ⟨put, count, ⟨streamer, Nat.zero_le _, rfl⟩, reader, buffer⟩
  | scanFails at' fails =>
    rw [at'] at streamer
    obtain ⟨rfl, -, rest⟩ := streamer
    rw [scan _ (drop_cons rest).1] at fails
    cases fails
  | scanned at' works =>
    rw [at'] at streamer
    exact ⟨put, count, ⟨streamer.1, streamer.2.2⟩, reader, buffer⟩
  | finished at' =>
    rw [at'] at streamer
    obtain ⟨rfl, bound, rest⟩ := streamer
    have all := List.drop_eq_nil_iff.mp rest.symm
    exact ⟨put, count, Nat.le_antisymm bound all, reader, buffer⟩
  | put at' room =>
    rw [at'] at streamer
    rw [room] at buffer
    obtain ⟨rfl, rest⟩ := streamer
    obtain ⟨inside, found, later⟩ := drop_cons rest
    exact ⟨put + 1, count, ⟨rfl, inside, later⟩, reader, congrArg (· + 1) buffer, buffer ▸ found⟩
  | raised at' =>
    rw [at'] at streamer
    cases streamer
  | take at' full =>
    rw [at'] at reader
    rw [full] at buffer
    obtain ⟨rfl, rfl⟩ := reader
    exact ⟨put, count + 1, streamer, ⟨count, rfl, buffer.2, rfl, rfl⟩, buffer.1⟩
  | ended at' empty closed =>
    rw [at'] at reader
    rw [closed] at streamer
    rw [empty] at buffer
    obtain ⟨rfl, rfl⟩ := reader
    obtain rfl : count = (faults.rows d size start).length := buffer.symm.trans streamer
    refine ⟨put, (faults.rows d size start).length, closed ▸ streamer, ?_, by simp only [empty]; exact buffer⟩
    exact congrArg _ (by rw [List.take_length])
  | polled at' sender =>
    rw [sender] at streamer
    cases streamer
  | default at' nobody =>
    rw [at'] at reader
    obtain ⟨before, rfl, found, rfl, rfl⟩ := reader
    refine ⟨put, before + 1, streamer, ⟨rfl, ?_⟩, buffer⟩
    have inside := (List.getElem?_eq_some_iff.mp found).1
    rw [List.take_add_one, found, addAll_append, List.length_take, Nat.min_eq_left (Nat.le_of_lt inside)]
    rfl

theorem StreamOk.started (query : faults.query = none)
    (scan : ∀ i < (faults.rows d size start).length, faults.scan i = none)
    (started : Started v d size faults start cr s) : StreamOk v size start cr (faults.rows d size start) s := by
  induction started with
  | refl => exact ⟨0, 0, rfl, ⟨rfl, rfl⟩, rfl⟩
  | tail _ step ih => exact ih.step query scan step

theorem StreamOk.moves (ok : StreamOk v size start cr (faults.rows d size start) s) (query : faults.query = none)
    (scan : ∀ i < (faults.rows d size start).length, faults.scan i = none) :
    (∃ result, s.reader = .returned result) ∨ ∃ s', StreamStep v d size faults start s s' := by
  obtain ⟨put, count, streamer, -, -⟩ := ok
  -- Whatever the streamer waits for, the reader can go on.
  have reads (nobody : ∀ reason, s.streamer ≠ .waiting reason) (ready : s.buffer ≠ none ∨ s.streamer = .closed) :
      (∃ result, s.reader = .returned result) ∨ ∃ s', StreamStep v d size faults start s s' := by
    cases at' : s.reader with
    | returned result => exact .inl ⟨result, rfl⟩
    | poll leaf index now => exact .inr ⟨_, .default at' nobody⟩
    | range index now =>
      cases buffer : s.buffer with
      | some leaf => exact .inr ⟨_, .take at' buffer⟩
      | none => exact .inr ⟨_, .ended at' buffer (ready.resolve_left (absurd buffer))⟩
  cases at' : s.streamer with
  | query => exact .inr ⟨_, .queried at' query⟩
  | next i rows =>
    cases rows with
    | nil => exact .inr ⟨_, .finished at'⟩
    | cons data rows =>
      rw [at'] at streamer
      exact .inr ⟨_, .scanned at' (scan i (drop_cons streamer.2.2).1)⟩
  | offer data i rows =>
    cases buffer : s.buffer with
    | none => exact .inr ⟨_, .put at' buffer⟩
    | some other => exact reads (by rw [at']; nofun) (.inl (by rw [buffer]; nofun))
  | raise reason | waiting reason =>
    rw [at'] at streamer
    cases streamer
  | closed => exact reads (by rw [at']; nofun) (.inr at')

theorem select_length (first stop : Nat) : (d.leaves.select first stop).length ≤ stop - first := by
  rw [Table.select_eq]
  exact Nat.le_trans (List.length_filterMap_le _ _) (by simp)

/-- What two goroutines return is what MerkleRoot computes from the rows. -/
theorem StreamOk.result (ok : StreamOk v size start cr (faults.rows d size start) s)
    {result : Except GoError (Bytes × List Bytes)} (returned : s.reader = .returned result) :
    result = v.conclude size (start + (faults.rows d size start).length)
      (v.addAll start cr (faults.rows d size start)) := by
  obtain ⟨put, count, -, reader, -⟩ := ok
  rw [returned] at reader
  exact reader

/-- Two goroutines without a fault compute what one would. -/
theorem streamed_merkleRoot {fault : Option GoError} (resumed : v.resume fault d size = .ok (start, cr))
    (started : Started v d size ⟨none, fun _ => none, none⟩ start cr s)
    {result : Except GoError (Bytes × List Bytes)} (returned : s.reader = .returned result) :
    result = v.merkleRoot fault d size := by
  rw [(StreamOk.started rfl (fun _ _ => rfl) started).result returned, LogVerifier.merkleRoot, resumed]
  rfl

end Working

section Failing

variable {v d size faults} {start : Nat} {cr : Compact.Range}

-- The streamer waits at the error channel while the reader waits for a leaf.
theorem waiting_stuck {reason : GoError} {index : Nat} {now : Compact.Range} {s' : Streaming} :
    ¬ StreamStep v d size faults start ⟨.waiting reason, none, .range index now⟩ s' := by
  intro step
  cases step <;> contradiction

/-- Rows without a fault can be read one by one. -/
theorem started_row (query : faults.query = none) {i : Nat} (inside : i ≤ (faults.rows d size start).length)
    (scan : ∀ j < i, faults.scan j = none) :
    Started v d size faults start cr ⟨.next i ((faults.rows d size start).drop i), none,
      .range (start + i) (v.addAll start cr ((faults.rows d size start).take i))⟩ := by
  induction i with
  | zero => exact .single (.queried rfl query)
  | succ i ih =>
    have before := ih (by omega) fun j below => scan j (by omega)
    rw [List.drop_eq_getElem_cons inside] at before
    have scanned := before.tail (.scanned rfl (scan i (by omega)))
    have put := scanned.tail (.put rfl rfl)
    have taken := put.tail (.take rfl rfl)
    have read := taken.tail (.default rfl nofun)
    have added : v.addAll start cr ((faults.rows d size start).take (i + 1)) =
        v.add (start + i) (v.addAll start cr ((faults.rows d size start).take i)) (faults.rows d size start)[i] := by
      rw [List.take_add_one, List.getElem?_eq_getElem inside, addAll_append, List.length_take,
        Nat.min_eq_left (by omega)]
      rfl
    rw [added]
    exact read

/-- MerkleRoot never hangs exactly when neither the query nor the scan of a row fails. -/
theorem neverHangs_iff (v : LogVerifier) (d : LogDb.Database) (size : Nat) (faults : StreamFaults)
    (fault : Option GoError) :
    NeverHangs v d size faults fault ↔
      ∀ start cr, v.resume fault d size = .ok (start, cr) →
        faults.query = none ∧ ∀ i < (faults.rows d size start).length, faults.scan i = none := by
  constructor
  · intro never start cr resumed
    have free {reason : GoError} {index : Nat} {now : Compact.Range}
        (stuck : Started v d size faults start cr ⟨.waiting reason, none, .range index now⟩) : False := by
      rcases (never start cr resumed _ stuck).1 with ⟨result, returned⟩ | ⟨s', step⟩
      · cases returned
      · exact waiting_stuck step
    have query : faults.query = none := by
      cases fails : faults.query with
      | none => rfl
      | some reason => exact (free (.tail (.single (.queryFails rfl fails)) (.raised rfl))).elim
    refine ⟨query, fun i => ?_⟩
    induction i using Nat.strong_induction_on with
    | _ i ih =>
      intro inside
      cases fails : faults.scan i with
      | none => rfl
      | some reason =>
        have before := @started_row v d size faults start cr query i (Nat.le_of_lt inside)
          fun j below => ih j below (by omega)
        rw [List.drop_eq_getElem_cons inside] at before
        exact (free ((before.tail (.scanFails rfl fails)).tail (.raised rfl))).elim
  · intro works start cr resumed s started
    obtain ⟨query, scan⟩ := works start cr resumed
    have ok := StreamOk.started query scan started
    refine ⟨ok.moves query scan, fun result returned failed => ?_⟩
    -- The one failure left is that rows did not come, and then there are too few.
    rcases failed with query' | ⟨i, inside, scan'⟩ | short
    · exact absurd query query'
    · exact absurd (scan i inside) scan'
    · have most := @select_length d start size
      refine ⟨_, (ok.result returned).trans (if_pos ?_)⟩
      omega

/-- The connection is lost before the query, and MerkleRoot waits forever for a leaf. -/
theorem query_failure_hangs :
    ∃ s, Started padding .empty 1 ⟨some (.text "driver: bad connection"), fun _ => none, none⟩ 0 ⟨0, 0, []⟩ s ∧
      padding.resume none .empty 1 = .ok (0, ⟨0, 0, []⟩) ∧ (∀ result, s.reader ≠ .returned result) ∧
      ∀ s', ¬ StreamStep padding .empty 1 ⟨some (.text "driver: bad connection"), fun _ => none, none⟩ 0 s s' :=
  ⟨_, .tail (.single (.queryFails rfl rfl)) (.raised rfl), rfl, nofun, fun _ => waiting_stuck⟩

end Failing

end Verify
