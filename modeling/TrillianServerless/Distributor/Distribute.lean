import TrillianServerless.Packages.NoteFormat

set_option autoImplicit false

/-!
# The database of the distributor

Transactions are serialisable, so a call of Distribute takes the table in one step. Any statement of it
may fail, and what a transaction wrote is in the table only once its commit succeeds.
-/

namespace DbDistributor

open Go SignedNote Checkpoints

structure LogInfo where
  origin : String
  verifier : Verifier

-- Go strings are any bytes.
structure Distributor where
  ws : Bytes → Option Verifier
  ls : Bytes → Option LogInfo

structure Row where
  logID : Bytes
  witID : Bytes
  treeSize : Nat
  chkpt : Bytes
  deriving DecidableEq, Repr

abbrev Table := List Row

-- The primary key.
def Row.pair (row : Row) : Bytes × Bytes := (row.logID, row.witID)

def insertOrReplace (row : Row) (rows : Table) : Table :=
  rows.filter (fun other => other.pair ≠ row.pair) ++ [row]

-- The errors that the database returns of its own, if any.
structure Faults where
  beginTx : Option GoError
  query : Option GoError
  scan : Option GoError
  exec : Option GoError
  commit : Option GoError

structure Call where
  logID : Bytes
  witID : Bytes
  nextRaw : Bytes
  faults : Faults

-- status.Code is NotFound for no error of the database itself.
inductive LookupError where
  | notFound (message : String)
  | failed (reason : GoError)

def getLatestCheckpoint (faults : Faults) (rows : Table) (logID witID : Bytes) :
    Except LookupError Bytes :=
  match faults.query, faults.scan with
  | some reason, _ => .error (.failed reason)
  | none, some reason => .error (.failed reason)
  | none, none =>
    match rows.find? fun row => row.pair = (logID, witID) with
    | none => .error (.notFound "no checkpoint for log %q")
    | some row => .ok row.chkpt

-- database/sql takes no uint64 with the high bit set.
def saveCheckpoint (faults : Faults) (row : Row) (rows : Table) : Except GoError Unit × Table :=
  if faults.exec.isSome ∨ 2 ^ 63 ≤ row.treeSize then (.error (.text "Exec(): %v"), rows)
  else
    let written := insertOrReplace row rows
    match faults.commit with
    | some reason => (.error reason, rows)
    | none => (.ok (), written)

section Distribute

variable (pkg : Package) (d : Distributor)

-- The transaction of a call whose checkpoint is valid.
def replaceOlder (l : LogInfo) (wv : Verifier) (call : Call) (newCP : Checkpoint) (rows : Table) :
    Except GoError Unit × Table :=
  let save := saveCheckpoint call.faults ⟨call.logID, call.witID, newCP.size, call.nextRaw⟩ rows
  match getLatestCheckpoint call.faults rows call.logID call.witID with
  | .error (.notFound _) => save
  | .error (.failed reason) => (.error reason, rows)
  | .ok oldBs =>
    match pkg.parseCheckpoint oldBs l.origin l.verifier [wv] with
    | .error _ => (.error (.text "failed to parse checkpoint: %v"), rows)
    | .ok (oldCP, _) =>
      if newCP.size < oldCP.size then
        (.error (.text "checkpoint for log %q and witness %q is for size %d, cannot update to size %d"), rows)
      else if newCP.size = oldCP.size then
        if newCP.hash ≠ oldCP.hash then
          (.error (.text "old checkpoint for tree size %d had hash %x but new one has %x"), rows)
        else (.ok (), rows)
      else save

def distribute (call : Call) (rows : Table) : Except GoError Unit × Table :=
  match d.ls call.logID, d.ws call.witID with
  | none, _ => (.error (.text "unknown log ID %q"), rows)
  | some _, none => (.error (.text "unknown witness ID %q"), rows)
  | some l, some wv =>
    match pkg.parseCheckpoint call.nextRaw l.origin l.verifier [wv] with
    | .error _ => (.error (.text "failed to parse checkpoint: %v"), rows)
    | .ok (newCP, n) =>
      if n.sigs.length ≠ 2 then
        (.error (.text "failed to verify log and witness signatures; only verified: %v"), rows)
      else if call.faults.beginTx.isSome then (.error (.text "failed to begin transaction: %v"), rows)
      else replaceOlder pkg l wv call newCP rows

def runCalls (rows : Table) (calls : List Call) : Table :=
  calls.foldl (fun rows call => (distribute pkg d call rows).2) rows

end Distribute

section Rows

theorem mem_insertOrReplace {row other : Row} {rows : Table} :
    other ∈ insertOrReplace row rows ↔ other ∈ rows ∧ other.pair ≠ row.pair ∨ other = row := by
  simp [insertOrReplace]

theorem insertOrReplace_nodup {rows : Table} (unique : (rows.map Row.pair).Nodup) (row : Row) :
    ((insertOrReplace row rows).map Row.pair).Nodup := by
  rw [insertOrReplace, List.map_append, List.map_singleton, List.nodup_append_comm,
    List.singleton_append, List.nodup_cons]
  constructor
  · simp
  · exact unique.sublist (List.filter_sublist.map _)

theorem find?_pair {row : Row} {rows : Table} (unique : (rows.map Row.pair).Nodup) (member : row ∈ rows) :
    rows.find? (fun other => other.pair = row.pair) = some row := by
  cases found : rows.find? (fun other => decide (other.pair = row.pair)) with
  | none => simpa using List.find?_eq_none.mp found row member
  | some other =>
    have same : other.pair = row.pair := by simpa using List.find?_some found
    rw [List.inj_on_of_nodup_map unique (List.mem_of_find?_eq_some found) member same]

end Rows

section Calls

variable {pkg : Package} {d : Distributor}

/-- The checkpoint of a row is signed by the log and the witness of the row, and of the row's size. -/
def Row.Valid (pkg : Package) (d : Distributor) (row : Row) : Prop :=
  ∃ l wv e cp, d.ls row.logID = some l ∧ d.ws row.witID = some wv ∧ pkg.decode row.chkpt = some e ∧
    e.SignedBy pkg l.verifier ∧ e.SignedBy pkg wv ∧ l.verifier.key ≠ wv.key ∧
    pkg.unmarshal e.text = some cp ∧ cp.origin = l.origin ∧ cp.size = row.treeSize

def rootOf (pkg : Package) (raw : Bytes) : Option Bytes := do
  let e ← pkg.decode raw
  let cp ← pkg.unmarshal e.text
  return cp.hash

-- Two verified signatures are those of the log and of the witness, as no key is verified twice.
theorem parse_both (lawful : Lawful pkg) {raw : Bytes} {origin : String} {v w : Verifier} {cp : Checkpoint}
    {n : Note} (parsed : pkg.parseCheckpoint raw origin v [w] = .ok (cp, n)) (two : n.sigs.length = 2) :
    ∃ e, pkg.decode raw = some e ∧ e.SignedBy pkg v ∧ e.SignedBy pkg w ∧ v.key ≠ w.key ∧
      pkg.unmarshal e.text = some cp ∧ cp.origin = origin := by
  obtain ⟨read, own, body, from'⟩ := (lawful.parse _ _ _ _ _ _).mp parsed
  obtain ⟨e, decoded, text, distinct, signers, signed⟩ := opened_signedBy read
  rw [text] at body
  have other : ∃ k ∈ n.sigs.map Signature.key, k ≠ v.key := by
    by_contra none'
    push Not at none'
    have once := List.nodup_iff_count_le_one.mp distinct v.key
    rw [List.count_eq_length.mpr fun k named => (none' k named).symm, List.length_map, two] at once
    omega
  obtain ⟨k, named, apart⟩ := other
  obtain ⟨u, listed, rfl, _⟩ := signers k named
  rcases List.mem_pair.mp listed with rfl | rfl
  · exact absurd rfl apart
  · exact ⟨e, decoded, signed v (by simp) own, signed u (by simp) named, Ne.symm apart, body, from'⟩

theorem saveCheckpoint_cases (faults : Faults) (row : Row) (rows : Table) :
    (saveCheckpoint faults row rows).2 = rows ∨
      saveCheckpoint faults row rows = (.ok (), insertOrReplace row rows) := by
  unfold saveCheckpoint
  split
  · exact .inl rfl
  · cases faults.commit with
    | some reason => exact .inl rfl
    | none => exact .inr rfl

theorem replaceOlder_cases (l : LogInfo) (wv : Verifier) (call : Call) (newCP : Checkpoint) (rows : Table) :
    (replaceOlder pkg l wv call newCP rows).2 = rows ∨
      replaceOlder pkg l wv call newCP rows =
          (.ok (), insertOrReplace ⟨call.logID, call.witID, newCP.size, call.nextRaw⟩ rows) ∧
        ∀ old, rows.find? (fun row => row.pair = (call.logID, call.witID)) = some old →
          ∃ oldCP n, pkg.parseCheckpoint old.chkpt l.origin l.verifier [wv] = .ok (oldCP, n) ∧
            oldCP.size < newCP.size := by
  have saved := saveCheckpoint_cases call.faults ⟨call.logID, call.witID, newCP.size, call.nextRaw⟩ rows
  unfold replaceOlder getLatestCheckpoint
  cases call.faults.query with
  | some reason => exact .inl rfl
  | none =>
  cases call.faults.scan with
  | some reason => exact .inl rfl
  | none =>
  cases rows.find? (fun row => decide (row.pair = (call.logID, call.witID))) with
  | none => exact saved.imp_right fun done => ⟨done, fun old found => by cases found⟩
  | some old =>
  cases parsed : pkg.parseCheckpoint old.chkpt l.origin l.verifier [wv] with
  | error reason => exact .inl (by simp only [parsed])
  | ok result =>
    obtain ⟨oldCP, n⟩ := result
    simp only [parsed]
    split
    · exact .inl rfl
    next noSmaller =>
    split
    · split
      · exact .inl rfl
      · exact .inl rfl
    next other =>
    refine saved.imp_right fun done => ⟨done, fun older found => ?_⟩
    obtain rfl := Option.some.inj found
    exact ⟨oldCP, n, parsed, by omega⟩

/-- A call does nothing, or it saves a valid checkpoint for a pair that had none or a smaller one. -/
theorem distribute_cases (lawful : Lawful pkg) (call : Call) (rows : Table) :
    (distribute pkg d call rows).2 = rows ∨
      ∃ row : Row, row.pair = (call.logID, call.witID) ∧ row.Valid pkg d ∧
        distribute pkg d call rows = (.ok (), insertOrReplace row rows) ∧
        ∀ old, rows.find? (fun other => other.pair = row.pair) = some old → old.Valid pkg d →
          old.treeSize < row.treeSize := by
  unfold distribute
  split
  · exact .inl rfl
  · exact .inl rfl
  next l wv knownLog knownWit =>
  split
  · exact .inl rfl
  next newCP n parsed =>
  split
  · exact .inl rfl
  next two =>
  split
  · exact .inl rfl
  obtain ⟨e, decoded, logSigned, witSigned, apart, body, origin⟩ := parse_both lawful parsed (not_not.mp two)
  refine (replaceOlder_cases l wv call newCP rows).imp_right ?_
  rintro ⟨saved, older⟩
  refine ⟨⟨call.logID, call.witID, newCP.size, call.nextRaw⟩, rfl,
    ⟨l, wv, e, newCP, knownLog, knownWit, decoded, logSigned, witSigned, apart, body, origin, rfl⟩,
    saved, ?_⟩
  rintro old found ⟨l', wv', e', cp, _, _, decoded', _, _, _, body', _, size⟩
  obtain ⟨oldCP, n', parsed', smaller⟩ := older old found
  obtain ⟨read, _, bodyOld, _⟩ := (lawful.parse _ _ _ _ _ _).mp parsed'
  obtain ⟨e'', decodedOld, text, _⟩ := opened_eq_some read
  obtain rfl := Option.some.inj (decoded'.symm.trans decodedOld)
  rw [text, body'] at bodyOld
  rwa [← size, Option.some.inj bodyOld]

/-- What holds of the table at all times. -/
structure TableOk (pkg : Package) (d : Distributor) (rows : Table) : Prop where
  unique : (rows.map Row.pair).Nodup
  valid : ∀ row ∈ rows, row.Valid pkg d

theorem TableOk.distribute (lawful : Lawful pkg) {rows : Table} (held : TableOk pkg d rows) (call : Call) :
    TableOk pkg d (distribute pkg d call rows).2 := by
  rcases distribute_cases lawful call rows with same | ⟨row, _, valid, saved, _⟩
  · rwa [same]
  · rw [saved]
    constructor
    · exact insertOrReplace_nodup held.unique row
    · intro other member
      rcases mem_insertOrReplace.mp member with ⟨old, _⟩ | rfl
      · exact held.valid other old
      · exact valid

theorem TableOk.runCalls (lawful : Lawful pkg) {rows : Table} (held : TableOk pkg d rows)
    (calls : List Call) : TableOk pkg d (runCalls pkg d rows calls) := by
  induction calls generalizing rows with
  | nil => exact held
  | cons call rest ih => exact ih (held.distribute lawful call)

theorem runCalls_ok (lawful : Lawful pkg) (d : Distributor) (calls : List Call) :
    TableOk pkg d (runCalls pkg d [] calls) := by
  have start : TableOk pkg d [] := ⟨List.nodup_nil, by simp⟩
  exact start.runCalls lawful calls

/-- A later row of the pair is the same row or a larger checkpoint. -/
def Row.EvolvesTo (row later : Row) : Prop :=
  later.pair = row.pair ∧ (later = row ∨ row.treeSize < later.treeSize)

theorem Row.EvolvesTo.trans {a b c : Row} (first : a.EvolvesTo b) (second : b.EvolvesTo c) :
    a.EvolvesTo c := by
  obtain ⟨pair, grown⟩ := first
  obtain ⟨pair', grown'⟩ := second
  refine ⟨pair'.trans pair, ?_⟩
  rcases grown with rfl | grown
  · exact grown'
  rcases grown' with rfl | grown'
  · exact .inr grown
  · exact .inr (Nat.lt_trans grown grown')

theorem TableOk.row_evolves (lawful : Lawful pkg) {rows : Table} (held : TableOk pkg d rows) (call : Call)
    {row : Row} (member : row ∈ rows) :
    ∃ later ∈ (DbDistributor.distribute pkg d call rows).2, row.EvolvesTo later := by
  rcases distribute_cases lawful call rows with same | ⟨new, _, _, saved, larger⟩
  · rw [same]
    exact ⟨row, member, rfl, .inl rfl⟩
  rw [saved]
  by_cases own : row.pair = new.pair
  · refine ⟨new, mem_insertOrReplace.mpr (.inr rfl), own.symm, .inr ?_⟩
    refine larger row ?_ (held.valid row member)
    rw [← own]
    exact find?_pair held.unique member
  · exact ⟨row, mem_insertOrReplace.mpr (.inl ⟨member, own⟩), rfl, .inl rfl⟩

theorem TableOk.rows_evolve (lawful : Lawful pkg) {rows : Table} (held : TableOk pkg d rows)
    (calls : List Call) {row : Row} (member : row ∈ rows) :
    ∃ later ∈ DbDistributor.runCalls pkg d rows calls, row.EvolvesTo later := by
  induction calls generalizing rows row with
  | nil => exact ⟨row, member, rfl, .inl rfl⟩
  | cons call rest ih =>
    obtain ⟨next, member', grown⟩ := held.row_evolves lawful call member
    obtain ⟨later, last, grown'⟩ := ih (held.distribute lawful call) member'
    exact ⟨later, last, grown.trans grown'⟩

theorem runCalls_append (rows : Table) (calls more : List Call) :
    runCalls pkg d rows (calls ++ more) = runCalls pkg d (runCalls pkg d rows calls) more :=
  List.foldl_append

/-- Whatever is submitted, the table has one valid row per log and witness, whose size never falls and
whose root at a size never changes, and a call changes no row but its own, and none if it fails. -/
theorem database_invariant (lawful : Lawful pkg) (d : Distributor) (calls : List Call) :
    ((runCalls pkg d [] calls).map Row.pair).Nodup ∧
    (∀ row ∈ runCalls pkg d [] calls, row.Valid pkg d) ∧
    (∀ more : List Call, ∀ row ∈ runCalls pkg d [] calls, ∃ later ∈ runCalls pkg d [] (calls ++ more),
      later.pair = row.pair ∧ row.treeSize ≤ later.treeSize ∧
        (later.treeSize = row.treeSize → rootOf pkg later.chkpt = rootOf pkg row.chkpt)) ∧
    (∀ (call : Call) (reason : GoError),
      (distribute pkg d call (runCalls pkg d [] calls)).1 = .error reason →
        (distribute pkg d call (runCalls pkg d [] calls)).2 = runCalls pkg d [] calls) ∧
    ∀ (call : Call) (row : Row), row.pair ≠ (call.logID, call.witID) →
      (row ∈ (distribute pkg d call (runCalls pkg d [] calls)).2 ↔ row ∈ runCalls pkg d [] calls) := by
  have held := runCalls_ok lawful d calls
  refine ⟨held.unique, held.valid, ?_, ?_, ?_⟩
  · intro more row member
    obtain ⟨later, last, pair, grown⟩ := held.rows_evolve lawful more member
    refine ⟨later, by rwa [runCalls_append], pair, ?_⟩
    rcases grown with rfl | grown
    · exact ⟨Nat.le_refl _, fun _ => rfl⟩
    · exact ⟨Nat.le_of_lt grown, fun same => by omega⟩
  · intro call reason failed
    rcases distribute_cases lawful call (runCalls pkg d [] calls) with same | ⟨_, _, _, saved, _⟩
    · exact same
    · rw [saved] at failed
      cases failed
  · intro call row other
    rcases distribute_cases lawful call (runCalls pkg d [] calls) with same | ⟨new, pair, _, saved, _⟩
    · rw [same]
    · rw [saved, mem_insertOrReplace, pair]
      constructor
      · rintro (⟨member, _⟩ | rfl)
        · exact member
        · exact absurd pair other
      · exact fun member => .inl ⟨member, other⟩

end Calls

section Tags

def rootedText (n : Nat) (root : UInt8) : Bytes :=
  asciiBytes "o\n" ++ formatUint 10 n ++ [10] ++ encodeBase64 [root] ++ [10]

-- One log, whose id is its key name, and witnesses under their key names.
def tagDistributor (tags : List UInt8) : Distributor where
  ws id := (tags.map tagVerifier).find? fun v => v.key.name = id
  ls id := if id = [108] then some ⟨"o", tagVerifier 108⟩ else none

-- A call for the log and a witness, in which the database does not fail.
def tagCall (tag : UInt8) (nextRaw : Bytes) : Call := ⟨[108], [tag], nextRaw, ⟨none, none, none, none, none⟩⟩

theorem database_invariant_grown :
    runCalls reference (tagDistributor [97]) [] [tagCall 97 (tagNote (rootedText 1 1) [108, 97])] =
        [⟨[108], [97], 1, tagNote (rootedText 1 1) [108, 97]⟩] ∧
      ∃ later ∈ runCalls reference (tagDistributor [97]) [] ([tagCall 97 (tagNote (rootedText 1 1) [108, 97])] ++
          [tagCall 97 (tagNote (rootedText 1 2) [108, 97]), tagCall 97 (tagNote (rootedText 2 3) [108, 97])]),
        later.pair = ([108], [97]) ∧ 1 ≤ later.treeSize ∧
          (later.treeSize = 1 →
            rootOf reference later.chkpt = rootOf reference (tagNote (rootedText 1 1) [108, 97])) := by
  have first : runCalls reference (tagDistributor [97]) []
      [tagCall 97 (tagNote (rootedText 1 1) [108, 97])] =
        [⟨[108], [97], 1, tagNote (rootedText 1 1) [108, 97]⟩] := by
    decide +kernel
  obtain ⟨_, _, evolves, _⟩ := database_invariant reference_lawful (tagDistributor [97])
    [tagCall 97 (tagNote (rootedText 1 1) [108, 97])]
  refine ⟨first, ?_⟩
  exact evolves _ ⟨[108], [97], 1, tagNote (rootedText 1 1) [108, 97]⟩
    (by rw [first]; exact List.mem_singleton_self _)

end Tags

end DbDistributor
