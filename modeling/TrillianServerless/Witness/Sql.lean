import TrillianServerless.Witness.Served

set_option autoImplicit false

namespace WitnessServer

open Go Merkle Checkpoints Linearize
open SignedNote (Note Verifier Signer)

section Requests

inductive Failure where
  | status (s : Status)
  | other (reason : GoError)
  deriving DecidableEq, Repr

inductive Request where
  | update (call : Call)
  | getCheckpoint (logID : String)
  | getLogs
  deriving DecidableEq, Repr

inductive Answer where
  | update (body : Option Bytes) (err : Option Failure)
  | checkpoint (result : Except Failure Bytes)
  | logs (result : Except Failure (List String))
  deriving DecidableEq

-- The log that a request asks about.
def Request.log : Request → Option String
  | .update call => some call.logID
  | .getCheckpoint logID => some logID
  | .getLogs => none

def Answer.ofReply (reply : Reply) : Answer := .update reply.1 (reply.2.map .status)

-- The checkpoint that is handed out, if there is one.
def Answer.body : Answer → Option Bytes
  | .update body _ => body
  | .checkpoint result => result.toOption
  | .logs _ => none

-- An error and nothing else.
def Answer.Fails : Answer → Prop
  | .update body err => body = none ∧ err ≠ none
  | .checkpoint result => result.toOption = none
  | .logs result => result.toOption = none

theorem Answer.Fails.body {a : Answer} (fails : a.Fails) : a.body = none := by
  cases a with
  | update body err => exact fails.1
  | checkpoint result => exact fails
  | logs result => rfl

def latest (store : Store) (logID : String) : Except Failure Bytes :=
  match store logID with
  | none => .error (.status ⟨.notFound, "no checkpoint for log %q"⟩)
  | some value => .ok value.rawChkpt

/-- What a request does when there is no other one. -/
inductive Serves (w : Witness) : Store → Request → Answer → Store → Prop
  | update {store after : Store} {call : Call} {reply : Reply} : serveUpdate w store call = (after, reply) →
      Serves w store (.update call) (.ofReply reply) after
  | getCheckpoint (store : Store) (logID : String) :
      Serves w store (.getCheckpoint logID) (.checkpoint (latest store logID)) store
  | getLogs {store : Store} {ids : List String} : ids.Nodup → (∀ logID, logID ∈ ids ↔ store logID ≠ none) →
      Serves w store .getLogs (.logs (.ok ids)) store

end Requests

namespace Sql

section Table

-- chkpts, with the rows as they were inserted.
abbrev Rows := List (String × CheckpointState)

def find (rows : Rows) : Store := fun logID => (rows.find? fun row => row.1 = logID).map Prod.snd

def insertOrReplace (rows : Rows) (logID : String) (new : CheckpointState) : Rows :=
  rows.filter (fun row => row.1 ≠ logID) ++ [(logID, new)]

theorem find_ne_none {rows : Rows} {logID : String} : logID ∈ rows.map Prod.fst ↔ find rows logID ≠ none := by
  rw [find, ne_eq, Option.map_eq_none_iff, List.find?_eq_none, List.mem_map]
  push Not
  exact exists_congr fun row => and_congr_right fun _ => decide_eq_true_iff.symm

theorem find_insertOrReplace (rows : Rows) (logID : String) (new : CheckpointState) :
    find (insertOrReplace rows logID new) = Function.update (find rows) logID (some new) := by
  funext other
  rw [find, insertOrReplace, List.find?_append, List.find?_filter]
  by_cases same : other = logID
  · subst same
    have none : rows.find? (fun row => decide (decide (row.1 ≠ other) = true ∧ decide (row.1 = other) = true)) =
        Option.none := by
      simp
    rw [Function.update_self, none]
    simp
  · have others : (fun row : String × CheckpointState =>
        decide (decide (row.1 ≠ logID) = true ∧ decide (row.1 = other) = true)) = fun row => decide (row.1 = other) := by
      funext row
      by_cases is : row.1 = other
      · simp [is, same]
      · simp [is]
    rw [Function.update_of_ne same, others]
    simp [find, Ne.symm same]

theorem insertOrReplace_keys {rows : Rows} (keys : (rows.map Prod.fst).Nodup) (logID : String) (new : CheckpointState) :
    ((insertOrReplace rows logID new).map Prod.fst).Nodup := by
  rw [insertOrReplace, List.map_append, List.nodup_append]
  refine ⟨(keys.sublist (List.filter_sublist.map _)), List.nodup_singleton _, fun id before id' last same => ?_⟩
  obtain ⟨row, member, rfl⟩ := List.mem_map.mp before
  obtain rfl := List.mem_singleton.mp last
  have other : row.1 ≠ id' := of_decide_eq_true (List.mem_filter.mp member).2
  exact other same

end Table

section System

-- What goes wrong with an operation of the database; a Commit that fails may have been done.
structure Fault where
  reason : GoError
  applied : Bool

/-- A request between two of its steps. From `began` to `inserted` it has a transaction, until Commit, or until the
deferred Close rolls it back in `closing`; Logs reads its rows in `listing`. A request is `lost` when the server stops. -/
inductive Process where
  | idle
  | called (r : Request)
  | parsed (call : Call) (info : LogInfo) (next : Checkpoint) (nextNote : Note)
  | began (call : Call) (info : LogInfo) (next : Checkpoint) (nextNote : Note)
  | opened (call : Call) (info : LogInfo) (next : Checkpoint) (nextNote : Note) (read : Option CheckpointState)
  | storing (call : Call) (new : CheckpointState) (message : String)
  | inserted (call : Call) (new : CheckpointState) (message : String)
  | listing (ids : List String)
  | closing (r : Request) (a : Answer)
  | finished (r : Request) (a : Answer)
  | returned (r : Request) (a : Answer)
  | lost (r : Request)

def Process.Holds : Process → Bool
  | .began .. | .opened .. | .storing .. | .inserted .. | .listing _ | .closing .. => true
  | _ => false

def internal (message : String) : Answer := .update none (some (.status ⟨.internal, message⟩))

variable (w : Witness)

-- One step of a request. The pool has one connection, which it waits for unless it is `free`.
def advance (rows : Rows) (free : Bool) (fault : Option Fault) : Process → Rows × Process
  | .called (.update call) =>
    match receive w call with
    | .parsed call info next note => (rows, .parsed call info next note)
    | .finished _ reply => (rows, .finished (.update call) (.ofReply reply))
    | _ => (rows, .called (.update call))
  | .called (.getCheckpoint logID) =>
    if free then
      match fault with
      | some f => (rows, .finished (.getCheckpoint logID) (.checkpoint (.error (.other f.reason))))
      | none => (rows, .finished (.getCheckpoint logID) (.checkpoint (latest (find rows) logID)))
    else (rows, .called (.getCheckpoint logID))
  | .called .getLogs =>
    if free then
      match fault with
      | some f => (rows, .finished .getLogs (.logs (.error (.other f.reason))))
      | none => (rows, .listing (rows.map Prod.fst))
    else (rows, .called .getLogs)
  | .parsed call info next note =>
    if free then
      match fault with
      | some _ => (rows, .finished (.update call) (.update none (some (.other (.text "WriteOps(%v): %v")))))
      | none => (rows, .began call info next note)
    else (rows, .parsed call info next note)
  | .began call info next note =>
    match fault with
    | some _ => (rows, .closing (.update call) (internal "couldn't retrieve latest checkpoint: %v"))
    | none => (rows, .opened call info next note (find rows call.logID))
  | .opened call info next note read =>
    match plan w info call next note read with
    | .reply r => (rows, .closing (.update call) (.ofReply r))
    | .set new message => (rows, .storing call new message)
  | .storing call new message =>
    match fault with
    | some _ => (rows, .closing (.update call) (internal message))
    | none => (rows, .inserted call new message)
  | .inserted call new message =>
    match fault with
    | some f => (if f.applied then insertOrReplace rows call.logID new else rows, .finished (.update call) (internal message))
    | none => (insertOrReplace rows call.logID new, .finished (.update call) (.update (some new.rawChkpt) none))
  | .listing ids =>
    match fault with
    | some f => (rows, .finished .getLogs (.logs (.error (.other f.reason))))
    | none => (rows, .finished .getLogs (.logs (.ok ids)))
  | .closing r a => (rows, .finished r a)
  | .finished r a => (rows, .returned r a)
  | p => (rows, p)

-- The server stops and is started again on the same file.
def Process.stop : Process → Process
  | .idle => .idle
  | .called r | .closing r _ | .finished r _ | .lost r => .lost r
  | .parsed call .. | .began call .. | .opened call .. | .storing call .. | .inserted call .. => .lost (.update call)
  | .listing _ => .lost .getLogs
  | .returned r a => .returned r a

structure System where
  rows : Rows
  conn : Option Nat
  procs : Nat → Process

inductive Event where
  | invoke (id : Nat) (r : Request)
  | advance (id : Nat) (fault : Option Fault)
  | restart

def System.created : System := ⟨[], none, fun _ => .idle⟩

-- The connection is taken or given back as the request goes on.
def System.put (s : System) (id : Nat) (moved : Rows × Process) : System where
  rows := moved.1
  conn := if moved.2.Holds then some id else if s.conn = some id then none else s.conn
  procs := Function.update s.procs id moved.2

def System.step (s : System) : Event → System
  | .invoke id r =>
    match s.procs id with
    | .idle => s.put id (s.rows, .called r)
    | _ => s
  | .advance id fault => s.put id (advance w s.rows s.conn.isNone fault (s.procs id))
  | .restart => ⟨s.rows, none, fun id => (s.procs id).stop⟩

def run (schedule : Nat → Event) : Nat → System
  | 0 => .created
  | n + 1 => (run schedule n).step w (schedule n)

end System

section Invariant

variable (w : Witness)

/-- What a request has established; with a transaction, it is about what is stored. -/
def Process.Valid (store : Store) : Process → Prop
  | .parsed call info next note | .began call info next note =>
    w.logs call.logID = some info ∧ parse w call.nextRaw call.logID = .ok (next, note)
  | .opened call info next note read =>
    (w.logs call.logID = some info ∧ parse w call.nextRaw call.logID = .ok (next, note)) ∧ store call.logID = read
  | .storing call new message | .inserted call new message =>
    ∃ info next note, w.logs call.logID = some info ∧ parse w call.nextRaw call.logID = .ok (next, note) ∧
      plan w info call next note (store call.logID) = .set new message
  | _ => True

structure Inv (s : System) : Prop where
  conn : ∀ id, (s.procs id).Holds = true ↔ s.conn = some id
  keys : (s.rows.map Prod.fst).Nodup
  valid : ∀ id, (s.procs id).Valid w (find s.rows)

variable {w}

theorem created_inv : Inv w System.created where
  conn _ := by simp [System.created, Process.Holds]
  keys := List.nodup_nil
  valid _ := trivial

-- What is stored matters only to the request that has the connection.
theorem valid_congr {p : Process} (holds : p.Holds = false) {store : Store} (valid : p.Valid w store)
    (store' : Store) : p.Valid w store' := by
  cases p with
  | idle | called | closing | finished | returned | lost | listing => trivial
  | parsed => exact valid
  | began | opened | storing | inserted => cases holds

theorem advance_valid {p : Process} {rows : Rows} {free : Bool} {fault : Option Fault}
    (valid : p.Valid w (find rows)) :
    (advance w rows free fault p).2.Valid w (find (advance w rows free fault p).1) := by
  cases p with
  | idle | closing | finished | returned | lost => trivial
  | called r =>
    cases r with
    | update call =>
      rcases @receive_cases w call with ⟨_, received, -⟩ | ⟨info, next, note, received, known, parsed⟩
      · simp only [advance, received]
        trivial
      · simp only [advance, received]
        exact ⟨known, parsed⟩
    | getCheckpoint | getLogs =>
      simp only [advance]
      split
      · split <;> trivial
      · trivial
  | parsed call info next note =>
    simp only [advance]
    split
    · split
      · trivial
      · exact valid
    · exact valid
  | began call info next note =>
    simp only [advance]
    split
    · trivial
    · exact ⟨valid, rfl⟩
  | opened call info next note read =>
    obtain ⟨⟨known, parsed⟩, stored⟩ := valid
    simp only [advance]
    split
    · trivial
    next new message planned => exact ⟨info, next, note, known, parsed, stored ▸ planned⟩
  | storing call new message =>
    simp only [advance]
    split
    · trivial
    · exact valid
  | inserted call new message =>
    simp only [advance]
    split <;> trivial
  | listing ids =>
    simp only [advance]
    split <;> trivial

theorem advance_rows {p : Process} {rows : Rows} {free : Bool} {fault : Option Fault} :
    (advance w rows free fault p).1 = rows ∨ ∃ call new message, p = .inserted call new message ∧
      fault.all Fault.applied = true ∧ (advance w rows free fault p).1 = insertOrReplace rows call.logID new := by
  cases p with
  | idle | closing | finished | returned | lost => exact .inl rfl
  | called r =>
    cases r with
    | update call =>
      rcases @receive_cases w call with ⟨_, received, -⟩ | ⟨_, _, _, received, -⟩
      · simp only [advance, received, true_or]
      · simp only [advance, received, true_or]
    | getCheckpoint | getLogs =>
      left
      simp only [advance]
      split
      · split <;> rfl
      · rfl
  | parsed call info next note =>
    left
    simp only [advance]
    split
    · split <;> rfl
    · rfl
  | began | opened | storing | listing =>
    left
    simp only [advance]
    split <;> rfl
  | inserted call new message =>
    cases fault with
    | none => exact .inr ⟨call, new, message, rfl, rfl, rfl⟩
    | some f =>
      simp only [advance]
      cases applied : f.applied with
      | false => exact .inl rfl
      | true => exact .inr ⟨call, new, message, rfl, applied, rfl⟩

-- A request gets the connection only when it is free.
theorem advance_holds {p : Process} {rows : Rows} {free : Bool} {fault : Option Fault}
    (holds : (advance w rows free fault p).2.Holds = true) : free = true ∨ p.Holds = true := by
  cases p with
  | idle | closing | finished | returned | lost => cases holds
  | called r =>
    cases r with
    | update call =>
      rcases @receive_cases w call with ⟨_, received, -⟩ | ⟨_, _, _, received, -⟩
      · simp only [advance, received] at holds
        cases holds
      · simp only [advance, received] at holds
        cases holds
    | getCheckpoint | getLogs =>
      simp only [advance] at holds
      split at holds
      next is => exact .inl is
      next => cases holds
  | parsed call info next note =>
    simp only [advance] at holds
    split at holds
    next is => exact .inl is
    next => cases holds
  | began | opened | storing | inserted | listing => exact .inr rfl

theorem put_inv {s : System} (inv : Inv w s) {id : Nat} {moved : Rows × Process}
    (keys : (moved.1.map Prod.fst).Nodup) (valid : moved.2.Valid w (find moved.1))
    (rows : moved.1 = s.rows ∨ (s.procs id).Holds = true)
    (takes : moved.2.Holds = true → s.conn = none ∨ (s.procs id).Holds = true) : Inv w (s.put id moved) where
  conn other := by
    have held := inv.conn id
    have others := inv.conn other
    simp only [System.put]
    by_cases same : other = id
    · subst same
      rw [Function.update_self]
      cases holds : moved.2.Holds with
      | true => simp
      | false =>
        by_cases has : s.conn = some other
        · simp [has]
        · simp [has]
    · rw [Function.update_of_ne same, others]
      cases holds : moved.2.Holds with
      | true =>
        rcases takes holds with free | has
        · simp [free, Ne.symm same]
        · simp [held.mp has, Ne.symm same]
      | false =>
        by_cases has : s.conn = some id
        · simp [has, Ne.symm same]
        · simp [has]
  keys := keys
  valid other := by
    simp only [System.put]
    by_cases same : other = id
    · subst same
      rw [Function.update_self]
      exact valid
    · rw [Function.update_of_ne same]
      rcases rows with unchanged | has
      · rw [unchanged]
        exact inv.valid other
      · refine valid_congr (Bool.eq_false_iff.mpr fun also => same ?_) (inv.valid other) _
        exact Option.some.inj (((inv.conn other).mp also).symm.trans ((inv.conn id).mp has))

theorem stop_valid (p : Process) (store : Store) : p.stop.Valid w store ∧ p.stop.Holds = false := by
  cases p with
  | _ => exact ⟨trivial, rfl⟩

theorem step_inv {s : System} (inv : Inv w s) (event : Event) : Inv w (s.step w event) := by
  cases event with
  | invoke id r =>
    simp only [System.step]
    split
    next idle => exact put_inv inv inv.keys trivial (.inl rfl) fun holds => by cases holds
    next => exact inv
  | advance id fault =>
    have changes := @advance_rows w (s.procs id) s.rows s.conn.isNone fault
    refine put_inv inv ?_ (advance_valid (inv.valid id)) (changes.imp_right ?_) fun holds => ?_
    · rcases changes with same | ⟨call, new, -, -, -, same⟩
      · rw [same]
        exact inv.keys
      · rw [same]
        exact insertOrReplace_keys inv.keys call.logID new
    · rintro ⟨call, new, message, state, -⟩
      rw [state]
      rfl
    · exact (advance_holds holds).imp_left Option.isNone_iff_eq_none.mp
  | restart =>
    refine ⟨fun id => ?_, inv.keys, fun id => (stop_valid _ _).1⟩
    rw [System.step, (@stop_valid w (s.procs id) (find s.rows)).2]
    simp

theorem run_inv (schedule : Nat → Event) (n : Nat) : Inv w (run w schedule n) := by
  induction n with
  | zero => exact created_inv
  | succ n ih => exact step_inv ih (schedule n)

end Invariant

section Effects

variable (w : Witness)

-- A request takes effect when it knows its answer, which is in Commit if it stores a checkpoint.
def effectOf (rows : Rows) (free : Bool) (fault : Option Fault) : Process → Option (Request × Answer)
  | .called (.update call) =>
    match receive w call with
    | .finished _ reply => some (.update call, .ofReply reply)
    | _ => none
  | .called (.getCheckpoint logID) =>
    if free && fault.isNone then some (.getCheckpoint logID, .checkpoint (latest (find rows) logID)) else none
  | .called .getLogs => if free && fault.isNone then some (.getLogs, .logs (.ok (rows.map Prod.fst))) else none
  | .opened call info next note read =>
    match plan w info call next note read with
    | .reply r => some (.update call, .ofReply r)
    | .set .. => none
  | .inserted call new _ =>
    if fault.all Fault.applied then some (.update call, .update (some new.rawChkpt) none) else none
  | _ => none

def Process.Past : Process → Prop
  | .listing _ | .closing .. | .finished .. | .returned .. | .lost _ => True
  | _ => False

def Process.phase : Process → Phase Request Answer
  | .idle => .idle
  | .called r | .closing r _ | .finished r _ | .lost r => .pending r
  | .parsed call .. | .began call .. | .opened call .. | .storing call .. | .inserted call .. => .pending (.update call)
  | .listing _ => .pending .getLogs
  | .returned r a => .returned r a

variable {w} {p : Process} {rows : Rows} {free : Bool} {fault : Option Fault}

theorem effectOf_none (none : effectOf w rows free fault p = none) : (advance w rows free fault p).1 = rows := by
  rcases @advance_rows w p rows free fault with same | ⟨call, new, message, rfl, applied, -⟩
  · exact same
  · simp only [effectOf, applied, if_true] at none
    cases none

theorem effectOf_some {r : Request} {a : Answer} (keys : (rows.map Prod.fst).Nodup) (valid : p.Valid w (find rows))
    (found : effectOf w rows free fault p = some (r, a)) :
    p.phase = .pending r ∧ Serves w (find rows) r a (find (advance w rows free fault p).1) ∧ ¬ p.Past ∧
      (advance w rows free fault p).2.Past := by
  cases p with
  | idle | parsed | began | storing | listing | closing | finished | returned | lost => cases found
  | called made =>
    cases made with
    | update call =>
      rcases @receive_cases w call with ⟨reply, received, served⟩ | ⟨_, _, _, received, -⟩
      · simp only [effectOf, received] at found
        obtain ⟨rfl, rfl⟩ := Prod.mk.inj (Option.some.inj found)
        simp only [advance, received]
        exact ⟨rfl, .update (served _), id, trivial⟩
      · simp only [effectOf, received] at found
        cases found
    | getCheckpoint logID =>
      simp only [effectOf] at found
      split at found
      next works =>
        obtain ⟨rfl, rfl⟩ := Prod.mk.inj (Option.some.inj found)
        obtain ⟨rfl, clean⟩ := Bool.and_eq_true_iff.mp works
        obtain rfl := Option.isNone_iff_eq_none.mp clean
        exact ⟨rfl, .getCheckpoint _ _, id, trivial⟩
      next => cases found
    | getLogs =>
      simp only [effectOf] at found
      split at found
      next works =>
        obtain ⟨rfl, rfl⟩ := Prod.mk.inj (Option.some.inj found)
        obtain ⟨rfl, clean⟩ := Bool.and_eq_true_iff.mp works
        obtain rfl := Option.isNone_iff_eq_none.mp clean
        exact ⟨rfl, .getLogs keys fun logID => find_ne_none, id, trivial⟩
      next => cases found
  | opened call info next note read =>
    obtain ⟨⟨known, parsed⟩, rfl⟩ := valid
    simp only [effectOf] at found
    split at found
    next reply planned =>
      obtain ⟨rfl, rfl⟩ := Prod.mk.inj (Option.some.inj found)
      simp only [advance, planned]
      exact ⟨rfl, .update (serveUpdate_reply known parsed planned), id, trivial⟩
    next => cases found
  | inserted call new message =>
    obtain ⟨info, next, note, known, parsed, planned⟩ := valid
    simp only [effectOf] at found
    split at found
    next applied =>
      obtain ⟨rfl, rfl⟩ := Prod.mk.inj (Option.some.inj found)
      have served : Serves w (find rows) (.update call) (.update (some new.rawChkpt) none)
          (find (insertOrReplace rows call.logID new)) := by
        rw [find_insertOrReplace]
        exact .update (serveUpdate_set known parsed planned)
      cases fault with
      | none => exact ⟨rfl, served, id, trivial⟩
      | some f =>
        have done : f.applied = true := applied
        simp only [advance, done, if_true]
        exact ⟨rfl, served, id, trivial⟩
    next => cases found

theorem advance_past (past : p.Past) : (advance w rows free fault p).2.Past := by
  cases p with
  | idle | called | parsed | began | opened | storing | inserted => exact past.elim
  | listing ids =>
    simp only [advance]
    split <;> trivial
  | closing | finished | returned | lost => trivial

theorem advance_pending {r : Request} (pending : p.phase = .pending r) :
    (advance w rows free fault p).2.phase = .pending r ∨ ∃ a, (advance w rows free fault p).2.phase = .returned r a := by
  cases p with
  | idle | returned => cases pending
  | called made =>
    obtain rfl := Phase.pending.inj pending
    left
    cases made with
    | update call =>
      rcases @receive_cases w call with ⟨_, received, -⟩ | ⟨_, _, _, received, -⟩
      · simp only [advance, received]
        rfl
      · simp only [advance, received]
        rfl
    | getCheckpoint | getLogs =>
      simp only [advance]
      split
      · split <;> rfl
      · rfl
  | parsed call info next note =>
    left
    simp only [advance]
    split
    · split <;> exact pending
    · exact pending
  | began | opened | storing | inserted | listing =>
    left
    simp only [advance]
    split <;> exact pending
  | closing | lost => exact .inl pending
  | finished made a =>
    obtain rfl := Phase.pending.inj pending
    exact .inr ⟨a, rfl⟩

end Effects

section Told

variable (w : Witness) (schedule : Nat → Event)

def point (n : Nat) : Option (Effect Request Answer) :=
  match schedule n with
  | .advance id fault =>
    (effectOf w (run w schedule n).rows (run w schedule n).conn.isNone fault ((run w schedule n).procs id)).map
      fun found => ⟨id, found.1, found.2⟩
  | _ => none

/-- An operation of the database has failed for the request. -/
def Faulted (n id : Nat) : Prop := ∃ j < n, ∃ f, schedule j = .advance id (some f)

-- Where an answer comes from.
def Given (n id : Nat) (r : Request) (a : Answer) : Prop :=
  Faulted schedule n id ∧ a.Fails ∨ ∃ j < n, point w schedule j = some ⟨id, r, a⟩

def Told (n id : Nat) : Process → Prop
  | .listing ids => ∃ j < n, point w schedule j = some ⟨id, .getLogs, .logs (.ok ids)⟩
  | .closing r a | .finished r a | .returned r a => Given w schedule n id r a
  | _ => True

variable {w schedule}

theorem Given.succ {n id : Nat} {r : Request} {a : Answer} (given : Given w schedule n id r a) :
    Given w schedule (n + 1) id r a := by
  rcases given with ⟨⟨j, before, failed⟩, fails⟩ | ⟨j, before, found⟩
  · exact .inl ⟨⟨j, by omega, failed⟩, fails⟩
  · exact .inr ⟨j, by omega, found⟩

theorem Told.succ {n id : Nat} {p : Process} (told : Told w schedule n id p) :
    Told w schedule (n + 1) id p := by
  cases p with
  | idle | called | parsed | began | opened | storing | inserted | lost => trivial
  | listing ids =>
    obtain ⟨j, before, found⟩ := told
    exact ⟨j, by omega, found⟩
  | closing | finished | returned => exact Given.succ told

theorem Told.stop {n id : Nat} {p : Process} (told : Told w schedule n id p) :
    Told w schedule n id p.stop := by
  cases p with
  | returned => exact told
  | _ => trivial

theorem point_advance {n id : Nat} {fault : Option Fault} {r : Request} {a : Answer}
    (event : schedule n = .advance id fault)
    (found : effectOf w (run w schedule n).rows (run w schedule n).conn.isNone fault ((run w schedule n).procs id) =
      some (r, a)) : point w schedule n = some ⟨id, r, a⟩ := by
  simp only [point, event, found, Option.map_some]

theorem point_some {n : Nat} {e : Effect Request Answer} (found : point w schedule n = some e) :
    ∃ fault, schedule n = .advance e.id fault ∧ effectOf w (run w schedule n).rows (run w schedule n).conn.isNone fault
      ((run w schedule n).procs e.id) = some (e.request, e.answer) := by
  unfold point at found
  split at found
  next id fault event =>
    obtain ⟨⟨r, a⟩, effect, rfl⟩ := Option.map_eq_some_iff.mp found
    exact ⟨fault, event, effect⟩
  next => cases found

theorem advance_told {n id : Nat} {fault : Option Fault} (event : schedule n = .advance id fault)
    (told : Told w schedule n id ((run w schedule n).procs id)) : Told w schedule (n + 1) id
      (advance w (run w schedule n).rows (run w schedule n).conn.isNone fault ((run w schedule n).procs id)).2 := by
  have failed {r : Request} {a : Answer} {f : Fault} (fails : fault = some f) (error : a.Fails) :
      Given w schedule (n + 1) id r a := .inl ⟨⟨n, Nat.lt_succ_self n, f, fails ▸ event⟩, error⟩
  have answered {r : Request} {a : Answer} (found : effectOf w (run w schedule n).rows (run w schedule n).conn.isNone
      fault ((run w schedule n).procs id) = some (r, a)) : ∃ j < n + 1, point w schedule j = some ⟨id, r, a⟩ :=
    ⟨n, Nat.lt_succ_self n, point_advance event found⟩
  generalize (run w schedule n).conn.isNone = free at answered ⊢
  cases state : (run w schedule n).procs id with
  | idle | lost => trivial
  | called made =>
    rw [state] at answered
    cases made with
    | update call =>
      rcases @receive_cases w call with ⟨reply, received, -⟩ | ⟨_, _, _, received, -⟩
      · simp only [advance, received]
        exact .inr (answered (by simp only [effectOf, received]))
      · simp only [advance, received]
        trivial
    | getCheckpoint logID =>
      simp only [advance]
      cases free with
      | false => trivial
      | true =>
        cases fails : fault with
        | some f => exact failed fails rfl
        | none => exact .inr (answered (by rw [fails]; rfl))
    | getLogs =>
      simp only [advance]
      cases free with
      | false => trivial
      | true =>
        cases fails : fault with
        | some f => exact failed fails rfl
        | none => exact answered (by rw [fails]; rfl)
  | parsed call info next note =>
    simp only [advance]
    cases free with
    | false => trivial
    | true =>
      cases fails : fault with
      | some f => exact failed fails ⟨rfl, by simp⟩
      | none => trivial
  | began | storing =>
    simp only [advance]
    cases fails : fault with
    | some f => exact failed fails ⟨rfl, by simp⟩
    | none => trivial
  | opened call info next note read =>
    rw [state] at answered
    simp only [advance]
    split
    next reply planned => exact .inr (answered (by simp only [effectOf, planned]))
    next => trivial
  | inserted call new message =>
    rw [state] at answered
    simp only [advance]
    cases fails : fault with
    | some f => exact failed fails ⟨rfl, by simp⟩
    | none => exact .inr (answered (by rw [fails]; rfl))
  | listing ids =>
    rw [state] at told
    simp only [advance]
    cases fails : fault with
    | some f => exact failed fails rfl
    | none => exact .inr told.succ
  | closing | finished | returned =>
    rw [state] at told
    exact told.succ

-- What a step does to a request.
theorem step_procs (s : System) (event : Event) (id : Nat) :
    (s.step w event).procs id = s.procs id ∨
    (∃ r, s.procs id = .idle ∧ (s.step w event).procs id = .called r) ∨
    (∃ fault, event = .advance id fault ∧
      (s.step w event).procs id = (advance w s.rows s.conn.isNone fault (s.procs id)).2) ∨
    (s.step w event).procs id = (s.procs id).stop := by
  cases event with
  | invoke actor r =>
    simp only [System.step]
    split
    next idle =>
      by_cases same : id = actor
      · subst same
        exact .inr (.inl ⟨r, idle, Function.update_self ..⟩)
      · exact .inl (Function.update_of_ne same ..)
    next => exact .inl rfl
  | advance actor fault =>
    by_cases same : id = actor
    · subst same
      exact .inr (.inr (.inl ⟨fault, rfl, Function.update_self ..⟩))
    · exact .inl (Function.update_of_ne same ..)
  | restart => exact .inr (.inr (.inr rfl))

theorem run_told (n id : Nat) : Told w schedule n id ((run w schedule n).procs id) := by
  induction n with
  | zero => trivial
  | succ n ih =>
    rw [run]
    rcases step_procs (run w schedule n) (schedule n) id with same | ⟨r, -, made⟩ | ⟨fault, event, moved⟩ | stopped
    · rw [same]
      exact ih.succ
    · rw [made]
      trivial
    · rw [moved]
      exact advance_told event ih
    · rw [stopped]
      exact ih.succ.stop

end Told

section Linearizable

variable (w : Witness) (schedule : Nat → Event)

def sqlRun : Linearize.Run Store Request Answer :=
  ⟨fun n => find (run w schedule n).rows, fun n id => ((run w schedule n).procs id).phase⟩

theorem step_rows {s : System} {event : Event}
    (other : ∀ id fault, event ≠ .advance id fault) : (s.step w event).rows = s.rows := by
  cases event with
  | invoke id r =>
    simp only [System.step]
    split <;> rfl
  | advance id fault => exact absurd rfl (other id fault)
  | restart => rfl

theorem stop_phase {p : Process} {r : Request} (pending : p.phase = .pending r) :
    p.stop.phase = .pending r := by
  cases p with
  | idle | returned => cases pending
  | _ => exact pending

theorem phase_returned {p : Process} {r : Request} {a : Answer} (returned : p.phase = .returned r a) :
    p = .returned r a := by
  cases p with
  | returned made answer =>
    obtain ⟨rfl, rfl⟩ := Phase.returned.inj returned
    rfl
  | _ => cases returned

theorem phase_idle {p : Process} (idle : p.phase = .idle) : p = .idle := by
  cases p with
  | idle => rfl
  | _ => cases idle

theorem point_effect {n : Nat} {e : Effect Request Answer} (found : point w schedule n = some e) :
    (sqlRun w schedule).phase n e.id = .pending e.request ∧
      Serves w ((sqlRun w schedule).shared n) e.request e.answer ((sqlRun w schedule).shared (n + 1)) ∧
      ¬ ((run w schedule n).procs e.id).Past ∧ ((run w schedule (n + 1)).procs e.id).Past := by
  obtain ⟨fault, event, effect⟩ := point_some found
  have inv : Inv w (run w schedule n) := run_inv schedule n
  obtain ⟨pending, served, before, after⟩ := effectOf_some inv.keys (inv.valid e.id) effect
  simp only [sqlRun, run, event, System.step, System.put, Function.update_self]
  exact ⟨pending, served, before, after⟩

theorem sql_points : Points (Serves w) (sqlRun w schedule) (Faulted schedule)
    (fun n id => ((run w schedule n).procs id).Past) (point w schedule) where
  rests n none := by
    cases event : schedule n with
    | advance id fault =>
      simp only [point, event, Option.map_eq_none_iff] at none
      simp only [sqlRun, run, event]
      exact congrArg find (effectOf_none none)
    | invoke | restart =>
      simp only [sqlRun, run, event]
      exact congrArg find (step_rows w fun _ _ => Event.noConfusion)
  acts n e found := (point_effect w schedule found).2.1
  pending n e found := (point_effect w schedule found).1
  fresh n e found := (point_effect w schedule found).2.2
  past_next n id past := by
    simp only [run]
    rcases step_procs (run w schedule n) (schedule n) id with same | ⟨r, idle, -⟩ | ⟨fault, -, moved⟩ | stopped
    · rw [same]
      exact past
    · rw [idle] at past
      exact past.elim
    · rw [moved]
      exact advance_past past
    · rw [stopped]
      cases state : (run w schedule n).procs id with
      | listing | closing | finished | returned | lost => trivial
      | _ =>
        rw [state] at past
        exact past.elim
  answers n id r a returned := by
    have told := @run_told w schedule n id
    rw [phase_returned returned] at told
    exact told.imp_left And.left
  pending_next n id r pending := by
    simp only [sqlRun, run] at pending ⊢
    rcases step_procs (run w schedule n) (schedule n) id with same | ⟨r, idle, -⟩ | ⟨fault, -, moved⟩ | stopped
    · rw [same]
      exact .inl pending
    · rw [idle] at pending
      cases pending
    · rw [moved]
      exact advance_pending pending
    · rw [stopped]
      exact .inl (stop_phase pending)
  returned_next n id r a returned := by
    have state := phase_returned returned
    simp only [sqlRun, run]
    rcases step_procs (run w schedule n) (schedule n) id with same | ⟨r, idle, -⟩ | ⟨fault, -, moved⟩ | stopped
    · rw [same]
      exact returned
    · cases idle.symm.trans state
    · rw [moved, state]
      rfl
    · rw [stopped, state]
      rfl

end Linearizable

section Progress

variable {w : Witness}

-- How many steps are left of a request at most.
def Process.rank : Process → Nat
  | .called _ => 7
  | .parsed .. => 6
  | .began .. => 5
  | .opened .. => 4
  | .storing .. => 3
  | .inserted .. | .listing _ | .closing .. => 2
  | .finished .. => 1
  | .idle | .returned .. | .lost _ => 0

def Process.InProgress : Process → Prop
  | .idle | .returned .. | .lost _ => False
  | _ => True

theorem rank_pos {p : Process} : p.InProgress ↔ 0 < p.rank := by
  cases p with
  | idle | returned | lost => exact iff_of_false id (Nat.lt_irrefl 0)
  | _ => exact iff_of_true trivial (Nat.succ_pos _)

theorem advance_rank {p : Process} {rows : Rows} {free : Bool} (able : free = true ∨ p.Holds = true)
    (progress : 0 < p.rank) : (advance w rows free none p).2.rank < p.rank ∧
      ((advance w rows free none p).2.rank = 0 → ∃ r a, (advance w rows free none p).2 = .returned r a) := by
  cases p with
  | idle | returned | lost => cases progress
  | called r =>
    obtain rfl : free = true := able.resolve_right Bool.false_ne_true
    cases r with
    | update call =>
      rcases @receive_cases w call with ⟨_, received, -⟩ | ⟨_, _, _, received, -⟩
      · simp only [advance, received]
        exact ⟨by simp [Process.rank], fun none => by cases none⟩
      · simp only [advance, received]
        exact ⟨by simp [Process.rank], fun none => by cases none⟩
    | getCheckpoint | getLogs => exact ⟨by simp [advance, Process.rank], fun none => by cases none⟩
  | parsed call info next note =>
    obtain rfl : free = true := able.resolve_right Bool.false_ne_true
    exact ⟨Nat.lt_succ_self 5, fun none => by cases none⟩
  | began => exact ⟨Nat.lt_succ_self 4, fun none => by cases none⟩
  | opened call info next note read =>
    simp only [advance]
    split
    · exact ⟨by simp [Process.rank], fun none => by cases none⟩
    · exact ⟨by simp [Process.rank], fun none => by cases none⟩
  | storing => exact ⟨Nat.lt_succ_self 2, fun none => by cases none⟩
  | inserted | listing | closing => exact ⟨Nat.lt_succ_self 1, fun none => by cases none⟩
  | finished r a => exact ⟨Nat.lt_succ_self 0, fun _ => ⟨r, a, rfl⟩⟩

/-- A request that has the connection, or finds it free, returns if it goes on by itself. -/
theorem finishes {s : System} (inv : Inv w s) {id : Nat} (able : s.conn = none ∨ s.conn = some id)
    (progress : 0 < (s.procs id).rank) : ∃ events : List Event, (∀ e ∈ events, e = .advance id none) ∧
      (∃ r a, (events.foldl (System.step w) s).procs id = .returned r a) ∧ (events.foldl (System.step w) s).conn = none ∧
      (∀ other, other ≠ id → (events.foldl (System.step w) s).procs other = s.procs other) ∧
      Inv w (events.foldl (System.step w) s) := by
  induction rank : (s.procs id).rank using Nat.strong_induction_on generalizing s with
  | _ rank' ih =>
    subst rank
    have able' : s.conn.isNone = true ∨ (s.procs id).Holds = true :=
      able.imp Option.isNone_iff_eq_none.mpr (inv.conn id).mpr
    obtain ⟨falls, ends⟩ := advance_rank able' progress
    have moved : (s.step w (.advance id none)).procs id = (advance w s.rows s.conn.isNone none (s.procs id)).2 :=
      Function.update_self ..
    have others (other : Nat) (differs : other ≠ id) : (s.step w (.advance id none)).procs other = s.procs other :=
      Function.update_of_ne differs ..
    have inv' := step_inv inv (.advance id none)
    have conn' : (s.step w (.advance id none)).conn = none ∨ (s.step w (.advance id none)).conn = some id := by
      simp only [System.step, System.put]
      split
      · exact .inr rfl
      · split
        · exact .inl rfl
        next other => exact able.imp_right fun has => absurd has other
    rw [← moved] at falls ends
    rcases Nat.eq_zero_or_pos ((s.step w (.advance id none)).procs id).rank with none | more
    · obtain ⟨r, a, returned⟩ := ends none
      refine ⟨[.advance id Option.none], fun e only => List.mem_singleton.mp only, ⟨r, a, returned⟩, ?_, others, inv'⟩
      refine conn'.resolve_right fun has => ?_
      have holds := (inv'.conn id).mpr has
      rw [returned] at holds
      cases holds
    · obtain ⟨events, own, returned, free, rest, good⟩ := ih _ falls inv' conn' more rfl
      refine ⟨.advance id none :: events, ?_, returned, free, fun other differs => ?_, good⟩
      · rintro e (_ | ⟨_, member⟩)
        · rfl
        · exact own e member
      · exact (rest other differs).trans (others other differs)

/-- No request is kept waiting for ever: the one that has the connection can always be brought to its end. -/
theorem can_return {s : System} (inv : Inv w s) {id : Nat} (progress : 0 < (s.procs id).rank) :
    ∃ events : List Event, (∀ e ∈ events, ∃ who, e = .advance who none) ∧
      ∃ r a, (events.foldl (System.step w) s).procs id = .returned r a := by
  by_cases able : s.conn = none ∨ s.conn = some id
  · obtain ⟨events, own, returned, -⟩ := finishes inv able progress
    exact ⟨events, fun e member => ⟨id, own e member⟩, returned⟩
  · push Not at able
    obtain ⟨holder, has⟩ := Option.ne_none_iff_exists'.mp able.1
    have differs : id ≠ holder := by
      rintro rfl
      exact able.2 has
    have busy : 0 < (s.procs holder).rank := by
      have holds := (inv.conn holder).mpr has
      cases state : s.procs holder with
      | began | opened | storing | inserted | listing | closing => exact Nat.succ_pos _
      | _ =>
        rw [state] at holds
        cases holds
    obtain ⟨first, own, -, free, rest, good⟩ := finishes inv (.inr has) busy
    have still : 0 < ((first.foldl (System.step w) s).procs id).rank := by
      rw [rest id differs]
      exact progress
    obtain ⟨second, own', returned, -⟩ := finishes good (.inl free) still
    refine ⟨first ++ second, fun e member => ?_, ?_⟩
    · rcases List.mem_append.mp member with inFirst | inSecond
      · exact ⟨holder, own e inFirst⟩
      · exact ⟨id, own' e inSecond⟩
    · rw [List.foldl_append]
      exact returned

end Progress

/-- With the SQL persistence and its one connection, concurrent requests are answered as if they were made one after the
other, but for those with a failed operation, also when the server is stopped and started again; and each request that
has not been answered can still be, with no further failure. -/
theorem sql_witness_linearizable (w : Witness) (schedule : Nat → Event) :
    Linearizable (Serves w) (sqlRun w schedule) (Faulted schedule) ∧
    ∀ n id, ((run w schedule n).procs id).InProgress → ∃ events : List Event, (∀ e ∈ events, ∃ who, e = .advance who none) ∧
      ∃ r a, (events.foldl (System.step w) (run w schedule n)).procs id = .returned r a :=
  ⟨(sql_points w schedule).linearizable, fun n _ progress => can_return (run_inv schedule n) (rank_pos.mp progress)⟩

section Append

variable {w : Witness} {schedule : Nat → Event}

theorem serves_body {store after : Store} {r : Request} {a : Answer} {logID : String}
    {raw : Bytes} (served : Serves w store r a after) (log : r.log = some logID) (body : a.body = some raw) :
    ∃ value, after logID = some value ∧ value.rawChkpt = raw := by
  cases served with
  | update served =>
    obtain rfl := Option.some.inj log
    exact serveUpdate_body (served.trans (by rw [← body]; rfl))
  | getCheckpoint _ =>
    obtain rfl := Option.some.inj log
    simp only [Answer.body, latest] at body
    split at body
    next => cases body
    next value stored => exact ⟨value, stored, Option.some.inj body⟩
  | getLogs _ _ => cases log

theorem sql_steps (n : Nat) : find (run w schedule (n + 1)).rows = find (run w schedule n).rows ∨
    ∃ call reply, serveUpdate w (find (run w schedule n).rows) call = (find (run w schedule (n + 1)).rows, reply) := by
  rcases (sql_points w schedule).step n with same | ⟨r, a, served⟩
  · exact .inl same
  · generalize after : (sqlRun w schedule).shared (n + 1) = later at served
    cases served with
    | update served => exact .inr ⟨_, _, served.trans (by rw [← after]; rfl)⟩
    | getCheckpoint _ => exact .inl after
    | getLogs _ _ => exact .inl after

theorem sql_chain {m n : Nat} (order : m ≤ n) {logID : String}
    {old : CheckpointState} (stored : find (run w schedule m).rows logID = some old) :
    ∃ new, find (run w schedule n).rows logID = some new ∧ Relation.ReflTransGen (Accepted w logID) old new :=
  @accepted_chain w (fun n => find (run w schedule n).rows) sql_steps m n order logID old stored

theorem sql_cosigned {n : Nat} {logID : String} {value : CheckpointState}
    (stored : find (run w schedule n).rows logID = some value) : ∃ cp, Cosigned w logID cp value.rawChkpt :=
  @cosigned_chain w (fun n => find (run w schedule n).rows) (fun _ => rfl) sql_steps n logID value stored

-- A checkpoint that a request has got was stored while it was made.
theorem answered_held {n id : Nat} {r : Request} {a : Answer} {logID : String} {raw : Bytes}
    (returned : (run w schedule n).procs id = .returned r a) (log : r.log = some logID) (body : a.body = some raw) :
    ∃ j < n, ((run w schedule j).procs id).phase = .pending r ∧
      ∃ value, find (run w schedule (j + 1)).rows logID = some value ∧ value.rawChkpt = raw := by
  have told := @run_told w schedule n id
  rw [returned] at told
  rcases told with ⟨-, fails⟩ | ⟨j, before, found⟩
  · cases fails.body.symm.trans body
  · obtain ⟨pending, served, -⟩ := point_effect w schedule found
    exact ⟨j, before, pending, serves_body served log body⟩

end Append

/-- Through failures and restarts, what is stored for a log comes from what was stored before by checked steps; every
checkpoint that is handed out was stored while it was asked for and is one that the witness has signed, and no two of
them are of one size and differ. -/
theorem sql_witness_append_only (w : Witness) (lawful : SignedNote.Lawful w.notes) (schedule : Nat → Event) :
    (∀ m n logID old, m ≤ n → find (run w schedule m).rows logID = some old →
      ∃ new, find (run w schedule n).rows logID = some new ∧ Relation.ReflTransGen (Accepted w logID) old new) ∧
    (∀ n id r a logID raw, (run w schedule n).procs id = .returned r a → r.log = some logID → a.body = some raw →
      (∃ j < n, ((run w schedule j).procs id).phase = .pending r ∧
        ∃ value, find (run w schedule (j + 1)).rows logID = some value ∧ value.rawChkpt = raw) ∧
      ∃ cp, Cosigned w logID cp raw ∧ ∀ cp' note, parse w raw logID = .ok (cp', note) → cp' = cp) ∧
    ∀ n id r a n' id' r' a' logID raw raw' cp cp',
      (run w schedule n).procs id = .returned r a → r.log = some logID → a.body = some raw →
      (run w schedule n').procs id' = .returned r' a' → r'.log = some logID → a'.body = some raw' →
      Cosigned w logID cp raw → Cosigned w logID cp' raw' → cp.size = cp'.size → cp.hash = cp'.hash := by
  refine ⟨fun m n logID old order stored => sql_chain order stored, ?_, ?_⟩
  · intro n id r a logID raw returned log body
    have held := answered_held returned log body
    refine ⟨held, ?_⟩
    obtain ⟨j, -, -, value, stored, rfl⟩ := held
    obtain ⟨cp, cosigned⟩ := sql_cosigned stored
    exact ⟨cp, cosigned, fun cp' note parsed => cosigned.parsed lawful parsed⟩
  intro n id r a n' id' r' a' logID raw raw' cp cp' returned log body returned' log' body' cosigned cosigned' size
  obtain ⟨j, -, -, value, stored, rfl⟩ := answered_held returned log body
  obtain ⟨j', -, -, value', stored', rfl⟩ := answered_held returned' log' body'
  have states := cosigned.states lawful
  have states' := cosigned'.states lawful
  rcases Nat.le_total (j + 1) (j' + 1) with order | order
  · obtain ⟨new, held, chain⟩ := sql_chain order stored
    obtain rfl := Option.some.inj (stored'.symm.trans held)
    exact accepted_agree lawful chain states states' size
  · obtain ⟨new, held, chain⟩ := sql_chain order stored'
    obtain rfl := Option.some.inj (stored.symm.trans held)
    exact (accepted_agree lawful chain states' states size.symm).symm

section Reference

-- The server stops after a first checkpoint was stored; the Commit of the second one fails and has been done.
def restartSchedule (n : Nat) : Event :=
  [.invoke 0 (.update ⟨"log", logSigned 1 hashSeven, []⟩), .advance 0 none, .advance 0 none, .advance 0 none,
    .advance 0 none, .advance 0 none, .advance 0 none, .restart,
    .invoke 1 (.update ⟨"log", logSigned 2 hashBoth, [hashEight]⟩), .advance 1 none, .advance 1 none, .advance 1 none,
    .advance 1 none, .advance 1 none, .advance 1 (some ⟨.text "disk I/O error", true⟩)].getD n .restart

theorem sql_witness_append_only_restart :
    find (run referenceWitness restartSchedule 15).rows "log" = some (cosigned 2 hashBoth) ∧
      Relation.ReflTransGen (Accepted referenceWitness "log") (cosigned 1 hashSeven) (cosigned 2 hashBoth) := by
  have before : find (run referenceWitness restartSchedule 7).rows "log" = some (cosigned 1 hashSeven) := by
    decide +kernel
  have after : find (run referenceWitness restartSchedule 15).rows "log" = some (cosigned 2 hashBoth) := by
    decide +kernel
  obtain ⟨new, stored, chain⟩ := (sql_witness_append_only referenceWitness SignedNote.reference_lawful
    restartSchedule).1 7 15 "log" _ (by decide) before
  obtain rfl := Option.some.inj (stored.symm.trans after)
  exact ⟨after, chain⟩

end Reference

end Sql

end WitnessServer
