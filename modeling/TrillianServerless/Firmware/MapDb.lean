import TrillianServerless.Firmware.Annotations

set_option autoImplicit false

namespace Firmware

namespace Pipeline

open Go Smt Sparse Runs

section Tables

/-- The rows of the tables tiles, aggregations and logs. -/
inductive Row where
  | tile (revision : Nat) (t : MapTile)
  | aggregation (fwLogIndex revision : Nat) (good : Bool)
  | log (deviceID : String) (revision : Nat) (leaves : List Nat)
  deriving DecidableEq

-- The primary keys of the three tables.
inductive Key where
  | tile (revision : Nat) (path : Bytes)
  | aggregation (fwLogIndex revision : Nat)
  | log (deviceID : String) (revision : Nat)
  deriving DecidableEq

def Row.key : Row → Key
  | .tile revision t => .tile revision t.path
  | .aggregation fwLogIndex revision _ => .aggregation fwLogIndex revision
  | .log deviceID revision _ => .log deviceID revision

def Row.tileRevision : Row → Option Nat
  | .tile revision _ => some revision
  | _ => none

structure Revision where
  revision : Nat
  logroot : Bytes
  count : Int
  deriving DecidableEq

structure MapDb where
  rows : List Row
  revisions : List Revision

-- A revision is scanned as an int32.
def scanInt32 (n : Nat) : Except GoError Nat :=
  if n < 2 ^ 31 then .ok n else .error (.text "converting driver.Value type int64 to a int32: value out of range")

def MapDb.nextWriteRevision (db : MapDb) : Except GoError Nat :=
  match (db.rows.filterMap Row.tileRevision).max? with
  | none => .ok 0
  | some max => do
    let rev ← hideErr "failed to get max revision: %v" (scanInt32 max)
    .ok (rev + 1)

-- One INSERT of databaseio.Write: all of its rows or none.
def MapDb.insert (db : MapDb) (rows : List Row) : Option MapDb :=
  if ((db.rows ++ rows).map Row.key).Nodup then some { db with rows := db.rows ++ rows } else none

def MapDb.writeRevision (db : MapDb) (row : Revision) : Option MapDb :=
  if row.revision ∈ db.revisions.map Revision.revision then none
  else some { db with revisions := db.revisions ++ [row] }

def MapDb.tile (db : MapDb) (revision : Nat) (path : Bytes) : Except GoError MapTile :=
  (db.rows.findSome? fun
    | .tile rev tile => if rev = revision ∧ tile.path = path then some tile else none
    | _ => none).elim (.error (.text "sql: no rows in result set")) .ok

def MapDb.aggregation (db : MapDb) (revision fwLogIndex : Nat) : Except GoError AggregatedFirmware :=
  (db.rows.findSome? fun
    | .aggregation index rev good => if index = fwLogIndex ∧ rev = revision then some ⟨fwLogIndex, good⟩ else none
    | _ => none).elim (.error (.text "sql: no rows in result set")) .ok

-- The tiles and the aggregations that a client gets of the map server for this database, with some map checkpoint.
def MapDb.server (db : MapDb) (checkpoint : Except GoError Bytes) : MapServer where
  checkpoint := checkpoint
  tile := db.tile
  aggregation rev fwIndex := (db.aggregation rev fwIndex).map marshalAggregation

end Tables

section Builders

-- The rows of the three sinks.
def Result.rows (out : Result) (rev : Nat) : List Row :=
  out.mapTiles.map (.tile rev) ++
    out.aggregatedFirmware.map (fun afw => .aggregation afw.index rev afw.good) ++
    out.deviceLogs.map fun log => .log log.deviceID rev log.revisions

structure Builder where
  rev : Nat
  out : Result
  pending : List (List Row)

structure World where
  db : MapDb
  builders : Nat → Option Builder

/-- Builders run at the same time, each killed at any time. `start` has the result of the pipeline and how its rows are
put into batches. -/
inductive Event where
  | start (id : Nat) (out : Result) (batches : Nat → List (List Row))
  | write (id : Nat)
  | finish (id : Nat)
  | kill (id : Nat)

def World.set (w : World) (id : Nat) (b : Option Builder) : World :=
  { w with builders := fun other => if other = id then b else w.builders other }

-- A write that fails ends the builder.
def step (w : World) : Event → Option World
  | .start id out batches =>
    match w.builders id, w.db.nextWriteRevision with
    | none, .ok rev =>
      if (batches rev).flatten.Perm (out.rows rev) then some (w.set id (some ⟨rev, out, batches rev⟩)) else none
    | _, _ => none
  | .write id =>
    match w.builders id with
    | some ⟨rev, out, batch :: rest⟩ =>
      match w.db.insert batch with
      | some db => some ({ w with db }.set id (some ⟨rev, out, rest⟩))
      | none => some (w.set id none)
    | _ => none
  | .finish id =>
    match w.builders id with
    | some ⟨rev, out, []⟩ =>
      match w.db.writeRevision ⟨rev, out.checkpoint, out.entries⟩ with
      | some db => some ({ w with db }.set id none)
      | none => some (w.set id none)
    | _ => none
  | .kill id => some (w.set id none)

def fresh : World := ⟨⟨[], []⟩, fun _ => none⟩

end Builders

section Reading

variable {db : MapDb}

theorem findSome?_unique {A B : Type} {xs : List A} {f : A → Option B} {x : A} {b : B} (inside : x ∈ xs)
    (found : f x = some b) (only : ∀ y ∈ xs, ∀ c, f y = some c → c = b) : xs.findSome? f = some b := by
  cases first : xs.findSome? f with
  | none =>
    rw [List.findSome?_eq_none_iff.mp first x inside] at found
    cases found
  | some c =>
    obtain ⟨y, there, gives⟩ := List.exists_of_findSome?_eq_some first
    rw [only y there c gives]

theorem same_row (keys : (db.rows.map Row.key).Nodup) {row other : Row} (inside : row ∈ db.rows)
    (inside' : other ∈ db.rows) (same : row.key = other.key) : row = other :=
  List.inj_on_of_nodup_map keys inside inside' same

theorem tile_stored (keys : (db.rows.map Row.key).Nodup) {rev : Nat} {t : MapTile} (inside : .tile rev t ∈ db.rows) :
    db.tile rev t.path = .ok t := by
  rw [MapDb.tile, findSome?_unique inside (b := t) (if_pos ⟨rfl, rfl⟩), Option.elim_some]
  intro row there found given
  cases row with
  | tile rev' t' =>
    dsimp only at given
    split at given
    next here =>
      obtain rfl := Option.some.inj given
      have same := same_row keys there inside (by rw [Row.key, Row.key, here.1, here.2])
      exact (Row.tile.inj same).2
    next => cases given
  | aggregation fwLogIndex revision good => cases given
  | log deviceID revision leaves => cases given

theorem aggregation_stored (keys : (db.rows.map Row.key).Nodup) {rev i : Nat} {good : Bool}
    (inside : .aggregation i rev good ∈ db.rows) : db.aggregation rev i = .ok ⟨i, good⟩ := by
  rw [MapDb.aggregation, findSome?_unique inside (b := ⟨i, good⟩) (if_pos ⟨rfl, rfl⟩), Option.elim_some]
  intro row there found given
  cases row with
  | tile rev' t' => cases given
  | aggregation index revision value =>
    dsimp only at given
    split at given
    next here =>
      obtain rfl := Option.some.inj given
      have same := same_row keys there inside (by rw [Row.key, Row.key, here.1, here.2])
      rw [(Row.aggregation.inj same).2.2]
    next => cases given
  | log deviceID revision leaves => cases given

end Reading

section Published

/-- A result of the pipeline over a log. -/
def Result.Made (libs : Libraries) (out : Result) (log : InputLog) : Prop :=
  ∃ size r, libs.create mapTreeID r log size = .ok out

def Event.Starts (out : Result) : Event → Prop
  | .start _ out' _ => out' = out
  | _ => False

/-- What a builder has written is there, and a revision is listed only when all rows of one builder are. -/
structure Complete (events : List Event) (w : World) : Prop where
  keys : (w.db.rows.map Row.key).Nodup
  builders : ∀ id b, w.builders id = some b → (∃ e ∈ events, e.Starts b.out) ∧
    ∀ row ∈ b.out.rows b.rev, row ∈ b.pending.flatten ∨ row ∈ w.db.rows
  revisions : ∀ listed ∈ w.db.revisions, ∃ out : Result, (∃ e ∈ events, e.Starts out) ∧
    listed.logroot = out.checkpoint ∧ listed.count = out.entries ∧
    ∀ row ∈ out.rows listed.revision, row ∈ w.db.rows

variable {libs : Libraries} {w w' : World} {events : List Event}

theorem set_builders {id other : Nat} {b : Option Builder} {b' : Builder}
    (found : (w.set id b).builders other = some b') : other = id ∧ b = some b' ∨ w.builders other = some b' := by
  by_cases same : other = id
  · rw [World.set] at found
    exact .inl ⟨same, by simpa [same] using found⟩
  · exact .inr (by simpa [World.set, same] using found)

theorem Complete.ended (complete : Complete events w) (id : Nat) : Complete events (w.set id none) where
  keys := complete.keys
  builders other b found := by
    rcases set_builders found with ⟨-, wrong⟩ | old
    · cases wrong
    · exact complete.builders other b old
  revisions := complete.revisions

theorem Complete.wrote (complete : Complete events w) {id rev : Nat} {out : Result} {batch : List Row}
    {rest : List (List Row)} (running : w.builders id = some ⟨rev, out, batch :: rest⟩) {db : MapDb}
    (inserted : w.db.insert batch = some db) : Complete events ({ w with db }.set id (some ⟨rev, out, rest⟩)) := by
  unfold MapDb.insert at inserted
  split at inserted
  next keys =>
    obtain rfl := Option.some.inj inserted
    have grown {row : Row} (inside : row ∈ w.db.rows) : row ∈ w.db.rows ++ batch := List.mem_append_left _ inside
    refine ⟨keys, fun other b found => ?_, fun listed inside => ?_⟩
    · rcases set_builders found with ⟨-, new⟩ | old
      · obtain rfl := Option.some.inj new
        obtain ⟨started, written⟩ := complete.builders id _ running
        refine ⟨started, fun row inside => ?_⟩
        rcases written row inside with waiting | there
        · rw [List.flatten_cons, List.mem_append] at waiting
          exact waiting.elim (fun now => .inr (List.mem_append_right _ now)) .inl
        · exact .inr (grown there)
      · obtain ⟨started, written⟩ := complete.builders other b old
        exact ⟨started, fun row inside => (written row inside).imp_right grown⟩
    · obtain ⟨out, started, root, count, rows⟩ := complete.revisions listed inside
      exact ⟨out, started, root, count, fun row inside => grown (rows row inside)⟩
  next => cases inserted

theorem Complete.listed (complete : Complete events w) {id rev : Nat} {out : Result}
    (running : w.builders id = some ⟨rev, out, []⟩) {db : MapDb}
    (written : w.db.writeRevision ⟨rev, out.checkpoint, out.entries⟩ = some db) :
    Complete events ({ w with db }.set id none) := by
  unfold MapDb.writeRevision at written
  split at written
  next => cases written
  next =>
    obtain rfl := Option.some.inj written
    refine ⟨complete.keys, (complete.ended id).builders, fun listed inside => ?_⟩
    rcases List.mem_append.mp inside with old | new
    · exact complete.revisions listed old
    · obtain rfl := List.mem_singleton.mp new
      obtain ⟨started, rows⟩ := complete.builders id _ running
      refine ⟨out, started, rfl, rfl, fun row inside => ?_⟩
      exact (rows row inside).resolve_left (by simp)

theorem step_complete {e : Event} (member : e ∈ events) (stepped : step w e = some w') (complete : Complete events w) :
    Complete events w' := by
  cases e with
  | start id out batches =>
    simp only [step] at stepped
    split at stepped
    next rev _ _ =>
      split at stepped
      next covers =>
        obtain rfl := Option.some.inj stepped
        refine ⟨complete.keys, fun other b found => ?_, complete.revisions⟩
        rcases set_builders found with ⟨-, new⟩ | old
        · obtain rfl := Option.some.inj new
          exact ⟨⟨_, member, rfl⟩, fun row inside => .inl (covers.symm.subset inside)⟩
        · exact complete.builders other b old
      next => cases stepped
    next => cases stepped
  | write id =>
    simp only [step] at stepped
    split at stepped
    next rev out batch rest running =>
      split at stepped
      next db inserted =>
        obtain rfl := Option.some.inj stepped
        exact complete.wrote running inserted
      next =>
        obtain rfl := Option.some.inj stepped
        exact complete.ended id
    next => cases stepped
  | finish id =>
    simp only [step] at stepped
    split at stepped
    next rev out running =>
      split at stepped
      next db written =>
        obtain rfl := Option.some.inj stepped
        exact complete.listed running written
      next =>
        obtain rfl := Option.some.inj stepped
        exact complete.ended id
    next => cases stepped
  | kill id =>
    obtain rfl := Option.some.inj stepped
    exact complete.ended id

theorem run_complete (ran : exec step events fresh = some w) : Complete events w :=
  exec_keeps (Complete events) ran ⟨by simp [fresh], by simp [fresh], by simp [fresh]⟩
    fun member stepped complete => step_complete member stepped complete

theorem Complete.tile (complete : Complete events w) {out : Result} {rev : Nat}
    (stored : ∀ row ∈ out.rows rev, row ∈ w.db.rows) {t : MapTile} (inside : t ∈ out.mapTiles) :
    w.db.tile rev t.path = .ok t :=
  tile_stored complete.keys (stored _ (by simp [Result.rows, inside]))

theorem Complete.aggregation (complete : Complete events w) {out : Result} {rev : Nat}
    (stored : ∀ row ∈ out.rows rev, row ∈ w.db.rows) {afw : AggregatedFirmware}
    (inside : afw ∈ out.aggregatedFirmware) : w.db.aggregation rev afw.index = .ok afw := by
  have row : .aggregation afw.index rev afw.good ∈ w.db.rows :=
    stored _ (List.mem_append_left _ (List.mem_append_right _ (List.mem_map_of_mem inside)))
  exact aggregation_stored complete.keys row

theorem Complete.honest (complete : Complete events w) (creates : libs.CreatesTiles) {out : Result}
    (tiled : libs.batchmapCreate mapTreeID out.mapEntries = .ok out.mapTiles) (some' : out.mapEntries ≠ []) {rev : Nat}
    (stored : ∀ row ∈ out.rows rev, row ∈ w.db.rows) (checkpoint : Except GoError Bytes) :
    Honest libs out.aggregatedFirmware out.mapEntries (w.db.server checkpoint) rev := by
  have tiles := creates.tiles _ _ some' tiled
  refine ⟨⟨?_, fun key size there => ?_⟩, fun afw inside => ?_⟩
  · obtain ⟨t, inside, is⟩ := tiles.root
    exact ⟨t, is.here ▸ complete.tile stored inside, is⟩
  · obtain ⟨t, inside, is⟩ := tiles.leaves key size there
    exact ⟨t, is.here ▸ complete.tile stored inside, is⟩
  · exact congrArg (Except.map marshalAggregation) (complete.aggregation stored inside)

end Published

/-- However builders have run and died, a revision that is listed is the map of one of them as a whole, in the tiles and
aggregations that the database has for it. The flash tool accepts from them the firmware of that builder's log that no
annotation condemns, and no other, where it can read the map's checkpoint; which it cannot for the one that the map
server makes. -/
theorem published_map_verifies (libs : Libraries) (lawful : Compact.Lawful libs.compact) (sparse : libs.smt.Lawful)
    (creates : libs.CreatesTiles) (events : List Event) (w : World) (ran : exec step events fresh = some w)
    (listed : Revision) (inside : listed ∈ w.db.revisions) :
    ∃ out : Result, (∃ e ∈ events, e.Starts out) ∧ listed.logroot = out.checkpoint ∧ listed.count = out.entries ∧
      (∀ t ∈ out.mapTiles, w.db.tile listed.revision t.path = .ok t) ∧
      (∀ afw ∈ out.aggregatedFirmware, w.db.aggregation listed.revision afw.index = .ok afw) ∧
      (∀ log, out.Made libs log → libs.Apart (log.leaves.take out.entries.toNat) →
        libs.hasher.Binds mapTreeID (libs.values out.deviceLogs out.aggregatedFirmware) 256 →
        ∀ tool consistency pb, ¬ Device (log.leaves.take out.entries.toNat) (summaryName pb.inclusionProof.leafIndex) →
          ∀ checkpoint mcp lcp, receiveCheckpoints checkpoint = .ok (mcp, lcp) → mcp.revision = listed.revision →
            mcp.rootHash.getD [] = libs.mapRoot (contentOf out.mapEntries) →
            (verifyAnnotations tool libs.toMapLibraries consistency pb (w.db.server checkpoint) = .ok () ↔
              tool.bundleConsistency pb lcp (UpdateLibraries.getConsistencyFunc consistency) = .ok () ∧
                FirmwareAt (log.leaves.take out.entries.toNat) pb.inclusionProof.leafIndex ∧
                ¬ Condemned (log.leaves.take out.entries.toNat) pb.inclusionProof.leafIndex)) ∧
      ∀ marshalCheckpoint, WritesLines marshalCheckpoint → ∀ (reader : MapReader) tool consistency pb,
        verifyAnnotations tool libs.toMapLibraries consistency pb
          (w.db.server (reader.getCheckpoint marshalCheckpoint)) ≠ .ok () := by
  have complete := run_complete ran
  obtain ⟨out, started, root, count, stored⟩ := complete.revisions listed inside
  refine ⟨out, started, root, count, fun t inside => complete.tile stored inside,
    fun afw inside => complete.aggregation stored inside, ?_,
    fun marshalCheckpoint lines reader tool consistency pb => verifyAnnotations_refuses lines rfl⟩
  rintro log ⟨size, r, made⟩ apart binds tool consistency pb unnamed checkpoint mcp lcp received revision top
  obtain ⟨found, maps⟩ := created_maps lawful made
  have small := created_small found
  have distinct := created_distinct lawful creates made
  rw [verifyAnnotations_iff received, revision, top]
  refine and_congr_right fun _ => ⟨fun accepted => maps.accepted small distinct apart unnamed binds accepted, ?_⟩
  rintro ⟨firmware, fine⟩
  have some' : out.mapEntries ≠ [] := by
    obtain ⟨afw, summed, -, -⟩ := maps.summary firmware
    exact List.ne_nil_of_mem (maps.entries.symm.subset (List.mem_append_right _ (List.mem_map_of_mem summed)))
  have honest := complete.honest creates (create_eq_ok.mp made).2.2 some' stored checkpoint
  exact maps.follows small distinct sparse honest firmware fine

section Alone

variable {w w' : World} {id rev : Nat} {out : Result}

theorem write_step {batch : List Row} {rest : List (List Row)}
    (running : w.builders id = some ⟨rev, out, batch :: rest⟩) : step w (.write id) =
      some (if ((w.db.rows ++ batch).map Row.key).Nodup then
        { w with db := { w.db with rows := w.db.rows ++ batch } }.set id (some ⟨rev, out, rest⟩)
      else w.set id none) := by
  by_cases free : ((w.db.rows ++ batch).map Row.key).Nodup
  · simp only [step, running, MapDb.insert, if_pos free]
  · simp only [step, running, MapDb.insert, if_neg free]

theorem set_self (id : Nat) (b : Option Builder) : (w.set id b).builders id = b := if_pos rfl

-- All writes go through where no key is taken,
theorem writes_ok {batches : List (List Row)} (running : w.builders id = some ⟨rev, out, batches⟩)
    (free : ((w.db.rows ++ batches.flatten).map Row.key).Nodup) :
    ∃ w', exec step (List.replicate batches.length (.write id)) w = some w' ∧
      w'.db = { w.db with rows := w.db.rows ++ batches.flatten } ∧ w'.builders id = some ⟨rev, out, []⟩ := by
  induction batches generalizing w with
  | nil => exact ⟨w, rfl, by simp, running⟩
  | cons batch rest ih =>
    rw [List.flatten_cons, ← List.append_assoc] at free
    have first : ((w.db.rows ++ batch).map Row.key).Nodup := by
      rw [List.map_append] at free
      exact free.of_append_left
    obtain ⟨w', ran, db, done⟩ := @ih ({ w with db := { w.db with rows := w.db.rows ++ batch } }.set id
      (some ⟨rev, out, rest⟩)) (set_self id _) free
    refine ⟨w', exec_cons.mpr ⟨_, write_step running, ?_⟩, ?_, done⟩
    · rwa [if_pos first]
    · rw [db, List.flatten_cons, ← List.append_assoc]
      rfl

-- and otherwise the builder is gone before it has made them all.
theorem writes_fail {batches : List (List Row)} (running : w.builders id = some ⟨rev, out, batches⟩)
    (keys : (w.db.rows.map Row.key).Nodup) (taken : ¬ ((w.db.rows ++ batches.flatten).map Row.key).Nodup)
    (ran : exec step (List.replicate batches.length (.write id)) w = some w') : w'.builders id = none := by
  induction batches generalizing w with
  | nil => exact absurd (by simpa using keys) taken
  | cons batch rest ih =>
    obtain ⟨next, wrote, ran⟩ := exec_cons.mp ran
    rw [write_step running, Option.some.injEq] at wrote
    by_cases first : ((w.db.rows ++ batch).map Row.key).Nodup
    · rw [if_pos first] at wrote
      subst wrote
      rw [List.flatten_cons, ← List.append_assoc] at taken
      exact @ih ({ w with db := { w.db with rows := w.db.rows ++ batch } }.set id (some ⟨rev, out, rest⟩))
        (set_self id _) first taken ran
    · rw [if_neg first] at wrote
      subst wrote
      cases rest with
      | nil =>
        obtain rfl := Option.some.inj ran
        exact set_self id none
      | cons other rest =>
        -- A builder that is gone writes nothing.
        obtain ⟨next, wrote, -⟩ := exec_cons.mp ran
        simp only [step, set_self] at wrote
        cases wrote

section Run

variable {batches : Nat → List (List Row)} (free : w.builders id = none) (next : w.db.nextWriteRevision = .ok rev)
  (covers : (batches rev).flatten.Perm (out.rows rev))
include free next covers

theorem start_step : step w (.start id out batches) = some (w.set id (some ⟨rev, out, batches rev⟩)) := by
  simp only [step, free, next, if_pos covers]

-- A builder that nothing stands in the way of, and one that is killed after its first write.
theorem run_published (clear : ((w.db.rows ++ (batches rev).flatten).map Row.key).Nodup)
    (unlisted : rev ∉ w.db.revisions.map Revision.revision) :
    ∃ w', exec step (.start id out batches :: List.replicate (batches rev).length (.write id) ++ [.finish id]) w =
        some w' ∧ w'.builders id = none ∧
      w'.db = ⟨w.db.rows ++ (batches rev).flatten, w.db.revisions ++ [⟨rev, out.checkpoint, out.entries⟩]⟩ := by
  obtain ⟨mid, writes, db, done⟩ := @writes_ok (w.set id (some ⟨rev, out, batches rev⟩)) _ _ _ _ (set_self id _) clear
  have revisions : mid.db.revisions = w.db.revisions := by
    rw [db]
    rfl
  have finish : step mid (.finish id) = some ({ mid with db := { mid.db with revisions := mid.db.revisions ++
      [Revision.mk rev out.checkpoint out.entries] } }.set id none) := by
    simp only [step, done, MapDb.writeRevision, revisions, if_neg unlisted]
  refine ⟨_, exec_cons.mpr ⟨_, start_step free next covers, exec_append.mpr ⟨mid, writes, exec_cons.mpr ⟨_, finish,
    rfl⟩⟩⟩, set_self id none, ?_⟩
  rw [World.set, revisions, db]
  rfl

theorem run_killed {batch : List Row} {rest : List (List Row)} (first : batches rev = batch :: rest)
    (clear : ((w.db.rows ++ batch).map Row.key).Nodup) :
    ∃ w', exec step [.start id out batches, .write id, .kill id] w = some w' ∧ w'.builders id = none ∧
      w'.db = { w.db with rows := w.db.rows ++ batch } := by
  have running : (w.set id (some ⟨rev, out, batches rev⟩)).builders id = some ⟨rev, out, batch :: rest⟩ := by
    rw [set_self, first]
  have wrote := (write_step running).trans (congrArg some (if_pos clear))
  exact ⟨_, exec_cons.mpr ⟨_, start_step free next covers, exec_cons.mpr ⟨_, wrote, exec_cons.mpr ⟨_, rfl, rfl⟩⟩⟩,
    set_self id none, rfl⟩

end Run

theorem nextWriteRevision_above {db : MapDb} (next : db.nextWriteRevision = .ok rev) {revision : Nat} {t : MapTile}
    (inside : .tile revision t ∈ db.rows) : revision < rev := by
  have member : revision ∈ db.rows.filterMap Row.tileRevision := List.mem_filterMap.mpr ⟨_, inside, rfl⟩
  unfold MapDb.nextWriteRevision at next
  split at next
  next none =>
    rw [List.max?_eq_none_iff.mp none] at member
    cases member
  next max found =>
    obtain ⟨scanned, small, same⟩ := except_bind_eq_ok.mp next
    have least : revision ≤ max := (List.max?_le_iff found).mp le_rfl revision member
    rw [hideErr_eq_ok, scanInt32] at small
    split at small
    · obtain rfl := Except.ok.inj small
      obtain rfl := Except.ok.inj same
      omega
    · cases small

-- The tiles are of a revision of their own, so only other rows can be in the way.
theorem rows_untaken_iff {rev : Nat} (keys : (w.db.rows.map Row.key).Nodup) (next : w.db.nextWriteRevision = .ok rev)
    {out : Result} (distinct : ((out.rows rev).map Row.key).Nodup) {batches : List (List Row)}
    (covers : batches.flatten.Perm (out.rows rev)) :
    ((w.db.rows ++ batches.flatten).map Row.key).Nodup ↔
      ∀ row ∈ out.rows rev, row.tileRevision = none → row.key ∉ w.db.rows.map Row.key := by
  have perm := (covers.append_left w.db.rows).map Row.key
  rw [perm.nodup_iff, List.map_append, List.nodup_append]
  constructor
  · rintro ⟨-, -, apart⟩ row inside - taken
    exact apart _ taken _ (List.mem_map_of_mem inside) rfl
  · intro others
    refine ⟨keys, distinct, fun key taken key' inside same => ?_⟩
    obtain ⟨row, member, rfl⟩ := List.mem_map.mp inside
    cases kind : row.tileRevision with
    | none => exact others row member kind (same ▸ taken)
    | some revision =>
      obtain ⟨old, stored, rfl⟩ := List.mem_map.mp taken
      obtain ⟨t, -, rfl⟩ : ∃ t ∈ out.mapTiles, Row.tile rev t = row := by
        simp only [Result.rows, List.mem_append, List.mem_map] at member
        obtain (there | ⟨afw, -, rfl⟩) | ⟨log, -, rfl⟩ := member
        · exact there
        · cases kind
        · cases kind
      cases old with
      | tile revision' t' =>
        obtain ⟨rfl, -⟩ := Key.tile.inj same
        exact absurd (nextWriteRevision_above next stored) (lt_irrefl _)
      | aggregation fwLogIndex revision' good => cases same
      | log deviceID revision' leaves => cases same

/-- A builder that runs by itself, after others have run and died in any way, publishes its map unless one of these has
left a row of the same firmware or device under the revision it is given, or listed that revision. -/
theorem lone_builder_publishes_iff (events : List Event) (w : World) (ran : exec step events fresh = some w)
    (id rev : Nat) (free : w.builders id = none) (next : w.db.nextWriteRevision = .ok rev) (out : Result)
    (distinct : ((out.rows rev).map Row.key).Nodup)
    (batches : Nat → List (List Row)) (covers : (batches rev).flatten.Perm (out.rows rev)) :
    (∃ w', exec step (.start id out batches :: List.replicate (batches rev).length (.write id) ++ [.finish id]) w =
        some w' ∧ w'.db.revisions = w.db.revisions ++ [⟨rev, out.checkpoint, out.entries⟩]) ↔
      (∀ row ∈ out.rows rev, row.tileRevision = none → row.key ∉ w.db.rows.map Row.key) ∧
        rev ∉ w.db.revisions.map Revision.revision := by
  have keys := (run_complete ran).keys
  have start := start_step free next covers
  have running : (w.set id (some ⟨rev, out, batches rev⟩)).builders id = some ⟨rev, out, batches rev⟩ := set_self id _
  rw [← rows_untaken_iff keys next distinct covers]
  constructor
  · rintro ⟨w', run, listed⟩
    obtain ⟨started, first, rest⟩ := exec_cons.mp run
    obtain rfl := Option.some.inj (start.symm.trans first)
    obtain ⟨mid, writes, last⟩ := exec_append.mp rest
    by_cases clear : ((w.db.rows ++ (batches rev).flatten).map Row.key).Nodup
    · refine ⟨clear, fun taken => ?_⟩
      obtain ⟨mid', writes', db, done⟩ := writes_ok running clear
      obtain rfl := Option.some.inj (writes.symm.trans writes')
      obtain ⟨final, finished, same⟩ := exec_cons.mp last
      obtain rfl := Option.some.inj same
      have revisions : mid.db.revisions = w.db.revisions := by
        rw [db]
        rfl
      simp only [step, done, MapDb.writeRevision, revisions, if_pos taken, Option.some.injEq] at finished
      subst finished
      have length := congrArg List.length listed
      simp [World.set, revisions] at length
    · have gone := writes_fail running keys clear writes
      obtain ⟨final, finished, -⟩ := exec_cons.mp last
      simp only [step, gone] at finished
      cases finished
  · rintro ⟨clear, unlisted⟩
    obtain ⟨w', run, -, db⟩ := run_published free next covers clear unlisted
    exact ⟨w', run, by rw [db]⟩

end Alone

section Sample

-- The rows of a builder have keys of their own.
theorem rows_nodup {libs : Libraries} {out : Result} {leaves : List Bytes} {treeID : Int} (rev : Nat)
    (maps : Maps leaves libs treeID out.mapEntries out.deviceLogs out.aggregatedFirmware)
    (paths : (out.mapTiles.map MapTile.path).Nodup) : ((out.rows rev).map Row.key).Nodup := by
  have tiles : (out.mapTiles.map fun t => Key.tile rev t.path).Nodup := by
    have keys := paths.map (f := Key.tile rev) fun _ _ same => (Key.tile.inj same).2
    rwa [List.map_map] at keys
  have summaries : (out.aggregatedFirmware.map fun afw => Key.aggregation afw.index rev).Nodup := by
    have keys := maps.summarised.map (f := fun i => Key.aggregation i rev) fun _ _ same => (Key.aggregation.inj same).1
    rwa [List.map_map] at keys
  have logs : (out.deviceLogs.map fun log => Key.log log.deviceID rev).Nodup := by
    have keys := maps.listed.map (f := fun d => Key.log d rev) fun _ _ same => (Key.log.inj same).1
    rwa [List.map_map] at keys
  simp only [Result.rows, List.map_append, List.map_map]
  refine List.nodup_append.mpr ⟨List.nodup_append.mpr ⟨tiles, summaries, ?_⟩, logs, ?_⟩
  · rintro key inside other inside' rfl
    obtain ⟨t, -, rfl⟩ := List.mem_map.mp inside
    obtain ⟨afw, -, same⟩ := List.mem_map.mp inside'
    cases same
  · rintro key inside other inside' rfl
    obtain ⟨log, -, rfl⟩ := List.mem_map.mp inside'
    rcases List.mem_append.mp inside with tile | summary
    · obtain ⟨t, -, same⟩ := List.mem_map.mp tile
      cases same
    · obtain ⟨afw, -, same⟩ := List.mem_map.mp summary
      cases same

-- The builder of the sample, with rows of its own under each revision, and a tile.
theorem sample_built : ∃ out, Result.Made listedLibraries out sampleInput ∧
    sampleInput.leaves.take out.entries.toNat = sampleLeaves ∧
    (∀ rev, ((out.rows rev).map Row.key).Nodup) ∧ out.mapTiles ≠ [] ∧ out.aggregatedFirmware ≠ [] := by
  obtain ⟨out, made, whole⟩ := listed_created
  have maps := (created_maps Compact.reference_lawful made).2
  have tiled : referenceTiles listedMap out.mapEntries = .ok out.mapTiles := (create_eq_ok.mp made).2.2
  unfold referenceTiles at tiled
  split at tiled
  next good =>
    have sizes : ∀ k ∈ out.mapEntries.map Entry.hashKey, k.length = 32 := by simpa using good.1
    have tiles := Except.ok.inj tiled
    refine ⟨out, ⟨-1, .direct, made⟩, whole, fun rev => rows_nodup rev maps ?_, ?_, ?_⟩
    · rw [← tiles]
      exact tilesOf_paths sizes
    · rw [← tiles]
      exact List.cons_ne_nil _ _
    · rw [whole] at maps
      obtain ⟨afw, inside, -⟩ := maps.summary (sample_firmware.mpr (.inl rfl))
      exact List.ne_nil_of_mem inside
  next => cases tiled

theorem nextWriteRevision_eq {db : MapDb} {rev : Nat} {t : MapTile} (inside : .tile rev t ∈ db.rows)
    (last : ∀ rev' t', .tile rev' t' ∈ db.rows → rev' ≤ rev) (small : rev < 2 ^ 31) :
    db.nextWriteRevision = .ok (rev + 1) := by
  have max : (db.rows.filterMap Row.tileRevision).max? = some rev := by
    rw [List.max?_eq_some_iff]
    refine ⟨List.mem_filterMap.mpr ⟨_, inside, rfl⟩, fun rev' member => ?_⟩
    obtain ⟨row, stored, found⟩ := List.mem_filterMap.mp member
    cases row with
    | tile revision t' =>
      obtain rfl := Option.some.inj found
      exact last _ t' stored
    | aggregation fwLogIndex revision good => cases found
    | log deviceID revision leaves => cases found
  have scanned : scanInt32 rev = .ok rev := if_pos small
  simp [MapDb.nextWriteRevision, max, scanned, hideErr, Except.mapError, bind, Except.bind]

-- A builder with one batch, and builders that start with their tiles or with the other rows.
def oneBatch (out : Result) (rev : Nat) : List (List Row) := [out.rows rev]

def otherRows (out : Result) (rev : Nat) : List Row :=
  out.aggregatedFirmware.map (fun afw => .aggregation afw.index rev afw.good) ++
    out.deviceLogs.map fun log => .log log.deviceID rev log.revisions

def tilesFirst (out : Result) (rev : Nat) : List (List Row) := [out.mapTiles.map (.tile rev), otherRows out rev]

def tilesLast (out : Result) (rev : Nat) : List (List Row) := [otherRows out rev, out.mapTiles.map (.tile rev)]

-- A builder that finishes, and one that is killed after its first write.
def sampleEvents (out : Result) (batches : Nat → List (List Row)) : List Event :=
  [.start 0 out (oneBatch out), .write 0, .finish 0, .start 0 out batches, .write 0, .kill 0]

def Row.revision : Row → Nat
  | .tile revision _ => revision
  | .aggregation _ revision _ => revision
  | .log _ revision _ => revision

theorem rows_revision {out : Result} {rev : Nat} {row : Row} (inside : row ∈ out.rows rev) : row.revision = rev := by
  simp only [Result.rows, List.mem_append, List.mem_map] at inside
  obtain (⟨t, -, rfl⟩ | ⟨afw, -, rfl⟩) | ⟨log, -, rfl⟩ := inside
  · rfl
  · rfl
  · rfl

theorem revision_key {row row' : Row} (same : row.key = row'.key) : row.revision = row'.revision := by
  cases row <;> cases row' <;> simp_all [Row.key, Row.revision]

section Histories

variable {out : Result} (distinct : ∀ rev, ((out.rows rev).map Row.key).Nodup) (some' : out.mapTiles ≠ [])
include distinct some'

omit some' in
theorem sample_finished : ∃ w, exec step [.start 0 out (oneBatch out), .write 0, .finish 0] fresh = some w ∧
    w.builders 0 = none ∧ w.db = ⟨out.rows 0, [⟨0, out.checkpoint, out.entries⟩]⟩ := by
  have covers : (oneBatch out 0).flatten.Perm (out.rows 0) := by simp [oneBatch]
  have clear : ((fresh.db.rows ++ (oneBatch out 0).flatten).map Row.key).Nodup := by
    simpa [fresh, oneBatch] using distinct 0
  obtain ⟨w, ran, ended, db⟩ := @run_published fresh 0 0 out _ rfl rfl covers clear (by simp [fresh])
  exact ⟨w, ran, ended, by simpa [fresh, oneBatch] using db⟩

theorem sample_history {batches : Nat → List (List Row)} {batch : List Row} {rest : List (List Row)}
    (first : batches 1 = batch :: rest) (covers : (batches 1).flatten.Perm (out.rows 1)) :
    ∃ w, exec step (sampleEvents out batches) fresh = some w ∧ w.builders 0 = none ∧
      w.db = ⟨out.rows 0 ++ batch, [⟨0, out.checkpoint, out.entries⟩]⟩ := by
  obtain ⟨w, ran, ended, db⟩ := sample_finished distinct
  obtain ⟨t, more, tiles⟩ := List.exists_cons_of_ne_nil some'
  have next : w.db.nextWriteRevision = .ok 1 := by
    rw [db]
    refine @nextWriteRevision_eq _ 0 t (by simp [Result.rows, tiles]) (fun rev' t' stored => ?_) (by decide)
    exact (rows_revision stored).le
  have clear : ((w.db.rows ++ batch).map Row.key).Nodup := by
    rw [db, List.map_append, List.nodup_append]
    refine ⟨distinct 0, ?_, ?_⟩
    · have keys := (covers.map Row.key).nodup_iff.mpr (distinct 1)
      rw [first, List.flatten_cons, List.map_append] at keys
      exact keys.of_append_left
    · rintro key inside key' inside' rfl
      obtain ⟨row, stored, rfl⟩ := List.mem_map.mp inside
      obtain ⟨row', member, same⟩ := List.mem_map.mp inside'
      have later : row' ∈ out.rows 1 := covers.subset (by simp [first, member])
      have revision := revision_key same
      rw [rows_revision later, rows_revision stored] at revision
      cases revision
  obtain ⟨w', ran', ended', db'⟩ := run_killed ended next covers first clear
  refine ⟨w', exec_append.mpr ⟨w, ran, ran'⟩, ended', ?_⟩
  rw [db', db]

end Histories

-- A builder that was killed when it had its tiles does not stand in the way of the next one, which takes the revision
-- after it; one that was killed before its tiles does.
theorem lone_builder_publishes_sample : ∃ out : Result,
    (∃ w w', exec step (sampleEvents out (tilesFirst out)) fresh = some w ∧
      exec step [.start 0 out (oneBatch out), .write 0, .finish 0] w = some w' ∧
      w'.db.revisions = [⟨0, out.checkpoint, out.entries⟩, ⟨2, out.checkpoint, out.entries⟩]) ∧
    ∃ w, exec step (sampleEvents out (tilesLast out)) fresh = some w ∧
      ¬ ∃ w', exec step [.start 0 out (oneBatch out), .write 0, .finish 0] w = some w' ∧
        w'.db.revisions = w.db.revisions ++ [⟨1, out.checkpoint, out.entries⟩] := by
  obtain ⟨out, -, -, distinct, some', summed⟩ := sample_built
  obtain ⟨t, more, tiles⟩ := List.exists_cons_of_ne_nil some'
  obtain ⟨afw, others, aggregated⟩ := List.exists_cons_of_ne_nil summed
  have whole (rev : Nat) : out.mapTiles.map (.tile rev) ++ otherRows out rev = out.rows rev := by
    rw [otherRows, ← List.append_assoc, Result.rows]
  have covers (rev : Nat) : (oneBatch out rev).flatten.Perm (out.rows rev) := by simp [oneBatch]
  refine ⟨out, ?_, ?_⟩
  · obtain ⟨w, ran, free, db⟩ := @sample_history out distinct some' (tilesFirst out) _ _ rfl
      (by simp [tilesFirst, whole])
    have below : ∀ row ∈ w.db.rows, row.revision ≤ 1 := by
      rw [db]
      intro row stored
      rcases List.mem_append.mp stored with old | new
      · rw [rows_revision old]
        exact Nat.zero_le 1
      · have later : row ∈ out.rows 1 := whole 1 ▸ List.mem_append_left _ new
        rw [rows_revision later]
    have next : w.db.nextWriteRevision = .ok 2 :=
      @nextWriteRevision_eq _ 1 t (by simp [db, tiles]) (fun rev' t' stored => below _ stored) (by decide)
    have untaken : ∀ row ∈ out.rows 2, row.tileRevision = none → row.key ∉ w.db.rows.map Row.key := by
      intro row inside _ taken
      obtain ⟨row', stored, same⟩ := List.mem_map.mp taken
      have revision := below row' stored
      rw [revision_key same, rows_revision inside] at revision
      omega
    obtain ⟨w', run, listed⟩ := (lone_builder_publishes_iff _ w ran 0 2 free next out (distinct 2) (oneBatch out)
      (covers 2)).mpr ⟨untaken, by simp [db]⟩
    refine ⟨w, w', ran, run, ?_⟩
    rw [listed, db]
    rfl
  · obtain ⟨w, ran, free, db⟩ := @sample_history out distinct some' (tilesLast out) _ _ rfl
      (by simpa [tilesLast, whole] using List.perm_append_comm.trans (List.Perm.of_eq (whole 1)))
    have next : w.db.nextWriteRevision = .ok 1 := by
      rw [db]
      refine @nextWriteRevision_eq _ 0 t (by simp [Result.rows, tiles]) (fun rev' t' stored => ?_) (by decide)
      rcases List.mem_append.mp stored with old | new
      · exact (rows_revision old).le
      · simp [otherRows] at new
    refine ⟨w, ran, fun published => ?_⟩
    have untaken := ((lone_builder_publishes_iff _ w ran 0 1 free next out (distinct 1) (oneBatch out) (covers 1)).mp
      published).1
    have row : Row.aggregation afw.index 1 afw.good ∈ otherRows out 1 := by simp [otherRows, aggregated]
    refine untaken _ (whole 1 ▸ List.mem_append_right _ row) rfl ?_
    rw [db]
    exact List.mem_map_of_mem (List.mem_append_right _ row)

-- Of the revision that is listed, the firmware that is condemned is refused and the other one accepted, and with the
-- checkpoint that the map server makes neither is.
theorem published_map_verifies_sample : ∃ out w, exec step (sampleEvents out (tilesFirst out)) fresh = some w ∧
    verifyAnnotations sampleTool listedMap (.ok []) (sampleBundle 2) (w.db.server
      (jsonAnswer mappedCheckpoint (listedMap.mapRoot (contentOf out.mapEntries)) 0)) = .ok () ∧
    verifyAnnotations sampleTool listedMap (.ok []) (sampleBundle 0) (w.db.server
      (jsonAnswer mappedCheckpoint (listedMap.mapRoot (contentOf out.mapEntries)) 0)) ≠ .ok () ∧
    verifyAnnotations sampleTool listedMap (.ok []) (sampleBundle 2) (w.db.server
      (testReader.getCheckpoint marshalLines)) ≠ .ok () := by
  obtain ⟨out, made, whole, distinct, some', -⟩ := sample_built
  obtain ⟨w, ran, -, db⟩ := @sample_history out distinct some' (tilesFirst out) _ _ rfl
    (by simp [tilesFirst, otherRows, Result.rows])
  have inside : ⟨0, out.checkpoint, out.entries⟩ ∈ w.db.revisions := by simp [db]
  obtain ⟨out', ⟨e, member, starts⟩, -, -, -, -, verifies, refuses⟩ := published_map_verifies listedLibraries
    Compact.reference_lawful reference_lawful listedLibraries_creates _ w ran _ inside
  obtain rfl : out = out' := by
    simp only [sampleEvents, List.mem_cons, List.not_mem_nil, or_false] at member
    rcases member with rfl | rfl | rfl | rfl | rfl | rfl
    · exact starts
    · cases starts
    · cases starts
    · exact starts
    · cases starts
    · cases starts
  have binds : listedLibraries.hasher.Binds mapTreeID
      (listedLibraries.values out.deviceLogs out.aggregatedFirmware) 256 := by
    obtain ⟨size, r, created⟩ := made
    have maps := (created_maps Compact.reference_lawful created).2
    rw [whole] at maps
    exact sample_binds maps (created_distinct Compact.reference_lawful listedLibraries_creates created)
  have received := @jsonAnswer_received mappedCheckpoint (by decide) (by decide)
    (listedMap.mapRoot (contentOf out.mapEntries)) 0 (by decide)
  have root : (some (listedMap.mapRoot (contentOf out.mapEntries))).getD [] =
      listedLibraries.mapRoot (contentOf out.mapEntries) := Option.getD_some
  have decides (i : Nat) := verifies sampleInput made (whole ▸ sample_apart) binds sampleTool (.ok []) (sampleBundle i)
    (whole ▸ sample_unnamed i) _ _ _ received rfl root
  rw [whole] at decides
  refine ⟨out, w, ran, (decides 2).mpr ⟨sampleBundle_consistent (by decide), ?_, ?_⟩, fun accepted => ?_, ?_⟩
  · exact sample_firmware.mpr (.inr rfl)
  · exact fun bad => absurd (sample_condemned.mp bad) (by decide)
  · exact ((decides 0).mp accepted).2.2 (sample_condemned.mpr rfl)
  · exact refuses marshalLines (fun _ => rfl) testReader sampleTool (.ok []) (sampleBundle 2)

end Sample

end Pipeline

end Firmware
