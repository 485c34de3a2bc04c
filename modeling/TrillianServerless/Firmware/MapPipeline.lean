import Mathlib.Data.List.Sort
import TrillianServerless.Shared.Beam
import TrillianServerless.Packages.Compact
import TrillianServerless.BatchMap.CtMap
import TrillianServerless.Firmware.AddFirmware
import TrillianServerless.Firmware.MapServer
import TrillianServerless.Firmware.MapClient

set_option autoImplicit false

namespace Firmware

namespace Pipeline

open Go Merkle Smt Beam

section Statements

structure FirmwareID where
  logIndex : Nat
  firmwareImageSHA512 : Bytes
  deriving DecidableEq, Repr

structure MalwareStatement where
  firmwareID : FirmwareID
  good : Bool
  deriving DecidableEq, Repr

def firmwareIDFields : List (Json.Field FirmwareID) :=
  [⟨"LogIndex", fun id v => (v.toUint 64 id.logIndex).map fun n => { id with logIndex := n }⟩,
    ⟨"FirmwareImageSHA512", fun id v =>
      (Json.toBytes v).map fun b => { id with firmwareImageSHA512 := b.getD [] }⟩]

def malwareFields : List (Json.Field MalwareStatement) :=
  [⟨"FirmwareID", fun a v => (v.decodeStruct firmwareIDFields a.firmwareID).map fun id => { a with firmwareID := id }⟩,
    ⟨"Good", fun a v => (v.toBool a.good).map fun b => { a with good := b }⟩]

def unmarshalStatement (raw : Bytes) : Except GoError SignedStatement := do
  (← Json.decodeWhole raw).decodeStruct Personality.signedStatementFields ⟨0, [], []⟩

def unmarshalMalware (raw : Bytes) : Except GoError MalwareStatement := do
  (← Json.decodeWhole raw).decodeStruct malwareFields ⟨⟨0, []⟩, false⟩

theorem unmarshalMalware_index {raw : Bytes} {a : MalwareStatement} (read : unmarshalMalware raw = .ok a) :
    a.firmwareID.logIndex < 2 ^ 64 := by
  obtain ⟨v, -, decoded⟩ := except_bind_eq_ok.mp read
  refine Json.decodeStruct_keeps (fun a => a.firmwareID.logIndex < 2 ^ 64) ?_ decoded (by decide)
  intro f field a v a' stored small
  simp only [malwareFields, List.mem_cons, List.not_mem_nil, or_false] at field
  rcases field with rfl | rfl
  · obtain ⟨id, inner, rfl⟩ := except_map_eq_ok.mp stored
    refine Json.decodeStruct_keeps (fun id => id.logIndex < 2 ^ 64) ?_ inner small
    intro f field id v id' stored small
    simp only [firmwareIDFields, List.mem_cons, List.not_mem_nil, or_false] at field
    rcases field with rfl | rfl
    · obtain ⟨n, index, rfl⟩ := except_map_eq_ok.mp stored
      exact Json.toUint_lt index small
    · obtain ⟨b, -, rfl⟩ := except_map_eq_ok.mp stored
      exact small
  · obtain ⟨b, -, rfl⟩ := except_map_eq_ok.mp stored
    exact small

end Statements

section Elements

structure InputLogLeaf where
  seq : Int
  data : Bytes

structure LoggedStatement where
  index : Int
  statement : SignedStatement

structure FirmwareLogEntry where
  index : Int
  firmware : Personality.Manifest

structure AnnotationMalwareLogEntry where
  index : Int
  annotation : MalwareStatement

structure DeviceReleaseLog where
  deviceID : String
  revisions : List Nat
  deriving DecidableEq

-- batchmap.Entry.
structure Entry where
  hashKey : Bytes
  hashValue : Bytes
  deriving DecidableEq

def parseStatementFn (l : InputLogLeaf) : Except GoError LoggedStatement := do
  let s ← unmarshalStatement l.data
  .ok ⟨l.seq, s⟩

def firmwareMetaPartition : Nat := 0
def malwareStatementPartition : Nat := 1
def unclassifiedStatementPartition : Nat := 2

def partitionFn (s : LoggedStatement) : Nat :=
  if s.statement.type = firmwareMetadataType then firmwareMetaPartition
  else if s.statement.type = malwareStatementType then malwareStatementPartition
  else unclassifiedStatementPartition

def parseFirmwareFn (s : LoggedStatement) : Except GoError FirmwareLogEntry := do
  let m ← Personality.unmarshalManifest s.statement.statement
  .ok ⟨s.index, m⟩

def parseAnnotationMalwareFn (s : LoggedStatement) : Except GoError AnnotationMalwareLogEntry := do
  let a ← unmarshalMalware s.statement.statement
  .ok ⟨s.index, a⟩

-- The versions of a device, in the order of the log.
def makeDeviceReleaseLogFn (deviceID : String) (entries : List FirmwareLogEntry) : DeviceReleaseLog :=
  ⟨deviceID, (entries.insertionSort fun a b => a.index ≤ b.index).map fun e => e.firmware.firmwareRevision⟩

def aggregationFn (fwIndex : Nat) (fws : List FirmwareLogEntry) (ams : List AnnotationMalwareLogEntry) :
    Except GoError AggregatedFirmware :=
  match fws with
  | [] => .error (.text "aggregationFn for %d found no firmware")
  | _ :: _ => .ok ⟨fwIndex, ams.foldl (fun good am => good && am.annotation.good) true⟩

end Elements

section Hashes

def aggregationMembers (afw : AggregatedFirmware) : List (Bytes × Bytes) :=
  [(Checkpoints.asciiBytes "Index", formatUint 10 afw.index), (Checkpoints.asciiBytes "Good", Json.encodeBool afw.good)]

-- json.Marshal of an AggregatedFirmware.
def marshalAggregation (afw : AggregatedFirmware) : Bytes := Json.encodeStruct (aggregationMembers afw)

-- binary.LittleEndian.PutUint64.
def littleEndian (v : Nat) : Bytes := (List.range 8).map fun i => UInt8.ofNat (v >>> (8 * i))

/-- What the pipeline calls besides the packages of the map: SHA-256, package compact, and batchmap.Create for
SHA512_256 and the prefix strata of the map, with the run of its part of the pipeline. -/
structure Libraries extends MapLibraries where
  sha256 : Bytes → Bytes
  compact : Compact.Package
  batchmapCreate : Int → List Entry → Except GoError (List MapTile)

variable (libs : Libraries) (treeID : Int)

def Libraries.recordHash (data : Bytes) : Bytes := libs.sha256 (0 :: data)

def Libraries.nodeHash (left right : Bytes) : Bytes := libs.sha256 (1 :: left ++ right)

-- ProcessElement of moduleLogHashFn.
def Libraries.moduleLogHashFn (log : DeviceReleaseLog) : Except GoError Entry := do
  let logRange := libs.compact.appendAll libs.nodeHash (libs.compact.newEmptyRange 0)
    (log.revisions.map fun v => libs.recordHash (littleEndian v))
  let logRoot ← hideErr "failed to create log for %q: %v" (libs.compact.getRootHash libs.nodeHash logRange).1
  let logKey := libs.sha512_256 (Json.bytesOf log.deviceID.toList)
  let leafID := ID.new logKey (8 * logKey.length)
  .ok ⟨logKey, libs.hasher.hashLeaf treeID leafID logRoot⟩

-- ProcessElement of aggregatedFirmwareHashFn.
def Libraries.aggregatedFirmwareHashFn (afw : AggregatedFirmware) : Except GoError Entry :=
  let kbs := libs.summaryKey afw.index
  let leafID := ID.new kbs 256
  .ok ⟨kbs, libs.hasher.hashLeaf treeID leafID (marshalAggregation afw)⟩

theorem unmarshalAggregation_marshal {afw : AggregatedFirmware} (small : afw.index < 2 ^ 64) :
    unmarshalAggregation (marshalAggregation afw) = .ok afw := by
  have names : ∀ m ∈ aggregationMembers afw, ∀ c ∈ m.1, Json.Plain c := by
    have plain : ∀ name ∈ ["Index", "Good"], ∀ c ∈ Checkpoints.asciiBytes name, Json.Plain c :=
      Json.plain_of_all (by decide +kernel)
    simp only [aggregationMembers, List.forall_mem_cons]
    exact ⟨plain _ (by simp), plain _ (by simp), by simp⟩
  have decoded := Json.decodeWhole_encodeStruct names (.cons (Json.reads_formatUint _ afw.index)
    (.cons (Json.reads_encodeBool _ afw.good) .nil)) (by simp [aggregationMembers])
  have stored : ∀ start : AggregatedFirmware, ∀ v,
      (Json.decodeMember aggregationFields start (Checkpoints.asciiBytes "Index", v) =
        (v.toUint 64 start.index).map fun n => { start with index := n }) ∧
      (Json.decodeMember aggregationFields start (Checkpoints.asciiBytes "Good", v) =
        (v.toBool start.good).map fun b => { start with good := b }) :=
    fun _ _ => ⟨rfl, rfl⟩
  have first := fun old => Json.toUint_formatUint small old
  rw [unmarshalAggregation, marshalAggregation, decoded]
  simp only [Json.decodeStruct, aggregationMembers, List.map_cons, List.map_nil, List.zip_cons_cons, List.zip_nil_left,
    List.foldlM_cons, List.foldlM_nil, (stored _ _).1, (stored _ _).2, first, Json.toBool, Except.map, bind,
    Except.bind, pure, Except.pure]

end Hashes

section Create

-- The log that a map is built from: what Head answers, and the leaves there are.
structure InputLog where
  head : CtMap.Head
  leaves : List Bytes

def InputLog.entries (log : InputLog) (start stop : Int) : List InputLogLeaf :=
  (log.leaves.zipIdx.map fun (data, i) => ⟨i, data⟩).filter fun l => start ≤ l.seq ∧ l.seq < stop

-- PipelineResult, with the entries that the tiles are made from.
structure Result where
  mapEntries : List Entry
  mapTiles : List MapTile
  deviceLogs : List DeviceReleaseLog
  aggregatedFirmware : List AggregatedFirmware
  checkpoint : Bytes
  entries : Int

variable (libs : Libraries) (treeID : Int) (r : Runner)

def Libraries.makeReleaseLogs (logEntries : List FirmwareLogEntry) :
    Except GoError (List Entry × List DeviceReleaseLog) := do
  let keyed := logEntries.map fun l => (l.firmware.deviceID, l)
  let logs ← r.parDo "makeLogs" (fun g => .ok (makeDeviceReleaseLogFn g.1 g.2)) (r.groupByKey "makeLogs" keyed)
  let entries ← r.parDo "hashLogs" (libs.moduleLogHashFn treeID) logs
  .ok (entries, logs)

-- Each index that a firmware has or an annotation names, with what there is for it.
def groups (fws : List FirmwareLogEntry) (annotationMalwares : List AnnotationMalwareLogEntry) :
    List (Nat × List FirmwareLogEntry × List AnnotationMalwareLogEntry) :=
  let keyedFws := fws.map fun l => (uint64 l.index, l)
  let keyedAnns := annotationMalwares.map fun a => (a.annotation.firmwareID.logIndex, a)
  r.coGroupByKey "aggregate" keyedFws keyedAnns

def Libraries.aggregate (fws : List FirmwareLogEntry) (annotationMalwares : List AnnotationMalwareLogEntry) :
    Except GoError (List Entry × List AggregatedFirmware) := do
  let annotations ← r.parDo "aggregate" (fun g => aggregationFn g.1 g.2.1 g.2.2) (groups r fws annotationMalwares)
  let entries ← r.parDo "hashAggregations" (libs.aggregatedFirmwareHashFn treeID) annotations
  .ok (entries, annotations)

-- The stages of Create up to batchmap.Create, which the entries are for.
def Libraries.build (leaves : List InputLogLeaf) :
    Except GoError (List Entry × List DeviceReleaseLog × List AggregatedFirmware) := do
  let statements ← r.parDo "parseStatement" parseStatementFn leaves
  let partitions := fun i => statements.filter fun s => partitionFn s = i
  let fws ← r.parDo "parseFirmware" parseFirmwareFn (partitions firmwareMetaPartition)
  let ams ← r.parDo "parseAnnotationMalware" parseAnnotationMalwareFn (partitions malwareStatementPartition)
  let (logEntries, logs) ← libs.makeReleaseLogs treeID r fws
  let (annotationEntries, aggregated) ← libs.aggregate treeID r fws ams
  .ok (logEntries ++ annotationEntries, logs, aggregated)

def Libraries.create (log : InputLog) (size : Int) : Except GoError Result := do
  let (endID, golden) ← CtMap.getLogEnd log.head size
  let (entries, logs, aggregated) ← libs.build treeID r (log.entries 0 endID)
  let tiles ← libs.batchmapCreate treeID entries
  .ok ⟨entries, tiles, logs, aggregated, golden, endID⟩

end Create

section Specification

-- What a leaf of the log says, where it can be read: a firmware, or an annotation of one.
def firmwareOf (data : Bytes) : Option Personality.Manifest := do
  let s ← (unmarshalStatement data).toOption
  if s.type = firmwareMetadataType then (Personality.unmarshalManifest s.statement).toOption else none

def annotationOf (data : Bytes) : Option MalwareStatement := do
  let s ← (unmarshalStatement data).toOption
  if s.type = malwareStatementType then (unmarshalMalware s.statement).toOption else none

variable (leaves : List Bytes)

def FirmwareAt (i : Nat) : Prop := ∃ data m, leaves[i]? = some data ∧ firmwareOf data = some m

/-- Some annotation in the log says that the firmware at `i` is bad. -/
def Condemned (i : Nat) : Prop :=
  ∃ data ∈ leaves, ∃ a, annotationOf data = some a ∧ a.firmwareID.logIndex = i ∧ a.good = false

def revisionsOf (deviceID : String) : List Nat :=
  ((leaves.filterMap firmwareOf).filter fun m => m.deviceID = deviceID).map fun m => m.firmwareRevision

/-- A leaf that Unmarshal reads, with what it states. -/
def Readable (data : Bytes) : Prop :=
  ∃ s, unmarshalStatement data = .ok s ∧
    (s.type = firmwareMetadataType → ∃ m, Personality.unmarshalManifest s.statement = .ok m) ∧
    (s.type = malwareStatementType → ∃ a, unmarshalMalware s.statement = .ok a)

/-- The leaves that a map can be built from: each can be read, and each annotation is of a firmware among them. -/
structure Mappable : Prop where
  readable : ∀ data ∈ leaves, Readable data
  annotated : ∀ data ∈ leaves, ∀ a, annotationOf data = some a → FirmwareAt leaves a.firmwareID.logIndex

variable (libs : Libraries) (treeID : Int)

def Libraries.deviceKey (deviceID : String) : Bytes := libs.sha512_256 (Json.bytesOf deviceID.toList)

def Libraries.logRootOf (revisions : List Nat) : Bytes :=
  treeHash libs.nodeHash [] (revisions.map fun v => libs.recordHash (littleEndian v))

def Libraries.logEntry (log : DeviceReleaseLog) : Entry :=
  ⟨libs.deviceKey log.deviceID,
    libs.hasher.hashLeaf treeID (bitsOf (libs.deviceKey log.deviceID)) (libs.logRootOf log.revisions)⟩

def Libraries.summaryEntry (afw : AggregatedFirmware) : Entry :=
  ⟨libs.summaryKey afw.index,
    libs.hasher.hashLeaf treeID (bitsOf (libs.summaryKey afw.index)) (marshalAggregation afw)⟩

/-- What a map over `leaves` holds: a summary for each firmware, which is good as long as no annotation says
otherwise, and for each device the tree of its revisions in the order of the log. -/
structure Maps (entries : List Entry) (logs : List DeviceReleaseLog) (aggregated : List AggregatedFirmware) :
    Prop where
  summaries : ∀ afw, afw ∈ aggregated ↔
    FirmwareAt leaves afw.index ∧ (afw.good = true ↔ ¬ Condemned leaves afw.index)
  summarised : (aggregated.map AggregatedFirmware.index).Nodup
  devices : ∀ log, log ∈ logs ↔
    (∃ data ∈ leaves, ∃ m, firmwareOf data = some m ∧ m.deviceID = log.deviceID) ∧
      log.revisions = revisionsOf leaves log.deviceID
  listed : (logs.map DeviceReleaseLog.deviceID).Nodup
  entries : entries.Perm (logs.map (libs.logEntry treeID) ++ aggregated.map (libs.summaryEntry treeID))

end Specification

section Stages

-- The leaves of a log with their indices, and what the first stages make of them.
def indexed (leaves : List Bytes) : List InputLogLeaf := leaves.zipIdx.map fun (data, i) => ⟨i, data⟩

def firmwareEntries (leaves : List Bytes) : List FirmwareLogEntry :=
  (indexed leaves).filterMap fun l => (firmwareOf l.data).map fun m => ⟨l.seq, m⟩

def annotationEntries (leaves : List Bytes) : List AnnotationMalwareLogEntry :=
  (indexed leaves).filterMap fun l => (annotationOf l.data).map fun a => ⟨l.seq, a⟩

theorem mem_indexed {leaves : List Bytes} {l : InputLogLeaf} :
    l ∈ indexed leaves ↔ ∃ i : Nat, l.seq = i ∧ leaves[i]? = some l.data := by
  simp only [indexed, List.mem_map, Prod.exists, List.mem_zipIdx_iff_getElem?]
  constructor
  · rintro ⟨data, i, there, rfl⟩
    exact ⟨i, rfl, there⟩
  · rintro ⟨i, seq, there⟩
    exact ⟨l.data, i, there, by rw [← seq]⟩

theorem mem_firmwareEntries {leaves : List Bytes} {e : FirmwareLogEntry} :
    e ∈ firmwareEntries leaves ↔ ∃ (i : Nat) (data : Bytes),
      e.index = i ∧ leaves[i]? = some data ∧ firmwareOf data = some e.firmware := by
  simp only [firmwareEntries, List.mem_filterMap, mem_indexed, Option.map_eq_some_iff]
  constructor
  · rintro ⟨l, ⟨i, seq, there⟩, m, read, rfl⟩
    exact ⟨i, l.data, seq, there, read⟩
  · rintro ⟨i, data, index, there, read⟩
    exact ⟨⟨i, data⟩, ⟨i, rfl, there⟩, e.firmware, read, by rw [← index]⟩

theorem mem_annotationEntries {leaves : List Bytes} {e : AnnotationMalwareLogEntry} :
    e ∈ annotationEntries leaves ↔ ∃ (i : Nat) (data : Bytes),
      e.index = i ∧ leaves[i]? = some data ∧ annotationOf data = some e.annotation := by
  simp only [annotationEntries, List.mem_filterMap, mem_indexed, Option.map_eq_some_iff]
  constructor
  · rintro ⟨l, ⟨i, seq, there⟩, m, read, rfl⟩
    exact ⟨i, l.data, seq, there, read⟩
  · rintro ⟨i, data, index, there, read⟩
    exact ⟨⟨i, data⟩, ⟨i, rfl, there⟩, e.annotation, read, by rw [← index]⟩

theorem partitionFn_firmware {s : LoggedStatement} :
    partitionFn s = firmwareMetaPartition ↔ s.statement.type = firmwareMetadataType := by
  unfold partitionFn
  split
  · exact iff_of_true rfl ‹_›
  next other => split <;> exact iff_of_false (by decide) other

theorem partitionFn_malware {s : LoggedStatement} :
    partitionFn s = malwareStatementPartition ↔ s.statement.type = malwareStatementType := by
  unfold partitionFn
  split
  next same =>
    rw [same]
    exact iff_of_false (by decide) (by decide)
  next =>
    split
    · exact iff_of_true rfl ‹_›
    next other => exact iff_of_false (by decide) other

theorem firmware_stage (l : InputLogLeaf) :
    ((parseStatementFn l).toOption.bind fun s =>
        if partitionFn s = firmwareMetaPartition then (parseFirmwareFn s).toOption else none) =
      (firmwareOf l.data).map fun m => ⟨l.seq, m⟩ := by
  cases read : unmarshalStatement l.data with
  | error reason => simp [parseStatementFn, firmwareOf, read, Except.toOption, bind, Except.bind]
  | ok s =>
    simp only [parseStatementFn, firmwareOf, read, Except.toOption, bind, Except.bind, Option.bind_some,
      partitionFn_firmware]
    split
    · cases body : Personality.unmarshalManifest s.statement <;> simp [parseFirmwareFn, body, bind, Except.bind]
    · rfl

theorem annotation_stage (l : InputLogLeaf) :
    ((parseStatementFn l).toOption.bind fun s =>
        if partitionFn s = malwareStatementPartition then (parseAnnotationMalwareFn s).toOption else none) =
      (annotationOf l.data).map fun a => ⟨l.seq, a⟩ := by
  cases read : unmarshalStatement l.data with
  | error reason => simp [parseStatementFn, annotationOf, read, Except.toOption, bind, Except.bind]
  | ok s =>
    simp only [parseStatementFn, annotationOf, read, Except.toOption, bind, Except.bind, Option.bind_some,
      partitionFn_malware]
    split
    · cases body : unmarshalMalware s.statement <;> simp [parseAnnotationMalwareFn, body, bind, Except.bind]
    · rfl

theorem readable_iff {l : InputLogLeaf} : Readable l.data ↔
    ∃ s, parseStatementFn l = .ok s ∧
      (partitionFn s = firmwareMetaPartition → ∃ e, parseFirmwareFn s = .ok e) ∧
      (partitionFn s = malwareStatementPartition → ∃ e, parseAnnotationMalwareFn s = .ok e) := by
  have parsed {A B : Type} {x : Except GoError A} {f : A → B} :
      (∃ b, (do let a ← x; Except.ok (f a)) = .ok b) ↔ ∃ a, x = .ok a := by
    cases x <;> simp [bind, Except.bind]
  cases read : unmarshalStatement l.data with
  | error reason => simp [Readable, read, parseStatementFn, bind, Except.bind]
  | ok s =>
    have first : parseStatementFn l = .ok ⟨l.seq, s⟩ := by simp [parseStatementFn, read, bind, Except.bind]
    simp only [Readable, read, first, Except.ok.injEq, exists_eq_left', partitionFn_firmware, partitionFn_malware,
      parseFirmwareFn, parseAnnotationMalwareFn, parsed]

variable {r : Runner}

-- What a partition of the statements is parsed to comes from the leaves, wherever the runner has put it.
theorem partition_perm {A : Type} {parse : LoggedStatement → Except GoError A} {part : Nat}
    {of : InputLogLeaf → Option A} (stage : ∀ l, ((parseStatementFn l).toOption.bind fun s =>
      if partitionFn s = part then (parse s).toOption else none) = of l) {leaves : List InputLogLeaf}
    {statements : List LoggedStatement} {first second : String}
    (read : r.parDo first parseStatementFn leaves = .ok statements) {parsed : List A}
    (ran : r.parDo second parse (statements.filter fun s => partitionFn s = part) = .ok parsed) :
    parsed.Perm (leaves.filterMap of) := by
  have perm := (parDo_perm ran).trans (((parDo_perm read).filter _).filterMap _)
  rw [List.filterMap_filter, List.filterMap_filterMap] at perm
  simpa only [decide_eq_true_eq, stage] using perm

-- The stages that read the leaves.
def Reads (r : Runner) (leaves : List Bytes) (fws : List FirmwareLogEntry) (ams : List AnnotationMalwareLogEntry) :
    Prop :=
  ∃ statements, r.parDo "parseStatement" parseStatementFn (indexed leaves) = .ok statements ∧
    r.parDo "parseFirmware" parseFirmwareFn
      (statements.filter fun s => partitionFn s = firmwareMetaPartition) = .ok fws ∧
    r.parDo "parseAnnotationMalware" parseAnnotationMalwareFn
      (statements.filter fun s => partitionFn s = malwareStatementPartition) = .ok ams

theorem reads_iff {leaves : List Bytes} : (∃ fws ams, Reads r leaves fws ams) ↔ ∀ data ∈ leaves, Readable data := by
  have leaf {data : Bytes} : data ∈ leaves ↔ ∃ l ∈ indexed leaves, l.data = data := by
    constructor
    · intro inside
      obtain ⟨i, there⟩ := List.mem_iff_getElem?.mp inside
      exact ⟨⟨i, data⟩, mem_indexed.mpr ⟨i, rfl, there⟩, rfl⟩
    · rintro ⟨l, inside, rfl⟩
      obtain ⟨i, -, there⟩ := mem_indexed.mp inside
      exact List.mem_of_getElem? there
  constructor
  · rintro ⟨fws, ams, statements, read, firmware, annotations⟩ data inside
    obtain ⟨l, there, rfl⟩ := leaf.mp inside
    obtain ⟨s, parsed⟩ := parDo_ok_iff.mp ⟨_, read⟩ l there
    have member : s ∈ statements := (mem_parDo read).mpr ⟨l, there, parsed⟩
    refine readable_iff.mpr ⟨s, parsed, fun part => ?_, fun part => ?_⟩
    · exact parDo_ok_iff.mp ⟨_, firmware⟩ s (List.mem_filter.mpr ⟨member, by simpa using part⟩)
    · exact parDo_ok_iff.mp ⟨_, annotations⟩ s (List.mem_filter.mpr ⟨member, by simpa using part⟩)
  · intro readable
    have each : ∀ l ∈ indexed leaves, ∃ s, parseStatementFn l = .ok s := fun l there =>
      (readable_iff.mp (readable l.data (leaf.mpr ⟨l, there, rfl⟩))).imp fun _ parsed => parsed.1
    obtain ⟨statements, read⟩ := (@parDo_ok_iff _ _ _ r "parseStatement" _ _).mpr each
    have body {s : LoggedStatement} (member : s ∈ statements) :
        (partitionFn s = firmwareMetaPartition → ∃ e, parseFirmwareFn s = .ok e) ∧
        (partitionFn s = malwareStatementPartition → ∃ e, parseAnnotationMalwareFn s = .ok e) := by
      obtain ⟨l, there, parsed⟩ := (mem_parDo read).mp member
      obtain ⟨s', parsed', bodies⟩ := readable_iff.mp (readable l.data (leaf.mpr ⟨l, there, rfl⟩))
      obtain rfl := Except.ok.inj (parsed.symm.trans parsed')
      exact bodies
    obtain ⟨fws, firmware⟩ := (@parDo_ok_iff _ _ _ r "parseFirmware" parseFirmwareFn
      (statements.filter fun s => partitionFn s = firmwareMetaPartition)).mpr fun s member =>
        (body (List.mem_filter.mp member).1).1 (by simpa using (List.mem_filter.mp member).2)
    obtain ⟨ams, annotations⟩ := (@parDo_ok_iff _ _ _ r "parseAnnotationMalware" parseAnnotationMalwareFn
      (statements.filter fun s => partitionFn s = malwareStatementPartition)).mpr fun s member =>
        (body (List.mem_filter.mp member).1).2 (by simpa using (List.mem_filter.mp member).2)
    exact ⟨fws, ams, statements, read, firmware, annotations⟩

variable {leaves : List Bytes} {fws : List FirmwareLogEntry} {ams : List AnnotationMalwareLogEntry}

theorem Reads.firmware (reads : Reads r leaves fws ams) : fws.Perm (firmwareEntries leaves) := by
  obtain ⟨statements, read, firmware, -⟩ := reads
  exact partition_perm firmware_stage read firmware

theorem Reads.annotations (reads : Reads r leaves fws ams) : ams.Perm (annotationEntries leaves) := by
  obtain ⟨statements, read, -, annotations⟩ := reads
  exact partition_perm annotation_stage read annotations

theorem firmwareEntries_sorted (leaves : List Bytes) :
    (firmwareEntries leaves).Pairwise fun a b => a.index < b.index := by
  have order : (indexed leaves).Pairwise fun a b => a.seq < b.seq := by
    rw [indexed, List.pairwise_map, List.pairwise_iff_getElem]
    intro i j _ _ less
    simpa using less
  rw [firmwareEntries, List.pairwise_filterMap]
  refine order.imp ?_
  rintro a b less e made e' made'
  obtain ⟨m, -, rfl⟩ := Option.map_eq_some_iff.mp made
  obtain ⟨m', -, rfl⟩ := Option.map_eq_some_iff.mp made'
  exact less

theorem firmwareEntries_firmware (leaves : List Bytes) :
    (firmwareEntries leaves).map FirmwareLogEntry.firmware = leaves.filterMap firmwareOf := by
  have each (l : InputLogLeaf) : ((firmwareOf l.data).map fun m => FirmwareLogEntry.mk l.seq m).map
      FirmwareLogEntry.firmware = firmwareOf l.data := by cases firmwareOf l.data <;> rfl
  have data : (indexed leaves).map InputLogLeaf.data = leaves := by
    rw [indexed, List.map_map]
    exact List.zipIdx_map_fst 0 leaves
  conv_rhs => rw [← data, List.filterMap_map]
  rw [firmwareEntries, List.map_filterMap]
  exact List.filterMap_congr fun l _ => each l

-- Sorting by the index undoes whatever order the runner has brought the group into.
theorem deviceLog_revisions (perm : fws.Perm (firmwareEntries leaves)) (deviceID : String)
    {group : List FirmwareLogEntry} (same : group.Perm (fws.filter fun e => e.firmware.deviceID = deviceID)) :
    (makeDeviceReleaseLogFn deviceID group).revisions = revisionsOf leaves deviceID := by
  have whole : group.Perm ((firmwareEntries leaves).filter fun e => e.firmware.deviceID = deviceID) :=
    same.trans (perm.filter _)
  have order := (firmwareEntries_sorted leaves).filter fun e => e.firmware.deviceID = deviceID
  have sorted : group.insertionSort (fun a b => a.index ≤ b.index) =
      (firmwareEntries leaves).filter fun e => e.firmware.deviceID = deviceID := by
    apply List.Perm.eq_of_pairwise _ (List.pairwise_insertionSort _ _) (order.imp fun less => less.le)
      ((List.perm_insertionSort _ _).trans whole)
    intro a b first second low high
    have inside : a ∈ (firmwareEntries leaves).filter fun e => e.firmware.deviceID = deviceID :=
      whole.subset ((List.perm_insertionSort _ _).subset first)
    obtain ⟨i, data, index, there, read⟩ := mem_firmwareEntries.mp (List.mem_filter.mp inside).1
    obtain ⟨j, data', index', there', read'⟩ := mem_firmwareEntries.mp (List.mem_filter.mp second).1
    obtain rfl : i = j := by omega
    obtain rfl := Option.some.inj (there.symm.trans there')
    obtain ⟨_, _⟩ := a
    obtain ⟨_, _⟩ := b
    simp_all
  rw [makeDeviceReleaseLogFn, sorted, revisionsOf, ← firmwareEntries_firmware, List.filter_map, List.map_map]
  rfl

end Stages

section Branches

variable {libs : Libraries} (treeID : Int) {r : Runner} {leaves : List Bytes} {fws : List FirmwareLogEntry}
  {ams : List AnnotationMalwareLogEntry}

theorem moduleLogHashFn_eq (lawful : Compact.Lawful libs.compact) (log : DeviceReleaseLog) :
    libs.moduleLogHashFn treeID log = .ok (libs.logEntry treeID log) := by
  let hashes := log.revisions.map fun v => libs.recordHash (littleEndian v)
  have values : ∀ i (bound : i < hashes.length), hashes.getD i [] = hashes[i] := by
    intro i bound
    simp [bound]
  have filled := lawful.appendAll (v := Merkle.nodeHash libs.nodeHash fun i => hashes.getD i [])
    (fun l i => nodeHash_parent _ _ l i) (Nat.le_refl 0) hashes
    fun j bound => by rw [Nat.zero_add]; exact values j bound
  rw [cover_self, List.map_nil, ← lawful.newEmptyRange 0, Nat.zero_add] at filled
  have root := lawful.getRootHash libs.nodeHash
    ⟨0, hashes.length, (cover 0 hashes.length).map (Merkle.nodeHash libs.nodeHash fun i => hashes.getD i [])⟩ rfl
  rw [rangeRoot_cover _ _ _ _ values] at root
  rw [Libraries.moduleLogHashFn, filled, root, hideErr, Except.mapError]
  simp only [bind, Except.bind, new_all]
  rfl

theorem aggregatedFirmwareHashFn_eq (afw : AggregatedFirmware) :
    libs.aggregatedFirmwareHashFn treeID afw = .ok (libs.summaryEntry treeID afw) := by
  have size : (libs.summaryKey afw.index).length = 32 := libs.digestSize _
  rw [Libraries.aggregatedFirmwareHashFn, new_key size]
  rfl

variable {treeID}

theorem makeReleaseLogs_ok (lawful : Compact.Lawful libs.compact) (perm : fws.Perm (firmwareEntries leaves)) :
    ∃ entries logs, libs.makeReleaseLogs treeID r fws = .ok (entries, logs) ∧
      entries.Perm (logs.map (libs.logEntry treeID)) ∧ (logs.map DeviceReleaseLog.deviceID).Nodup ∧
      ∀ log, log ∈ logs ↔ (∃ data ∈ leaves, ∃ m, firmwareOf data = some m ∧ m.deviceID = log.deviceID) ∧
        log.revisions = revisionsOf leaves log.deviceID := by
  obtain ⟨logs, made, grouped⟩ := @parDo_total _ _ GoError r
    (fun g : String × List FirmwareLogEntry => .ok (makeDeviceReleaseLogFn g.1 g.2)) _ (fun _ => rfl) "makeLogs"
    (r.groupByKey "makeLogs" (fws.map fun l => (l.firmware.deviceID, l)))
  obtain ⟨entries, hashed, listed⟩ := @parDo_total _ _ _ r _ _ (moduleLogHashFn_eq treeID lawful) "hashLogs"
    logs
  refine ⟨entries, logs, ?_, listed, ?_, ?_⟩
  · exact except_bind_eq_ok.mpr ⟨logs, made, except_bind_eq_ok.mpr ⟨entries, hashed, rfl⟩⟩
  · have keys := groupByKey_keys r "makeLogs" (fws.map fun l => (l.firmware.deviceID, l))
    refine (grouped.map _).nodup_iff.mpr ?_
    rwa [List.map_map]
  · intro log
    have device : (∃ e, (log.deviceID, e) ∈ fws.map fun l => (l.firmware.deviceID, l)) ↔
        ∃ data ∈ leaves, ∃ m, firmwareOf data = some m ∧ m.deviceID = log.deviceID := by
      constructor
      · rintro ⟨e, inside⟩
        obtain ⟨l, there, same⟩ := List.mem_map.mp inside
        obtain ⟨name, rfl⟩ := Prod.mk.inj same
        obtain ⟨i, data, -, stored, read⟩ := mem_firmwareEntries.mp (perm.subset there)
        exact ⟨data, List.mem_of_getElem? stored, _, read, name⟩
      · rintro ⟨data, inside, m, read, name⟩
        obtain ⟨i, stored⟩ := List.mem_iff_getElem?.mp inside
        refine ⟨⟨i, m⟩, List.mem_map.mpr ⟨⟨i, m⟩, perm.symm.subset ?_, by rw [name]⟩⟩
        exact mem_firmwareEntries.mpr ⟨i, data, rfl, stored, read⟩
    have revisions (deviceID : String) : (makeDeviceReleaseLogFn deviceID (r.order "makeLogs"
        (valuesOf deviceID (fws.map fun l => (l.firmware.deviceID, l))))).revisions = revisionsOf leaves deviceID := by
      apply deviceLog_revisions perm
      rw [← valuesOf_map]
      exact r.permutes _ _
    rw [grouped.mem_iff, List.mem_map, ← device]
    constructor
    · rintro ⟨⟨deviceID, group⟩, inside, rfl⟩
      obtain ⟨there, rfl⟩ := mem_groupByKey.mp inside
      exact ⟨there, revisions _⟩
    · rintro ⟨there, same⟩
      refine ⟨_, mem_groupByKey.mpr ⟨there, rfl⟩, ?_⟩
      obtain ⟨deviceID, stored⟩ := log
      obtain rfl : stored = revisionsOf leaves deviceID := same
      exact congrArg (DeviceReleaseLog.mk deviceID) (revisions deviceID)

theorem uint64_natCast {n : Nat} (small : n < 2 ^ 64) : uint64 n = n := by
  rw [uint64]
  omega

theorem foldl_good (ams : List AnnotationMalwareLogEntry) (good : Bool) :
    ams.foldl (fun good am => good && am.annotation.good) good = true ↔
      good = true ∧ ∀ am ∈ ams, am.annotation.good = true := by
  induction ams generalizing good with
  | nil => simp
  | cons am ams ih => simp [ih, and_assoc]

theorem mem_groups (small : leaves.length ≤ 2 ^ 63) (reads : Reads r leaves fws ams) {k : Nat}
    {fs : List FirmwareLogEntry} {as : List AnnotationMalwareLogEntry} (inside : (k, fs, as) ∈ groups r fws ams) :
    (fs ≠ [] ↔ FirmwareAt leaves k) ∧
      ((∀ am ∈ as, am.annotation.good = true) ↔ ¬ Condemned leaves k) := by
  obtain ⟨-, rfl, rfl⟩ := mem_coGroupByKey.mp inside
  constructor
  · have some' : ∀ {xs : List FirmwareLogEntry}, xs ≠ [] ↔ ∃ x, x ∈ xs :=
      ⟨List.exists_mem_of_ne_nil _, fun there => there.elim fun _ inside => List.ne_nil_of_mem inside⟩
    simp only [some', (r.permutes _ _).mem_iff, mem_valuesOf, List.mem_map, reads.firmware.mem_iff]
    constructor
    · rintro ⟨e, l, member, same⟩
      obtain ⟨key, rfl⟩ := Prod.mk.inj same
      obtain ⟨i, data, index, there, read⟩ := mem_firmwareEntries.mp member
      have bound := (List.getElem?_eq_some_iff.mp there).1
      rw [index, uint64_natCast (by omega)] at key
      exact ⟨data, _, key ▸ there, read⟩
    · rintro ⟨data, m, there, read⟩
      have bound := (List.getElem?_eq_some_iff.mp there).1
      refine ⟨⟨k, m⟩, ⟨k, m⟩, mem_firmwareEntries.mpr ⟨k, data, rfl, there, read⟩, ?_⟩
      rw [uint64_natCast (by omega)]
  · simp only [(r.permutes _ _).mem_iff, mem_valuesOf, List.mem_map, reads.annotations.mem_iff]
    constructor
    · rintro good ⟨data, member, a, read, names, bad⟩
      obtain ⟨i, there⟩ := List.mem_iff_getElem?.mp member
      have all := good ⟨i, a⟩ ⟨⟨i, a⟩, mem_annotationEntries.mpr ⟨i, data, rfl, there, read⟩, by rw [names]⟩
      rw [bad] at all
      cases all
    · rintro fine am ⟨a, member, same⟩
      obtain ⟨names, rfl⟩ := Prod.mk.inj same
      obtain ⟨i, data, -, there, read⟩ := mem_annotationEntries.mp member
      by_contra bad
      exact fine ⟨data, List.mem_of_getElem? there, _, read, names, by simpa using bad⟩

-- There is a group for each firmware, and for each index that an annotation names.
theorem exists_group (small : leaves.length ≤ 2 ^ 63) (reads : Reads r leaves fws ams) {k : Nat} :
    (∃ fs as, (k, fs, as) ∈ groups r fws ams) ↔
      FirmwareAt leaves k ∨ ∃ data ∈ leaves, ∃ a, annotationOf data = some a ∧ a.firmwareID.logIndex = k := by
  have keyed : (∃ fs as, (k, fs, as) ∈ groups r fws ams) ↔
      (∃ e ∈ fws, uint64 e.index = k) ∨ ∃ a ∈ ams, a.annotation.firmwareID.logIndex = k := by
    simp only [groups, mem_coGroupByKey, List.mem_map, Prod.mk.injEq]
    constructor
    · rintro ⟨-, -, ⟨-, e, inside, key, -⟩ | ⟨-, a, inside, key, -⟩, -⟩
      · exact .inl ⟨e, inside, key⟩
      · exact .inr ⟨a, inside, key⟩
    · rintro (⟨e, inside, key⟩ | ⟨a, inside, key⟩)
      · exact ⟨_, _, .inl ⟨e, e, inside, key, rfl⟩, rfl, rfl⟩
      · exact ⟨_, _, .inr ⟨a, a, inside, key, rfl⟩, rfl, rfl⟩
  rw [keyed]
  refine or_congr ?_ ?_
  · simp only [reads.firmware.mem_iff, mem_firmwareEntries]
    constructor
    · rintro ⟨e, ⟨i, data, index, there, read⟩, key⟩
      have bound := (List.getElem?_eq_some_iff.mp there).1
      rw [index, uint64_natCast (by omega)] at key
      exact ⟨data, _, key ▸ there, read⟩
    · rintro ⟨data, m, there, read⟩
      have bound := (List.getElem?_eq_some_iff.mp there).1
      exact ⟨⟨k, m⟩, ⟨k, data, rfl, there, read⟩, uint64_natCast (by omega)⟩
  · simp only [reads.annotations.mem_iff, mem_annotationEntries]
    constructor
    · rintro ⟨e, ⟨i, data, -, there, read⟩, names⟩
      exact ⟨data, List.mem_of_getElem? there, _, read, names⟩
    · rintro ⟨data, inside, a, read, names⟩
      obtain ⟨i, there⟩ := List.mem_iff_getElem?.mp inside
      exact ⟨⟨i, a⟩, ⟨i, data, rfl, there, read⟩, names⟩

theorem aggregationFn_eq_ok {k : Nat} {fs : List FirmwareLogEntry} {as : List AnnotationMalwareLogEntry}
    {afw : AggregatedFirmware} : aggregationFn k fs as = .ok afw ↔
      fs ≠ [] ∧ afw.index = k ∧ (afw.good = true ↔ ∀ am ∈ as, am.annotation.good = true) := by
  cases fs with
  | nil => simp [aggregationFn]
  | cons f fs =>
    have good := foldl_good as true
    obtain ⟨index, value⟩ := afw
    simp only [aggregationFn, Except.ok.injEq, AggregatedFirmware.mk.injEq]
    constructor
    · rintro ⟨rfl, rfl⟩
      simpa using good
    · rintro ⟨-, rfl, same⟩
      exact ⟨rfl, Bool.eq_iff_iff.mpr (good.trans (by simpa using same.symm))⟩

/-- Aggregate succeeds where each annotation names a firmware of the log. -/
theorem aggregate_ok_iff (small : leaves.length ≤ 2 ^ 63) (reads : Reads r leaves fws ams) :
    (∃ out, libs.aggregate treeID r fws ams = .ok out) ↔
      ∀ data ∈ leaves, ∀ a, annotationOf data = some a → FirmwareAt leaves a.firmwareID.logIndex := by
  have ends : (∃ out, libs.aggregate treeID r fws ams = .ok out) ↔
      ∃ aggregated, r.parDo "aggregate" (fun g => aggregationFn g.1 g.2.1 g.2.2) (groups r fws ams) =
        .ok aggregated := by
    constructor
    · rintro ⟨out, ran⟩
      obtain ⟨aggregated, first, -⟩ := except_bind_eq_ok.mp ran
      exact ⟨aggregated, first⟩
    · rintro ⟨aggregated, first⟩
      obtain ⟨entries, second, -⟩ := @parDo_total _ _ GoError r _ _ (aggregatedFirmwareHashFn_eq treeID)
        "hashAggregations" aggregated
      exact ⟨_, except_bind_eq_ok.mpr ⟨aggregated, first, except_bind_eq_ok.mpr ⟨entries, second, rfl⟩⟩⟩
  rw [ends, parDo_ok_iff]
  constructor
  · intro each data inside a read
    obtain ⟨fs, as, group⟩ := (exists_group small reads).mpr (.inr ⟨data, inside, a, read, rfl⟩)
    obtain ⟨afw, aggregated⟩ := each _ group
    exact (mem_groups small reads group).1.mp (aggregationFn_eq_ok.mp aggregated).1
  · rintro annotated ⟨k, fs, as⟩ group
    have firmware : FirmwareAt leaves k := by
      rcases (exists_group small reads).mp ⟨fs, as, group⟩ with there | ⟨data, inside, a, read, rfl⟩
      · exact there
      · exact annotated data inside a read
    obtain ⟨f, rest, rfl⟩ := List.exists_cons_of_ne_nil ((mem_groups small reads group).1.mpr firmware)
    exact ⟨_, rfl⟩

theorem aggregate_maps (small : leaves.length ≤ 2 ^ 63) (reads : Reads r leaves fws ams) {entries : List Entry}
    {aggregated : List AggregatedFirmware} (ran : libs.aggregate treeID r fws ams = .ok (entries, aggregated)) :
    entries.Perm (aggregated.map (libs.summaryEntry treeID)) ∧ (aggregated.map AggregatedFirmware.index).Nodup ∧
      ∀ afw, afw ∈ aggregated ↔ FirmwareAt leaves afw.index ∧ (afw.good = true ↔ ¬ Condemned leaves afw.index) := by
  obtain ⟨found, first, ran⟩ := except_bind_eq_ok.mp ran
  obtain ⟨hashed, second, same⟩ := except_bind_eq_ok.mp ran
  obtain ⟨rfl, rfl⟩ := Prod.mk.inj (Except.ok.inj same)
  refine ⟨?_, ?_, fun afw => ?_⟩
  · have perm := parDo_map second (g := id) (k := libs.summaryEntry treeID) (by
      intro afw entry hashed
      rw [aggregatedFirmwareHashFn_eq] at hashed
      exact (Except.ok.inj hashed).symm)
    rwa [List.map_id] at perm
  · have indices := parDo_map first (g := AggregatedFirmware.index) (k := Prod.fst) fun g afw made =>
      (aggregationFn_eq_ok.mp made).2.1
    exact indices.nodup_iff.mpr (coGroupByKey_keys r "aggregate" _ _)
  · rw [mem_parDo first]
    constructor
    · rintro ⟨⟨k, fs, as⟩, inside, made⟩
      have grouped := mem_groups small reads inside
      obtain ⟨some', rfl, good⟩ := aggregationFn_eq_ok.mp made
      exact ⟨grouped.1.mp some', good.trans grouped.2⟩
    · rintro ⟨firmware, good⟩
      obtain ⟨fs, as, group⟩ := (exists_group small reads).mpr (.inl firmware)
      have grouped := mem_groups small reads group
      exact ⟨_, group, aggregationFn_eq_ok.mpr ⟨grouped.1.mpr firmware, rfl, good.trans grouped.2.symm⟩⟩

end Branches

section Map

variable {libs : Libraries} {treeID : Int} {r : Runner} {leaves : List Bytes}

/-- The stages succeed exactly on the leaves that a map can be built from, and give what the map holds. -/
theorem build_ok_iff (lawful : Compact.Lawful libs.compact) (small : leaves.length ≤ 2 ^ 63) :
    (∃ out, libs.build treeID r (indexed leaves) = .ok out) ↔ Mappable leaves := by
  constructor
  · rintro ⟨out, built⟩
    obtain ⟨statements, read, built⟩ := except_bind_eq_ok.mp built
    obtain ⟨fws, firmware, built⟩ := except_bind_eq_ok.mp built
    obtain ⟨ams, annotations, built⟩ := except_bind_eq_ok.mp built
    obtain ⟨⟨_, _⟩, -, built⟩ := except_bind_eq_ok.mp built
    obtain ⟨out, aggregated, -⟩ := except_bind_eq_ok.mp built
    have reads : Reads r leaves fws ams := ⟨statements, read, firmware, annotations⟩
    exact ⟨reads_iff.mp ⟨fws, ams, reads⟩, (aggregate_ok_iff small reads).mp ⟨out, aggregated⟩⟩
  · rintro ⟨readable, annotated⟩
    obtain ⟨fws, ams, reads⟩ := (@reads_iff r _).mpr readable
    obtain ⟨entries, logs, made, -⟩ := @makeReleaseLogs_ok libs treeID r _ _ lawful reads.firmware
    obtain ⟨out, aggregated⟩ := (@aggregate_ok_iff libs treeID r _ _ _ small reads).mpr annotated
    obtain ⟨statements, read, firmware, annotations⟩ := reads
    exact ⟨_, except_bind_eq_ok.mpr ⟨statements, read, except_bind_eq_ok.mpr ⟨fws, firmware,
      except_bind_eq_ok.mpr ⟨ams, annotations, except_bind_eq_ok.mpr ⟨_, made,
        except_bind_eq_ok.mpr ⟨out, aggregated, rfl⟩⟩⟩⟩⟩⟩

theorem build_maps (lawful : Compact.Lawful libs.compact) (small : leaves.length ≤ 2 ^ 63) {entries : List Entry}
    {logs : List DeviceReleaseLog} {aggregated : List AggregatedFirmware}
    (built : libs.build treeID r (indexed leaves) = .ok (entries, logs, aggregated)) :
    Maps leaves libs treeID entries logs aggregated := by
  obtain ⟨statements, read, built⟩ := except_bind_eq_ok.mp built
  obtain ⟨fws, firmware, built⟩ := except_bind_eq_ok.mp built
  obtain ⟨ams, annotations, built⟩ := except_bind_eq_ok.mp built
  obtain ⟨⟨logEntries, found⟩, made, built⟩ := except_bind_eq_ok.mp built
  obtain ⟨⟨annotationEntries, summed⟩, ran, same⟩ := except_bind_eq_ok.mp built
  obtain ⟨rfl, rest⟩ := Prod.mk.inj (Except.ok.inj same)
  obtain ⟨rfl, rfl⟩ := Prod.mk.inj rest
  have reads : Reads r leaves fws ams := ⟨statements, read, firmware, annotations⟩
  obtain ⟨es, ls, again, listed, distinct, devices⟩ := @makeReleaseLogs_ok libs treeID r _ _ lawful reads.firmware
  obtain ⟨rfl, rfl⟩ := Prod.mk.inj (Except.ok.inj (made.symm.trans again))
  obtain ⟨hashed, once, summaries⟩ := aggregate_maps small reads ran
  exact ⟨summaries, once, devices, distinct, listed.append hashed⟩

theorem entries_indexed (log : InputLog) (stop : Int) :
    log.entries 0 stop = indexed (log.leaves.take stop.toNat) := by
  have shifted (xs : List Bytes) (n : Nat) :
      ((xs.zipIdx n).map fun (data, i) => InputLogLeaf.mk i data).filter (fun l => 0 ≤ l.seq ∧ l.seq < stop) =
        ((xs.take (stop.toNat - n)).zipIdx n).map fun (data, i) => ⟨i, data⟩ := by
    induction xs generalizing n with
    | nil => simp
    | cons x xs ih =>
      have later := ih (n + 1)
      rw [List.zipIdx_cons, List.map_cons, List.filter_cons, later]
      by_cases inside : (n : Int) < stop
      · obtain ⟨k, rest⟩ : ∃ k, stop.toNat - n = k + 1 := ⟨stop.toNat - n - 1, by omega⟩
        have rest' : stop.toNat - (n + 1) = k := by omega
        rw [if_pos (by simpa using inside), rest, rest', List.take_succ_cons, List.zipIdx_cons, List.map_cons]
      · have none : stop.toNat - n = 0 := by omega
        have none' : stop.toNat - (n + 1) = 0 := by omega
        rw [if_neg (by simpa using inside), none, none', List.take_zero, List.take_zero, List.zipIdx_nil,
          List.zipIdx_nil]
  exact shifted log.leaves 0

theorem getLogEnd_bounds {head : CtMap.Head} {size n : Int} {golden : Bytes}
    (found : CtMap.getLogEnd head size = .ok (n, golden)) : 0 ≤ n ∧ n < 2 ^ 63 := by
  cases head with
  | error reason => cases found
  | ok answer =>
    obtain ⟨checkpoint, count, small⟩ := answer
    simp only [CtMap.getLogEnd] at found
    split at found
    · obtain ⟨rfl, -⟩ := Prod.mk.inj (Except.ok.inj found)
      omega
    · split at found
      · cases found
      · obtain ⟨rfl, -⟩ := Prod.mk.inj (Except.ok.inj found)
        omega

-- What a map holds is settled by the leaves.
theorem Maps.perm {entries entries' : List Entry} {logs logs' : List DeviceReleaseLog}
    {aggregated aggregated' : List AggregatedFirmware} (maps : Maps leaves libs treeID entries logs aggregated)
    (maps' : Maps leaves libs treeID entries' logs' aggregated') : entries.Perm entries' := by
  have same : logs.Perm logs' := (List.perm_ext_iff_of_nodup maps.listed.of_map maps'.listed.of_map).mpr fun log =>
    (maps.devices log).trans (maps'.devices log).symm
  have same' : aggregated.Perm aggregated' :=
    (List.perm_ext_iff_of_nodup maps.summarised.of_map maps'.summarised.of_map).mpr fun afw =>
      (maps.summaries afw).trans (maps'.summaries afw).symm
  exact maps.entries.trans (((same.map _).append (same'.map _)).trans maps'.entries.symm)

theorem toOption_eq_some {A : Type} {x : Except GoError A} {a : A} : x.toOption = some a ↔ x = .ok a := by
  cases x <;> simp [Except.toOption]

theorem created_small {log : InputLog} {size n : Int} {golden : Bytes}
    (found : CtMap.getLogEnd log.head size = .ok (n, golden)) : (log.leaves.take n.toNat).length ≤ 2 ^ 63 := by
  have bounds := getLogEnd_bounds found
  rw [List.length_take]
  omega

end Map

end Pipeline

end Firmware
