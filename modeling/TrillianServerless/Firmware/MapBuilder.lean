import TrillianServerless.Firmware.MapPipeline

set_option autoImplicit false

namespace Firmware

namespace Pipeline

open Go Smt Sparse Beam

section Keys

-- What is hashed to the key of a firmware's summary.
def summaryName (i : Nat) : Bytes := Checkpoints.asciiBytes "summary:" ++ formatUint 10 i

variable (leaves : List Bytes)

/-- A device has firmware in the log under a name with these bytes. -/
def Device (name : Bytes) : Prop :=
  ∃ data ∈ leaves, ∃ m, firmwareOf data = some m ∧ Json.bytesOf m.deviceID.toList = name

/-- SHA-512/256 hashes no other message like one that is hashed to a key of the map. -/
def Libraries.Apart (libs : Libraries) : Prop :=
  ∀ name, Device leaves name ∨ (∃ i, FirmwareAt leaves i ∧ name = summaryName i) →
    ∀ other, libs.sha512_256 other = libs.sha512_256 name → other = name

variable {leaves} {libs : Libraries} {treeID : Int} {entries : List Entry} {logs : List DeviceReleaseLog}
  {aggregated : List AggregatedFirmware}

theorem bytesOf_injective {s t : String} (same : Json.bytesOf s.toList = Json.bytesOf t.toList) : s = t := by
  have encoded (u : String) : u.toByteArray = (Json.bytesOf u.toList).toByteArray := by
    conv_lhs => rw [← String.ofList_toList (s := u)]
    rw [String.toByteArray_ofList]
    rfl
  rw [← String.toByteArray_inj, encoded, encoded, same]

theorem summaryName_injective {i j : Nat} (same : summaryName i = summaryName j) : i = j := by
  have digits : formatUint 10 i = formatUint 10 j := List.append_cancel_left same
  have below : i < 2 ^ (i + j) ∧ j < 2 ^ (i + j) := by
    have first := Nat.lt_two_pow_self (n := i)
    have second := Nat.lt_two_pow_self (n := j)
    have grows := Nat.pow_le_pow_right (by decide : 0 < 2) (Nat.le_add_right i j)
    have grows' := Nat.pow_le_pow_right (by decide : 0 < 2) (Nat.le_add_left j i)
    omega
  have read := parseUint_formatUint 10 (by decide) (by decide) below.1
  rw [digits, parseUint_formatUint 10 (by decide) (by decide) below.2] at read
  exact (Option.some.inj read).symm

theorem Maps.device (maps : Maps leaves libs treeID entries logs aggregated) {log : DeviceReleaseLog}
    (inside : log ∈ logs) : Device leaves (Json.bytesOf log.deviceID.toList) := by
  obtain ⟨⟨data, there, m, read, name⟩, -⟩ := (maps.devices log).mp inside
  exact ⟨data, there, m, read, by rw [name]⟩

theorem Maps.log (maps : Maps leaves libs treeID entries logs aggregated) {name : Bytes} (device : Device leaves name) :
    ∃ log ∈ logs, Json.bytesOf log.deviceID.toList = name := by
  obtain ⟨data, there, m, read, rfl⟩ := device
  exact ⟨⟨m.deviceID, revisionsOf leaves m.deviceID⟩, (maps.devices _).mpr ⟨⟨data, there, m, read, rfl⟩, rfl⟩, rfl⟩

theorem Maps.summary (maps : Maps leaves libs treeID entries logs aggregated) {i : Nat} (firmware : FirmwareAt leaves i) :
    ∃ afw ∈ aggregated, afw.index = i ∧ (afw.good = true ↔ ¬ Condemned leaves i) := by
  by_cases bad : Condemned leaves i
  · exact ⟨⟨i, false⟩, (maps.summaries _).mpr ⟨firmware, by simp [bad]⟩, rfl, by simp [bad]⟩
  · exact ⟨⟨i, true⟩, (maps.summaries _).mpr ⟨firmware, by simp [bad]⟩, rfl, by simp [bad]⟩

/-- The entries have keys of their own, which batchmap.Create wants, as long as no device has the name that is hashed
for some firmware's summary. -/
theorem Maps.keys_nodup_iff (maps : Maps leaves libs treeID entries logs aggregated) (apart : libs.Apart leaves) :
    (entries.map Entry.hashKey).Nodup ↔ ∀ i, FirmwareAt leaves i → ¬ Device leaves (summaryName i) := by
  have keys : (entries.map Entry.hashKey).Perm (logs.map (fun l => libs.deviceKey l.deviceID) ++
      aggregated.map fun afw => libs.summaryKey afw.index) := by
    have mapped := maps.entries.map Entry.hashKey
    rwa [List.map_append, List.map_map, List.map_map] at mapped
  have devices : (logs.map fun l => libs.deviceKey l.deviceID).Nodup := by
    have named := maps.listed
    rw [List.nodup_map_iff_inj_on maps.listed.of_map] at named ⊢
    intro l inside l' inside' same
    have bytes := apart _ (.inl (maps.device inside')) _ same
    exact named l inside l' inside' (bytesOf_injective bytes)
  have summaries : (aggregated.map fun afw => libs.summaryKey afw.index).Nodup := by
    have indexed := maps.summarised
    rw [List.nodup_map_iff_inj_on maps.summarised.of_map] at indexed ⊢
    intro afw inside afw' inside' same
    have names := apart _ (.inr ⟨_, ((maps.summaries afw').mp inside').1, rfl⟩) _ same
    exact indexed afw inside afw' inside' (summaryName_injective names)
  rw [keys.nodup_iff, List.nodup_append]
  constructor
  · rintro ⟨-, -, disjoint⟩ i firmware device
    obtain ⟨log, listed, name⟩ := maps.log device
    obtain ⟨afw, summed, rfl, -⟩ := maps.summary firmware
    refine disjoint _ (List.mem_map_of_mem listed) _ (List.mem_map_of_mem summed) ?_
    rw [Libraries.deviceKey, name]
    rfl
  · intro unnamed
    refine ⟨devices, summaries, ?_⟩
    intro key inside key' inside' same
    obtain ⟨log, listed, rfl⟩ := List.mem_map.mp inside
    obtain ⟨afw, summed, rfl⟩ := List.mem_map.mp inside'
    have firmware := ((maps.summaries afw).mp summed).1
    have device := maps.device listed
    rw [apart _ (.inr ⟨_, firmware, rfl⟩) _ same] at device
    exact unnamed _ firmware device

end Keys

section Content

variable (libs : Libraries) (logs : List DeviceReleaseLog) (aggregated : List AggregatedFirmware)

-- What the map commits to, and the hashes that stand for it at the leaves.
def Libraries.preimages : List (Bytes × Bytes) :=
  (logs.map fun l => (libs.deviceKey l.deviceID, libs.logRootOf l.revisions)) ++
    aggregated.map fun afw => (libs.summaryKey afw.index, marshalAggregation afw)

def Libraries.values : ID → Option Bytes :=
  given ((libs.preimages logs aggregated).map fun p => ⟨bitsOf p.1, p.2⟩)

def contentOf (entries : List Entry) : ID → Option Bytes := given (entries.map fun e => ⟨bitsOf e.hashKey, e.hashValue⟩)

variable {libs logs aggregated} {leaves : List Bytes} {entries : List Entry}

theorem Maps.hashed {treeID : Int} (maps : Maps leaves libs treeID entries logs aggregated) :
    entries.Perm ((libs.preimages logs aggregated).map fun p => ⟨p.1, libs.hasher.hashLeaf treeID (bitsOf p.1) p.2⟩) := by
  rw [Libraries.preimages, List.map_append, List.map_map, List.map_map]
  exact maps.entries

theorem Maps.preimages_nodup {treeID : Int} (maps : Maps leaves libs treeID entries logs aggregated)
    (distinct : (entries.map Entry.hashKey).Nodup) :
    (((libs.preimages logs aggregated).map fun p => Node.mk (bitsOf p.1) p.2).map Node.id).Nodup := by
  have bits := distinct.map (f := bitsOf) fun _ _ same => bitsOf_injective same
  have perm := maps.hashed.map fun e => bitsOf e.hashKey
  rw [List.map_map] at perm bits ⊢
  exact perm.nodup_iff.mp bits

theorem contentOf_eq (maps : Maps leaves libs mapTreeID entries logs aggregated)
    (distinct : (entries.map Entry.hashKey).Nodup) :
    contentOf entries = libs.hasher.leafHashes mapTreeID (libs.values logs aggregated) := by
  have nodes : ((entries.map fun e => Node.mk (bitsOf e.hashKey) e.hashValue).map Node.id).Nodup := by
    have bits := distinct.map (f := bitsOf) fun _ _ same => bitsOf_injective same
    rwa [List.map_map] at bits ⊢
  have keys := maps.preimages_nodup distinct
  funext id
  apply Option.ext
  intro hash
  rw [contentOf, given_eq_some nodes, Hasher.leafHashes, Option.map_eq_some_iff]
  simp only [Libraries.values, given_eq_some keys, List.mem_map, maps.hashed.mem_iff, Node.mk.injEq]
  constructor
  · rintro ⟨e, ⟨p, inside, rfl⟩, rfl, rfl⟩
    exact ⟨p.2, ⟨p, inside, rfl, rfl⟩, rfl⟩
  · rintro ⟨value, ⟨p, inside, rfl, rfl⟩, rfl⟩
    exact ⟨_, ⟨p, inside, rfl⟩, rfl, rfl⟩

end Content

section Create

variable (libs : Libraries)

/-- The tiles of a map in a root tile over one byte and the leaf tiles below it. -/
structure TilesOf (entries : List Entry) (tiles : List MapTile) : Prop where
  root : ∃ t ∈ tiles, t.IsTile libs.toMapLibraries (contentOf entries) [] 1
  leaves : ∀ key : Bytes, key.length = 32 → (contentOf entries (bitsOf key)).isSome →
    ∃ t ∈ tiles, t.IsTile libs.toMapLibraries (contentOf entries) (key.take 1) 31

/-- batchmap.Create for one prefix stratum: it wants a key of its own for each entry, and makes the tiles of the map. -/
structure Libraries.CreatesTiles : Prop where
  unique : ∀ treeID entries, (∀ e ∈ entries, e.hashKey.length = 32) →
    ((∃ tiles, libs.batchmapCreate treeID entries = .ok tiles) ↔ (entries.map Entry.hashKey).Nodup)
  tiles : ∀ entries tiles, entries ≠ [] → libs.batchmapCreate mapTreeID entries = .ok tiles → TilesOf libs entries tiles

/-- No device has the name that is hashed for the summary of some firmware. -/
def Unnamed (leaves : List Bytes) : Prop := ∀ i, FirmwareAt leaves i → ¬ Device leaves (summaryName i)

variable {libs} {treeID : Int} {r : Runner} {leaves : List Bytes}

theorem Maps.keys_length {entries : List Entry} {logs : List DeviceReleaseLog} {aggregated : List AggregatedFirmware}
    (maps : Maps leaves libs treeID entries logs aggregated) : ∀ e ∈ entries, e.hashKey.length = 32 := by
  intro e inside
  obtain ⟨p, there, rfl⟩ := List.mem_map.mp (maps.hashed.subset inside)
  rcases List.mem_append.mp there with device | summary
  · obtain ⟨log, -, rfl⟩ := List.mem_map.mp device
    exact libs.digestSize _
  · obtain ⟨afw, -, rfl⟩ := List.mem_map.mp summary
    exact libs.digestSize _

-- What a run of Create that succeeds has done.
theorem create_eq_ok {log : InputLog} {size : Int} {out : Result} :
    libs.create treeID r log size = .ok out ↔ CtMap.getLogEnd log.head size = .ok (out.entries, out.checkpoint) ∧
      libs.build treeID r (indexed (log.leaves.take out.entries.toNat)) =
        .ok (out.mapEntries, out.deviceLogs, out.aggregatedFirmware) ∧
      libs.batchmapCreate treeID out.mapEntries = .ok out.mapTiles := by
  constructor
  · intro made
    obtain ⟨⟨n, golden⟩, found, made⟩ := except_bind_eq_ok.mp made
    obtain ⟨⟨entries, logs, aggregated⟩, built, made⟩ := except_bind_eq_ok.mp made
    obtain ⟨tiles, tiled, made⟩ := except_bind_eq_ok.mp made
    obtain rfl := Except.ok.inj made
    rw [entries_indexed] at built
    exact ⟨found, built, tiled⟩
  · rintro ⟨found, built, tiled⟩
    rw [← entries_indexed] at built
    exact except_bind_eq_ok.mpr ⟨_, found, except_bind_eq_ok.mpr ⟨_, built, except_bind_eq_ok.mpr ⟨_, tiled, rfl⟩⟩⟩

theorem created_maps (lawful : Compact.Lawful libs.compact) {log : InputLog} {size : Int} {out : Result}
    (made : libs.create treeID r log size = .ok out) :
    CtMap.getLogEnd log.head size = .ok (out.entries, out.checkpoint) ∧
      Maps (log.leaves.take out.entries.toNat) libs treeID out.mapEntries out.deviceLogs out.aggregatedFirmware := by
  obtain ⟨found, built, -⟩ := create_eq_ok.mp made
  exact ⟨found, build_maps lawful (created_small found) built⟩

theorem created_distinct (lawful : Compact.Lawful libs.compact) (creates : libs.CreatesTiles) {log : InputLog}
    {size : Int} {out : Result} (made : libs.create treeID r log size = .ok out) :
    (out.mapEntries.map Entry.hashKey).Nodup :=
  (creates.unique treeID _ (created_maps lawful made).2.keys_length).mp ⟨_, (create_eq_ok.mp made).2.2⟩

theorem create_ok_iff (lawful : Compact.Lawful libs.compact) (creates : libs.CreatesTiles) {log : InputLog} {size : Int}
    (apart : ∀ n golden, CtMap.getLogEnd log.head size = .ok (n, golden) → libs.Apart (log.leaves.take n.toNat)) :
    (∃ out, libs.create treeID r log size = .ok out) ↔
      ∃ n golden, CtMap.getLogEnd log.head size = .ok (n, golden) ∧ Mappable (log.leaves.take n.toNat) ∧
        Unnamed (log.leaves.take n.toNat) := by
  constructor
  · rintro ⟨out, made⟩
    obtain ⟨found, maps⟩ := created_maps lawful made
    have distinct := created_distinct lawful creates made
    exact ⟨_, _, found, (build_ok_iff lawful (created_small found)).mp ⟨_, (create_eq_ok.mp made).2.1⟩,
      (maps.keys_nodup_iff (apart _ _ found)).mp distinct⟩
  · rintro ⟨n, golden, found, mappable, unnamed⟩
    obtain ⟨⟨entries, logs, aggregated⟩, built⟩ :=
      (@build_ok_iff libs treeID r _ lawful (created_small found)).mpr mappable
    have maps := build_maps lawful (created_small found) built
    have distinct := (maps.keys_nodup_iff (apart _ _ found)).mpr unnamed
    obtain ⟨tiles, tiled⟩ := (creates.unique treeID entries maps.keys_length).mpr distinct
    exact ⟨⟨entries, tiles, logs, aggregated, golden, n⟩, create_eq_ok.mpr ⟨found, built, tiled⟩⟩

/-- Whatever order the runner brings the elements into, a map is built exactly from the logs that allow one, it holds
what the log says, and it is the same map. -/
theorem create_maps (libs : Libraries) (lawful : Compact.Lawful libs.compact) (creates : libs.CreatesTiles)
    (treeID : Int) (log : InputLog) (size : Int) :
    ((∀ n golden, CtMap.getLogEnd log.head size = .ok (n, golden) → libs.Apart (log.leaves.take n.toNat)) →
      ∀ r, (∃ out, libs.create treeID r log size = .ok out) ↔
        ∃ n golden, CtMap.getLogEnd log.head size = .ok (n, golden) ∧ Mappable (log.leaves.take n.toNat) ∧
          Unnamed (log.leaves.take n.toNat)) ∧
    (∀ r out, libs.create treeID r log size = .ok out →
      CtMap.getLogEnd log.head size = .ok (out.entries, out.checkpoint) ∧
        Maps (log.leaves.take out.entries.toNat) libs treeID out.mapEntries out.deviceLogs out.aggregatedFirmware) ∧
    ∀ r r' out out', libs.create treeID r log size = .ok out → libs.create treeID r' log size = .ok out' →
      out.mapEntries.Perm out'.mapEntries := by
  refine ⟨fun apart r => create_ok_iff lawful creates apart, fun r out made => created_maps lawful made,
    fun r r' out out' made made' => ?_⟩
  obtain ⟨found, maps⟩ := created_maps lawful made
  obtain ⟨found', maps'⟩ := created_maps lawful made'
  obtain ⟨same, -⟩ := Prod.mk.inj (Except.ok.inj (found.symm.trans found'))
  rw [← same] at maps'
  exact maps.perm maps'

/-- The entries that are handed to batchmap.Create have keys of their own as long as no device has the name that is
hashed for the summary of some firmware. -/
theorem create_keys_distinct_iff (libs : Libraries) (lawful : Compact.Lawful libs.compact) (treeID : Int)
    (log : InputLog) (size n : Int) (golden : Bytes) (found : CtMap.getLogEnd log.head size = .ok (n, golden))
    (r : Runner) (entries : List Entry) (logs : List DeviceReleaseLog) (aggregated : List AggregatedFirmware)
    (built : libs.build treeID r (log.entries 0 n) = .ok (entries, logs, aggregated))
    (apart : libs.Apart (log.leaves.take n.toNat)) :
    (entries.map Entry.hashKey).Nodup ↔ ∀ i, FirmwareAt (log.leaves.take n.toNat) i →
      ¬ Device (log.leaves.take n.toNat) (summaryName i) := by
  rw [entries_indexed] at built
  exact (build_maps lawful (created_small found) built).keys_nodup_iff apart

end Create

section Reference

variable (libs : MapLibraries)

-- The tiles of a map, for entries with keys of their own.
def referenceTiles (entries : List Entry) : Except GoError (List MapTile) :=
  if (∀ e ∈ entries, e.hashKey.length = 32) ∧ (entries.map Entry.hashKey).Nodup then
    .ok (libs.tilesOf (entries.map Entry.hashKey) (contentOf entries))
  else .error (.text "duplicate ID: %v")

variable {libs} {entries : List Entry}

theorem contentOf_isSome (id : ID) :
    (contentOf entries id).isSome ↔ ∃ k ∈ entries.map Entry.hashKey, bitsOf k = id := by
  simp [contentOf, given_isSome]

theorem referenceTiles_creates {libs : Libraries} (reference : libs.batchmapCreate = fun _ =>
    referenceTiles libs.toMapLibraries) : libs.CreatesTiles where
  unique treeID entries sizes := by
    simp only [reference, referenceTiles]
    by_cases distinct : (entries.map Entry.hashKey).Nodup
    · rw [if_pos ⟨sizes, distinct⟩]
      exact iff_of_true ⟨_, rfl⟩ distinct
    · rw [if_neg fun both => distinct both.2]
      refine iff_of_false ?_ distinct
      rintro ⟨tiles, made⟩
      cases made
  tiles entries tiles some' made := by
    simp only [reference, referenceTiles] at made
    split at made
    next good =>
      have sizes : ∀ k ∈ entries.map Entry.hashKey, k.length = 32 := by simpa using good.1
      obtain rfl := Except.ok.inj made
      exact ⟨tilesOf_root contentOf_isSome sizes, fun key _ there => tilesOf_leaves contentOf_isSome sizes there⟩
    next => cases made

end Reference

section Sample

-- A firmware, an annotation that says it is bad, and a later firmware.
def sampleFirmware : Bytes := Checkpoints.asciiBytes "\x7b\"Type\":102,\"Statement\":\"e30=\"\x7d"

def sampleVerdict : Bytes := Checkpoints.asciiBytes "\x7b\"FirmwareID\":\x7b\"LogIndex\":0\x7d,\"Good\":false\x7d"

def condemningLeaf : Bytes := Personality.marshalStatement ⟨malwareStatementType, sampleVerdict, []⟩

def laterRevision : Bytes := Checkpoints.asciiBytes "\x7b\"FirmwareRevision\":1\x7d"

def laterFirmware : Bytes := Personality.marshalStatement ⟨firmwareMetadataType, laterRevision, []⟩

def sampleLeaves : List Bytes := [sampleFirmware, condemningLeaf, laterFirmware]

theorem sample_states : firmwareOf sampleFirmware = some ⟨⟨[], []⟩, "", 0, ""⟩ ∧ firmwareOf condemningLeaf = none ∧
    firmwareOf laterFirmware = some ⟨⟨[], []⟩, "", 1, ""⟩ ∧ annotationOf sampleFirmware = none ∧
    annotationOf condemningLeaf = some ⟨⟨0, []⟩, false⟩ ∧ annotationOf laterFirmware = none := by decide +kernel

theorem sampleLeaves_mappable : Mappable sampleLeaves := by
  have firmware : unmarshalStatement sampleFirmware = .ok ⟨102, [123, 125], []⟩ :=
    toOption_eq_some.mp (by decide +kernel)
  have manifest : Personality.unmarshalManifest [123, 125] = .ok ⟨⟨[], []⟩, "", 0, ""⟩ :=
    toOption_eq_some.mp (by decide +kernel)
  have annotation : unmarshalStatement condemningLeaf = .ok ⟨malwareStatementType, sampleVerdict, []⟩ :=
    toOption_eq_some.mp (by decide +kernel)
  have verdict : unmarshalMalware sampleVerdict = .ok ⟨⟨0, []⟩, false⟩ := toOption_eq_some.mp (by decide +kernel)
  have later : unmarshalStatement laterFirmware = .ok ⟨firmwareMetadataType, laterRevision, []⟩ :=
    toOption_eq_some.mp (by decide +kernel)
  have revised : Personality.unmarshalManifest laterRevision = .ok ⟨⟨[], []⟩, "", 1, ""⟩ :=
    toOption_eq_some.mp (by decide +kernel)
  obtain ⟨first, -, -, none, found, none'⟩ := sample_states
  refine ⟨?_, ?_⟩
  · simp only [sampleLeaves, List.forall_mem_cons]
    exact ⟨⟨_, firmware, fun _ => ⟨_, manifest⟩, fun wrong => absurd wrong (by decide)⟩,
      ⟨_, annotation, fun wrong => absurd wrong (by decide), fun _ => ⟨_, verdict⟩⟩,
      ⟨_, later, fun _ => ⟨_, revised⟩, fun wrong => absurd wrong (by decide)⟩, by simp⟩
  · have named : FirmwareAt sampleLeaves 0 := ⟨sampleFirmware, _, rfl, first⟩
    simp only [sampleLeaves, List.forall_mem_cons, none, found, none']
    refine ⟨fun a wrong => ?_, fun a same => ?_, fun a wrong => ?_, by simp⟩
    · cases wrong
    · rw [← Option.some.inj same]
      exact named
    · cases wrong

theorem sampleCount : sampleLeaves.length < 2 ^ 63 := by decide

def sampleInput : InputLog := ⟨.ok ([1], ⟨sampleLeaves.length, sampleCount⟩), sampleLeaves⟩

theorem sample_device {name : Bytes} (device : Device sampleLeaves name) : name = [] := by
  obtain ⟨data, inside, m, read, rfl⟩ := device
  obtain ⟨first, second, third, -⟩ := sample_states
  simp only [sampleLeaves, List.mem_cons, List.not_mem_nil, or_false] at inside
  rcases inside with rfl | rfl | rfl
  · rw [← Option.some.inj (first.symm.trans read)]
    rfl
  · cases second.symm.trans read
  · rw [← Option.some.inj (third.symm.trans read)]
    rfl

theorem sample_firmware {i : Nat} : FirmwareAt sampleLeaves i ↔ i = 0 ∨ i = 2 := by
  obtain ⟨first, second, third, -⟩ := sample_states
  constructor
  · rintro ⟨data, m, there, read⟩
    match i, there with
    | 0, _ => exact .inl rfl
    | 1, there =>
      obtain rfl := Option.some.inj there
      cases second.symm.trans read
    | 2, _ => exact .inr rfl
  · rintro (rfl | rfl)
    · exact ⟨sampleFirmware, _, rfl, first⟩
    · exact ⟨laterFirmware, _, rfl, third⟩

theorem sample_condemned {i : Nat} : Condemned sampleLeaves i ↔ i = 0 := by
  obtain ⟨-, -, -, none, found, none'⟩ := sample_states
  constructor
  · rintro ⟨data, inside, a, read, rfl, -⟩
    simp only [sampleLeaves, List.mem_cons, List.not_mem_nil, or_false] at inside
    rcases inside with rfl | rfl | rfl
    · cases none.symm.trans read
    · rw [← Option.some.inj (found.symm.trans read)]
    · cases none'.symm.trans read
  · rintro rfl
    exact ⟨condemningLeaf, by simp [sampleLeaves], _, found, rfl, rfl⟩

-- Stands for SHA-512/256 of the names that are hashed for the log of the sample, and of others.
def sampleDigest : Bytes → Bytes := Merkle.LogHasher.numbered 5 [[], summaryName 0, summaryName 2]

def sampleKeys : List ID :=
  [bitsOf (sampleDigest []), bitsOf (sampleDigest (summaryName 0)), bitsOf (sampleDigest (summaryName 2))]

-- What the map of the sample commits to: the tree of the revisions 0 and 1, and a summary for each firmware.
def sampleValues : ID → Option Bytes :=
  given [⟨bitsOf (sampleDigest []), Merkle.treeHash (fun left right => Merkle.LogHasher.fit (1 :: left ++ right)) []
      ([0, 1].map fun v => Merkle.LogHasher.fit (0 :: littleEndian v))⟩,
    ⟨bitsOf (sampleDigest (summaryName 0)), marshalAggregation ⟨0, false⟩⟩,
    ⟨bitsOf (sampleDigest (summaryName 2)), marshalAggregation ⟨2, true⟩⟩]

def listedMap : MapLibraries where
  hasher := .listing sampleValues sampleKeys
  smt := .reference
  sha512_256 := sampleDigest
  digestSize _ := Merkle.LogHasher.fit_length _

def listedLibraries : Libraries where
  toMapLibraries := listedMap
  sha256 := Merkle.LogHasher.fit
  compact := Compact.reference
  batchmapCreate _ := referenceTiles listedMap

theorem listedLibraries_creates : listedLibraries.CreatesTiles := referenceTiles_creates rfl

theorem listedLibraries_apart {leaves : List Bytes} (devices : ∀ name, Device leaves name → name = [])
    (firmware : ∀ i, FirmwareAt leaves i → i = 0 ∨ i = 2) : listedLibraries.Apart leaves := by
  intro name used other same
  have listed : name ∈ [[], summaryName 0, summaryName 2] := by
    rcases used with device | ⟨i, there, rfl⟩
    · simp [devices name device]
    · rcases firmware i there with rfl | rfl
      all_goals simp
  exact Merkle.LogHasher.numbered_injective (by decide) listed same

theorem summaryName_ne (i : Nat) : summaryName i ≠ [] := by simp [summaryName, Checkpoints.asciiBytes]

theorem sample_apart : listedLibraries.Apart sampleLeaves :=
  listedLibraries_apart (fun _ device => sample_device device) fun _ there => sample_firmware.mp there

theorem sample_unnamed (i : Nat) : ¬ Device sampleLeaves (summaryName i) :=
  fun device => summaryName_ne i (sample_device device)

-- Up to the end of the log there are the three leaves.
theorem sample_end {n : Int} {golden : Bytes} (found : CtMap.getLogEnd sampleInput.head (-1) = .ok (n, golden)) :
    sampleInput.leaves.take n.toNat = sampleLeaves := by
  obtain ⟨rfl, -⟩ := Prod.mk.inj (Except.ok.inj found)
  rfl

theorem create_maps_sample : ∃ out, listedLibraries.create mapTreeID .direct sampleInput (-1) = .ok out := by
  refine ((create_maps listedLibraries Compact.reference_lawful listedLibraries_creates mapTreeID sampleInput (-1)).1
    (fun n golden found => sample_end found ▸ sample_apart) .direct).mpr ⟨3, [1], rfl, sampleLeaves_mappable, ?_⟩
  exact fun i _ => sample_unnamed i

theorem listed_created : ∃ out, listedLibraries.create mapTreeID .direct sampleInput (-1) = .ok out ∧
    sampleInput.leaves.take out.entries.toNat = sampleLeaves := by
  obtain ⟨out, made⟩ := (@create_ok_iff listedLibraries mapTreeID .direct Compact.reference_lawful
    listedLibraries_creates sampleInput (-1) fun n golden found => sample_end found ▸ sample_apart).mpr
    ⟨3, [1], rfl, sampleLeaves_mappable, fun i _ => sample_unnamed i⟩
  exact ⟨out, made, sample_end (created_maps Compact.reference_lawful made).1⟩

theorem create_keys_distinct_iff_sample : ∃ entries logs aggregated,
    listedLibraries.build mapTreeID .direct (sampleInput.entries 0 3) = .ok (entries, logs, aggregated) ∧
      (entries.map Entry.hashKey).Nodup := by
  obtain ⟨⟨entries, logs, aggregated⟩, built⟩ := (@build_ok_iff listedLibraries mapTreeID .direct _
    Compact.reference_lawful (show sampleLeaves.length ≤ 2 ^ 63 by decide)).mpr sampleLeaves_mappable
  have read : sampleInput.entries 0 3 = indexed sampleLeaves := entries_indexed sampleInput 3
  rw [← read] at built
  refine ⟨entries, logs, aggregated, built, (create_keys_distinct_iff listedLibraries Compact.reference_lawful mapTreeID
    sampleInput (-1) 3 [1] rfl .direct entries logs aggregated built
    (show listedLibraries.Apart sampleLeaves from sample_apart)).mpr ?_⟩
  exact fun i _ => sample_unnamed i

end Sample

end Pipeline

end Firmware
