import TrillianServerless.Firmware.MapBuilder
import TrillianServerless.Firmware.RemoteCheckpoint
import TrillianServerless.Firmware.Boot

set_option autoImplicit false

namespace Firmware

namespace Pipeline

open Go Smt Sparse Beam

section FlashTool

variable (tool : UpdateLibraries) (libs : MapLibraries) (consistency : Except GoError (List Bytes)) (pb : ProofBundle)

/-- verifyAnnotations of the flash tool, for a map server and the log's answer for a consistency proof. -/
def verifyAnnotations (server : MapServer) : Outcome Unit := do
  let (mcp, lcp) ← .ofExcept (receiveCheckpoints server.checkpoint)
  .ofExcept (wrapErr "failed to verify update with map checkpoint: %w"
    (tool.bundleConsistency pb lcp (UpdateLibraries.getConsistencyFunc consistency)))
  libs.verifyAggregation server mcp.revision (mcp.rootHash.getD []) pb.inclusionProof.leafIndex

variable {tool libs consistency pb} {server : MapServer}

theorem verifyAnnotations_iff {mcp : MapCheckpoint} {lcp : LogCheckpoint}
    (received : receiveCheckpoints server.checkpoint = .ok (mcp, lcp)) :
    verifyAnnotations tool libs consistency pb server = .ok () ↔
      tool.bundleConsistency pb lcp (UpdateLibraries.getConsistencyFunc consistency) = .ok () ∧
        libs.verifyAggregation server mcp.revision (mcp.rootHash.getD []) pb.inclusionProof.leafIndex = .ok () := by
  simp only [verifyAnnotations, received, Outcome.ofExcept_ok, Outcome.bind_ok]
  cases checked : tool.bundleConsistency pb lcp (UpdateLibraries.getConsistencyFunc consistency) with
  | error reason => simp [wrapErr, Except.mapError, Outcome.ofExcept]
  | ok found => simp [wrapErr, Except.mapError]

/-- With the checkpoint that the map server of the repository answers, whatever it reads from its database, the flash
tool accepts nothing. -/
theorem verifyAnnotations_refuses {marshalCheckpoint : Checkpoints.Checkpoint → Bytes}
    (lines : WritesLines marshalCheckpoint) {reader : MapReader}
    (answered : server.checkpoint = reader.getCheckpoint marshalCheckpoint) :
    verifyAnnotations tool libs consistency pb server ≠ .ok () := by
  intro accepted
  obtain ⟨⟨mcp, lcp⟩, received, -⟩ := Outcome.bind_eq_ok.mp accepted
  rw [Outcome.ofExcept_eq_ok, answered] at received
  exact receiveCheckpoints_never lines reader _ received

end FlashTool

section Checks

variable {libs : Libraries} {server : MapServer} {rev i : Nat} {root : Bytes}

-- The loop of the flash tool climbs a path of the map.
theorem calculateRoot_path {leafID : ID} {proof : List (Option Bytes)} {pd : Nat} (inside : pd ≤ leafID.length)
    {hash : Bytes} (calculated : libs.calculateRoot leafID proof pd hash = .ok root) :
    ∃ siblings, siblings.length = pd ∧ root = pathRoot libs.hasher.hashChildren (leafID.take pd) siblings hash := by
  induction pd generalizing hash with
  | zero =>
    obtain rfl := Outcome.ok.inj calculated
    exact ⟨[], rfl, rfl⟩
  | succ pd ih =>
    have stem := List.take_succ_eq_append_getElem (show pd < leafID.length by omega)
    rw [MapLibraries.calculateRoot] at calculated
    cases found : proof[pd]? with
    | none =>
      rw [found] at calculated
      cases calculated
    | some sib =>
      rw [found] at calculated
      simp only [stem, isLeftChild_concat] at calculated
      obtain ⟨siblings, length, rfl⟩ := ih (by omega) calculated
      refine ⟨siblings ++ [sib.getD (libs.hashEmpty (ID.sibling (leafID.take pd ++ [leafID[pd]])))], by simp [length],
        ?_⟩
      rw [stem, pathRoot_append (by rw [length, List.length_take]; omega)]
      cases leafID[pd] <;> simp [pathRoot, above]

-- What the flash tool has seen when it accepts an aggregation.
theorem verifyAggregation_cases (accepted : libs.verifyAggregation server rev root i = .ok ()) :
    ∃ preimage agg, unmarshalAggregation preimage = .ok agg ∧ agg.good = true ∧
      ∃ proof, libs.calculateRoot (.new (libs.summaryKey i) 256) proof Hasher.bitLen
        (libs.hasher.hashLeaf mapTreeID (.new (libs.summaryKey i) 256) preimage) = .ok root := by
  obtain ⟨⟨preimage, ip⟩, -, accepted⟩ := Outcome.bind_eq_ok.mp accepted
  dsimp only at accepted
  split at accepted
  · cases accepted
  split at accepted
  · cases accepted
  obtain ⟨calculated, climbed, accepted⟩ := Outcome.bind_eq_ok.mp accepted
  split at accepted
  · cases accepted
  next same =>
    obtain ⟨agg, read, accepted⟩ := Outcome.bind_eq_ok.mp accepted
    split at accepted
    next good =>
      rw [not_not.mp same] at climbed
      refine ⟨preimage, agg, ?_, good, ip.proof, climbed⟩
      cases decoded : unmarshalAggregation preimage with
      | error reason =>
        rw [decoded] at read
        cases read
      | ok found =>
        rw [decoded] at read
        exact congrArg Except.ok (Outcome.ok.inj read)
    · cases accepted

end Checks

section Verdict

/-- A server that has the map, and answers with the aggregations that it was built from. -/
structure Honest (libs : Libraries) (aggregated : List AggregatedFirmware) (entries : List Entry) (server : MapServer)
    (rev : Nat) : Prop where
  serves : server.Serves libs.toMapLibraries (contentOf entries) rev
  answers : ∀ afw ∈ aggregated, server.aggregation rev afw.index = .ok (marshalAggregation afw)

variable {libs : Libraries} {leaves : List Bytes} {entries : List Entry} {logs : List DeviceReleaseLog}
  {aggregated : List AggregatedFirmware} {server : MapServer} {rev i : Nat}

theorem Maps.index_small (maps : Maps leaves libs mapTreeID entries logs aggregated) (small : leaves.length ≤ 2 ^ 63)
    {afw : AggregatedFirmware} (inside : afw ∈ aggregated) : afw.index < 2 ^ 64 := by
  obtain ⟨data, m, there, -⟩ := ((maps.summaries afw).mp inside).1
  have bound := (List.getElem?_eq_some_iff.mp there).1
  omega

variable (maps : Maps leaves libs mapTreeID entries logs aggregated) (small : leaves.length ≤ 2 ^ 63)
  (distinct : (entries.map Entry.hashKey).Nodup)
include maps small distinct

/-- No server can make the flash tool accept firmware that the log has no statement for, or that an annotation in the
log condemns. -/
theorem Maps.accepted (apart : libs.Apart leaves) (unnamed : ¬ Device leaves (summaryName i))
    (binds : libs.hasher.Binds mapTreeID (libs.values logs aggregated) 256)
    (accepted : libs.verifyAggregation server rev (libs.mapRoot (contentOf entries)) i = .ok ()) :
    FirmwareAt leaves i ∧ ¬ Condemned leaves i := by
  have size : (libs.summaryKey i).length = 32 := libs.digestSize _
  have length : (bitsOf (libs.summaryKey i)).length = 256 := by rw [bitsOf_length, size]
  obtain ⟨preimage, agg, read, good, proof, climbed⟩ := verifyAggregation_cases accepted
  rw [new_key size] at climbed
  obtain ⟨siblings, count, root⟩ := calculateRoot_path (show Hasher.bitLen ≤ _ from length.ge) climbed
  rw [List.take_of_length_le (by rw [length]; rfl), contentOf_eq maps distinct] at root
  have binds' : libs.hasher.Binds mapTreeID (libs.values logs aggregated) (bitsOf (libs.summaryKey i)).length := by
    rwa [length]
  have committed := binds'.committed (count.trans length.symm) (by rw [← root, length]; rfl)
  obtain ⟨p, inside, made⟩ := List.mem_map.mp (given_mem committed)
  obtain ⟨key, rfl⟩ := Node.mk.inj made
  have key := bitsOf_injective key
  rcases List.mem_append.mp inside with device | summary
  · obtain ⟨log, listed, rfl⟩ := List.mem_map.mp device
    -- A key of this kind is no device's.
    have name := apart _ (.inl (maps.device listed)) (summaryName i) key.symm
    exact absurd (name ▸ maps.device listed) unnamed
  · obtain ⟨afw, summed, rfl⟩ := List.mem_map.mp summary
    obtain ⟨firmware, verdict⟩ := (maps.summaries afw).mp summed
    have name := apart _ (.inr ⟨_, firmware, rfl⟩) (summaryName i) key.symm
    obtain rfl := summaryName_injective name
    have decoded := unmarshalAggregation_marshal (maps.index_small small summed)
    rw [decoded] at read
    obtain rfl := Except.ok.inj read
    exact ⟨firmware, verdict.mp good⟩

theorem Maps.follows (lawful : libs.smt.Lawful) (honest : Honest libs aggregated entries server rev)
    (firmware : FirmwareAt leaves i) (fine : ¬ Condemned leaves i) :
    libs.verifyAggregation server rev (libs.mapRoot (contentOf entries)) i = .ok () := by
  obtain ⟨afw, summed, rfl, good⟩ := maps.summary firmware
  have nodes : ((entries.map fun e => Node.mk (bitsOf e.hashKey) e.hashValue).map Node.id).Nodup := by
    have bits := distinct.map (f := bitsOf) fun _ _ same => bitsOf_injective same
    rwa [List.map_map] at bits ⊢
  have entry : libs.summaryEntry mapTreeID afw ∈ entries :=
    maps.entries.symm.subset (List.mem_append_right _ (List.mem_map_of_mem summed))
  have stored := (given_eq_some nodes).mpr (List.mem_map_of_mem entry)
  have decoded := unmarshalAggregation_marshal (maps.index_small small summed)
  exact verifyAggregation_ok lawful honest.serves stored (honest.answers afw summed) decoded (good.mpr fine)

end Verdict

/-- The map of a log and the flash tool together. Under the root of the map no server has firmware accepted that the log
does not hold or condemns; one that serves the map has all other firmware of the log accepted, as long as the update is
consistent with the log's checkpoint that comes with the map's. -/
theorem flash_tool_follows_log (libs : Libraries) (lawful : Compact.Lawful libs.compact) (sparse : libs.smt.Lawful)
    (creates : libs.CreatesTiles) (log : InputLog) (size : Int) (r : Runner) (out : Result)
    (made : libs.create mapTreeID r log size = .ok out) (apart : libs.Apart (log.leaves.take out.entries.toNat))
    (binds : libs.hasher.Binds mapTreeID (libs.values out.deviceLogs out.aggregatedFirmware) 256)
    (tool : UpdateLibraries) (consistency : Except GoError (List Bytes)) (pb : ProofBundle)
    (unnamed : ¬ Device (log.leaves.take out.entries.toNat) (summaryName pb.inclusionProof.leafIndex))
    (server : MapServer) (mcp : MapCheckpoint) (lcp : LogCheckpoint)
    (received : receiveCheckpoints server.checkpoint = .ok (mcp, lcp))
    (root : mcp.rootHash.getD [] = libs.mapRoot (contentOf out.mapEntries)) :
    (verifyAnnotations tool libs.toMapLibraries consistency pb server = .ok () →
      FirmwareAt (log.leaves.take out.entries.toNat) pb.inclusionProof.leafIndex ∧
        ¬ Condemned (log.leaves.take out.entries.toNat) pb.inclusionProof.leafIndex) ∧
    (Honest libs out.aggregatedFirmware out.mapEntries server mcp.revision →
      (verifyAnnotations tool libs.toMapLibraries consistency pb server = .ok () ↔
        tool.bundleConsistency pb lcp (UpdateLibraries.getConsistencyFunc consistency) = .ok () ∧
          FirmwareAt (log.leaves.take out.entries.toNat) pb.inclusionProof.leafIndex ∧
          ¬ Condemned (log.leaves.take out.entries.toNat) pb.inclusionProof.leafIndex)) := by
  obtain ⟨found, maps⟩ := created_maps lawful made
  have small := created_small found
  have distinct := created_distinct lawful creates made
  rw [verifyAnnotations_iff received, root]
  refine ⟨fun accepted => maps.accepted small distinct apart unnamed binds accepted.2, fun honest => ?_⟩
  refine and_congr_right fun _ => ⟨fun accepted => maps.accepted small distinct apart unnamed binds accepted, ?_⟩
  rintro ⟨firmware, fine⟩
  exact maps.follows small distinct sparse honest firmware fine

section Sample

theorem sampleKeys_listed : Hasher.Lists sampleValues sampleKeys 256 where
  listed _ := given_isSome
  level id inside := by
    have size (name : Bytes) : (bitsOf (sampleDigest name)).length = 256 := by
      rw [bitsOf_length, sampleDigest, Merkle.LogHasher.numbered, Merkle.LogHasher.fit_length]
    simp only [sampleKeys, List.mem_cons, List.not_mem_nil, or_false] at inside
    rcases inside with rfl | rfl | rfl
    · exact size _
    · exact size _
    · exact size _
  few := by
    simp [Hasher.paths, sampleKeys, sampleDigest, Merkle.LogHasher.numbered, Merkle.LogHasher.fit_length]

theorem given_perm {nodes nodes' : List Node} (perm : nodes.Perm nodes') (distinct : (nodes.map Node.id).Nodup) :
    given nodes = given nodes' := by
  funext id
  apply Option.ext
  intro hash
  rw [given_eq_some distinct, given_eq_some ((perm.map Node.id).nodup_iff.mp distinct), perm.mem_iff]

theorem sample_binds {entries : List Entry} {logs : List DeviceReleaseLog} {aggregated : List AggregatedFirmware}
    (maps : Maps sampleLeaves listedLibraries mapTreeID entries logs aggregated)
    (distinct : (entries.map Entry.hashKey).Nodup) :
    listedLibraries.hasher.Binds mapTreeID (listedLibraries.values logs aggregated) 256 := by
  have revisions : revisionsOf sampleLeaves "" = [0, 1] := by decide +kernel
  have devices : logs.Perm [⟨"", [0, 1]⟩] := by
    refine (List.perm_ext_iff_of_nodup maps.listed.of_map (List.nodup_singleton _)).mpr fun log => ?_
    rw [maps.devices, List.mem_singleton]
    constructor
    · rintro ⟨⟨data, inside, m, read, name⟩, same⟩
      have empty := sample_device ⟨data, inside, m, read, congrArg (fun d => Json.bytesOf d.toList) name⟩
      obtain ⟨deviceID, stored⟩ := log
      obtain rfl : deviceID = "" := bytesOf_injective empty
      exact congrArg (DeviceReleaseLog.mk "") (same.trans revisions)
    · rintro rfl
      exact ⟨⟨sampleFirmware, by simp [sampleLeaves], _, sample_states.1, rfl⟩, revisions.symm⟩
  have summaries : aggregated.Perm [⟨0, false⟩, ⟨2, true⟩] := by
    refine (List.perm_ext_iff_of_nodup maps.summarised.of_map (by decide)).mpr fun afw => ?_
    obtain ⟨index, good⟩ := afw
    rw [maps.summaries, sample_firmware, sample_condemned]
    cases good
    · simp
      omega
    · simp
      omega
  have same : listedLibraries.values logs aggregated = sampleValues := by
    have perm : (listedLibraries.preimages logs aggregated).Perm
        (listedLibraries.preimages [⟨"", [0, 1]⟩] [⟨0, false⟩, ⟨2, true⟩]) := (devices.map _).append (summaries.map _)
    rw [Libraries.values, given_perm (perm.map _) (maps.preimages_nodup distinct)]
    rfl
  rw [same]
  exact Hasher.listing_binds sampleKeys_listed

-- json.Marshal of a LogCheckpoint, which the comment of MapCheckpoint says is in it.
def jsonMembers (cp : LogCheckpoint) : List (Bytes × Bytes) :=
  [(Checkpoints.asciiBytes "Origin", Json.encodeText cp.origin),
    (Checkpoints.asciiBytes "Size", formatUint 10 cp.size),
    (Checkpoints.asciiBytes "Hash", Json.encodeBytes (some cp.hash)),
    (Checkpoints.asciiBytes "TimestampNanos", formatUint 10 cp.timestampNanos),
    (Checkpoints.asciiBytes "Envelope", Json.encodeBytes (some cp.envelope))]

theorem unmarshalLogCheckpoint_json {cp : LogCheckpoint} (size : cp.size < 2 ^ 64) (time : cp.timestampNanos < 2 ^ 64) :
    unmarshalLogCheckpoint (Json.encodeStruct (jsonMembers cp)) = .ok cp := by
  have plain : ∀ name ∈ ["Origin", "Size", "Hash", "TimestampNanos", "Envelope"],
      ∀ c ∈ Checkpoints.asciiBytes name, Json.Plain c :=
    Json.plain_of_all (by decide +kernel)
  have names : ∀ m ∈ jsonMembers cp, ∀ c ∈ m.1, Json.Plain c := by
    simp only [jsonMembers, List.forall_mem_cons]
    exact ⟨plain _ (by simp), plain _ (by simp), plain _ (by simp), plain _ (by simp), plain _ (by simp), by simp⟩
  have decoded := Json.decodeWhole_encodeStruct names (.cons (Json.reads_encodeText _ cp.origin)
    (.cons (Json.reads_formatUint _ cp.size) (.cons (Json.reads_encodeBytes _ (some cp.hash))
      (.cons (Json.reads_formatUint _ cp.timestampNanos) (.cons (Json.reads_encodeBytes _ (some cp.envelope)) .nil)))))
    (by simp [jsonMembers])
  refine except_bind_eq_ok.mpr ⟨_, decoded, ?_⟩
  refine (@Json.decodeStruct_named _ _ logCheckpointFields _ _ ?_).trans ?_
  · exact .cons rfl (.cons rfl (.cons rfl (.cons rfl (.cons rfl .nil))))
  have sized := fun old => Json.toUint_formatUint size old
  have timed := fun old => Json.toUint_formatUint time old
  simp only [logCheckpointFields, jsonMembers, List.map_cons, List.map_nil, List.zip_cons_cons, List.zip_nil_left,
    List.foldlM_cons, List.foldlM_nil, Json.toText_encodeText, Json.toBytes_ofBytes, sized, timed, Except.map, bind,
    Except.bind, pure, Except.pure, Option.getD_some]

-- A map checkpoint with the log's checkpoint in JSON.
def jsonAnswer (lcp : LogCheckpoint) (root : Bytes) (rev : Nat) : Except GoError Bytes :=
  .ok (MapCheckpoint.marshal ⟨some (Json.encodeStruct (jsonMembers lcp)), lcp.size, some root, rev⟩)

theorem jsonAnswer_received {lcp : LogCheckpoint} (size : lcp.size < 2 ^ 64) (time : lcp.timestampNanos < 2 ^ 64)
    (root : Bytes) {rev : Nat} (small : rev < 2 ^ 64) : receiveCheckpoints (jsonAnswer lcp root rev) =
      .ok (⟨some (Json.encodeStruct (jsonMembers lcp)), lcp.size, some root, rev⟩, lcp) := by
  refine except_bind_eq_ok.mpr ⟨_, wrapErr_eq_ok.mpr (mapCheckpoint_marshal _ size small), ?_⟩
  exact except_bind_eq_ok.mpr ⟨lcp, wrapErr_eq_ok.mpr (unmarshalLogCheckpoint_json size time), rfl⟩

-- The log's checkpoint when it has the three leaves, and an update with the firmware at an index.
def mappedCheckpoint : LogCheckpoint := ⟨⟨ftLogOrigin, 3, [9]⟩, 7, [3, 9]⟩

def sampleBundle (i : Nat) : ProofBundle := ⟨[], [3, 9], ⟨[], i, []⟩⟩

def sampleTool : UpdateLibraries := sample.updates sampleSHA512

theorem sampleBundle_consistent {i : Nat} (inside : i ≤ 3) : sampleTool.bundleConsistency (sampleBundle i)
    mappedCheckpoint (UpdateLibraries.getConsistencyFunc (.ok [])) = .ok () := by
  have opened : sampleTool.parseCheckpoint [3, 9] = .ok mappedCheckpoint := by decide
  have reaches : ¬ mappedCheckpoint.size < i := Nat.not_lt.mpr inside
  have consistent : sampleTool.proofs.verifyConsistency sampleTool.hasher mappedCheckpoint.size mappedCheckpoint.size []
      mappedCheckpoint.hash mappedCheckpoint.hash = .ok () := reference_sameTree _ _ _
  have answered : UpdateLibraries.getConsistencyFunc (.ok []) mappedCheckpoint.size mappedCheckpoint.size = .ok [] := rfl
  simp [UpdateLibraries.bundleConsistency, sampleBundle, opened, reaches, answered, consistent, wrapErr, hideErr,
    Except.mapError, bind, Except.bind]

-- The firmware that is condemned is refused whatever a server answers, and the other one is accepted.
theorem flash_tool_follows_log_sample : ∃ out, listedLibraries.create mapTreeID .direct sampleInput (-1) = .ok out ∧
    (∀ server mcp lcp, receiveCheckpoints server.checkpoint = .ok (mcp, lcp) →
      mcp.rootHash.getD [] = listedMap.mapRoot (contentOf out.mapEntries) →
      verifyAnnotations sampleTool listedMap (.ok []) (sampleBundle 0) server ≠ .ok ()) ∧
    ∃ server, verifyAnnotations sampleTool listedMap (.ok []) (sampleBundle 2) server = .ok () := by
  obtain ⟨out, made, whole⟩ := listed_created
  have distinct := created_distinct Compact.reference_lawful listedLibraries_creates made
  have maps := (created_maps Compact.reference_lawful made).2
  rw [whole] at maps
  have follows (i : Nat) := flash_tool_follows_log listedLibraries Compact.reference_lawful reference_lawful
    listedLibraries_creates sampleInput (-1) .direct out made (whole ▸ sample_apart) (sample_binds maps distinct)
    sampleTool (.ok []) (sampleBundle i) (whole ▸ sample_unnamed i)
  rw [whole] at follows
  refine ⟨out, made, fun server mcp lcp received root accepted => ?_, ?_⟩
  · exact ((follows 0 server mcp lcp received root).1 accepted).2 (sample_condemned.mpr rfl)
  · have received := @jsonAnswer_received mappedCheckpoint (by decide) (by decide)
      (listedMap.mapRoot (contentOf out.mapEntries)) 1 (by decide)
    have sizes : ∀ k ∈ out.mapEntries.map Entry.hashKey, k.length = 32 := by simpa using maps.keys_length
    let server := listedMap.serverOf (out.mapEntries.map Entry.hashKey) (contentOf out.mapEntries)
      (jsonAnswer mappedCheckpoint (listedMap.mapRoot (contentOf out.mapEntries)) 1) fun i =>
        .ok (marshalAggregation ⟨i, decide (i ≠ 0)⟩)
    have honest : Honest listedLibraries out.aggregatedFirmware out.mapEntries server 1 := by
      refine ⟨serverOf_serves contentOf_isSome sizes _ _ 1, fun afw inside => ?_⟩
      have verdict := ((maps.summaries afw).mp inside).2
      rw [sample_condemned] at verdict
      have good : decide (afw.index ≠ 0) = afw.good := by
        rw [Bool.eq_iff_iff, decide_eq_true_iff]
        exact verdict.symm
      change Except.ok (marshalAggregation ⟨afw.index, decide (afw.index ≠ 0)⟩) = .ok (marshalAggregation afw)
      rw [good]
    have root : (some (listedMap.mapRoot (contentOf out.mapEntries))).getD [] =
        listedLibraries.mapRoot (contentOf out.mapEntries) := Option.getD_some
    refine ⟨server, ((follows 2 server _ _ received root).2 honest).mpr ⟨sampleBundle_consistent (by decide), ?_, ?_⟩⟩
    · exact sample_firmware.mpr (.inr rfl)
    · exact fun bad => absurd (sample_condemned.mp bad) (by decide)

end Sample

end Pipeline

end Firmware
