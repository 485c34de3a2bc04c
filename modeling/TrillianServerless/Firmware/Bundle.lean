import TrillianServerless.Shared.JsonText
import TrillianServerless.Firmware.MapPipeline

set_option autoImplicit false

namespace Firmware

open Go Personality

section Bundles

def inclusionFields : List (Json.Field InclusionProof) :=
  [⟨"Value", fun p v => (Json.toBytes v).map fun b => { p with value := b.getD [] }⟩,
    ⟨"LeafIndex", fun p v => (v.toUint 64 p.leafIndex).map fun n => { p with leafIndex := n }⟩,
    ⟨"Proof", fun p v => v.toBytesList.map fun bs => { p with proof := (bs.getD []).map fun b => b.getD [] }⟩]

def bundleFields : List (Json.Field ProofBundle) :=
  [⟨"ManifestStatement", fun pb v => (Json.toBytes v).map fun b => { pb with manifestStatement := b.getD [] }⟩,
    ⟨"Checkpoint", fun pb v => (Json.toBytes v).map fun b => { pb with checkpoint := b.getD [] }⟩,
    ⟨"InclusionProof", fun pb v =>
      (v.decodeStruct inclusionFields pb.inclusionProof).map fun p => { pb with inclusionProof := p }⟩]

def emptyBundle : ProofBundle := ⟨[], [], ⟨[], 0, []⟩⟩

def unmarshalBundle (raw : Bytes) : Except GoError ProofBundle := do
  (← Json.decodeWhole raw).decodeStruct bundleFields emptyBundle

def decodeBundle (raw : Bytes) : Except GoError ProofBundle := do
  (← Json.decodeNext raw).decodeStruct bundleFields emptyBundle

end Bundles

section Encoders

def manifestMembers (m : Manifest) : List (Bytes × Bytes) :=
  [(Checkpoints.asciiBytes "DeviceID", Json.encodeText m.deviceID),
    (Checkpoints.asciiBytes "FirmwareRevision", formatUint 10 m.firmwareRevision),
    (Checkpoints.asciiBytes "FirmwareImageSHA512", Json.encodeBytes (some m.firmwareImageSHA512)),
    (Checkpoints.asciiBytes "ExpectedFirmwareMeasurement", Json.encodeBytes (some m.expectedFirmwareMeasurement)),
    (Checkpoints.asciiBytes "BuildTimestamp", Json.encodeText m.buildTimestamp)]

def marshalManifest (m : Manifest) : Bytes := Json.encodeStruct (manifestMembers m)

-- An InclusionProof as it comes and goes in JSON, where a slice may be nil.
structure WireProof where
  value : Option Bytes
  leafIndex : Nat
  proof : Option (List (Option Bytes))
  deriving DecidableEq

def WireProof.toProof (ip : WireProof) : InclusionProof :=
  ⟨ip.value.getD [], ip.leafIndex, (ip.proof.getD []).map fun b => b.getD []⟩

def wireFields : List (Json.Field WireProof) :=
  [⟨"Value", fun p v => (Json.toBytes v).map fun b => { p with value := b }⟩,
    ⟨"LeafIndex", fun p v => (v.toUint 64 p.leafIndex).map fun n => { p with leafIndex := n }⟩,
    ⟨"Proof", fun p v => v.toBytesList.map fun bs => { p with proof := bs }⟩]

def wireMembers (ip : WireProof) : List (Bytes × Bytes) :=
  [(Checkpoints.asciiBytes "Value", Json.encodeBytes ip.value),
    (Checkpoints.asciiBytes "LeafIndex", formatUint 10 ip.leafIndex),
    (Checkpoints.asciiBytes "Proof", Json.encodeBytesList ip.proof)]

def bundleMembers (manifest checkpoint : Bytes) (ip : WireProof) : List (Bytes × Bytes) :=
  [(Checkpoints.asciiBytes "ManifestStatement", Json.encodeBytes (some manifest)),
    (Checkpoints.asciiBytes "Checkpoint", Json.encodeBytes (some checkpoint)),
    (Checkpoints.asciiBytes "InclusionProof", Json.encodeStruct (wireMembers ip))]

def marshalBundle (manifest checkpoint : Bytes) (ip : WireProof) : Bytes :=
  Json.encodeStruct (bundleMembers manifest checkpoint ip)

def packageMembers (up : UpdatePackage) : List (Bytes × Bytes) :=
  [(Checkpoints.asciiBytes "FirmwareImage", Json.encodeBytes (some up.firmwareImage)),
    (Checkpoints.asciiBytes "ProofBundle", Json.encodeBytes (some up.proofBundle))]

-- An Encoder ends what it writes with a newline.
def encodePackage (up : UpdatePackage) : Bytes := Json.encodeStruct (packageMembers up) ++ [newline]

def packageFields : List (Json.Field UpdatePackage) :=
  [⟨"FirmwareImage", fun up v => (Json.toBytes v).map fun b => { up with firmwareImage := b.getD [] }⟩,
    ⟨"ProofBundle", fun up v => (Json.toBytes v).map fun b => { up with proofBundle := b.getD [] }⟩]

-- readUpdateFile of the flash tool.
def readUpdateFile (raw : Bytes) : Except GoError UpdatePackage := do
  (← Json.decodeNext raw).decodeStruct packageFields ⟨[], []⟩

end Encoders

section RoundTrips

theorem plain_fields : ∀ name ∈ ["DeviceID", "FirmwareRevision", "FirmwareImageSHA512", "ExpectedFirmwareMeasurement",
    "BuildTimestamp", "Value", "LeafIndex", "Proof", "ManifestStatement", "Checkpoint", "InclusionProof",
    "FirmwareImage", "ProofBundle"], ∀ c ∈ Checkpoints.asciiBytes name, Json.Plain c :=
  Json.plain_of_all (by decide +kernel)

theorem unmarshalManifest_marshal {m : Manifest} (small : m.firmwareRevision < 2 ^ 64) :
    unmarshalManifest (marshalManifest m) = .ok m := by
  have names : ∀ x ∈ manifestMembers m, ∀ c ∈ x.1, Json.Plain c := by
    simp only [manifestMembers, List.forall_mem_cons]
    exact ⟨plain_fields _ (by simp), plain_fields _ (by simp), plain_fields _ (by simp), plain_fields _ (by simp),
      plain_fields _ (by simp), by simp⟩
  have decoded := Json.decodeWhole_encodeStruct names
    (.cons (Json.reads_encodeText _ m.deviceID) (.cons (Json.reads_formatUint _ m.firmwareRevision)
      (.cons (Json.reads_encodeBytes _ (some m.firmwareImageSHA512))
        (.cons (Json.reads_encodeBytes _ (some m.expectedFirmwareMeasurement))
          (.cons (Json.reads_encodeText _ m.buildTimestamp) .nil))))) (by simp [manifestMembers])
  refine except_bind_eq_ok.mpr ⟨_, decoded, ?_⟩
  refine (@Json.decodeStruct_named _ _ manifestFields _ _ ?_).trans ?_
  · exact .cons rfl (.cons rfl (.cons rfl (.cons rfl (.cons rfl .nil))))
  have revision := fun old => Json.toUint_formatUint small old
  simp only [manifestFields, manifestMembers, List.map_cons, List.map_nil, List.zip_cons_cons, List.zip_nil_left,
    List.foldlM_cons, List.foldlM_nil, Json.toText_encodeText, Json.toBytes_ofBytes, revision, Except.map, bind,
    Except.bind, pure, Except.pure, Option.getD_some]

theorem unmarshalStatement_marshal (stmt : SignedStatement) :
    Pipeline.unmarshalStatement (marshalStatement stmt) = .ok stmt := by
  have decoded := Json.decodeWhole_encodeStruct (plain_statementMembers stmt)
    (.cons (Json.reads_formatUint _ stmt.type.toNat) (.cons (Json.reads_encodeBytes _ (some stmt.statement))
      (.cons (Json.reads_encodeBytes _ (some stmt.signature)) .nil))) (by simp [statementMembers])
  refine except_bind_eq_ok.mpr ⟨_, decoded, ?_⟩
  refine (@Json.decodeStruct_named _ _ signedStatementFields _ _ ?_).trans ?_
  · exact .cons rfl (.cons rfl (.cons rfl .nil))
  have type := fun old => Json.toUint_formatUint (show stmt.type.toNat < 2 ^ 8 from stmt.type.toNat_lt) old
  simp only [signedStatementFields, statementMembers, List.map_cons, List.map_nil, List.zip_cons_cons,
    List.zip_nil_left, List.foldlM_cons, List.foldlM_nil, Json.toBytes_ofBytes, type, Except.map, bind, Except.bind,
    pure, Except.pure, Option.getD_some, UInt8.ofNat_toNat]

theorem plain_wireMembers (ip : WireProof) : ∀ m ∈ wireMembers ip, ∀ c ∈ m.1, Json.Plain c := by
  simp only [wireMembers, List.forall_mem_cons]
  exact ⟨plain_fields _ (by simp), plain_fields _ (by simp), plain_fields _ (by simp), by simp⟩

theorem unmarshalBundle_marshal (manifest checkpoint : Bytes) {ip : WireProof} (small : ip.leafIndex < 2 ^ 64) :
    unmarshalBundle (marshalBundle manifest checkpoint ip) = .ok ⟨manifest, checkpoint, ip.toProof⟩ := by
  have names : ∀ m ∈ bundleMembers manifest checkpoint ip, ∀ c ∈ m.1, Json.Plain c := by
    simp only [bundleMembers, List.forall_mem_cons]
    exact ⟨plain_fields _ (by simp), plain_fields _ (by simp), plain_fields _ (by simp), by simp⟩
  have proof := Json.reads_encodeStruct (plain_wireMembers ip) (.cons (Json.reads_encodeBytes 9998 ip.value)
    (.cons (Json.reads_formatUint 9998 ip.leafIndex) (.cons (Json.reads_encodeBytesList ip.proof) .nil)))
    (by simp [wireMembers])
  have decoded := Json.decodeWhole_encodeStruct names (.cons (Json.reads_encodeBytes _ (some manifest))
    (.cons (Json.reads_encodeBytes _ (some checkpoint)) (.cons proof .nil))) (by simp [bundleMembers])
  have index := fun old => Json.toUint_formatUint small old
  have inner (start : InclusionProof) : Json.decodeStruct inclusionFields start (.object (((wireMembers ip).map
      Prod.fst).zip [Json.ofBytes ip.value, .number (formatUint 10 ip.leafIndex), Json.ofBytesList ip.proof])) =
        .ok ip.toProof := by
    refine (@Json.decodeStruct_named _ _ inclusionFields _ _ ?_).trans ?_
    · exact .cons rfl (.cons rfl (.cons rfl .nil))
    simp only [inclusionFields, wireMembers, List.map_cons, List.map_nil, List.zip_cons_cons, List.zip_nil_left,
      List.foldlM_cons, List.foldlM_nil, Json.toBytes_ofBytes, Json.toBytesList_ofBytesList, index, Except.map, bind,
      Except.bind, pure, Except.pure, WireProof.toProof]
  refine except_bind_eq_ok.mpr ⟨_, decoded, ?_⟩
  refine (@Json.decodeStruct_named _ _ bundleFields _ _ ?_).trans ?_
  · exact .cons rfl (.cons rfl (.cons rfl .nil))
  simp only [bundleFields, bundleMembers, List.map_cons, List.map_nil, List.zip_cons_cons, List.zip_nil_left,
    List.foldlM_cons, List.foldlM_nil, Json.toBytes_ofBytes, inner, Except.map, bind, Except.bind, pure, Except.pure,
    Option.getD_some]

theorem readUpdateFile_encode (up : UpdatePackage) : readUpdateFile (encodePackage up) = .ok up := by
  have names : ∀ m ∈ packageMembers up, ∀ c ∈ m.1, Json.Plain c := by
    simp only [packageMembers, List.forall_mem_cons]
    exact ⟨plain_fields _ (by simp), plain_fields _ (by simp), by simp⟩
  have read := @Json.value_encodeStruct 9999 _ _ names (.cons (Json.reads_encodeBytes _ (some up.firmwareImage))
    (.cons (Json.reads_encodeBytes _ (some up.proofBundle)) .nil)) (by simp [packageMembers]) [newline]
  have visible : Json.skipSpace (encodePackage up) = encodePackage up := Json.skipSpace_cons (by decide) _
  have depth : Json.maxNestingDepth = 9999 + 1 := rfl
  have decoded : Json.decodeNext (encodePackage up) = .ok (.object (((packageMembers up).map Prod.fst).zip
      [Json.ofBytes (some up.firmwareImage), Json.ofBytes (some up.proofBundle)])) := by
    rw [Json.decodeNext, visible, depth, encodePackage, read]
  refine except_bind_eq_ok.mpr ⟨_, decoded, ?_⟩
  refine (@Json.decodeStruct_named _ _ packageFields _ _ ?_).trans ?_
  · exact .cons rfl (.cons rfl .nil)
  simp only [packageFields, packageMembers, List.map_cons, List.map_nil, List.zip_cons_cons, List.zip_nil_left,
    List.foldlM_cons, List.foldlM_nil, Json.toBytes_ofBytes, Except.map, bind, Except.bind, pure, Except.pure,
    Option.getD_some]

end RoundTrips

end Firmware
