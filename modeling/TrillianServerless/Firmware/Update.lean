import TrillianServerless.Shared.Runs
import TrillianServerless.Firmware.Log

set_option autoImplicit false

namespace Firmware

open Go Merkle Runs

structure FirmwareMetadata where
  firmwareImageSHA512 : Bytes
  expectedFirmwareMeasurement : Bytes
  deriving DecidableEq, Repr

structure ProofBundle where
  manifestStatement : Bytes
  checkpoint : Bytes
  inclusionProof : InclusionProof
  deriving DecidableEq, Repr

structure UpdatePackage where
  firmwareImage : Bytes
  proofBundle : Bytes
  deriving DecidableEq, Repr

/-- `unmarshal` is json.Unmarshal for each type, `decodeBundle` json.Decoder, which stops after one value. -/
structure UpdateLibraries extends Libraries where
  unmarshalBundle : Bytes → Except GoError ProofBundle
  unmarshalStatement : Bytes → Except GoError SignedStatement
  unmarshalMetadata : Bytes → Except GoError FirmwareMetadata
  decodeBundle : Bytes → Except GoError ProofBundle
  sha512 : Bytes → Bytes

namespace UpdateLibraries

variable (libs : UpdateLibraries)

-- Where Unmarshal reads a value, a Decoder reads the same.
def DecodesAlike : Prop := ∀ raw bundle, libs.unmarshalBundle raw = .ok bundle → libs.decodeBundle raw = .ok bundle

def verifyBundle (bundleRaw : Bytes) : Except GoError (ProofBundle × FirmwareMetadata) := do
  let pb ← wrapErr "failed to parse proof bundle: %w" (libs.unmarshalBundle bundleRaw)
  let bundleCP ← wrapErr "failed to open the proof bundle checkpoint: %w" (libs.parseCheckpoint pb.checkpoint)
  let fwStatement ← wrapErr "failed to unmarshal SignedStatement: %w" (libs.unmarshalStatement pb.manifestStatement)
  wrapErr "failed to verify signature on SignedStatement: %w"
    (libs.verifySignature .publisher fwStatement.type fwStatement.statement fwStatement.signature)
  if fwStatement.type ≠ firmwareMetadataType then .error (.text "expected statement type %q, but got %q")
  else do
    wrapErr "invalid inclusion proof in bundle: %w"
      (libs.proofs.verifyInclusion libs.hasher pb.inclusionProof.leafIndex bundleCP.size
        (libs.hasher.hashLeaf pb.manifestStatement) pb.inclusionProof.proof bundleCP.hash)
    let fwMeta ← wrapErr "failed to unmarshal Metadata: %w" (libs.unmarshalMetadata fwStatement.statement)
    .ok (pb, fwMeta)

-- The proof is asked for only from a tree that is not empty.
def getConsistencyFunc (answer : Except GoError (List Bytes)) (start _stop : Nat) : Except GoError (List Bytes) :=
  if 0 < start then wrapErr "failed to fetch consistency proof: %w" answer else .ok []

def bundleForUpdate (bundleRaw fwHash : Bytes) (dc : LogCheckpoint)
    (cpFunc : Nat → Nat → Except GoError (List Bytes)) : Except GoError (ProofBundle × FirmwareMetadata) := do
  let (proofBundle, fwMeta) ← libs.verifyBundle bundleRaw
  if fwHash ≠ fwMeta.firmwareImageSHA512 then
    .error (.text "firmware update image hash does not match metadata (0x%x != 0x%x)")
  else do
    let pc ← wrapErr "failed to open the device checkpoint: %w" (libs.parseCheckpoint proofBundle.checkpoint)
    let cProof ← hideErr "cpFunc failed: %q" (cpFunc dc.size pc.size)
    if 0 < dc.size then
      wrapErr "failed verification of consistency proof %w"
        (libs.proofs.verifyConsistency libs.hasher dc.size pc.size cProof dc.hash pc.hash)
    .ok (proofBundle, fwMeta)

end UpdateLibraries

/-- The files of the dummy device. -/
structure Device where
  bundle : Option Bytes
  firmware : Option Bytes
  deriving DecidableEq

-- An update with the log's answer for a consistency proof; `agreed` tells whether the witness and the map agree, or were
-- not asked.
structure Update where
  package : UpdatePackage
  consistency : Except GoError (List Bytes)
  agreed : Bool

namespace Device

variable (libs : UpdateLibraries)

-- New and DeviceCheckpoint; an error without force ends an update.
def deviceCheckpoint (dev : Device) : Except GoError Bytes :=
  match dev.bundle with
  | none => .error (.wrap "device needs to be force initialised: %w" .notExist)
  | some raw => (wrapErr "failed to open device: %w" (libs.decodeBundle raw)).map ProofBundle.checkpoint

def verifyUpdate (dev : Device) (u : Update) : Except GoError (ProofBundle × FirmwareMetadata) := do
  let raw ← wrapErr "failed to fetch the device checkpoint: %w" (dev.deviceCheckpoint libs)
  let dc ← wrapErr "failed to open the device checkpoint: %w" (libs.parseCheckpoint raw)
  wrapErr "failed to verify proof bundle: %w"
    (libs.bundleForUpdate u.package.proofBundle (libs.sha512 u.package.firmwareImage) dc
      (UpdateLibraries.getConsistencyFunc u.consistency))

def applyUpdate (u : UpdatePackage) : Device := ⟨some u.proofBundle, some u.firmwareImage⟩

-- Main of the flash tool without force: a failed check leaves the device as it is.
def flash (dev : Device) (u : Update) : Device :=
  match dev.verifyUpdate libs u with
  | .error _ => dev
  | .ok _ => if u.agreed then applyUpdate u.package else dev

def run (updates : List Update) (dev : Device) : Option Device :=
  exec (fun dev u => some (flash libs dev u)) updates dev

-- The checkpoint that is on the device.
def checkpoint (dev : Device) : Except GoError LogCheckpoint := dev.deviceCheckpoint libs >>= libs.parseCheckpoint

end Device

section Checks

variable {libs : UpdateLibraries}

/-- A checkpoint that was verified to extend another one. -/
structure LogCheckpoint.Extends (libs : UpdateLibraries) (prev cp : LogCheckpoint) : Prop where
  size : prev.size ≤ cp.size
  same : prev.size = cp.size → prev.hash = cp.hash
  verified : ∃ proof, libs.proofs.verifyConsistency libs.hasher prev.size cp.size proof prev.hash cp.hash = .ok ()

/-- A manifest signed by the publisher that is proven to be in the tree of a checkpoint. -/
structure ProofBundle.Proves (libs : UpdateLibraries) (pb : ProofBundle) (cp : LogCheckpoint)
    (fwMeta : FirmwareMetadata) : Prop where
  signed : libs.parseCheckpoint pb.checkpoint = .ok cp
  manifest : ∃ stmt, libs.unmarshalStatement pb.manifestStatement = .ok stmt ∧ stmt.type = firmwareMetadataType ∧
    libs.verifySignature .publisher stmt.type stmt.statement stmt.signature = .ok () ∧
    libs.unmarshalMetadata stmt.statement = .ok fwMeta
  included : libs.proofs.verifyInclusion libs.hasher pb.inclusionProof.leafIndex cp.size
    (libs.hasher.hashLeaf pb.manifestStatement) pb.inclusionProof.proof cp.hash = .ok ()

theorem verifyBundle_ok {raw : Bytes} {pb : ProofBundle} {fwMeta : FirmwareMetadata}
    (verified : libs.verifyBundle raw = .ok (pb, fwMeta)) :
    libs.unmarshalBundle raw = .ok pb ∧ ∃ cp, pb.Proves libs cp fwMeta := by
  obtain ⟨bundle, parsed, verified⟩ := except_bind_eq_ok.mp verified
  obtain ⟨cp, signed, verified⟩ := except_bind_eq_ok.mp verified
  obtain ⟨stmt, read, verified⟩ := except_bind_eq_ok.mp verified
  obtain ⟨_, publisher, verified⟩ := except_bind_eq_ok.mp verified
  split at verified
  next => cases verified
  next type =>
    obtain ⟨_, included, verified⟩ := except_bind_eq_ok.mp verified
    obtain ⟨found, metadata, verified⟩ := except_bind_eq_ok.mp verified
    obtain ⟨rfl, rfl⟩ := Prod.mk.inj (Except.ok.inj verified)
    rw [wrapErr_eq_ok] at parsed signed read publisher included metadata
    exact ⟨parsed, cp, signed, ⟨stmt, read, not_not.mp type, publisher, metadata⟩, included⟩

theorem bundleForUpdate_ok {raw fwHash : Bytes} {dc : LogCheckpoint}
    {cpFunc : Nat → Nat → Except GoError (List Bytes)}
    {pb : ProofBundle} {fwMeta : FirmwareMetadata} (positive : 0 < dc.size)
    (checks : libs.proofs.ChecksSizes)
    (verified : libs.bundleForUpdate raw fwHash dc cpFunc = .ok (pb, fwMeta)) :
    libs.unmarshalBundle raw = .ok pb ∧ fwHash = fwMeta.firmwareImageSHA512 ∧
      ∃ cp, pb.Proves libs cp fwMeta ∧ dc.Extends libs cp := by
  obtain ⟨⟨bundle, found⟩, bundled, verified⟩ := except_bind_eq_ok.mp verified
  obtain ⟨parsed, cp, proves⟩ := verifyBundle_ok bundled
  dsimp only at verified
  split at verified
  next => cases verified
  next same =>
    obtain ⟨pc, again, verified⟩ := except_bind_eq_ok.mp verified
    obtain ⟨cProof, -, verified⟩ := except_bind_eq_ok.mp verified
    rw [wrapErr_eq_ok, proves.signed] at again
    obtain rfl := Except.ok.inj again
    obtain ⟨_, consistent, verified⟩ := except_bind_eq_ok.mp verified
    obtain ⟨rfl, rfl⟩ := Prod.mk.inj (Except.ok.inj verified)
    rw [wrapErr_eq_ok] at consistent
    have sizes := checks _ _ _ _ _ _ consistent
    exact ⟨parsed, not_not.mp same, cp, proves, sizes.1, sizes.2, cProof, consistent⟩

/-- The image on a device is the one of a manifest in the tree of the device's checkpoint. -/
def Device.Installed (libs : UpdateLibraries) (dev : Device) (cp : LogCheckpoint) : Prop :=
  ∃ raw image pb fwMeta, dev.bundle = some raw ∧ dev.firmware = some image ∧ libs.decodeBundle raw = .ok pb ∧
    pb.Proves libs cp fwMeta ∧ libs.sha512 image = fwMeta.firmwareImageSHA512

theorem Device.Installed.checkpoint {dev : Device} {cp : LogCheckpoint} (installed : dev.Installed libs cp) :
    dev.checkpoint libs = .ok cp := by
  obtain ⟨raw, image, pb, fwMeta, bundle, -, decoded, proves, -⟩ := installed
  unfold Device.checkpoint Device.deviceCheckpoint
  rw [bundle]
  dsimp only
  rw [decoded]
  exact proves.signed

-- An update leaves a device alone, or brings a checkpoint that extends the one there was.
theorem flash_cases (alike : libs.DecodesAlike) (checks : libs.proofs.ChecksSizes) {dev : Device} {cp : LogCheckpoint}
    (stored : dev.checkpoint libs = .ok cp) (positive : 0 < cp.size) (u : Update) :
    dev.flash libs u = dev ∨ ∃ cp', cp.Extends libs cp' ∧ (dev.flash libs u).Installed libs cp' := by
  unfold Device.flash
  split
  next => exact .inl rfl
  next found verified =>
    obtain ⟨pb, fwMeta⟩ := found
    split
    next =>
      obtain ⟨raw, read, verified⟩ := except_bind_eq_ok.mp verified
      obtain ⟨dc, opened, verified⟩ := except_bind_eq_ok.mp verified
      rw [wrapErr_eq_ok] at read opened verified
      -- The checkpoint that is compared with is the stored one, parsed once more.
      obtain rfl : cp = dc := by
        have again := except_bind_eq_ok.mpr ⟨raw, read, opened⟩
        exact Except.ok.inj (stored.symm.trans again)
      obtain ⟨parsed, image, cp', proves, extends'⟩ := bundleForUpdate_ok positive checks verified
      exact .inr ⟨cp', extends', _, _, pb, fwMeta, rfl, rfl, alike _ _ parsed, proves, image⟩
    next => exact .inl rfl

/-- What holds of a device after updates: its checkpoint is no smaller than the first, and its image is proven. -/
theorem run_forward (alike : libs.DecodesAlike) (checks : libs.proofs.ChecksSizes) {dev dev' : Device}
    {cp : LogCheckpoint} (stored : dev.checkpoint libs = .ok cp) (positive : 0 < cp.size) {updates : List Update}
    (ran : dev.run libs updates = some dev') :
    ∃ cp', dev'.checkpoint libs = .ok cp' ∧ cp.size ≤ cp'.size ∧ (cp.size = cp'.size → cp.hash = cp'.hash) ∧
      (dev' = dev ∨ dev'.Installed libs cp') := by
  refine exec_keeps (fun now : Device => ∃ cp', now.checkpoint libs = .ok cp' ∧ cp.size ≤ cp'.size ∧
    (cp.size = cp'.size → cp.hash = cp'.hash) ∧ (now = dev ∨ now.Installed libs cp')) ran
    ⟨cp, stored, Nat.le_refl _, fun _ => rfl, .inl rfl⟩ ?_
  rintro now u next - stepped ⟨cp', there, larger, same, installed⟩
  obtain rfl : now.flash libs u = next := Option.some.inj stepped
  rcases flash_cases alike checks there (Nat.lt_of_lt_of_le positive larger) u with kept | ⟨cp'', further, fresh⟩
  · rw [kept]
    exact ⟨cp', there, larger, same, installed⟩
  · refine ⟨cp'', fresh.checkpoint, Nat.le_trans larger further.size, fun equal => ?_, .inr fresh⟩
    have middle : cp.size = cp'.size := Nat.le_antisymm larger (equal ▸ further.size)
    exact (same middle).trans (further.same (middle.symm.trans equal))

end Checks

section SampleUpdate

-- SHA-512 of the empty image.
def emptyImageSHA512 : Bytes :=
  [207, 131, 225, 53, 126, 239, 184, 189, 241, 84, 40, 80, 214, 109, 128, 7, 214, 32, 228, 5, 11, 87, 21,
    220, 131, 244, 169, 33, 211, 108, 233, 206, 71, 208, 209, 60, 93, 133, 242, 176, 255, 131, 24, 210, 135,
    126, 236, 47, 99, 185, 49, 189, 71, 65, 122, 129, 165, 56, 50, 122, 249, 39, 218, 62]

variable (metadata manifest bundle : Bytes)

/-- A log of one manifest for the empty image, with its JSON and that of its metadata and its bundle. -/
def manifestLog : UpdateLibraries where
  parseLog raw origin :=
    if raw = [1] then .ok (⟨origin, 1, (LogHasher.listing [manifest] []).hashLeaf manifest⟩, [55, 10])
    else .error (.text "malformed note")
  hasher := .listing [manifest] []
  proofs := ProofPackage.reference
  decodeStatement _ := .error (.text "EOF")
  verifyPSS _ _ signature := if signature = [7] then .ok () else .error (.text "crypto/rsa: verification error")
  unmarshalBundle raw :=
    if raw = bundle then .ok ⟨manifest, [1], ⟨[], 0, []⟩⟩ else .error (.text "unexpected end of JSON input")
  unmarshalStatement raw :=
    if raw = manifest then .ok ⟨firmwareMetadataType, metadata, [7]⟩ else .error (.text "unexpected end of JSON input")
  unmarshalMetadata raw :=
    if raw = metadata then .ok ⟨emptyImageSHA512, []⟩ else .error (.text "unexpected end of JSON input")
  decodeBundle raw := if raw = bundle then .ok ⟨manifest, [1], ⟨[], 0, []⟩⟩ else .error (.text "EOF")
  sha512 image := if image = [] then emptyImageSHA512 else []

def manifestCheckpoint : LogCheckpoint :=
  ⟨⟨ftLogOrigin, 1, (LogHasher.listing [manifest] []).hashLeaf manifest⟩, 7, [1]⟩

theorem manifestLog_parses :
    (manifestLog metadata manifest bundle).parseCheckpoint [1] = .ok (manifestCheckpoint manifest) := by
  have lines : (Libraries.trimNewlines [55, 10]).splitOn newline = [[55]] := by decide
  have time : parseUint 10 64 [55] = some 7 := by decide
  simp [Libraries.parseCheckpoint, manifestLog, lines, time, manifestCheckpoint, bind, Except.bind]

theorem manifestLog_verifies :
    (manifestLog metadata manifest bundle).verifyBundle bundle =
      .ok (⟨manifest, [1], ⟨[], 0, []⟩⟩, ⟨emptyImageSHA512, []⟩) := by
  have parsed := manifestLog_parses metadata manifest bundle
  have read : (manifestLog metadata manifest bundle).unmarshalBundle bundle = .ok ⟨manifest, [1], ⟨[], 0, []⟩⟩ := by
    simp [manifestLog]
  have statement : (manifestLog metadata manifest bundle).unmarshalStatement manifest =
      .ok ⟨firmwareMetadataType, metadata, [7]⟩ := by simp [manifestLog]
  have described : (manifestLog metadata manifest bundle).unmarshalMetadata metadata =
      .ok ⟨emptyImageSHA512, []⟩ := by
    simp [manifestLog]
  have signed : (manifestLog metadata manifest bundle).verifySignature .publisher firmwareMetadataType metadata [7] =
      .ok () := by simp [manifestLog, Libraries.verifySignature, hideErr, Except.mapError]
  have size : (manifestCheckpoint manifest).size = 1 := rfl
  have included : (manifestLog metadata manifest bundle).proofs.verifyInclusion
      (manifestLog metadata manifest bundle).hasher 0 1
        ((manifestLog metadata manifest bundle).hasher.hashLeaf manifest)
      [] (manifestCheckpoint manifest).hash = .ok () := by
    have only : inclusionRoot (LogHasher.listing [manifest] []).hashChildren 1 1 0
        ((LogHasher.listing [manifest] []).hashLeaf manifest) [] =
          some ((LogHasher.listing [manifest] []).hashLeaf manifest) := rfl
    simp [manifestLog, manifestCheckpoint, ProofPackage.reference, only]
  simp [UpdateLibraries.verifyBundle, read, parsed, statement, signed, size, included, described, wrapErr,
    Except.mapError, bind, Except.bind]

def metadataJson : Bytes :=
  Checkpoints.asciiBytes ("\x7b\"FirmwareImageSHA512\":\"z4PhNX7vuL3xVChQ1m2AB9Yg5AULVxXcg/SpIdNs6c5H0NE8XYXysP+DGNKHfuwvY7kxvU" ++
    "dBeoGlODJ6+SfaPg==\"\x7d")

def manifestJson : Bytes :=
  Checkpoints.asciiBytes ("\x7b\"Type\":102,\"Statement\":\"eyJGaXJtd2FyZUltYWdlU0hBNTEyIjoiejRQaE5YN3Z1TDN4VkNoUTFtMkFCOVlnNUF" ++
    "VTFZ4WGNnL1NwSWROczZjNUgwTkU4WFlYeXNQK0RHTktIZnV3dlk3a3h2VWRCZW9HbE9ESjYrU2ZhUGc9PSJ9\",\"Signature" ++
    "\":\"Bw==\"\x7d")

def bundleJson : Bytes :=
  Checkpoints.asciiBytes ("\x7b\"ManifestStatement\":\"eyJUeXBlIjoxMDIsIlN0YXRlbWVudCI6ImV5SkdhWEp0ZDJGeVpVbHRZV2RsVTBoQk5URXlJ" ++
    "am9pZWpSUWFFNVlOM1oxVERONFZrTm9VVEZ0TWtGQ09WbG5OVUZWVEZaNFdHTm5MMU53U1dST2N6WmpOVWd3VGtVNFdGbFllWE5R" ++
    "SzBSSFRrdElablYzZGxrM2EzaDJWV1JDWlc5SGJFOUVTallyVTJaaFVHYzlQU0o5IiwiU2lnbmF0dXJlIjoiQnc9PSJ9\",\"Che" ++
    "ckpoint\":\"AQ==\"\x7d")

end SampleUpdate

end Firmware
