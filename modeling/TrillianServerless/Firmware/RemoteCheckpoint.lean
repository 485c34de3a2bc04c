import TrillianServerless.Firmware.Update

set_option autoImplicit false

namespace Firmware

open Go Merkle

namespace UpdateLibraries

variable (libs : UpdateLibraries)

def bundleConsistency (pb : ProofBundle) (rc : LogCheckpoint) (cpFunc : Nat → Nat → Except GoError (List Bytes)) :
    Except GoError Unit :=
  if rc.size < pb.inclusionProof.leafIndex then
    .error (.text "remote verification failed wcp treesize(%d)<device cp index(%d)")
  else do
    let bundleCP ← wrapErr "failed to open the proof bundle checkpoint: %w" (libs.parseCheckpoint pb.checkpoint)
    let (fromCP, toCP) := if bundleCP.size < rc.size then (bundleCP, rc) else (rc, bundleCP)
    let cProof ← hideErr "cpFunc failed: %q" (cpFunc fromCP.size toCP.size)
    wrapErr "failed consistency proof between remote and client checkpoint %w"
      (libs.proofs.verifyConsistency libs.hasher fromCP.size toCP.size cProof fromCP.hash toCP.hash)

end UpdateLibraries

section Remote

variable {libs : UpdateLibraries}

/-- The entries that a checkpoint commits to. -/
structure LogCheckpoint.TreeOf (libs : UpdateLibraries) (cp : LogCheckpoint) (entries : List Bytes) : Prop where
  size : entries.length = cp.size
  root : libs.hasher.logRoot entries = cp.hash
  binds : libs.hasher.Binds entries

/-- The tree of the remote checkpoint reaches to the manifest and has it in its place. -/
structure ProofBundle.CoveredBy (libs : UpdateLibraries) (pb : ProofBundle) (rc : LogCheckpoint) : Prop where
  size : pb.inclusionProof.leafIndex < rc.size
  manifest : ∀ cp published remote, libs.parseCheckpoint pb.checkpoint = .ok cp → cp.TreeOf libs published →
    rc.TreeOf libs remote → remote[pb.inclusionProof.leafIndex]? = some pb.manifestStatement

theorem bundleConsistency_ok {pb : ProofBundle} {rc cp : LogCheckpoint}
    {cpFunc : Nat → Nat → Except GoError (List Bytes)} (signed : libs.parseCheckpoint pb.checkpoint = .ok cp)
    (passed : libs.bundleConsistency pb rc cpFunc = .ok ()) :
    pb.inclusionProof.leafIndex ≤ rc.size ∧ ∃ cProof,
      if cp.size < rc.size then
        libs.proofs.verifyConsistency libs.hasher cp.size rc.size cProof cp.hash rc.hash = .ok ()
      else libs.proofs.verifyConsistency libs.hasher rc.size cp.size cProof rc.hash cp.hash = .ok () := by
  unfold UpdateLibraries.bundleConsistency at passed
  split at passed
  next => cases passed
  next reaches =>
    obtain ⟨bundleCP, opened, passed⟩ := except_bind_eq_ok.mp passed
    rw [wrapErr_eq_ok, signed] at opened
    obtain rfl := Except.ok.inj opened
    refine ⟨Nat.le_of_not_lt reaches, ?_⟩
    by_cases ahead : cp.size < rc.size
    · simp only [if_pos ahead] at passed ⊢
      obtain ⟨cProof, -, verified⟩ := except_bind_eq_ok.mp passed
      exact ⟨cProof, wrapErr_eq_ok.mp verified⟩
    · simp only [if_neg ahead] at passed ⊢
      obtain ⟨cProof, -, verified⟩ := except_bind_eq_ok.mp passed
      exact ⟨cProof, wrapErr_eq_ok.mp verified⟩

theorem coveredBy_of_larger (paths : libs.proofs.ChecksInclusion) (sound : libs.proofs.SoundConsistency)
    {raw : Bytes} {pb : ProofBundle} {fwMeta : FirmwareMetadata} {rc : LogCheckpoint}
    {cpFunc : Nat → Nat → Except GoError (List Bytes)} (accepted : libs.verifyBundle raw = .ok (pb, fwMeta))
    (passed : libs.bundleConsistency pb rc cpFunc = .ok ()) (larger : pb.inclusionProof.leafIndex < rc.size) :
    pb.CoveredBy libs rc := by
  refine ⟨larger, fun cp published remote opened tree tree' => ?_⟩
  obtain ⟨_, found, proves⟩ := verifyBundle_ok accepted
  obtain rfl := Except.ok.inj (opened.symm.trans proves.signed)
  have included := proves.included
  rw [← tree.root] at included
  obtain ⟨inside, manifest⟩ := tree.binds.included paths tree.size included
  obtain ⟨-, cProof, verified⟩ := bundleConsistency_ok opened passed
  rw [← tree.size, ← tree'.size, ← tree.root, ← tree'.root] at verified
  rw [← tree'.size] at larger
  split at verified
  · obtain ⟨rest, rfl⟩ := sound _ _ _ _ tree.binds tree'.binds (by omega) verified
    rw [List.getElem?_append_left inside, List.getElem?_eq_getElem inside, manifest]
  · obtain ⟨rest, rfl⟩ := sound _ _ _ _ tree'.binds tree.binds (by omega) verified
    rw [List.getElem?_eq_getElem larger, manifest, List.getElem_append_left larger]

/-- A remote checkpoint that passes the check covers the manifest unless its tree ends right before that. -/
theorem bundleConsistency_covers_iff (libs : UpdateLibraries) (paths : libs.proofs.ChecksInclusion)
    (sound : libs.proofs.SoundConsistency) (raw : Bytes) (pb : ProofBundle) (fwMeta : FirmwareMetadata)
    (rc : LogCheckpoint) (cpFunc : Nat → Nat → Except GoError (List Bytes))
    (accepted : libs.verifyBundle raw = .ok (pb, fwMeta)) (passed : libs.bundleConsistency pb rc cpFunc = .ok ()) :
    pb.CoveredBy libs rc ↔ rc.size ≠ pb.inclusionProof.leafIndex := by
  constructor
  · intro covered
    exact Nat.ne_of_gt covered.size
  · intro apart
    obtain ⟨_, cp, proves⟩ := verifyBundle_ok accepted
    have reaches := (bundleConsistency_ok proves.signed passed).1
    exact coveredBy_of_larger paths sound accepted passed (by omega)

def manifestBundle : ProofBundle := ⟨manifestJson, [1], ⟨[], 0, []⟩⟩

-- For any texts, so that those of the repository's test are not looked into.
theorem manifest_consistent (metadata manifest bundle : Bytes) :
    (manifestLog metadata manifest bundle).bundleConsistency ⟨manifest, [1], ⟨[], 0, []⟩⟩
      (manifestCheckpoint manifest) (UpdateLibraries.getConsistencyFunc (.ok [])) = .ok () := by
  have parsed := manifestLog_parses metadata manifest bundle
  have consistent : (manifestLog metadata manifest bundle).proofs.verifyConsistency
      (manifestLog metadata manifest bundle).hasher 1 1 [] (manifestCheckpoint manifest).hash
      (manifestCheckpoint manifest).hash = .ok () := by simp [manifestLog, ProofPackage.reference]
  have size : (manifestCheckpoint manifest).size = 1 := rfl
  simp [UpdateLibraries.bundleConsistency, UpdateLibraries.getConsistencyFunc, parsed, size,
    consistent, wrapErr, hideErr, Except.mapError, bind, Except.bind]

theorem bundleConsistency_covers_iff_manifest :
    (manifestLog metadataJson manifestJson bundleJson).verifyBundle bundleJson =
        .ok (manifestBundle, ⟨emptyImageSHA512, []⟩) ∧
      manifestBundle.CoveredBy (manifestLog metadataJson manifestJson bundleJson) (manifestCheckpoint manifestJson) :=
  ⟨manifestLog_verifies _ _ _, (bundleConsistency_covers_iff (manifestLog metadataJson manifestJson bundleJson)
    ProofPackage.reference_checksInclusion ProofPackage.reference_soundConsistency bundleJson manifestBundle
    ⟨emptyImageSHA512, []⟩ (manifestCheckpoint manifestJson) (UpdateLibraries.getConsistencyFunc (.ok []))
    (manifestLog_verifies _ _ _) (manifest_consistent _ _ _)).mpr (by decide)⟩

-- The checkpoint of an empty tree, which the JSON value {} gives.
theorem empty_tree_passes :
    (manifestLog metadataJson manifestJson bundleJson).verifyBundle bundleJson =
        .ok (manifestBundle, ⟨emptyImageSHA512, []⟩) ∧
      (manifestLog metadataJson manifestJson bundleJson).bundleConsistency manifestBundle LogCheckpoint.zero
        (UpdateLibraries.getConsistencyFunc (.ok [])) = .ok () ∧
      ¬ manifestBundle.CoveredBy (manifestLog metadataJson manifestJson bundleJson) LogCheckpoint.zero := by
  refine ⟨manifestLog_verifies _ _ _, ?_, fun covered => absurd covered.size (by decide)⟩
  have parsed := manifestLog_parses metadataJson manifestJson bundleJson
  have consistent : (manifestLog metadataJson manifestJson bundleJson).proofs.verifyConsistency
      (manifestLog metadataJson manifestJson bundleJson).hasher 0 1 [] [] (manifestCheckpoint manifestJson).hash =
        .ok () := by simp [manifestLog, ProofPackage.reference]
  have size : (manifestCheckpoint manifestJson).size = 1 := rfl
  simp [UpdateLibraries.bundleConsistency, UpdateLibraries.getConsistencyFunc, manifestBundle, parsed, size,
    consistent, LogCheckpoint.zero, wrapErr, hideErr, Except.mapError, bind, Except.bind]

end Remote

end Firmware
