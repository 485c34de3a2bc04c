import Mathlib.Logic.Relation
import TrillianServerless.Firmware.Boot

set_option autoImplicit false

namespace Firmware

namespace Publisher

open Go Merkle Personality

section Manifest

structure PublishOpts where
  deviceID : String
  revision : Nat
  binary : Except GoError Bytes
  buildTime : String
  outputPath : String

/-- What is called outside the repository: the packages of the log, SHA-512 and SHA-256, and the publisher's key. -/
structure Tools where
  libs : Libraries
  sha512 : Bytes → Bytes
  sha256 : Bytes → Bytes
  signPSS : Bytes → Except GoError Bytes

variable (t : Tools)

def Tools.updates : UpdateLibraries := t.libs.updates t.sha512

-- ExpectedMeasurement of the USB armory.
def Tools.armoryMeasurement (img : Bytes) : Bytes := t.sha256 (Checkpoints.asciiBytes "armory_mkii" ++ img)

def Tools.measureFor (deviceID : String) : Except GoError (Bytes → Bytes) :=
  if deviceID = "armory" then .ok t.armoryMeasurement
  else if deviceID = "dummy" then .ok t.updates.expectedMeasurement
  else .error (.text "DeviceID must be one of: 'dummy', 'armory'")

def Tools.createManifest (opts : PublishOpts) : Except GoError (Manifest × Bytes) := do
  let measure ← t.measureFor opts.deviceID
  let fw ← wrapErr "failed to read %q: %w" opts.binary
  .ok (⟨⟨t.sha512 fw, measure fw⟩, opts.deviceID, opts.revision, opts.buildTime⟩, fw)

def Tools.signMessage (type : UInt8) (msg : Bytes) : Except GoError Bytes :=
  hideErr "failed to sign statement %v" (t.signPSS (type :: msg))

def Tools.createStatementJSON (m : Manifest) : Except GoError Bytes := do
  let js := marshalManifest m
  let sig ← wrapErr "failed to generate signature: %w" (t.signMessage firmwareMetadataType js)
  .ok (marshalStatement ⟨firmwareMetadataType, js, sig⟩)

end Manifest

section Await

/-- What a round of AwaitInclusion comes upon: whether its context has ended, and the answers of the log. -/
structure Round where
  done : Bool
  root : Except GoError Bytes
  consistency : Except GoError (List Bytes)
  inclusion : Except GoError Bytes

variable (t : Tools)

def Tools.getCheckpoint (root : Except GoError Bytes) : Except GoError LogCheckpoint := do
  t.libs.parseCheckpoint (← root)

def getInclusion (body : Except GoError Bytes) : Except GoError WireProof := do
  (← Json.decodeNext (← body)).decodeStruct wireFields ⟨none, 0, none⟩

-- The tree has grown to `cp`: the statement is looked for there.
def Tools.checkInclusion (cp : LogCheckpoint) (s : Bytes) (ip : WireProof) : Except GoError Unit :=
  wrapErr "invalid inclusion proof received: %w" (t.libs.proofs.verifyInclusion t.libs.hasher ip.leafIndex cp.size
    (t.libs.hasher.hashLeaf s) ip.toProof.proof cp.hash)

def Tools.checkConsistency (cp newCP : LogCheckpoint) (proof : List Bytes) : Except GoError Unit :=
  wrapErr "invalid inclusion proof received: %w" (t.libs.proofs.verifyConsistency t.libs.hasher cp.size newCP.size
    proof cp.hash newCP.hash)

-- The proof that a round goes on with; a log that has none yet is asked again.
def Tools.roundConsistency (cp newCP : LogCheckpoint) (r : Round) : Option (Except GoError (List Bytes)) :=
  if 0 < cp.size then
    match r.consistency with
    | .error _ => none
    | .ok proof => some ((t.checkConsistency cp newCP proof).map fun _ => proof)
  else some (.ok [])

/-- `none` means that it still waits after these rounds. -/
def Tools.awaitInclusion (s : Bytes) : List Round → LogCheckpoint →
    Option (Except GoError (LogCheckpoint × List Bytes × WireProof))
  | [], _ => none
  | r :: rounds, cp =>
    if r.done then some (.error (.text "context canceled"))
    else
      match t.getCheckpoint r.root with
      | .error reason => some (.error reason)
      | .ok newCP =>
        if newCP.size ≤ cp.size then awaitInclusion s rounds cp
        else
          match t.roundConsistency cp newCP r with
          | none => awaitInclusion s rounds cp
          | some (.error reason) => some (.error reason)
          | some (.ok consistency) =>
            match getInclusion r.inclusion with
            | .error _ => awaitInclusion s rounds newCP
            | .ok ip => some ((t.checkInclusion newCP s ip).map fun _ => (newCP, consistency, ip))

end Await

section Main

/-- What the log answers to a run of the publisher: for its first checkpoint, to its statement, and in each round. -/
structure Answers where
  root : Except GoError Bytes
  submitted : Except GoError Unit
  rounds : List Round

variable (t : Tools)

-- Main up to where the log has the statement.
def Tools.submit (opts : PublishOpts) (answers : Answers) : Except GoError (Bytes × Bytes × LogCheckpoint) := do
  let (metadata, fw) ← wrapErr "failed to create manifest: %w" (t.createManifest opts)
  let js ← wrapErr "failed to marshal statement: %w" (t.createStatementJSON metadata)
  let initialCP ← wrapErr "failed to get a pre-submission checkpoint from log: %w" (t.getCheckpoint answers.root)
  wrapErr "couldn't submit statement: %w" answers.submitted
  .ok (js, fw, initialCP)

-- The file that is written, if one was asked for.
def packageFile (opts : PublishOpts) (js fw : Bytes) (awaited : LogCheckpoint × List Bytes × WireProof) : Option Bytes :=
  if opts.outputPath = "" then none
  else some (encodePackage ⟨fw, marshalBundle js awaited.1.envelope awaited.2.2⟩)

/-- Main: `none` while it waits, otherwise how it ends, with the file that it has written. -/
def Tools.main (opts : PublishOpts) (answers : Answers) : Option (Except GoError (Option Bytes)) :=
  match t.submit opts answers with
  | .error reason => some (.error reason)
  | .ok (js, fw, initialCP) =>
    (t.awaitInclusion js answers.rounds initialCP).map fun awaited =>
      (wrapErr "bailing: %w" awaited).map (packageFile opts js fw)

end Main

section Awaited

variable {t : Tools}

theorem getInclusion_index {body : Except GoError Bytes} {ip : WireProof} (read : getInclusion body = .ok ip) :
    ip.leafIndex < 2 ^ 64 := by
  obtain ⟨raw, -, read⟩ := except_bind_eq_ok.mp read
  obtain ⟨v, -, decoded⟩ := except_bind_eq_ok.mp read
  refine Json.decodeStruct_keeps (fun ip => ip.leafIndex < 2 ^ 64) ?_ decoded (by decide)
  intro f field p v p' stored small
  simp only [wireFields, List.mem_cons, List.not_mem_nil, or_false] at field
  rcases field with rfl | rfl | rfl
  · obtain ⟨b, -, rfl⟩ := except_map_eq_ok.mp stored
    exact small
  · obtain ⟨n, index, rfl⟩ := except_map_eq_ok.mp stored
    exact Json.toUint_lt index small
  · obtain ⟨bs, -, rfl⟩ := except_map_eq_ok.mp stored
    exact small

/-- A larger checkpoint, with a proof that it extends one that is not of the empty tree. -/
def Tools.Advances (t : Tools) (cp newCP : LogCheckpoint) : Prop :=
  cp.size < newCP.size ∧ (0 < cp.size → ∃ proof,
    t.libs.proofs.verifyConsistency t.libs.hasher cp.size newCP.size proof cp.hash newCP.hash = .ok ())

theorem roundConsistency_advances {cp newCP : LogCheckpoint} {r : Round} {proof : List Bytes}
    (grown : ¬ newCP.size ≤ cp.size) (went : t.roundConsistency cp newCP r = some (.ok proof)) :
    t.Advances cp newCP := by
  refine ⟨Nat.lt_of_not_le grown, fun positive => ?_⟩
  unfold Tools.roundConsistency at went
  rw [if_pos positive] at went
  split at went
  next => cases went
  next answer _ =>
    obtain ⟨_, checked, -⟩ := except_map_eq_ok.mp (Option.some.inj went)
    exact ⟨answer, wrapErr_eq_ok.mp checked⟩

/-- AwaitInclusion returns a checkpoint of the log that it got to by proofs of consistency, and a proof that the
statement is in its tree. -/
theorem awaitInclusion_ok {s : Bytes} {rounds : List Round} {cp cp' : LogCheckpoint} {consistency : List Bytes}
    {ip : WireProof} (returned : t.awaitInclusion s rounds cp = some (.ok (cp', consistency, ip))) :
    Relation.TransGen t.Advances cp cp' ∧ t.libs.parseCheckpoint cp'.envelope = .ok cp' ∧ ip.leafIndex < 2 ^ 64 ∧
      t.libs.proofs.verifyInclusion t.libs.hasher ip.leafIndex cp'.size (t.libs.hasher.hashLeaf s) ip.toProof.proof
        cp'.hash = .ok () := by
  induction rounds generalizing cp with
  | nil => cases returned
  | cons r rounds ih =>
    rw [Tools.awaitInclusion] at returned
    split at returned
    next => cases returned
    next =>
      split at returned
      next => cases returned
      next newCP got =>
        obtain ⟨raw, -, parsed⟩ := except_bind_eq_ok.mp got
        split at returned
        next => exact ih returned
        next grown =>
          split at returned
          next => exact ih returned
          next => cases returned
          next proof went =>
            have advances := roundConsistency_advances grown went
            split at returned
            next =>
              obtain ⟨path, rest⟩ := ih returned
              exact ⟨.trans (.single advances) path, rest⟩
            next found inclusion =>
              obtain ⟨_, checked, same⟩ := except_map_eq_ok.mp (Option.some.inj returned)
              obtain ⟨rfl, rest⟩ := Prod.mk.inj same
              obtain ⟨rfl, rfl⟩ := Prod.mk.inj rest
              refine ⟨.single advances, ?_, getInclusion_index inclusion, wrapErr_eq_ok.mp checked⟩
              rw [parseCheckpoint_envelope parsed]
              exact parsed

end Awaited

section Published

variable {t : Tools}

-- What createManifest has put down.
theorem createManifest_ok {opts : PublishOpts} {m : Manifest} {fw : Bytes}
    (created : t.createManifest opts = .ok (m, fw)) : opts.binary = .ok fw ∧ m.firmwareImageSHA512 = t.sha512 fw ∧
      m.firmwareRevision = opts.revision ∧
      (opts.deviceID = "dummy" → m.expectedFirmwareMeasurement = t.updates.expectedMeasurement fw) := by
  obtain ⟨measure, chosen, created⟩ := except_bind_eq_ok.mp created
  obtain ⟨image, read, same⟩ := except_bind_eq_ok.mp created
  obtain ⟨rfl, rfl⟩ := Prod.mk.inj (Except.ok.inj same)
  refine ⟨wrapErr_eq_ok.mp read, rfl, rfl, fun dummy => ?_⟩
  rw [dummy] at chosen
  obtain rfl := Except.ok.inj chosen
  rfl

theorem accepts_stored {libs : UpdateLibraries} {dev : Device} {up : UpdatePackage} {dc : LogCheckpoint}
    {consistency : Except GoError (List Bytes)} (stored : dev.checkpoint libs = .ok dc) :
    dev.Accepts libs ⟨up, consistency, true⟩ ↔ ∃ found, libs.bundleForUpdate up.proofBundle
      (libs.sha512 up.firmwareImage) dc (UpdateLibraries.getConsistencyFunc consistency) = .ok found := by
  rw [accepts_iff]
  constructor
  · rintro ⟨-, dc', pb, fwMeta, stored', verified⟩
    obtain rfl := Except.ok.inj (stored.symm.trans stored')
    exact ⟨_, verified⟩
  · rintro ⟨⟨pb, fwMeta⟩, verified⟩
    exact ⟨rfl, dc, pb, fwMeta, stored, verified⟩

-- The personality takes the statement for its image.
theorem checkRequest_created {server : Server} {r : Request} {m : Manifest} {js fw : Bytes}
    (signs : ∀ msg sig, t.signPSS msg = .ok sig → server.libs.verifyPSS .publisher msg sig = .ok ())
    (small : m.firmwareRevision < 2 ^ 64) (stated : t.createStatementJSON m = .ok js)
    (image : server.sha512 fw = m.firmwareImageSHA512)
    (parsed : parseAddFirmwareRequest server.mime r = .ok (js, fw)) : checkRequest server r = .ok (js, fw) := by
  obtain ⟨sig, signed, same⟩ := except_bind_eq_ok.mp stated
  obtain rfl := Except.ok.inj same
  have publisher : server.libs.verifySignature .publisher firmwareMetadataType (marshalManifest m) sig = .ok () :=
    hideErr_eq_ok.mpr (signs _ _ (hideErr_eq_ok.mp (wrapErr_eq_ok.mp signed)))
  have passes {A : Type} {message : String} {x : Except GoError A} {a : A} (good : x = .ok a) :
      badRequest message x = .ok a := by
    rw [good]
    rfl
  refine except_bind_eq_ok.mpr ⟨_, passes parsed, except_bind_eq_ok.mpr ⟨_, passes (decodeStatement_marshal _),
    except_bind_eq_ok.mpr ⟨(), passes publisher, ?_⟩⟩⟩
  rw [if_neg (not_not.mpr rfl)]
  refine except_bind_eq_ok.mpr ⟨m, passes (unmarshalManifest_marshal small), ?_⟩
  exact if_neg (not_not.mpr image)

-- What the package proves of the image.
theorem package_proves {m : Manifest} {js : Bytes} {cp : LogCheckpoint} {ip : WireProof}
    (signs : ∀ msg sig, t.signPSS msg = .ok sig → t.libs.verifyPSS .publisher msg sig = .ok ())
    (small : m.firmwareRevision < 2 ^ 64) (stated : t.createStatementJSON m = .ok js)
    (parsed : t.libs.parseCheckpoint cp.envelope = .ok cp) (included : t.libs.proofs.verifyInclusion t.libs.hasher
      ip.leafIndex cp.size (t.libs.hasher.hashLeaf js) ip.toProof.proof cp.hash = .ok ()) :
    ProofBundle.Proves t.updates ⟨js, cp.envelope, ip.toProof⟩ cp m.toFirmwareMetadata := by
  obtain ⟨sig, signed, same⟩ := except_bind_eq_ok.mp stated
  obtain rfl := Except.ok.inj same
  have valid := signs _ _ (hideErr_eq_ok.mp (wrapErr_eq_ok.mp signed))
  have publisher : t.libs.verifySignature .publisher firmwareMetadataType (marshalManifest m) sig = .ok () :=
    hideErr_eq_ok.mpr valid
  have metadata : t.updates.unmarshalMetadata (marshalManifest m) = .ok m.toFirmwareMetadata := by
    refine (updates_unmarshalMetadata _).trans ?_
    rw [unmarshalManifest_marshal small]
    rfl
  exact ⟨parsed, ⟨_, unmarshalStatement_marshal _, rfl, publisher, metadata⟩, included⟩

end Published

/-- Whatever the log has answered, a package that the publisher writes is good for the rest of the way: the personality
takes its statement, the flash tool takes it for every device whose checkpoint the log proves to be older, and the
device boots its image. -/
theorem published_package_boots (t : Tools)
    (signs : ∀ msg sig, t.signPSS msg = .ok sig → t.libs.verifyPSS .publisher msg sig = .ok ()) (opts : PublishOpts)
    (small : opts.revision < 2 ^ 64) (answers : Answers) (file : Bytes)
    (written : t.main opts answers = some (.ok (some file))) :
    ∃ fw js initial cp proof up, opts.binary = .ok fw ∧ t.getCheckpoint answers.root = .ok initial ∧
      Relation.TransGen t.Advances initial cp ∧ t.libs.parseCheckpoint cp.envelope = .ok cp ∧
      readUpdateFile file = .ok up ∧ up.firmwareImage = fw ∧
      unmarshalBundle up.proofBundle = .ok ⟨js, cp.envelope, proof⟩ ∧
      (∀ server r, server.libs = t.libs → server.sha512 = t.sha512 →
        parseAddFirmwareRequest server.mime r = .ok (js, fw) → checkRequest server r = .ok (js, fw)) ∧
      (∀ (dev : Device) dc consistency, dev.checkpoint t.updates = .ok dc →
        (dev.Accepts t.updates ⟨up, consistency, true⟩ ↔ dc.size = 0 ∨ ∃ proof, consistency = .ok proof ∧
          t.libs.proofs.verifyConsistency t.libs.hasher dc.size cp.size proof dc.hash cp.hash = .ok ())) ∧
      (opts.deviceID = "dummy" → (Device.applyUpdate up).reset t.updates = .ok fw) := by
  unfold Tools.main at written
  split at written
  next => cases written
  next js fw initial submitted =>
    obtain ⟨awaited, returned, same⟩ := Option.map_eq_some_iff.mp written
    obtain ⟨⟨cp, consistency, ip⟩, ended, package⟩ := except_map_eq_ok.mp same
    obtain ⟨⟨m, image⟩, created, submitted⟩ := except_bind_eq_ok.mp submitted
    obtain ⟨statement, stated, submitted⟩ := except_bind_eq_ok.mp submitted
    obtain ⟨first, root, submitted⟩ := except_bind_eq_ok.mp submitted
    obtain ⟨_, -, same⟩ := except_bind_eq_ok.mp submitted
    obtain ⟨rfl, rest⟩ := Prod.mk.inj (Except.ok.inj same)
    obtain ⟨rfl, rfl⟩ := Prod.mk.inj rest
    rw [wrapErr_eq_ok] at ended created stated root
    rw [ended] at returned
    obtain ⟨advances, parsed, index, included⟩ := awaitInclusion_ok returned
    obtain ⟨binary, hash, revision, measured⟩ := createManifest_ok created
    have proves := package_proves signs (revision ▸ small) stated parsed included
    have bundle := unmarshalBundle_marshal statement cp.envelope index
    have bundled := verifyBundle_intro ((updates_unmarshalBundle _).trans bundle) proves
    obtain rfl : encodePackage ⟨image, marshalBundle statement cp.envelope ip⟩ = file := by
      unfold packageFile at package
      split at package
      next => cases package
      next => exact Option.some.inj package
    refine ⟨image, statement, first, cp, _, _, binary, root, advances, parsed, readUpdateFile_encode _, rfl, bundle,
      fun server r libs sha512 request => ?_, fun dev dc consistency stored => ?_, fun dummy => ?_⟩
    · refine checkRequest_created (libs ▸ signs) (revision ▸ small) stated ?_ request
      rw [sha512, hash]
    · have checked := @bundleForUpdate_iff t.updates _ (t.sha512 image) dc cp
        (UpdateLibraries.getConsistencyFunc consistency) _ _ bundled hash.symm parsed
      refine (accepts_stored stored).trans (checked.trans ?_)
      rcases Nat.eq_zero_or_pos dc.size with empty | positive
      · have none : ¬ 0 < dc.size := by omega
        exact iff_of_true ⟨[], if_neg none, fun positive => absurd positive none⟩ (.inl empty)
      · constructor
        · rintro ⟨proof, answered, consistent⟩
          rw [UpdateLibraries.getConsistencyFunc, if_pos positive, wrapErr_eq_ok] at answered
          exact .inr ⟨proof, answered, consistent positive⟩
        · rintro (empty | ⟨proof, answered, consistent⟩)
          · omega
          · refine ⟨proof, ?_, fun _ => consistent⟩
            rw [UpdateLibraries.getConsistencyFunc, if_pos positive, wrapErr_eq_ok, answered]
    · exact reset_intro rfl rfl bundled (measured dummy).symm

section Sample

-- A log that is empty, and then has the statement.
def sampleTools : Tools where
  libs := {
    parseLog raw origin :=
      if raw = [0] then .ok (⟨origin, 0, []⟩, [55, 10])
      else if raw = [1] then .ok (⟨origin, 1, (LogHasher.listing [dummyStatement] []).hashLeaf dummyStatement⟩, [55, 10])
      else .error (.text "malformed note")
    hasher := .listing [dummyStatement] []
    proofs := ProofPackage.reference
    decodeStatement := Personality.decodeStatement
    verifyPSS _ _ signature := if signature = [7] then .ok () else .error (.text "crypto/rsa: verification error") }
  sha512 := sampleSHA512
  sha256 _ := []
  signPSS _ := .ok [7]

def sampleOpts : PublishOpts := ⟨"dummy", 1, .ok [], "noon", "update.json"⟩

def sampleAnswers : Answers :=
  ⟨.ok [0], .ok (), [⟨false, .ok [0], .ok [], .ok []⟩, ⟨false, .ok [1], .ok [], .ok (Checkpoints.asciiBytes "\x7b\x7d")⟩]⟩

def sampleFile : Bytes := encodePackage ⟨[], marshalBundle dummyStatement [1] ⟨none, 0, none⟩⟩

theorem sampleTools_checkpoint : sampleTools.getCheckpoint (.ok [0]) = .ok ⟨⟨ftLogOrigin, 0, []⟩, 7, [0]⟩ ∧
    sampleTools.getCheckpoint (.ok [1]) =
      .ok ⟨⟨ftLogOrigin, 1, (LogHasher.listing [dummyStatement] []).hashLeaf dummyStatement⟩, 7, [1]⟩ := by
  have lines : (Libraries.trimNewlines [55, 10]).splitOn newline = [[55]] := by decide
  have time : parseUint 10 64 [55] = some 7 := by decide
  constructor
  all_goals simp [Tools.getCheckpoint, Libraries.parseCheckpoint, sampleTools, lines, time, bind, Except.bind]

theorem sampleTools_publishes : sampleTools.main sampleOpts sampleAnswers = some (.ok (some sampleFile)) := by
  obtain ⟨first, later⟩ := sampleTools_checkpoint
  have submitted : sampleTools.submit sampleOpts sampleAnswers =
      .ok (dummyStatement, [], ⟨⟨ftLogOrigin, 0, []⟩, 7, [0]⟩) := by
    have manifest : sampleTools.createManifest sampleOpts = .ok (dummyManifest, []) := rfl
    have root : sampleTools.getCheckpoint sampleAnswers.root = .ok ⟨⟨ftLogOrigin, 0, []⟩, 7, [0]⟩ := first
    simp only [Tools.submit, manifest, root]
    rfl
  have proof : getInclusion (.ok (Checkpoints.asciiBytes "\x7b\x7d")) = .ok ⟨none, 0, none⟩ :=
    Pipeline.toOption_eq_some.mp (by decide +kernel)
  have included : sampleTools.checkInclusion ⟨⟨ftLogOrigin, 1, (LogHasher.listing [dummyStatement] []).hashLeaf
      dummyStatement⟩, 7, [1]⟩ dummyStatement ⟨none, 0, none⟩ = .ok () := by
    have only : inclusionRoot (LogHasher.listing [dummyStatement] []).hashChildren 1 1 0
        ((LogHasher.listing [dummyStatement] []).hashLeaf dummyStatement) [] =
          some ((LogHasher.listing [dummyStatement] []).hashLeaf dummyStatement) := rfl
    refine wrapErr_eq_ok.mpr ?_
    simp [sampleTools, ProofPackage.reference, WireProof.toProof, only]
  have awaited : sampleTools.awaitInclusion dummyStatement sampleAnswers.rounds ⟨⟨ftLogOrigin, 0, []⟩, 7, [0]⟩ =
      some (.ok (⟨⟨ftLogOrigin, 1, (LogHasher.listing [dummyStatement] []).hashLeaf dummyStatement⟩, 7, [1]⟩, [],
        ⟨none, 0, none⟩)) := by
    simp only [Tools.awaitInclusion, sampleAnswers, first, later, Bool.false_eq_true, if_false, Nat.le_refl, if_true,
      Tools.roundConsistency, Nat.lt_irrefl, proof, included]
    rfl
  rw [Tools.main, submitted]
  dsimp only
  rw [awaited]
  rfl

theorem published_package_boots_sample : ∃ up js cp proof, readUpdateFile sampleFile = .ok up ∧
    unmarshalBundle up.proofBundle = .ok ⟨js, cp.envelope, proof⟩ ∧ sampleTools.libs.parseCheckpoint cp.envelope = .ok cp ∧
    (Device.applyUpdate up).reset sampleTools.updates = .ok [] := by
  have signs : ∀ msg sig, sampleTools.signPSS msg = .ok sig → sampleTools.libs.verifyPSS .publisher msg sig = .ok () := by
    intro msg sig signed
    obtain rfl := Except.ok.inj signed
    simp [sampleTools]
  obtain ⟨fw, js, initial, cp, proof, up, binary, -, -, parsed, read, -, bundle, -, -, boots⟩ := published_package_boots
    sampleTools signs sampleOpts (by decide) sampleAnswers sampleFile sampleTools_publishes
  obtain rfl := Except.ok.inj binary
  exact ⟨up, js, cp, proof, read, bundle, parsed, boots rfl⟩

end Sample

end Publisher

end Firmware
