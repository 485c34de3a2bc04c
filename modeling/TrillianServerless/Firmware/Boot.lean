import TrillianServerless.Firmware.Bundle

set_option autoImplicit false

namespace Firmware

open Go Merkle Runs

section Rom

-- The libraries of the flash tool and of the boot ROM, with encoding/json for what they read.
def Libraries.updates (libs : Libraries) (sha512 : Bytes → Bytes) : UpdateLibraries where
  toLibraries := libs
  unmarshalBundle := unmarshalBundle
  unmarshalStatement := Pipeline.unmarshalStatement
  unmarshalMetadata raw := (Personality.unmarshalManifest raw).map Personality.Manifest.toFirmwareMetadata
  decodeBundle := decodeBundle
  sha512 := sha512

variable (libs : UpdateLibraries)

-- ExpectedMeasurement of the dummy device.
def UpdateLibraries.expectedMeasurement (img : Bytes) : Bytes := libs.sha512 (Checkpoints.asciiBytes "dummy" ++ img)

def UpdateLibraries.bundleForBoot (bundleRaw measurement : Bytes) : Except GoError Unit := do
  let (_, fwMeta) ← libs.verifyBundle bundleRaw
  if measurement ≠ fwMeta.expectedFirmwareMeasurement then
    .error (.text "firmware measurement does not match metadata (0x%x != 0x%x)")
  else .ok ()

def readFile (file : Option Bytes) : Except GoError Bytes := file.elim (.error .notExist) .ok

/-- What Reset hands on to boot. -/
def Device.reset (dev : Device) : Except GoError Bytes := do
  let bundleRaw ← wrapErr "failed to read transparency bundle: %w" (readFile dev.bundle)
  let fw ← wrapErr "failed to read firmware: %w" (readFile dev.firmware)
  wrapErr "failed to verify bundle: %w" (libs.bundleForBoot bundleRaw (libs.expectedMeasurement fw))
  .ok fw

end Rom

section Interrupted

-- Where ApplyUpdate is killed: so many bytes of a file have been written.
inductive Cut where
  | bundle (written : Nat)
  | firmware (written : Nat)

def Device.applyUntil (dev : Device) (u : UpdatePackage) : Option Cut → Device
  | none => .applyUpdate u
  | some (.bundle written) => ⟨some (u.proofBundle.take written), dev.firmware⟩
  | some (.firmware written) => ⟨some u.proofBundle, some (u.firmwareImage.take written)⟩

structure Attempt where
  update : Update
  cut : Option Cut

variable (libs : UpdateLibraries)

-- Main of the flash tool without force, which may be killed while it writes.
def Device.attempt (dev : Device) (a : Attempt) : Device :=
  match dev.verifyUpdate libs a.update with
  | .error _ => dev
  | .ok _ => if a.update.agreed then dev.applyUntil a.update.package a.cut else dev

/-- The flash tool goes on to write the update. -/
def Device.Accepts (dev : Device) (u : Update) : Prop := (∃ found, dev.verifyUpdate libs u = .ok found) ∧ u.agreed = true

/-- The flash tool can read the checkpoint that is on the device. -/
def Device.Opens (dev : Device) : Prop := ∃ cp, dev.checkpoint libs = .ok cp

/-- VerifyConsistency asks for no proof between equal trees. -/
def SameTree (pkg : ProofPackage.Package) : Prop :=
  ∀ hasher size root, pkg.verifyConsistency hasher size size [] root root = .ok ()

/-- The update is refused, or the write of bundle.json gets to the end of its JSON. -/
def Device.Fits (dev : Device) (a : Attempt) : Prop :=
  dev.Accepts libs a.update → ∀ written, a.cut = some (.bundle written) →
    Json.extent a.update.package.proofBundle ≤ written

end Interrupted

section Cuts

variable {libs : Libraries} {sha512 : Bytes → Bytes} {dev : Device}

theorem updates_unmarshalBundle (raw : Bytes) : (libs.updates sha512).unmarshalBundle raw = unmarshalBundle raw := rfl

theorem updates_unmarshalStatement (raw : Bytes) :
    (libs.updates sha512).unmarshalStatement raw = Pipeline.unmarshalStatement raw := rfl

theorem updates_unmarshalMetadata (raw : Bytes) : (libs.updates sha512).unmarshalMetadata raw =
    (Personality.unmarshalManifest raw).map Personality.Manifest.toFirmwareMetadata := rfl

theorem decodeBundle_take {raw : Bytes} {pb : ProofBundle} (read : unmarshalBundle raw = .ok pb) (k : Nat) :
    decodeBundle (raw.take k) = if Json.extent raw ≤ k then .ok pb else .error Json.syntaxError := by
  obtain ⟨v, whole, decoded⟩ := except_bind_eq_ok.mp read
  rw [decodeBundle, Json.decodeNext_take whole (Json.decodeStruct_noNumber decoded)]
  split
  · exact decoded
  · rfl

theorem decodeBundle_whole {raw : Bytes} {pb : ProofBundle} (read : unmarshalBundle raw = .ok pb) :
    decodeBundle raw = .ok pb := by
  have cut := decodeBundle_take read raw.length
  rwa [List.take_length, if_pos (Json.extent_le raw)] at cut

theorem updates_decodesAlike : (libs.updates sha512).DecodesAlike := fun _ _ read => decodeBundle_whole read

theorem verifyBundle_intro {libs : UpdateLibraries} {raw : Bytes} {pb : ProofBundle} {cp : LogCheckpoint}
    {fwMeta : FirmwareMetadata} (parsed : libs.unmarshalBundle raw = .ok pb) (proves : pb.Proves libs cp fwMeta) :
    libs.verifyBundle raw = .ok (pb, fwMeta) := by
  obtain ⟨stmt, read, type, publisher, metadata⟩ := proves.manifest
  refine except_bind_eq_ok.mpr ⟨pb, wrapErr_eq_ok.mpr parsed, except_bind_eq_ok.mpr ⟨cp, wrapErr_eq_ok.mpr proves.signed,
    except_bind_eq_ok.mpr ⟨stmt, wrapErr_eq_ok.mpr read, except_bind_eq_ok.mpr ⟨(), wrapErr_eq_ok.mpr publisher, ?_⟩⟩⟩⟩
  rw [if_neg (not_not.mpr type)]
  exact except_bind_eq_ok.mpr ⟨(), wrapErr_eq_ok.mpr proves.included, except_bind_eq_ok.mpr ⟨fwMeta,
    wrapErr_eq_ok.mpr metadata, rfl⟩⟩

-- What the flash tool has checked when it accepts an update.
theorem accepts_iff {libs : UpdateLibraries} {u : Update} : dev.Accepts libs u ↔ u.agreed = true ∧ ∃ dc pb fwMeta,
    dev.checkpoint libs = .ok dc ∧
      libs.bundleForUpdate u.package.proofBundle (libs.sha512 u.package.firmwareImage) dc
        (UpdateLibraries.getConsistencyFunc u.consistency) = .ok (pb, fwMeta) := by
  constructor
  · rintro ⟨⟨⟨pb, fwMeta⟩, verified⟩, agreed⟩
    obtain ⟨raw, read, verified⟩ := except_bind_eq_ok.mp verified
    obtain ⟨dc, opened, verified⟩ := except_bind_eq_ok.mp verified
    rw [wrapErr_eq_ok] at read opened verified
    exact ⟨agreed, dc, pb, fwMeta, except_bind_eq_ok.mpr ⟨raw, read, opened⟩, verified⟩
  · rintro ⟨agreed, dc, pb, fwMeta, stored, verified⟩
    obtain ⟨raw, read, opened⟩ := except_bind_eq_ok.mp stored
    refine ⟨⟨_, except_bind_eq_ok.mpr ⟨raw, wrapErr_eq_ok.mpr read, except_bind_eq_ok.mpr ⟨dc, wrapErr_eq_ok.mpr opened,
      wrapErr_eq_ok.mpr verified⟩⟩⟩, agreed⟩

theorem attempt_accepted {libs : UpdateLibraries} {a : Attempt} (accepts : dev.Accepts libs a.update) :
    dev.attempt libs a = dev.applyUntil a.update.package a.cut := by
  obtain ⟨⟨found, verified⟩, agreed⟩ := accepts
  rw [Device.attempt, verified]
  exact if_pos agreed

theorem attempt_refused {libs : UpdateLibraries} {a : Attempt} (refuses : ¬ dev.Accepts libs a.update) :
    dev.attempt libs a = dev := by
  unfold Device.attempt
  split
  · rfl
  next found verified => exact if_neg fun agreed => refuses ⟨⟨found, verified⟩, agreed⟩

-- A run of the flash tool that is not killed.
theorem flash_accepted {libs : UpdateLibraries} {u : Update} (accepts : dev.Accepts libs u) :
    dev.flash libs u = .applyUpdate u.package := @attempt_accepted _ _ ⟨u, none⟩ accepts

theorem flash_refused {libs : UpdateLibraries} {u : Update} (refuses : ¬ dev.Accepts libs u) :
    dev.flash libs u = dev := @attempt_refused _ _ ⟨u, none⟩ refuses

-- The bundle of an update that is accepted, and the checkpoint in it.
theorem accepted_bundle {u : Update} (accepts : dev.Accepts (libs.updates sha512) u) :
    ∃ pb fwMeta cp, unmarshalBundle u.package.proofBundle = .ok pb ∧
      (libs.updates sha512).verifyBundle u.package.proofBundle = .ok (pb, fwMeta) ∧
      sha512 u.package.firmwareImage = fwMeta.firmwareImageSHA512 ∧ libs.parseCheckpoint pb.checkpoint = .ok cp := by
  obtain ⟨-, dc, pb, fwMeta, -, verified⟩ := accepts_iff.mp accepts
  obtain ⟨⟨bundle, found⟩, bundled, verified⟩ := except_bind_eq_ok.mp verified
  obtain ⟨parsed, cp, proves⟩ := verifyBundle_ok bundled
  dsimp only at verified
  split at verified
  next => cases verified
  next same => exact ⟨bundle, found, cp, parsed, bundled, not_not.mp same, proves.signed⟩

theorem checkpoint_of_bundle {raw : Bytes} {pb : ProofBundle} (bundle : dev.bundle = some raw)
    (decoded : decodeBundle raw = .ok pb) :
    dev.checkpoint (libs.updates sha512) = libs.parseCheckpoint pb.checkpoint := by
  have stored : dev.deviceCheckpoint (libs.updates sha512) = .ok pb.checkpoint := by
    unfold Device.deviceCheckpoint
    rw [bundle]
    exact congrArg (fun x => (wrapErr "failed to open device: %w" x).map ProofBundle.checkpoint) decoded
  rw [Device.checkpoint, stored]
  rfl

theorem not_opens_of_bundle {raw : Bytes} {reason : GoError} (bundle : dev.bundle = some raw)
    (failed : decodeBundle raw = .error reason) : ¬ dev.Opens (libs.updates sha512) := by
  rintro ⟨cp, stored⟩
  obtain ⟨found, read, -⟩ := except_bind_eq_ok.mp stored
  unfold Device.deviceCheckpoint at read
  rw [bundle] at read
  obtain ⟨pb, decoded, -⟩ := except_map_eq_ok.mp read
  rw [wrapErr_eq_ok] at decoded
  cases failed.symm.trans decoded

/-- An update that is accepted leaves a device that can be opened exactly when all of the bundle's JSON is there. -/
theorem attempt_opens (opens : dev.Opens (libs.updates sha512)) (a : Attempt) :
    (dev.attempt (libs.updates sha512) a).Opens (libs.updates sha512) ↔ dev.Fits (libs.updates sha512) a := by
  by_cases accepts : dev.Accepts (libs.updates sha512) a.update
  · obtain ⟨pb, fwMeta, cp, parsed, -, -, signed⟩ := accepted_bundle accepts
    have whole := decodeBundle_whole parsed
    have later (dev' : Device) (bundle : dev'.bundle = some a.update.package.proofBundle) :
        dev'.Opens (libs.updates sha512) := ⟨cp, (checkpoint_of_bundle bundle whole).trans signed⟩
    rw [attempt_accepted accepts]
    rcases found : a.cut with _ | ⟨written⟩ | ⟨written⟩
    · exact iff_of_true (later _ rfl) fun _ written same => by cases found.symm.trans same
    · have cut := decodeBundle_take parsed written
      by_cases enough : Json.extent a.update.package.proofBundle ≤ written
      · rw [if_pos enough] at cut
        refine iff_of_true ⟨cp, (checkpoint_of_bundle rfl cut).trans signed⟩ fun _ k same => ?_
        cases found.symm.trans same
        exact enough
      · rw [if_neg enough] at cut
        refine iff_of_false (not_opens_of_bundle rfl cut) fun fits => enough (fits accepts written found)
    · exact iff_of_true (later _ rfl) fun _ written same => by cases found.symm.trans same
  · rw [attempt_refused accepts]
    exact iff_of_true opens fun yes => absurd yes accepts

-- A device that cannot be opened refuses every update, and does not boot.
theorem attempt_closed {libs : UpdateLibraries} (closed : ¬ dev.Opens libs) (a : Attempt) : dev.attempt libs a = dev :=
  attempt_refused fun accepts => by
    obtain ⟨-, dc, -, -, stored, -⟩ := accepts_iff.mp accepts
    exact closed ⟨dc, stored⟩

theorem readFile_eq_ok {file : Option Bytes} {raw : Bytes} : readFile file = .ok raw ↔ file = some raw := by
  cases file with
  | none => simp [readFile]
  | some found => simp [readFile]

theorem reset_ok {libs : UpdateLibraries} {image : Bytes} (booted : dev.reset libs = .ok image) :
    dev.firmware = some image ∧ ∃ raw pb fwMeta, dev.bundle = some raw ∧ libs.verifyBundle raw = .ok (pb, fwMeta) ∧
      libs.expectedMeasurement image = fwMeta.expectedFirmwareMeasurement := by
  obtain ⟨raw, bundle, booted⟩ := except_bind_eq_ok.mp booted
  obtain ⟨fw, firmware, booted⟩ := except_bind_eq_ok.mp booted
  obtain ⟨⟨⟩, verified, same⟩ := except_bind_eq_ok.mp booted
  obtain rfl := Except.ok.inj same
  rw [wrapErr_eq_ok, readFile_eq_ok] at bundle firmware
  rw [wrapErr_eq_ok] at verified
  obtain ⟨⟨pb, fwMeta⟩, bundled, measured⟩ := except_bind_eq_ok.mp verified
  refine ⟨firmware, raw, pb, fwMeta, bundle, bundled, ?_⟩
  dsimp only at measured
  split at measured
  next => cases measured
  next same => exact not_not.mp same

theorem reset_intro {libs : UpdateLibraries} {raw image : Bytes} {pb : ProofBundle}
    {fwMeta : FirmwareMetadata} (bundle : dev.bundle = some raw) (firmware : dev.firmware = some image)
    (bundled : libs.verifyBundle raw = .ok (pb, fwMeta))
    (measured : libs.expectedMeasurement image = fwMeta.expectedFirmwareMeasurement) : dev.reset libs = .ok image := by
  refine except_bind_eq_ok.mpr ⟨raw, wrapErr_eq_ok.mpr (readFile_eq_ok.mpr bundle), except_bind_eq_ok.mpr ⟨image,
    wrapErr_eq_ok.mpr (readFile_eq_ok.mpr firmware), except_bind_eq_ok.mpr ⟨(), wrapErr_eq_ok.mpr ?_, rfl⟩⟩⟩
  refine except_bind_eq_ok.mpr ⟨(pb, fwMeta), bundled, ?_⟩
  exact if_neg (not_not.mpr measured)

theorem reset_opens {image : Bytes} (booted : dev.reset (libs.updates sha512) = .ok image) :
    dev.Opens (libs.updates sha512) := by
  obtain ⟨-, raw, pb, fwMeta, bundle, bundled, -⟩ := reset_ok booted
  obtain ⟨parsed, cp, proves⟩ := verifyBundle_ok bundled
  exact ⟨cp, (checkpoint_of_bundle bundle (decodeBundle_whole parsed)).trans proves.signed⟩

theorem run_opens_iff (opens : dev.Opens (libs.updates sha512)) (attempts : List Attempt) :
    (attempts.foldl (Device.attempt (libs.updates sha512)) dev).Opens (libs.updates sha512) ↔
      Each (Device.attempt (libs.updates sha512)) (Device.Fits (libs.updates sha512)) dev attempts := by
  induction attempts generalizing dev with
  | nil => exact iff_of_true opens each_nil
  | cons a attempts ih =>
    rw [List.foldl_cons, each_cons, ← attempt_opens opens a]
    by_cases next : (dev.attempt (libs.updates sha512) a).Opens (libs.updates sha512)
    · rw [ih next, and_iff_right next]
    · -- The device stays as it is.
      have stays : attempts.foldl (Device.attempt (libs.updates sha512)) (dev.attempt (libs.updates sha512) a) =
          dev.attempt (libs.updates sha512) a := by
        clear ih
        induction attempts with
        | nil => rfl
        | cons b attempts ih => rw [List.foldl_cons, attempt_closed next, ih]
      rw [stays]
      exact iff_of_false next fun both => next both.1

-- What is left to check of a bundle with the right image: that its checkpoint extends the one of the device.
theorem bundleForUpdate_iff {libs : UpdateLibraries} {raw fwHash : Bytes} {dc cp : LogCheckpoint}
    {cpFunc : Nat → Nat → Except GoError (List Bytes)} {pb : ProofBundle} {fwMeta : FirmwareMetadata}
    (bundled : libs.verifyBundle raw = .ok (pb, fwMeta)) (image : fwHash = fwMeta.firmwareImageSHA512)
    (signed : libs.parseCheckpoint pb.checkpoint = .ok cp) :
    (∃ found, libs.bundleForUpdate raw fwHash dc cpFunc = .ok found) ↔
      ∃ proof, cpFunc dc.size cp.size = .ok proof ∧ (0 < dc.size →
        libs.proofs.verifyConsistency libs.hasher dc.size cp.size proof dc.hash cp.hash = .ok ()) := by
  have opened : wrapErr "failed to open the device checkpoint: %w" (libs.parseCheckpoint pb.checkpoint) = .ok cp :=
    wrapErr_eq_ok.mpr signed
  unfold UpdateLibraries.bundleForUpdate
  rw [bundled]
  simp only [bind, Except.bind, ne_eq, image, not_true_eq_false, if_false, opened]
  constructor
  · rintro ⟨found, verified⟩
    obtain ⟨proof, answered, verified⟩ := except_bind_eq_ok.mp verified
    refine ⟨proof, hideErr_eq_ok.mp answered, fun positive => ?_⟩
    rw [if_pos positive] at verified
    obtain ⟨_, consistent, -⟩ := except_bind_eq_ok.mp verified
    exact wrapErr_eq_ok.mp consistent
  · rintro ⟨proof, answered, consistent⟩
    refine ⟨(pb, fwMeta), except_bind_eq_ok.mpr ⟨proof, hideErr_eq_ok.mpr answered, ?_⟩⟩
    by_cases positive : 0 < dc.size
    · rw [if_pos positive]
      exact except_bind_eq_ok.mpr ⟨(), wrapErr_eq_ok.mpr (consistent positive), rfl⟩
    · rw [if_neg positive]

-- The update is checked against its own checkpoint, and written out.
theorem repaired (same : SameTree libs.proofs) {a : Attempt} (accepts : dev.Accepts (libs.updates sha512) a.update)
    (fits : dev.Fits (libs.updates sha512) a) :
    (dev.attempt (libs.updates sha512) a).flash (libs.updates sha512) ⟨a.update.package, .ok [], true⟩ =
      .applyUpdate a.update.package := by
  obtain ⟨pb, fwMeta, cp, parsed, bundled, image, signed⟩ := accepted_bundle accepts
  have stored : (dev.attempt (libs.updates sha512) a).checkpoint (libs.updates sha512) = .ok cp := by
    rw [attempt_accepted accepts, ← signed]
    rcases found : a.cut with _ | ⟨written⟩ | ⟨written⟩
    · exact checkpoint_of_bundle rfl (decodeBundle_whole parsed)
    · have cut := decodeBundle_take parsed written
      rw [if_pos (fits accepts written found)] at cut
      exact checkpoint_of_bundle rfl cut
    · exact checkpoint_of_bundle rfl (decodeBundle_whole parsed)
  have answered : UpdateLibraries.getConsistencyFunc (.ok []) cp.size cp.size = .ok [] := by
    unfold UpdateLibraries.getConsistencyFunc
    split <;> rfl
  obtain ⟨⟨pb', fwMeta'⟩, verified⟩ := (@bundleForUpdate_iff (libs.updates sha512) _ _ cp cp
    (UpdateLibraries.getConsistencyFunc (.ok [])) _ _ bundled image signed).mpr ⟨[], answered, fun _ => same _ _ _⟩
  have again : (dev.attempt (libs.updates sha512) a).Accepts (libs.updates sha512) ⟨a.update.package, .ok [], true⟩ :=
    accepts_iff.mpr ⟨rfl, cp, pb', fwMeta', stored, verified⟩
  exact flash_accepted again

end Cuts

/-- Updates without force only move a device forward: after any of them, the next one is refused or its checkpoint
is verified to extend the one on the device, with an image that a manifest in its tree names. -/
theorem device_moves_forward (libs : Libraries) (sha512 : Bytes → Bytes) (sizes : libs.proofs.ChecksSizes)
    (paths : libs.proofs.ChecksInclusion) (dev : Device) (cp : LogCheckpoint)
    (stored : dev.checkpoint (libs.updates sha512) = .ok cp) (positive : 0 < cp.size) (updates : List Update)
    (now : Device) (ran : dev.run (libs.updates sha512) updates = some now) :
    ∃ cp', now.checkpoint (libs.updates sha512) = .ok cp' ∧ cp.size ≤ cp'.size ∧
      (cp.size = cp'.size → cp.hash = cp'.hash) ∧
      (now = dev ∨ now.Installed (libs.updates sha512) cp' ∧ ∃ raw pb, now.bundle = some raw ∧
        decodeBundle raw = .ok pb ∧ ∀ log, libs.hasher.Binds log → log.length = cp'.size →
          libs.hasher.logRoot log = cp'.hash → pb.manifestStatement ∈ log) ∧
      ∀ u, now.flash (libs.updates sha512) u = now ∨ ∃ cp'', cp'.Extends (libs.updates sha512) cp'' ∧
        (now.flash (libs.updates sha512) u).Installed (libs.updates sha512) cp'' ∧
        (now.flash (libs.updates sha512) u).checkpoint (libs.updates sha512) = .ok cp'' := by
  obtain ⟨cp', there, larger, same, installed⟩ := run_forward updates_decodesAlike sizes stored positive ran
  refine ⟨cp', there, larger, same, installed.imp_right fun there' => ⟨there', ?_⟩, fun u => ?_⟩
  · obtain ⟨raw, image, pb, fwMeta, bundle, -, decoded, proves, -⟩ := there'
    refine ⟨raw, pb, bundle, decoded, fun log binds length root => ?_⟩
    have included := proves.included
    rw [← root] at included
    obtain ⟨inside, manifest⟩ := binds.included paths length included
    rw [manifest]
    exact List.getElem_mem _
  · refine (flash_cases updates_decodesAlike sizes there (Nat.lt_of_lt_of_le positive larger) u).imp_right ?_
    rintro ⟨cp'', further, fresh⟩
    exact ⟨cp'', further, fresh, fresh.checkpoint⟩

/-- Updates without force that are killed anywhere: the device can be updated further exactly when each of them has got
to the end of its bundle. Otherwise it takes no update and does not boot; and if so, an update that was killed after
that is finished by one more run of the flash tool. -/
theorem interrupted_updates_recover_iff (libs : Libraries) (sha512 : Bytes → Bytes) (same : SameTree libs.proofs)
    (dev : Device) (opens : dev.Opens (libs.updates sha512)) (attempts : List Attempt) (now : Device)
    (ran : attempts.foldl (Device.attempt (libs.updates sha512)) dev = now) :
    (now.Opens (libs.updates sha512) ↔
      Each (Device.attempt (libs.updates sha512)) (Device.Fits (libs.updates sha512)) dev attempts) ∧
    (¬ now.Opens (libs.updates sha512) →
      (∀ a, now.attempt (libs.updates sha512) a = now) ∧ ∀ image, now.reset (libs.updates sha512) ≠ .ok image) ∧
    ∀ a, now.Accepts (libs.updates sha512) a.update →
      ((now.attempt (libs.updates sha512) a).flash (libs.updates sha512) ⟨a.update.package, .ok [], true⟩ =
          .applyUpdate a.update.package ↔ now.Fits (libs.updates sha512) a) := by
  refine ⟨ran ▸ run_opens_iff opens attempts, fun closed => ⟨fun a => attempt_closed closed a, fun image booted => ?_⟩,
    fun a accepts => ⟨fun finished => ?_, fun fits => repaired same accepts fits⟩⟩
  · exact closed (reset_opens booted)
  · obtain ⟨-, dc, -, -, stored, -⟩ := accepts_iff.mp accepts
    rw [← attempt_opens ⟨dc, stored⟩]
    by_contra closed
    have stays := attempt_closed closed ⟨⟨a.update.package, .ok [], true⟩, none⟩
    obtain ⟨pb, fwMeta, cp, parsed, -, -, signed⟩ := accepted_bundle accepts
    have written : (now.attempt (libs.updates sha512) a).bundle = some a.update.package.proofBundle := by
      rw [stays.symm.trans finished]
      rfl
    exact closed ⟨cp, (checkpoint_of_bundle written (decodeBundle_whole parsed)).trans signed⟩

/-- Whatever the files of a device hold, it boots only an image with the measurement of a manifest that the publisher has
signed, and the statement of that manifest is in the log. -/
theorem rom_boots_published (libs : Libraries) (sha512 : Bytes → Bytes) (paths : libs.proofs.ChecksInclusion)
    (dev : Device) (image : Bytes) (booted : dev.reset (libs.updates sha512) = .ok image) :
    dev.firmware = some image ∧ ∃ raw pb stmt m cp, dev.bundle = some raw ∧ unmarshalBundle raw = .ok pb ∧
      Pipeline.unmarshalStatement pb.manifestStatement = .ok stmt ∧ stmt.type = firmwareMetadataType ∧
      libs.verifySignature .publisher stmt.type stmt.statement stmt.signature = .ok () ∧
      Personality.unmarshalManifest stmt.statement = .ok m ∧
      m.expectedFirmwareMeasurement = (libs.updates sha512).expectedMeasurement image ∧
      libs.parseCheckpoint pb.checkpoint = .ok cp ∧ ∀ log, libs.hasher.Binds log → log.length = cp.size →
        libs.hasher.logRoot log = cp.hash → log[pb.inclusionProof.leafIndex]? = some pb.manifestStatement := by
  obtain ⟨firmware, raw, pb, fwMeta, bundle, bundled, measured⟩ := reset_ok booted
  obtain ⟨parsed, cp, proves⟩ := verifyBundle_ok bundled
  obtain ⟨stmt, statement, type, publisher, metadata⟩ := proves.manifest
  obtain ⟨m, read, rfl⟩ := except_map_eq_ok.mp metadata
  refine ⟨firmware, raw, pb, stmt, m, cp, bundle, parsed, statement, type, publisher, read, measured.symm, proves.signed,
    fun log binds length root => ?_⟩
  have included := proves.included
  rw [← root] at included
  obtain ⟨inside, manifest⟩ := binds.included paths length included
  rw [manifest]
  exact List.getElem?_eq_getElem inside

section Sample

-- SHA-512 of the text dummy, the measurement of the empty image.
def dummySHA512 : Bytes :=
  [22, 146, 82, 106, 171, 132, 70, 26, 138, 235, 206, 253, 220, 186, 43, 51, 251, 88, 151, 171, 24, 12, 83,
    232, 179, 69, 174, 18, 84, 132, 208, 170, 163, 91, 175, 96, 72, 112, 80, 190, 33, 237, 137, 9, 164, 142,
    172, 233, 56, 81, 191, 19, 144, 135, 206, 31, 122, 135, 217, 123, 97, 32, 166, 81]

def sampleSHA512 (image : Bytes) : Bytes :=
  if image = [] then emptyImageSHA512 else if image = Checkpoints.asciiBytes "dummy" then dummySHA512 else []

def dummyManifest : Personality.Manifest := ⟨⟨emptyImageSHA512, dummySHA512⟩, "dummy", 1, "noon"⟩

def dummyStatement : Bytes := Personality.marshalStatement ⟨firmwareMetadataType, marshalManifest dummyManifest, [7]⟩

def dummyBundle : Bytes := marshalBundle dummyStatement [1] ⟨none, 0, none⟩

-- A later revision with the same image.
def laterManifest : Personality.Manifest := { dummyManifest with firmwareRevision := 2 }

def laterStatement : Bytes := Personality.marshalStatement ⟨firmwareMetadataType, marshalManifest laterManifest, [7]⟩

def dummyHasher : LogHasher :=
  .listing [dummyStatement, laterStatement] [LogHasher.numbered 1 [dummyStatement, laterStatement] dummyStatement ++
    LogHasher.numbered 1 [dummyStatement, laterStatement] laterStatement]

theorem dummyHasher_binds {entries : List Bytes} (front : entries <+: [dummyStatement, laterStatement]) :
    dummyHasher.Binds entries :=
  LogHasher.listing_binds (by decide) (by decide) (by simp) (by simp) (by simp) front

def dummyTree : LogCheckpoint := ⟨⟨ftLogOrigin, 1, dummyHasher.hashLeaf dummyStatement⟩, 7, [1]⟩

def laterTree : LogCheckpoint :=
  ⟨⟨ftLogOrigin, 2, dummyHasher.hashChildren (dummyHasher.hashLeaf dummyStatement)
    (dummyHasher.hashLeaf laterStatement)⟩, 7, [2]⟩

def laterBundle : Bytes :=
  marshalBundle laterStatement [2] ⟨none, 1, some [some (dummyHasher.hashLeaf dummyStatement)]⟩

-- A log with the two statements, which are all that the publisher has signed.
def dummySigned : Libraries where
  parseLog raw _ :=
    if raw = [1] then .ok (dummyTree.toCheckpoint, [55, 10])
    else if raw = [2] then .ok (laterTree.toCheckpoint, [55, 10])
    else .error (.text "malformed note")
  hasher := dummyHasher
  proofs := ProofPackage.reference
  decodeStatement := Personality.decodeStatement
  verifyPSS _ msg signature :=
    if (msg = firmwareMetadataType :: marshalManifest dummyManifest ∨
        msg = firmwareMetadataType :: marshalManifest laterManifest) ∧ signature = [7] then .ok ()
    else .error (.text "crypto/rsa: verification error")

theorem dummySigned_parses : dummySigned.parseCheckpoint [1] = .ok dummyTree ∧
    dummySigned.parseCheckpoint [2] = .ok laterTree := by
  have lines : (Libraries.trimNewlines [55, 10]).splitOn newline = [[55]] := by decide
  have time : parseUint 10 64 [55] = some 7 := by decide
  constructor
  all_goals simp [Libraries.parseCheckpoint, dummySigned, dummyTree, laterTree, lines, time, bind, Except.bind]

-- What a bundle with a statement of the log proves.
theorem dummySigned_proves {m : Personality.Manifest} (signed : m = dummyManifest ∨ m = laterManifest) {raw : Bytes}
    {cp : LogCheckpoint} {ip : InclusionProof} (opened : dummySigned.parseCheckpoint raw = .ok cp)
    (included : ProofPackage.reference.verifyInclusion dummyHasher ip.leafIndex cp.size (dummyHasher.hashLeaf
      (Personality.marshalStatement ⟨firmwareMetadataType, marshalManifest m, [7]⟩)) ip.proof cp.hash = .ok ()) :
    ProofBundle.Proves (dummySigned.updates sampleSHA512)
      ⟨Personality.marshalStatement ⟨firmwareMetadataType, marshalManifest m, [7]⟩, raw, ip⟩ cp m.toFirmwareMetadata := by
  have publisher : dummySigned.verifySignature .publisher firmwareMetadataType (marshalManifest m) [7] = .ok () := by
    rcases signed with rfl | rfl
    all_goals simp [Libraries.verifySignature, dummySigned, hideErr, Except.mapError]
  have metadata : (dummySigned.updates sampleSHA512).unmarshalMetadata (marshalManifest m) =
      .ok m.toFirmwareMetadata := by
    rw [updates_unmarshalMetadata, unmarshalManifest_marshal]
    · rfl
    · rcases signed with rfl | rfl
      all_goals decide
  exact ⟨opened, ⟨_, (updates_unmarshalStatement _).trans (unmarshalStatement_marshal _), rfl, publisher, metadata⟩,
    included⟩

theorem dummyBundle_parses : unmarshalBundle dummyBundle = .ok ⟨dummyStatement, [1], ⟨[], 0, []⟩⟩ :=
  unmarshalBundle_marshal dummyStatement [1] (by decide)

theorem laterBundle_parses : unmarshalBundle laterBundle =
    .ok ⟨laterStatement, [2], ⟨[], 1, [dummyHasher.hashLeaf dummyStatement]⟩⟩ :=
  unmarshalBundle_marshal laterStatement [2] (by decide)

theorem dummyBundle_verifies : (dummySigned.updates sampleSHA512).verifyBundle dummyBundle =
    .ok (⟨dummyStatement, [1], ⟨[], 0, []⟩⟩, dummyManifest.toFirmwareMetadata) := by
  have only : inclusionRoot dummyHasher.hashChildren 1 1 0 (dummyHasher.hashLeaf dummyStatement) [] =
      some (dummyHasher.hashLeaf dummyStatement) := rfl
  have included : ProofPackage.reference.verifyInclusion dummyHasher 0 1 (dummyHasher.hashLeaf dummyStatement) []
      (dummyHasher.hashLeaf dummyStatement) = .ok () := by
    simp [ProofPackage.reference, only]
  exact verifyBundle_intro ((updates_unmarshalBundle _).trans dummyBundle_parses)
    (dummySigned_proves (.inl rfl) dummySigned_parses.1 included)

theorem laterBundle_verifies : (dummySigned.updates sampleSHA512).verifyBundle laterBundle =
    .ok (⟨laterStatement, [2], ⟨[], 1, [dummyHasher.hashLeaf dummyStatement]⟩⟩, laterManifest.toFirmwareMetadata) := by
  have both : inclusionRoot dummyHasher.hashChildren 2 2 1 (dummyHasher.hashLeaf laterStatement)
      [dummyHasher.hashLeaf dummyStatement] = some laterTree.hash := rfl
  have included : ProofPackage.reference.verifyInclusion dummyHasher 1 2 (dummyHasher.hashLeaf laterStatement)
      [dummyHasher.hashLeaf dummyStatement] laterTree.hash = .ok () := by
    simp [ProofPackage.reference, both]
  exact verifyBundle_intro ((updates_unmarshalBundle _).trans laterBundle_parses)
    (dummySigned_proves (.inr rfl) dummySigned_parses.2 included)

def dummyUpdate : Update := ⟨⟨[], dummyBundle⟩, .ok [], true⟩

-- The update is on the device already.
theorem dummyUpdate_stored : (Device.applyUpdate dummyUpdate.package).checkpoint (dummySigned.updates sampleSHA512) =
    .ok dummyTree :=
  (checkpoint_of_bundle rfl (decodeBundle_whole dummyBundle_parses)).trans dummySigned_parses.1

theorem reference_sameTree : SameTree ProofPackage.reference := fun _ _ _ => by simp [ProofPackage.reference]

theorem dummyUpdate_accepted :
    (Device.applyUpdate dummyUpdate.package).Accepts (dummySigned.updates sampleSHA512) dummyUpdate := by
  have answered : UpdateLibraries.getConsistencyFunc (.ok []) dummyTree.size dummyTree.size = .ok [] := rfl
  obtain ⟨⟨pb, fwMeta⟩, verified⟩ := (@bundleForUpdate_iff (dummySigned.updates sampleSHA512) _ _ dummyTree _
    (UpdateLibraries.getConsistencyFunc (.ok [])) _ _ dummyBundle_verifies rfl dummySigned_parses.1).mpr
    ⟨[], answered, fun _ => reference_sameTree _ _ _⟩
  exact accepts_iff.mpr ⟨rfl, dummyTree, pb, fwMeta, dummyUpdate_stored, verified⟩

def laterUpdate : Update := ⟨⟨[], laterBundle⟩, .ok [dummyHasher.hashLeaf laterStatement], true⟩

theorem laterUpdate_accepted :
    (Device.applyUpdate dummyUpdate.package).Accepts (dummySigned.updates sampleSHA512) laterUpdate := by
  have roots : consistencyRoots dummyHasher.hashChildren dummyTree.hash 2 2 1 true
      [dummyHasher.hashLeaf laterStatement] = some (dummyTree.hash, laterTree.hash) := rfl
  have grows : ProofPackage.reference.verifyConsistency dummyHasher 1 2 [dummyHasher.hashLeaf laterStatement]
      dummyTree.hash laterTree.hash = .ok () := by
    simp [ProofPackage.reference, roots]
  have answered : UpdateLibraries.getConsistencyFunc (.ok [dummyHasher.hashLeaf laterStatement]) dummyTree.size
      laterTree.size = .ok [dummyHasher.hashLeaf laterStatement] := rfl
  obtain ⟨⟨pb, fwMeta⟩, verified⟩ := (@bundleForUpdate_iff (dummySigned.updates sampleSHA512) _ _ dummyTree _
    (UpdateLibraries.getConsistencyFunc (.ok [dummyHasher.hashLeaf laterStatement])) _ _ laterBundle_verifies rfl
    dummySigned_parses.2).mpr ⟨_, answered, fun _ => grows⟩
  exact accepts_iff.mpr ⟨rfl, dummyTree, pb, fwMeta, dummyUpdate_stored, verified⟩

-- The device moves on to the larger tree, and there an update with the old checkpoint leaves it alone.
theorem device_moves_forward_later : ∃ now cp, (Device.applyUpdate dummyUpdate.package).run
    (dummySigned.updates sampleSHA512) [laterUpdate] = some now ∧ now.bundle = some laterBundle ∧
    now.checkpoint (dummySigned.updates sampleSHA512) = .ok cp ∧ dummyTree.size < cp.size ∧
    now.flash (dummySigned.updates sampleSHA512) dummyUpdate = now := by
  have flashed : (Device.applyUpdate dummyUpdate.package).flash (dummySigned.updates sampleSHA512) laterUpdate =
      .applyUpdate laterUpdate.package := flash_accepted laterUpdate_accepted
  have ran : (Device.applyUpdate dummyUpdate.package).run (dummySigned.updates sampleSHA512) [laterUpdate] =
      some (.applyUpdate laterUpdate.package) := exec_cons.mpr ⟨_, congrArg some flashed, rfl⟩
  have stored : (Device.applyUpdate laterUpdate.package).checkpoint (dummySigned.updates sampleSHA512) =
      .ok laterTree :=
    (checkpoint_of_bundle rfl (decodeBundle_whole laterBundle_parses)).trans dummySigned_parses.2
  obtain ⟨cp, there, -, -, -, later⟩ := device_moves_forward dummySigned sampleSHA512
    ProofPackage.reference_checksSizes ProofPackage.reference_checksInclusion _ _ dummyUpdate_stored Nat.one_pos _ _ ran
  obtain rfl : cp = laterTree := Except.ok.inj (there.symm.trans stored)
  refine ⟨_, _, ran, rfl, there, Nat.one_lt_two, ?_⟩
  rcases later dummyUpdate with kept | ⟨cp', further, -, there'⟩
  · exact kept
  · by_cases accepts : (Device.applyUpdate laterUpdate.package).Accepts (dummySigned.updates sampleSHA512) dummyUpdate
    · rw [flash_accepted accepts, dummyUpdate_stored] at there'
      obtain rfl := Except.ok.inj there'
      exact absurd further.size (by decide)
    · exact flash_refused accepts

-- Killed before a byte of the bundle is written, the device takes nothing more; killed in the image, it is finished.
theorem interrupted_updates_recover_sample :
    ¬ ((Device.applyUpdate dummyUpdate.package).attempt (dummySigned.updates sampleSHA512)
        ⟨dummyUpdate, some (.bundle 0)⟩).Opens (dummySigned.updates sampleSHA512) ∧
      ((Device.applyUpdate dummyUpdate.package).attempt (dummySigned.updates sampleSHA512)
        ⟨dummyUpdate, some (.firmware 0)⟩).flash (dummySigned.updates sampleSHA512) dummyUpdate =
          .applyUpdate dummyUpdate.package := by
  have opens : (Device.applyUpdate dummyUpdate.package).Opens (dummySigned.updates sampleSHA512) :=
    ⟨_, dummyUpdate_stored⟩
  have longer : ¬ Json.extent dummyBundle ≤ 0 := by
    intro none
    have cut := decodeBundle_take dummyBundle_parses 0
    rw [if_pos none] at cut
    cases cut
  constructor
  · intro now
    have each := (interrupted_updates_recover_iff dummySigned sampleSHA512 reference_sameTree _ opens
      [⟨dummyUpdate, some (.bundle 0)⟩] _ (by rw [List.foldl_cons, List.foldl_nil])).1.mp now
    exact longer ((each_cons.mp each).1 dummyUpdate_accepted 0 rfl)
  · refine ((interrupted_updates_recover_iff dummySigned sampleSHA512 reference_sameTree _ opens [] _ rfl).2.2
      ⟨dummyUpdate, some (.firmware 0)⟩ dummyUpdate_accepted).mpr fun _ written same => ?_
    cases same

theorem dummyUpdate_boots : (Device.applyUpdate dummyUpdate.package).reset (dummySigned.updates sampleSHA512) = .ok [] :=
  reset_intro rfl rfl dummyBundle_verifies rfl

theorem rom_boots_published_sample : ∃ pb stmt m, unmarshalBundle dummyBundle = .ok pb ∧
    Pipeline.unmarshalStatement pb.manifestStatement = .ok stmt ∧
    dummySigned.verifySignature .publisher stmt.type stmt.statement stmt.signature = .ok () ∧
    Personality.unmarshalManifest stmt.statement = .ok m ∧ m.expectedFirmwareMeasurement = dummySHA512 ∧
    [dummyStatement][pb.inclusionProof.leafIndex]? = some pb.manifestStatement := by
  obtain ⟨-, raw, pb, stmt, m, cp, bundle, parsed, statement, -, publisher, manifest, measured, signed, logged⟩ :=
    rom_boots_published dummySigned sampleSHA512 ProofPackage.reference_checksInclusion _ _ dummyUpdate_boots
  obtain rfl := Option.some.inj bundle
  obtain rfl : pb = ⟨dummyStatement, [1], ⟨[], 0, []⟩⟩ := Except.ok.inj (parsed.symm.trans dummyBundle_parses)
  obtain rfl : cp = dummyTree := Except.ok.inj (signed.symm.trans dummySigned_parses.1)
  refine ⟨_, stmt, m, parsed, statement, publisher, manifest, measured, logged [dummyStatement] ?_ rfl ?_⟩
  · exact dummyHasher_binds ⟨[laterStatement], rfl⟩
  · exact treeHash_single _ _ _

end Sample

end Firmware
