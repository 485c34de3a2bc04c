import TrillianServerless.Shared.Json
import TrillianServerless.Firmware.Update

set_option autoImplicit false

namespace Firmware

namespace Personality

open Go Runs

section Requests

structure Request where
  contentType : List Bytes
  body : Bytes

/-- `part` is what NextPart gives for each part of a body in turn, with what reading that part gives. -/
structure Mime where
  parseMediaType : Bytes → Except GoError (Bytes × List (Bytes × Bytes))
  part : Bytes → Bytes → Nat → Except GoError (Except GoError Bytes)

def multipartPrefix : Bytes := [109, 117, 108, 116, 105, 112, 97, 114, 116, 47]

def boundaryName : Bytes := [98, 111, 117, 110, 100, 97, 114, 121]

def parseAddFirmwareRequest (mime : Mime) (r : Request) : Except GoError (Bytes × Bytes) :=
  match r.contentType with
  | [] => .error (.text "no content-type header")
  | h :: _ => do
    let (mediaType, mediaParams) ← mime.parseMediaType h
    let boundary := (mediaParams.lookup boundaryName).getD []
    if multipartPrefix.isPrefixOf mediaType = false then .error (.text "expecting mime multipart body")
    else if boundary = [] then .error (.text "invalid mime multipart header - no boundary specified")
    else do
      let p ← hideErr "failed to find firmware statement in request body: %v" (mime.part r.body boundary 0)
      let rawJSON ← hideErr "failed to read body of firmware statement: %v" p
      let p ← hideErr "failed to find firmware image in request body: %v" (mime.part r.body boundary 1)
      let image ← hideErr "failed to read body of firmware image: %v" p
      .ok (rawJSON, image)

end Requests

section Statements

def signedStatementFields : List (Json.Field SignedStatement) :=
  [⟨"Type", fun stmt v => (v.toUint 8 stmt.type.toNat).map fun n => { stmt with type := UInt8.ofNat n }⟩,
    ⟨"Statement", fun stmt v => (Json.toBytes v).map fun b => { stmt with statement := b.getD [] }⟩,
    ⟨"Signature", fun stmt v => (Json.toBytes v).map fun b => { stmt with signature := b.getD [] }⟩]

-- A Decoder reads one value, whatever follows it.
def decodeStatement (raw : Bytes) : Except GoError SignedStatement := do
  (← Json.decodeNext raw).decodeStruct signedStatementFields ⟨0, [], []⟩

-- FirmwareMetadata of package api, with the fields that name the device and the build.
structure Manifest extends FirmwareMetadata where
  deviceID : String
  firmwareRevision : Nat
  buildTimestamp : String
  deriving DecidableEq, Repr

def manifestFields : List (Json.Field Manifest) :=
  [⟨"DeviceID", fun m v => (v.toText m.deviceID).map fun s => { m with deviceID := s }⟩,
    ⟨"FirmwareRevision", fun m v => (v.toUint 64 m.firmwareRevision).map fun n => { m with firmwareRevision := n }⟩,
    ⟨"FirmwareImageSHA512", fun m v => (Json.toBytes v).map fun b => { m with firmwareImageSHA512 := b.getD [] }⟩,
    ⟨"ExpectedFirmwareMeasurement", fun m v =>
      (Json.toBytes v).map fun b => { m with expectedFirmwareMeasurement := b.getD [] }⟩,
    ⟨"BuildTimestamp", fun m v => (v.toText m.buildTimestamp).map fun s => { m with buildTimestamp := s }⟩]

def unmarshalManifest (raw : Bytes) : Except GoError Manifest := do
  (← Json.decodeWhole raw).decodeStruct manifestFields ⟨⟨[], []⟩, "", 0, ""⟩

end Statements

section Images

-- The table of the images, by key.
abbrev Images := Bytes → Option Bytes

-- How Store ends: an error may come back although the row was written.
inductive StoreAnswer where
  | works
  | fails (reason : GoError) (written : Bool)

def insertOrIgnore (key data : Bytes) (images : Images) : Images := fun k =>
  if k = key ∧ images key = none then some data else images k

-- BinaryStorage.Store.
def store (key image : Bytes) (answer : StoreAnswer) (images : Images) : Except GoError Unit × Images :=
  match answer with
  | .works => (.ok (), insertOrIgnore key image images)
  | .fails reason true => (.error reason, insertOrIgnore key image images)
  | .fails reason false => (.error reason, images)

-- BinaryStorage.Retrieve.
def retrieve (key : Bytes) (images : Images) : Except GoError Bytes :=
  match images key with
  | none => .error (.text "unknown hash: %q")
  | some data => .ok data

end Images

section Handler

structure HttpError where
  status : Nat
  message : String
  deriving DecidableEq, Repr

/-- The errors that a handler has written. The first one sets the status, the later ones only add their text. -/
abbrev Response := List HttpError

def Response.status (response : Response) : Nat := (response.head?.map HttpError.status).getD 200

/-- What is called outside the repository: the publisher's key, mime and multipart, SHA-512. -/
structure Server where
  libs : Libraries
  mime : Mime
  sha512 : Bytes → Bytes

def badRequest {A : Type} (message : String) (x : Except GoError A) : Except HttpError A :=
  x.mapError fun _ => ⟨400, message⟩

variable (server : Server)

-- addFirmware up to where it stores the image: the statement and the image of a good request.
def checkRequest (r : Request) : Except HttpError (Bytes × Bytes) := do
  let (statement, image) ← badRequest "failed to parse request: %q" (parseAddFirmwareRequest server.mime r)
  let stmt ← badRequest "failed to decode statement: %q" (decodeStatement statement)
  badRequest "signature verification failed! %v"
    (server.libs.verifySignature .publisher stmt.type stmt.statement stmt.signature)
  if stmt.type ≠ firmwareMetadataType then .error ⟨400, "Expected statement type %q, but got %q"⟩
  else do
    let fwMeta ← badRequest "failed to unmarshal metadata: %q" (unmarshalManifest stmt.statement)
    if server.sha512 image ≠ fwMeta.firmwareImageSHA512 then
      .error ⟨400, "uploaded image does not match SHA512 in metadata (%x != %x)"⟩
    else .ok (statement, image)

/-- A request, with how Store and AddSignedStatement end if they are called for it. -/
structure Event where
  request : Request
  stored : StoreAnswer
  logged : Except GoError Unit

-- A statement that AddSignedStatement was called with, and the images stored at that time.
structure Handed where
  statement : Bytes
  images : Images

-- A request that was answered, with whether both calls were made for it and succeeded.
structure Served where
  response : Response
  stored : Bool
  logged : Bool

structure World where
  images : Images
  handed : List Handed
  served : List Served

-- An error of Store is reported, and does not end the handler.
def addFirmware (w : World) (e : Event) : World :=
  match checkRequest server e.request with
  | .error refused => { w with served := w.served ++ [⟨[refused], false, false⟩] }
  | .ok (statement, image) =>
    let (stored, images) := store (server.sha512 image) image e.stored w.images
    let storeError : Response := if stored.isOk then [] else [⟨500, "failed to store image in CAS %v"⟩]
    let logError : Response := if e.logged.isOk then [] else [⟨500, "failed to log firmware to Trillian %v"⟩]
    { images := images
      handed := w.handed ++ [⟨statement, images⟩]
      served := w.served ++ [⟨storeError ++ logError, stored.isOk, e.logged.isOk⟩] }

def created : World := ⟨fun _ => none, [], []⟩

end Handler

section Stored

variable {server : Server}

-- What a request that passes the checks says about its statement and its image.
theorem checkRequest_ok {r : Request} {statement image : Bytes}
    (checked : checkRequest server r = .ok (statement, image)) :
    ∃ stmt fwMeta, decodeStatement statement = .ok stmt ∧
      server.libs.verifySignature .publisher stmt.type stmt.statement stmt.signature = .ok () ∧
      stmt.type = firmwareMetadataType ∧ unmarshalManifest stmt.statement = .ok fwMeta ∧
      server.sha512 image = fwMeta.firmwareImageSHA512 := by
  have passes {A : Type} {message : String} {x : Except GoError A} {a : A} :
      badRequest message x = .ok a ↔ x = .ok a := by cases x <;> simp [badRequest, Except.mapError]
  obtain ⟨⟨raw, parsed⟩, -, checked⟩ := except_bind_eq_ok.mp checked
  obtain ⟨stmt, decoded, checked⟩ := except_bind_eq_ok.mp checked
  obtain ⟨⟨⟩, signed, checked⟩ := except_bind_eq_ok.mp checked
  split at checked
  · cases checked
  next type =>
    obtain ⟨fwMeta, read, checked⟩ := except_bind_eq_ok.mp checked
    split at checked
    · cases checked
    next same =>
      obtain ⟨rfl, rfl⟩ := Prod.mk.inj (Except.ok.inj checked)
      exact ⟨stmt, fwMeta, passes.mp decoded, passes.mp signed, not_not.mp type, passes.mp read, not_not.mp same⟩

theorem retrieve_eq_ok {key image : Bytes} {images : Images} : retrieve key images = .ok image ↔
    images key = some image := by
  unfold retrieve
  cases images key <;> simp

/-- Each image stands under its own hash. -/
def Addressed (sha512 : Bytes → Bytes) (images : Images) : Prop :=
  ∀ key data, images key = some data → sha512 data = key

theorem Addressed.insert {sha512 : Bytes → Bytes} {images : Images} (addressed : Addressed sha512 images)
    (image : Bytes) : Addressed sha512 (insertOrIgnore (sha512 image) image images) := by
  intro key data found
  unfold insertOrIgnore at found
  split at found
  next new =>
    obtain rfl := Option.some.inj found
    exact new.1.symm
  next => exact addressed key data found

theorem Addressed.store {sha512 : Bytes → Bytes} {images : Images} (addressed : Addressed sha512 images)
    (image : Bytes) (answer : StoreAnswer) : Addressed sha512 (store (sha512 image) image answer images).2 := by
  rcases answer with _ | ⟨_, _ | _⟩
  · exact addressed.insert image
  · exact addressed
  · exact addressed.insert image

theorem insertOrIgnore_ne_none (key data : Bytes) (images : Images) : insertOrIgnore key data images key ≠ none := by
  unfold insertOrIgnore
  by_cases free : images key = none
  · simp [free]
  · simp [free]

-- An image is under the key after Store unless it failed, wrote nothing, and there was none before.
theorem store_ne_none (key image : Bytes) (answer : StoreAnswer) (images : Images) :
    (store key image answer images).2 key ≠ none ↔
      ∀ reason, answer = .fails reason false → images key ≠ none := by
  rcases answer with _ | ⟨reason, _ | _⟩
  · simp [store, insertOrIgnore_ne_none]
  · simp [store]
  · simp [store, insertOrIgnore_ne_none]

-- Every check refuses a request with the same status.
def Refuses {A : Type} (x : Except HttpError A) : Prop := ∀ refused, x = .error refused → refused.status = 400

theorem Refuses.bind {A B : Type} {x : Except HttpError A} {f : A → Except HttpError B} (first : Refuses x)
    (later : ∀ a, Refuses (f a)) : Refuses (x >>= f) := by
  intro refused failed
  cases x with
  | error reason =>
    obtain rfl := Except.error.inj failed
    exact first reason rfl
  | ok a => exact later a refused failed

theorem badRequest_refuses {A : Type} (message : String) (x : Except GoError A) : Refuses (badRequest message x) := by
  rintro refused failed
  cases x with
  | error reason =>
    obtain rfl := Except.error.inj failed
    rfl
  | ok a => cases failed

theorem error_refuses {A : Type} (message : String) : Refuses (.error ⟨400, message⟩ : Except HttpError A) := by
  rintro refused failed
  obtain rfl := Except.error.inj failed
  rfl

variable (server)

theorem checkRequest_refuses (r : Request) : Refuses (checkRequest server r) := by
  refine (badRequest_refuses _ _).bind fun parsed => (badRequest_refuses _ _).bind fun stmt =>
    (badRequest_refuses _ _).bind fun _ => ?_
  split
  · exact error_refuses _
  · refine (badRequest_refuses _ _).bind fun fwMeta => ?_
    split
    · exact error_refuses _
    · rintro refused failed
      cases failed

/-- A statement that the publisher has signed for a firmware, whose image was stored under the hash it names. -/
def Retrievable (x : Handed) : Prop :=
  ∃ stmt fwMeta image, decodeStatement x.statement = .ok stmt ∧
    server.libs.verifySignature .publisher stmt.type stmt.statement stmt.signature = .ok () ∧
    stmt.type = firmwareMetadataType ∧ unmarshalManifest stmt.statement = .ok fwMeta ∧
    retrieve fwMeta.firmwareImageSHA512 x.images = .ok image ∧ server.sha512 image = fwMeta.firmwareImageSHA512

/-- What was handed to the log is retrievable, and an answer without an error status means that Store and
AddSignedStatement have both succeeded. -/
structure Good (w : World) : Prop where
  logged : ∀ x ∈ w.handed, Retrievable server x
  answered : ∀ s ∈ w.served, s.response.status < 400 → s.stored = true ∧ s.logged = true

/-- For a request that passes the checks, Store succeeds, or writes the image in spite of its error, or finds an
image under the hash. -/
def Fits (w : World) (e : Event) : Prop :=
  ∀ statement image reason, checkRequest server e.request = .ok (statement, image) →
    e.stored = .fails reason false → w.images (server.sha512 image) ≠ none

variable {server}

theorem retrievable_iff {r : Request} {statement image : Bytes}
    (checked : checkRequest server r = .ok (statement, image)) {images : Images}
    (addressed : Addressed server.sha512 images) :
    Retrievable server ⟨statement, images⟩ ↔ images (server.sha512 image) ≠ none := by
  obtain ⟨stmt, fwMeta, decoded, signed, type, read, same⟩ := checkRequest_ok checked
  constructor
  · rintro ⟨stmt', fwMeta', found, decoded', -, -, read', retrieved, -⟩
    obtain rfl := Except.ok.inj (decoded.symm.trans decoded')
    obtain rfl := Except.ok.inj (read.symm.trans read')
    have there : images fwMeta.firmwareImageSHA512 = some found := retrieve_eq_ok.mp retrieved
    rw [same, there]
    exact Option.some_ne_none found
  · intro stored
    obtain ⟨found, there⟩ := Option.ne_none_iff_exists'.mp stored
    exact ⟨stmt, fwMeta, found, decoded, signed, type, read, retrieve_eq_ok.mpr (same ▸ there),
      (addressed _ _ there).trans same⟩

theorem addFirmware_addressed {w : World} (e : Event) (addressed : Addressed server.sha512 w.images) :
    Addressed server.sha512 (addFirmware server w e).images := by
  unfold addFirmware
  split
  · exact addressed
  next statement image _ => exact addressed.store image e.stored

-- The status is an error's as soon as one of the two calls has failed, and for a request that was refused.
theorem addFirmware_answered {w : World} (e : Event)
    (answered : ∀ s ∈ w.served, s.response.status < 400 → s.stored = true ∧ s.logged = true) :
    ∀ s ∈ (addFirmware server w e).served, s.response.status < 400 → s.stored = true ∧ s.logged = true := by
  unfold addFirmware
  split
  next refused _ =>
    intro s member fine
    rcases List.mem_append.mp member with old | new
    · exact answered s old fine
    · obtain rfl := List.mem_singleton.mp new
      have status := checkRequest_refuses server e.request refused ‹_›
      simp [Response.status, status] at fine
  next statement image _ =>
    intro s member fine
    rcases List.mem_append.mp member with old | new
    · exact answered s old fine
    · obtain rfl := List.mem_singleton.mp new
      dsimp only at fine ⊢
      generalize (store (server.sha512 image) image e.stored w.images).1.isOk = stored at fine ⊢
      generalize e.logged.isOk = logged at fine ⊢
      revert fine
      cases stored <;> cases logged <;> decide

/-- One request keeps what holds exactly when its call of Store fits. -/
theorem addFirmware_good {w : World} (e : Event) (addressed : Addressed server.sha512 w.images)
    (good : Good server w) : Good server (addFirmware server w e) ↔ Fits server w e := by
  have answered : ∀ s ∈ (addFirmware server w e).served, s.response.status < 400 → s.stored = true ∧ s.logged = true :=
    addFirmware_answered e good.answered
  have kept := addFirmware_addressed e addressed
  cases checked : checkRequest server e.request with
  | error refused =>
    refine iff_of_true ⟨?_, answered⟩ ?_
    · simpa [addFirmware, checked] using good.logged
    · intro statement image reason passes
      rw [checked] at passes
      cases passes
  | ok pair =>
    obtain ⟨statement, image⟩ := pair
    have images : (addFirmware server w e).images = (store (server.sha512 image) image e.stored w.images).2 := by
      simp [addFirmware, checked]
    have handed : (addFirmware server w e).handed = w.handed ++ [⟨statement, (addFirmware server w e).images⟩] := by
      simp [addFirmware, checked]
    have last : Retrievable server ⟨statement, (addFirmware server w e).images⟩ ↔
        ∀ reason, e.stored = .fails reason false → w.images (server.sha512 image) ≠ none := by
      rw [retrievable_iff checked kept, images, store_ne_none]
    constructor
    · intro after statement' image' reason passes failed
      rw [checked] at passes
      obtain ⟨-, rfl⟩ := Prod.mk.inj (Except.ok.inj passes)
      exact last.mp (after.logged _ (by simp [handed])) reason failed
    · intro fits
      refine ⟨fun x member => ?_, answered⟩
      rw [handed] at member
      rcases List.mem_append.mp member with old | new
      · exact good.logged x old
      · obtain rfl := List.mem_singleton.mp new
        exact last.mpr fun reason failed => fits statement image reason checked failed

/-- In a run of requests, what is handed to the log is retrievable at every point exactly when each Store fits;
the answers are always right. -/
theorem addFirmware_run_iff (server : Server) (events : List Event) :
    Always (addFirmware server) (Good server) created events ↔ Each (addFirmware server) (Fits server) created events :=
  always_iff_each (fun w => Addressed server.sha512 w.images) (fun e addressed => addFirmware_addressed e addressed)
    (fun e addressed good => addFirmware_good e addressed good) (fun key data found => by cases found)
    ⟨by simp [created], by simp [created]⟩

end Stored

section Sample

-- json.Marshal of a statement, and of the one field of a manifest that addFirmware looks at.
def statementMembers (stmt : SignedStatement) : List (Bytes × Bytes) :=
  [(Checkpoints.asciiBytes "Type", formatUint 10 stmt.type.toNat),
    (Checkpoints.asciiBytes "Statement", Json.encodeBytes (some stmt.statement)),
    (Checkpoints.asciiBytes "Signature", Json.encodeBytes (some stmt.signature))]

def hashMembers (hash : Bytes) : List (Bytes × Bytes) :=
  [(Checkpoints.asciiBytes "FirmwareImageSHA512", Json.encodeBytes (some hash))]

def marshalStatement (stmt : SignedStatement) : Bytes := Json.encodeStruct (statementMembers stmt)

def marshalHash (hash : Bytes) : Bytes := Json.encodeStruct (hashMembers hash)

theorem plain_names : ∀ name ∈ ["Type", "Statement", "Signature", "FirmwareImageSHA512"],
    ∀ c ∈ Checkpoints.asciiBytes name, Json.Plain c :=
  Json.plain_of_all (by decide +kernel)

theorem plain_statementMembers (stmt : SignedStatement) :
    ∀ m ∈ statementMembers stmt, ∀ c ∈ m.1, Json.Plain c := by
  simp only [statementMembers, List.forall_mem_cons]
  exact ⟨plain_names _ (by simp), plain_names _ (by simp), plain_names _ (by simp), by simp⟩

theorem plain_hashMembers (hash : Bytes) : ∀ m ∈ hashMembers hash, ∀ c ∈ m.1, Json.Plain c := by
  simp only [hashMembers, List.forall_mem_cons]
  exact ⟨plain_names _ (by simp), by simp⟩

/-- What the publisher's tool sends is what the server reads. -/
theorem decodeStatement_marshal (stmt : SignedStatement) : decodeStatement (marshalStatement stmt) = .ok stmt := by
  have decoded := Json.decodeNext_encodeStruct (plain_statementMembers stmt)
    (.cons (Json.reads_formatUint _ stmt.type.toNat) (.cons (Json.reads_encodeBytes _ (some stmt.statement))
      (.cons (Json.reads_encodeBytes _ (some stmt.signature)) .nil))) (by simp [statementMembers])
  have stored : ∀ start : SignedStatement, ∀ v,
      (Json.decodeMember signedStatementFields start (Checkpoints.asciiBytes "Type", v) =
        (v.toUint 8 start.type.toNat).map fun n => { start with type := UInt8.ofNat n }) ∧
      (Json.decodeMember signedStatementFields start (Checkpoints.asciiBytes "Statement", v) =
        (Json.toBytes v).map fun b => { start with statement := b.getD [] }) ∧
      (Json.decodeMember signedStatementFields start (Checkpoints.asciiBytes "Signature", v) =
        (Json.toBytes v).map fun b => { start with signature := b.getD [] }) :=
    fun _ _ => ⟨rfl, rfl, rfl⟩
  have first := fun old => Json.toUint_formatUint (show stmt.type.toNat < 2 ^ 8 from stmt.type.toNat_lt) old
  have second := Json.toBytes_ofBytes (some stmt.statement)
  have third := Json.toBytes_ofBytes (some stmt.signature)
  rw [decodeStatement, marshalStatement, decoded]
  simp only [Json.decodeStruct, statementMembers, List.map_cons, List.map_nil, List.zip_cons_cons, List.zip_nil_left,
    List.foldlM_cons, List.foldlM_nil, (stored _ _).1, (stored _ _).2.1, (stored _ _).2.2, first, second, third,
    Except.map, bind, Except.bind, pure, Except.pure, Option.getD_some, UInt8.ofNat_toNat]

theorem unmarshalManifest_marshalHash (hash : Bytes) :
    unmarshalManifest (marshalHash hash) = .ok ⟨⟨hash, []⟩, "", 0, ""⟩ := by
  have decoded := Json.decodeWhole_encodeStruct (plain_hashMembers hash)
    (.cons (Json.reads_encodeBytes _ (some hash)) .nil) (by simp [hashMembers])
  have stored : ∀ start : Manifest, ∀ v,
      Json.decodeMember manifestFields start (Checkpoints.asciiBytes "FirmwareImageSHA512", v) =
        (Json.toBytes v).map fun b => { start with firmwareImageSHA512 := b.getD [] } := fun _ _ => rfl
  rw [unmarshalManifest, marshalHash, decoded]
  simp only [Json.decodeStruct, hashMembers, List.map_cons, List.map_nil, List.zip_cons_cons, List.zip_nil_left,
    List.foldlM_cons, List.foldlM_nil, stored, Json.toBytes_ofBytes, Except.map, bind, Except.bind, pure, Except.pure,
    Option.getD_some]

-- The statement for the empty image, signed, and that image.
def sampleStatement : Bytes := marshalStatement ⟨firmwareMetadataType, marshalHash emptyImageSHA512, [7]⟩

def sampleType : Bytes := Checkpoints.asciiBytes "multipart/form-data; boundary=x"

def sampleBody : Bytes :=
  Checkpoints.asciiBytes "--x\r\n\r\n" ++ sampleStatement ++ Checkpoints.asciiBytes "\r\n--x\r\n\r\n\r\n--x--\r\n"

def sampleMime : Mime where
  parseMediaType h :=
    if h = sampleType then .ok (multipartPrefix ++ Checkpoints.asciiBytes "form-data", [(boundaryName, [120])])
    else .error (.text "mime: no media type")
  part body boundary n :=
    if body = sampleBody ∧ boundary = [120] then
      match n with
      | 0 => .ok (.ok sampleStatement)
      | 1 => .ok (.ok [])
      | _ => .error (.text "EOF")
    else .error (.text "multipart: NextPart: EOF")

def sampleServer : Server where
  libs := sample
  mime := sampleMime
  sha512 image := if image = [] then emptyImageSHA512 else []

def sampleRequest : Request := ⟨[sampleType], sampleBody⟩

theorem sampleRequest_parsed : parseAddFirmwareRequest sampleMime sampleRequest = .ok (sampleStatement, []) := by
  have media : sampleMime.parseMediaType sampleType =
      .ok (multipartPrefix ++ Checkpoints.asciiBytes "form-data", [(boundaryName, [120])]) := by simp [sampleMime]
  have first : sampleMime.part sampleBody [120] 0 = .ok (.ok sampleStatement) := by simp [sampleMime]
  have second : sampleMime.part sampleBody [120] 1 = .ok (.ok []) := by simp [sampleMime]
  have boundary : ([(boundaryName, [120])] : List (Bytes × Bytes)).lookup boundaryName = some [120] := by decide
  simp [parseAddFirmwareRequest, sampleRequest, media, boundary, first, second, hideErr, Except.mapError, bind,
    Except.bind]

theorem sampleRequest_checked : checkRequest sampleServer sampleRequest = .ok (sampleStatement, []) := by
  have parsed : parseAddFirmwareRequest sampleServer.mime sampleRequest = .ok (sampleStatement, []) :=
    sampleRequest_parsed
  have decoded : decodeStatement sampleStatement = .ok ⟨firmwareMetadataType, marshalHash emptyImageSHA512, [7]⟩ :=
    decodeStatement_marshal _
  have signed : sampleServer.libs.verifySignature .publisher firmwareMetadataType (marshalHash emptyImageSHA512) [7] =
      .ok () := rfl
  have named := unmarshalManifest_marshalHash emptyImageSHA512
  have hashed : sampleServer.sha512 [] = emptyImageSHA512 := rfl
  simp [checkRequest, parsed, decoded, signed, named, hashed, badRequest, Except.mapError, bind, Except.bind]

-- The image cannot be stored, and the statement goes to the log all the same.
def unstored : Event := ⟨sampleRequest, .fails (.text "database is locked") false, .ok ()⟩

theorem unstored_firmware_logged :
    (addFirmware sampleServer created unstored).handed.map Handed.statement = [sampleStatement] ∧
      retrieve emptyImageSHA512 (addFirmware sampleServer created unstored).images = .error (.text "unknown hash: %q") ∧
      ¬ Always (addFirmware sampleServer) (Good sampleServer) created [unstored] := by
  have checked : checkRequest sampleServer unstored.request = .ok (sampleStatement, []) := sampleRequest_checked
  have stepped : addFirmware sampleServer created unstored = ⟨fun _ => none, [⟨sampleStatement, fun _ => none⟩],
      [⟨[⟨500, "failed to store image in CAS %v"⟩], false, true⟩]⟩ := by
    rw [addFirmware, checked]
    rfl
  refine ⟨by rw [stepped]; rfl, by rw [stepped]; rfl, fun always => ?_⟩
  have after := always_nil.mp (always_cons.mp always).2
  obtain ⟨stmt, fwMeta, image, -, -, -, -, found, -⟩ :=
    after.logged ⟨sampleStatement, fun _ => none⟩ (by simp [stepped])
  cases found

end Sample

end Personality

end Firmware
