import TrillianServerless.Firmware.MapBuilder

set_option autoImplicit false

namespace Firmware

namespace Personality

open Go Runs Pipeline

section Handler

-- Why a handler has ended without its work done: an error that it has written, or a panic.
inductive Refusal where
  | status (err : HttpError)
  | panic (reason : String)
  deriving DecidableEq, Repr

/-- GetEntryAndProof of a Trillian log with the leaves given, less its proof: the leaf, or none for a nil leaf. -/
structure Trillian where
  getEntryAndProof : List Bytes → Int → Int → Except GoError (Option Bytes)

/-- It is documented to return the entry at the index. -/
def Trillian.Lawful (t : Trillian) : Prop :=
  ∀ log leafIndex treeSize value, t.getEntryAndProof log leafIndex treeSize = .ok (some value) →
    0 ≤ leafIndex ∧ log[leafIndex.toNat]? = some value

def int64 (n : Nat) : Int := CtMap.wrap n

-- FirmwareManifestAtIndex reads the leaf of the response, whatever it is.
def Trillian.firmwareManifestAtIndex (t : Trillian) (log : List Bytes) (index treeSize : Nat) : Outcome Bytes :=
  match t.getEntryAndProof log (int64 index) (int64 treeSize) with
  | .error reason => .error reason
  | .ok none => .panic "invalid memory address or nil pointer dereference"
  | .ok (some value) => .ok value

def refuse {A : Type} (status : Nat) (message : String) : Outcome A → Except Refusal A
  | .ok a => .ok a
  | .error _ => .error (.status ⟨status, message⟩)
  | .panic reason => .error (.panic reason)

variable (server : Server) (t : Trillian)

-- addAnnotationMalware up to where it logs the statement.
def checkAnnotation (log : List Bytes) (body : Except GoError Bytes) : Except Refusal Bytes := do
  let rawStmt ← refuse 400 "%v" (.ofExcept body)
  let ss ← refuse 400 "failed to decode statement: %q" (.ofExcept (decodeStatement rawStmt))
  refuse 400 "signature verification failed! %v"
    (.ofExcept (server.libs.verifySignature .annotatorMalware ss.type ss.statement ss.signature))
  if ss.type ≠ malwareStatementType then .error (.status ⟨400, "expected statement type %q, but got %q"⟩)
  else do
    let malwareStmt ← refuse 400 "failed to unmarshal MalwareStatement: %q" (.ofExcept (unmarshalMalware ss.statement))
    let index := malwareStmt.firmwareID.logIndex
    let fwbs ← refuse 500 "failed to validate firmware: %q"
      (t.firmwareManifestAtIndex log index ((index + 1) % 2 ^ 64))
    let fwss ← refuse 500 "failed to unmarshal statement: %q" (.ofExcept (unmarshalStatement fwbs))
    if fwss.type ≠ firmwareMetadataType then .error (.status ⟨400, "statement at index %d is not firmware"⟩)
    else do
      let fwMeta ← refuse 500 "failed to unmarshal firmware: %q" (.ofExcept (unmarshalManifest fwss.statement))
      if fwMeta.firmwareImageSHA512 ≠ malwareStmt.firmwareID.firmwareImageSHA512 then
        .error (.status ⟨500, "wrong firmware hash at index %d; got %x but expected %x"⟩)
      else .ok rawStmt

/-- The personality with its log: what addFirmware sees, the annotations handed to the log, the answers to them, and
the log's leaves. -/
structure Service where
  front : World
  annotations : List Bytes
  answers : List (Except Refusal Response)
  log : List Bytes

def addAnnotationMalware (w : Service) (body : Except GoError Bytes) (logged : Except GoError Unit) : Service :=
  match checkAnnotation server t w.log body with
  | .error refused => { w with answers := w.answers ++ [.error refused] }
  | .ok rawStmt =>
    let response : Response := if logged.isOk then [] else [⟨500, "failed to log firmware to Trillian %v"⟩]
    { w with annotations := w.annotations ++ [rawStmt], answers := w.answers ++ [.ok response] }

-- The requests, and the work of the log's signer, which sequences what was queued.
inductive Action where
  | addFirmware (e : Event)
  | annotate (body : Except GoError Bytes) (logged : Except GoError Unit)
  | sequence (statement : Bytes)

-- A call to QueueLeaf may have queued its leaf although it returned an error; a leaf is not added twice.
def serve (w : Service) : Action → Option Service
  | .addFirmware e => some { w with front := addFirmware server w.front e }
  | .annotate body logged => some (addAnnotationMalware server t w body logged)
  | .sequence statement =>
    if statement ∈ w.front.handed.map Handed.statement ∨ statement ∈ w.annotations then
      some (if statement ∈ w.log then w else { w with log := w.log ++ [statement] })
    else none

def started : Service := ⟨created, [], [], []⟩

end Handler

section Steps

variable {server : Server} {t : Trillian}

theorem refuse_eq_ok {A : Type} {status : Nat} {message : String} {x : Outcome A} {a : A} :
    refuse status message x = .ok a ↔ x = .ok a := by
  cases x <;> simp [refuse]

theorem int64_toNat {n : Nat} (small : n < 2 ^ 64) (positive : 0 ≤ int64 n) : (int64 n).toNat = n := by
  rw [int64, CtMap.wrap] at positive ⊢
  have low : n < 2 ^ 63 := by omega
  omega

theorem firmwareManifestAtIndex_ok (lawful : t.Lawful) {log : List Bytes} {index treeSize : Nat} {value : Bytes}
    (small : index < 2 ^ 64) (found : t.firmwareManifestAtIndex log index treeSize = .ok value) :
    log[index]? = some value := by
  unfold Trillian.firmwareManifestAtIndex at found
  split at found
  · cases found
  · cases found
  next answered =>
    obtain rfl := Outcome.ok.inj found
    obtain ⟨positive, there⟩ := lawful _ _ _ _ answered
    rwa [int64_toNat small positive] at there

/-- An annotation that was checked against the log: it names a firmware that is in the log, with its image. -/
structure Annotates (log : List Bytes) (raw : Bytes) (a : MalwareStatement) : Prop where
  decoded : ∃ ss, decodeStatement raw = .ok ss ∧ ss.type = malwareStatementType ∧ unmarshalMalware ss.statement = .ok a
  firmware : ∃ data m, log[a.firmwareID.logIndex]? = some data ∧ firmwareOf data = some m ∧
    m.firmwareImageSHA512 = a.firmwareID.firmwareImageSHA512

theorem checkAnnotation_ok (lawful : t.Lawful) {log : List Bytes} {body : Except GoError Bytes} {raw : Bytes}
    (checked : checkAnnotation server t log body = .ok raw) : ∃ a, Annotates log raw a := by
  obtain ⟨rawStmt, -, checked⟩ := except_bind_eq_ok.mp checked
  obtain ⟨ss, decoded, checked⟩ := except_bind_eq_ok.mp checked
  obtain ⟨⟨⟩, -, checked⟩ := except_bind_eq_ok.mp checked
  split at checked
  · cases checked
  next type =>
    obtain ⟨a, verdict, checked⟩ := except_bind_eq_ok.mp checked
    obtain ⟨fwbs, found, checked⟩ := except_bind_eq_ok.mp checked
    obtain ⟨fwss, read, checked⟩ := except_bind_eq_ok.mp checked
    split at checked
    · cases checked
    next kind =>
      obtain ⟨m, manifest, checked⟩ := except_bind_eq_ok.mp checked
      split at checked
      · cases checked
      next same =>
        obtain rfl := Except.ok.inj checked
        rw [refuse_eq_ok, Outcome.ofExcept_eq_ok] at decoded verdict read manifest
        rw [refuse_eq_ok] at found
        have there := firmwareManifestAtIndex_ok lawful (unmarshalMalware_index verdict) found
        refine ⟨a, ⟨ss, decoded, not_not.mp type, verdict⟩, fwbs, m, there, ?_, not_not.mp same⟩
        simp [firmwareOf, read, manifest, not_not.mp kind, Except.toOption]

end Steps

section Logged

/-- The JSON value that a text begins with has nothing but space after it. -/
def Alone (data : Bytes) : Prop :=
  ∀ v rest, Json.value Json.maxNestingDepth (Json.skipSpace data) = some (v, rest) → Json.skipSpace rest = []

-- A Decoder reads what Unmarshal reads, and Unmarshal wants the value to be alone.
theorem unmarshalStatement_iff {data : Bytes} {ss : SignedStatement} :
    unmarshalStatement data = .ok ss ↔ decodeStatement data = .ok ss ∧ Alone data := by
  unfold unmarshalStatement decodeStatement Alone Json.decodeWhole Json.decodeNext
  cases scanned : Json.value Json.maxNestingDepth (Json.skipSpace data) with
  | none => simp [bind, Except.bind]
  | some found =>
    obtain ⟨v, rest⟩ := found
    by_cases clean : Json.skipSpace rest = []
    · simp [clean, bind, Except.bind]
    · simp [clean, bind, Except.bind]

/-- A statement that addFirmware has handed to the log. -/
def StatesFirmware (raw : Bytes) : Prop :=
  ∃ ss m, decodeStatement raw = .ok ss ∧ ss.type = firmwareMetadataType ∧ unmarshalManifest ss.statement = .ok m

/-- What was handed to the log was checked, and an annotation is in the log only after the firmware that it names. -/
structure Sound (w : Service) : Prop where
  handed : ∀ x ∈ w.front.handed, StatesFirmware x.statement
  annotations : ∀ raw ∈ w.annotations, ∃ a, Annotates w.log raw a
  logged : ∀ j raw, w.log[j]? = some raw → StatesFirmware raw ∨ ∃ a, Annotates (w.log.take j) raw a

variable {server : Server} {t : Trillian} {w w' : Service}

theorem Annotates.append {log : List Bytes} {raw : Bytes} {a : MalwareStatement} (annotates : Annotates log raw a)
    (more : List Bytes) : Annotates (log ++ more) raw a := by
  obtain ⟨data, m, there, read, same⟩ := annotates.firmware
  have bound := (List.getElem?_eq_some_iff.mp there).1
  exact ⟨annotates.decoded, data, m, by rwa [List.getElem?_append_left bound], read, same⟩

theorem addFirmware_states (e : Event) {front : World} (handed : ∀ x ∈ front.handed, StatesFirmware x.statement) :
    ∀ x ∈ (addFirmware server front e).handed, StatesFirmware x.statement := by
  unfold addFirmware
  split
  · exact handed
  next statement image checked =>
    obtain ⟨ss, m, decoded, -, type, read, -⟩ := checkRequest_ok checked
    intro x member
    rcases List.mem_append.mp member with old | new
    · exact handed x old
    · obtain rfl := List.mem_singleton.mp new
      exact ⟨ss, m, decoded, type, read⟩

theorem sequenced_sound (sound : Sound w) {statement : Bytes}
    (queued : statement ∈ w.front.handed.map Handed.statement ∨ statement ∈ w.annotations) :
    Sound { w with log := w.log ++ [statement] } where
  handed := sound.handed
  annotations raw member := (sound.annotations raw member).imp fun _ annotates => annotates.append _
  logged j raw there := by
    by_cases old : j < w.log.length
    · rw [List.getElem?_append_left old] at there
      rw [List.take_append_of_le_length old.le]
      exact sound.logged j raw there
    · have last : j = w.log.length := by
        have bound := (List.getElem?_eq_some_iff.mp there).1
        simp at bound
        omega
      subst last
      simp only [List.getElem?_concat_length, Option.some.injEq] at there
      subst there
      rw [List.take_left' rfl]
      rcases queued with firmware | annotation
      · obtain ⟨x, member, rfl⟩ := List.mem_map.mp firmware
        exact .inl (sound.handed x member)
      · exact .inr (sound.annotations _ annotation)

theorem serve_sound (lawful : t.Lawful) {action : Action} (served : serve server t w action = some w')
    (sound : Sound w) : Sound w' := by
  cases action with
  | addFirmware e =>
    obtain rfl := Option.some.inj served
    exact ⟨addFirmware_states e sound.handed, sound.annotations, sound.logged⟩
  | annotate body logged =>
    obtain rfl := Option.some.inj served
    unfold addAnnotationMalware
    split
    · exact ⟨sound.handed, sound.annotations, sound.logged⟩
    next rawStmt checked =>
      refine ⟨sound.handed, fun raw member => ?_, sound.logged⟩
      rcases List.mem_append.mp member with old | new
      · exact sound.annotations raw old
      · obtain rfl := List.mem_singleton.mp new
        exact checkAnnotation_ok lawful checked
  | sequence statement =>
    rw [serve] at served
    split at served
    next queued =>
      obtain rfl := Option.some.inj served
      split
      · exact sound
      · exact sequenced_sound sound queued
    next => cases served

theorem run_sound (lawful : t.Lawful) {actions : List Action} (ran : exec (serve server t) actions started = some w) :
    Sound w :=
  exec_keeps Sound ran ⟨by simp [started, created], by simp [started], by simp [started]⟩
    fun _ served sound => serve_sound lawful served sound

-- The annotations of the log, as Unmarshal reads them.
theorem Sound.follows (sound : Sound w) {j : Nat} {data : Bytes} {a : MalwareStatement} (there : w.log[j]? = some data)
    (read : annotationOf data = some a) : FirmwareAt (w.log.take j) a.firmwareID.logIndex := by
  obtain ⟨ss, statement, body⟩ := Option.bind_eq_some_iff.mp read
  rw [toOption_eq_some] at statement
  split at body
  next type =>
    rw [toOption_eq_some] at body
    have decoded := (unmarshalStatement_iff.mp statement).1
    rcases sound.logged j data there with ⟨ss', m, again, firmware, -⟩ | ⟨a', annotates⟩
    · obtain rfl := Except.ok.inj (decoded.symm.trans again)
      rw [type] at firmware
      exact absurd firmware (by decide)
    · obtain ⟨ss', again, -, verdict⟩ := annotates.decoded
      obtain rfl := Except.ok.inj (decoded.symm.trans again)
      obtain rfl := Except.ok.inj (body.symm.trans verdict)
      obtain ⟨fw, m, stored, manifest, -⟩ := annotates.firmware
      exact ⟨fw, m, stored, manifest⟩
  next => cases body

theorem Sound.readable_iff (sound : Sound w) {data : Bytes} (inside : data ∈ w.log) : Readable data ↔ Alone data := by
  constructor
  · rintro ⟨ss, read, -⟩
    exact (unmarshalStatement_iff.mp read).2
  · intro alone
    obtain ⟨j, there⟩ := List.mem_iff_getElem?.mp inside
    rcases sound.logged j data there with ⟨ss, m, decoded, type, read⟩ | ⟨a, ⟨ss, decoded, type, read⟩, -⟩
    · refine ⟨ss, unmarshalStatement_iff.mpr ⟨decoded, alone⟩, fun _ => ⟨m, read⟩, fun wrong => ?_⟩
      rw [type] at wrong
      exact absurd wrong (by decide)
    · refine ⟨ss, unmarshalStatement_iff.mpr ⟨decoded, alone⟩, fun wrong => ?_, fun _ => ⟨a, read⟩⟩
      rw [type] at wrong
      exact absurd wrong (by decide)

theorem Sound.mappable_iff (sound : Sound w) (n : Nat) :
    Mappable (w.log.take n) ↔ ∀ data ∈ w.log.take n, Alone data := by
  constructor
  · intro mappable data inside
    exact (sound.readable_iff (List.mem_of_mem_take inside)).mp (mappable.readable data inside)
  · intro alone
    refine ⟨fun data inside => (sound.readable_iff (List.mem_of_mem_take inside)).mpr (alone data inside), ?_⟩
    intro data inside a read
    obtain ⟨j, there⟩ := List.mem_iff_getElem?.mp inside
    have bound := (List.getElem?_eq_some_iff.mp there).1
    rw [List.length_take] at bound
    rw [List.getElem?_take_of_lt (by omega)] at there
    obtain ⟨fw, m, stored, manifest⟩ := sound.follows there read
    have low := (List.getElem?_eq_some_iff.mp stored).1
    rw [List.length_take] at low
    rw [List.getElem?_take_of_lt (by omega)] at stored
    exact ⟨fw, m, by rwa [List.getElem?_take_of_lt (by omega)], manifest⟩

/-- In every run of the personality, each annotation of the log comes after the firmware that it names, so that all a map
of the log can fail on is a leaf with something after its JSON value, which the handlers let pass, or a device with the
name of a summary, which they do too. -/
theorem personality_log_mapped_iff (server : Server) (t : Trillian) (lawful : t.Lawful) (actions : List Action)
    (w : Service) (ran : exec (serve server t) actions started = some w) :
    (∀ j data a, w.log[j]? = some data → annotationOf data = some a →
      FirmwareAt (w.log.take j) a.firmwareID.logIndex) ∧
    ∀ (libs : Pipeline.Libraries) (treeID : Int) (r : Beam.Runner) (head : CtMap.Head) (size n : Int) (golden : Bytes),
      Compact.Lawful libs.compact → libs.CreatesTiles → CtMap.getLogEnd head size = .ok (n, golden) →
      libs.Apart (w.log.take n.toNat) → ((∃ out, libs.create treeID r ⟨head, w.log⟩ size = .ok out) ↔
        (∀ data ∈ w.log.take n.toNat, Alone data) ∧ Unnamed (w.log.take n.toNat)) := by
  have sound := run_sound lawful ran
  refine ⟨fun j data a there read => sound.follows there read, ?_⟩
  intro libs treeID r head size n golden compact creates found apart
  have only : ∀ n' golden', CtMap.getLogEnd head size = .ok (n', golden') → n' = n := fun n' golden' found' =>
    (Prod.mk.inj (Except.ok.inj (found'.symm.trans found))).1
  rw [create_ok_iff compact creates fun n' golden' found' => only n' golden' found' ▸ apart,
    ← sound.mappable_iff n.toNat]
  constructor
  · rintro ⟨n', golden', found', mapped⟩
    obtain rfl := only n' golden' found'
    exact mapped
  · intro mapped
    exact ⟨n, golden, found, mapped⟩

end Logged

section Sample

def sampleTrillian : Trillian where
  getEntryAndProof log leafIndex treeSize :=
    if 0 ≤ leafIndex ∧ leafIndex < treeSize ∧ treeSize ≤ log.length then .ok log[leafIndex.toNat]?
    else .error (.text "rpc error: code = InvalidArgument desc = %s")

theorem sampleTrillian_lawful : sampleTrillian.Lawful := by
  intro log leafIndex treeSize value answered
  simp only [sampleTrillian] at answered
  split at answered
  next bounds => exact ⟨bounds.1, Except.ok.inj answered⟩
  next => cases answered

-- The firmware of the sample is uploaded, and the signer adds it to the log.
def sampleActions : List Action := [.addFirmware ⟨sampleRequest, .works, .ok ()⟩, .sequence sampleStatement]

theorem sampleActions_run : ∃ w, exec (serve sampleServer sampleTrillian) sampleActions started = some w ∧
    w.log = [sampleStatement] := by
  have front : (addFirmware sampleServer created ⟨sampleRequest, .works, .ok ()⟩).handed.map Handed.statement =
      [sampleStatement] := by
    simp [addFirmware, sampleRequest_checked, created]
  have queued : serve sampleServer sampleTrillian
      { started with front := addFirmware sampleServer created ⟨sampleRequest, .works, .ok ()⟩ }
      (.sequence sampleStatement) = some { started with
        front := addFirmware sampleServer created ⟨sampleRequest, .works, .ok ()⟩, log := [sampleStatement] } := by
    simp [serve, started, front]
  exact ⟨_, exec_cons.mpr ⟨_, rfl, exec_cons.mpr ⟨_, queued, rfl⟩⟩, rfl⟩

theorem sampleStatement_read : unmarshalStatement sampleStatement =
    .ok ⟨firmwareMetadataType, marshalHash emptyImageSHA512, [7]⟩ := toOption_eq_some.mp (by decide +kernel)

-- The device of the sample has no name.
theorem sampleStatement_device {name : Bytes} (device : Pipeline.Device [sampleStatement] name) : name = [] := by
  obtain ⟨data, inside, m, read, rfl⟩ := device
  obtain rfl := List.mem_singleton.mp inside
  have found : firmwareOf sampleStatement = some ⟨⟨emptyImageSHA512, []⟩, "", 0, ""⟩ := by
    simp [firmwareOf, sampleStatement_read, unmarshalManifest_marshalHash, Except.toOption]
  rw [← Option.some.inj (found.symm.trans read)]
  rfl

theorem personality_log_mapped_sample : ∃ w, exec (serve sampleServer sampleTrillian) sampleActions started = some w ∧
    ∃ out, listedLibraries.create mapTreeID .direct ⟨.ok ([1], ⟨1, by decide⟩), w.log⟩ (-1) = .ok out := by
  obtain ⟨w, ran, log⟩ := sampleActions_run
  have only : w.log.take (1 : Int).toNat = [sampleStatement] := by simp [log]
  have first {i : Nat} (firmware : FirmwareAt [sampleStatement] i) : i = 0 := by
    obtain ⟨data, m, there, -⟩ := firmware
    have bound := (List.getElem?_eq_some_iff.mp there).1
    simpa using bound
  have apart : listedLibraries.Apart (w.log.take (1 : Int).toNat) := by
    rw [only]
    exact listedLibraries_apart (fun _ device => sampleStatement_device device) fun _ firmware => .inl (first firmware)
  refine ⟨w, ran, ((personality_log_mapped_iff sampleServer sampleTrillian sampleTrillian_lawful sampleActions w ran).2
    listedLibraries mapTreeID .direct _ (-1) 1 [1] Compact.reference_lawful listedLibraries_creates rfl apart).mpr ?_⟩
  rw [only]
  refine ⟨?_, fun i _ device => summaryName_ne i (sampleStatement_device device)⟩
  simpa using (unmarshalStatement_iff.mp sampleStatement_read).2

end Sample

end Personality

end Firmware
