import TrillianServerless.Packages.Merkle

set_option autoImplicit false

namespace Firmware

open Go Merkle

def ftLogOrigin : String := "Firmware Transparency Log"

-- log.Checkpoint with the time of its note and the note itself.
structure LogCheckpoint extends Checkpoints.Checkpoint where
  timestampNanos : Nat
  envelope : Bytes
  deriving DecidableEq, Repr

-- LogCheckpoint{}, also what a closed channel gives.
def LogCheckpoint.zero : LogCheckpoint := ⟨⟨"", 0, []⟩, 0, []⟩

structure InclusionProof where
  value : Bytes
  leafIndex : Nat
  proof : List Bytes
  deriving DecidableEq, Repr

-- A StatementType is a byte.
structure SignedStatement where
  type : UInt8
  statement : Bytes
  signature : Bytes
  deriving DecidableEq, Repr

def firmwareMetadataType : UInt8 := 102

def malwareStatementType : UInt8 := 109

inductive Claimant
  | publisher
  | annotatorMalware
  deriving DecidableEq, Repr

def claimantForType (t : UInt8) : Except GoError Claimant :=
  if t = firmwareMetadataType then .ok .publisher
  else if t = malwareStatementType then .ok .annotatorMalware
  else .error (.text "Unknown Claimant type %v")

/-- What is called outside the repository: log.ParseCheckpoint for the log's verifier, with the rest of the
note's text; rfc6962 and proof of transparency-dev/merkle; encoding/json; the claimants' keys of RSA over
SHA-512. -/
structure Libraries where
  parseLog : Bytes → String → Except GoError (Checkpoints.Checkpoint × Bytes)
  hasher : LogHasher
  proofs : ProofPackage.Package
  decodeStatement : Bytes → Except GoError SignedStatement
  verifyPSS : Claimant → Bytes → Bytes → Except GoError Unit

namespace Libraries

variable (libs : Libraries)

-- The type of a statement is signed with it.
def verifySignature (claimant : Claimant) (type : UInt8) (stmt signature : Bytes) : Except GoError Unit :=
  hideErr "failed to verify signature %v" (libs.verifyPSS claimant (type :: stmt) signature)

-- strings.TrimRight for the newline.
def trimNewlines (text : Bytes) : Bytes := (text.reverse.dropWhile (· = newline)).reverse

/-- ParseCheckpoint of package api: the other data of a checkpoint is one line with a time. -/
def parseCheckpoint (chkpt : Bytes) : Except GoError LogCheckpoint := do
  let (cp, otherData) ← libs.parseLog chkpt ftLogOrigin
  match (trimNewlines otherData).splitOn newline with
  | [line] =>
    match parseUint 10 64 line with
    | some ts => .ok { cp with timestampNanos := ts, envelope := chkpt }
    | none => .error (.wrap "failed to parse timestamp: %w" (.text "strconv.ParseUint: parsing %s: %v"))
  | _ => .error (.text "expected 1 line of other data, got %d")

end Libraries

/-- A checkpoint's envelope is the note it was parsed from. -/
theorem parseCheckpoint_envelope {libs : Libraries} {chkpt : Bytes} {cp : LogCheckpoint}
    (parsed : libs.parseCheckpoint chkpt = .ok cp) : cp.envelope = chkpt := by
  obtain ⟨⟨body, otherData⟩, -, parsed⟩ := except_bind_eq_ok.mp parsed
  dsimp only at parsed
  split at parsed
  next line _ =>
    split at parsed
    · obtain rfl := Except.ok.inj parsed
      rfl
    · cases parsed
  · cases parsed

section Sample

-- Statements of both types with the signature 7, as JSON.
def firmwareJson : Bytes :=
  [123, 34, 84, 121, 112, 101, 34, 58, 49, 48, 50, 44, 34, 83, 105, 103, 110, 97, 116, 117, 114, 101, 34, 58, 34, 66,
    119, 61, 61, 34, 125]

def malwareJson : Bytes :=
  [123, 34, 84, 121, 112, 101, 34, 58, 49, 48, 57, 44, 34, 83, 105, 103, 110, 97, 116, 117, 114, 101, 34, 58, 34, 66,
    119, 61, 61, 34, 125]

def sampleLog : List Bytes := [firmwareJson, malwareJson]

def sampleHasher : LogHasher :=
  .listing sampleLog [LogHasher.numbered 1 sampleLog firmwareJson ++ LogHasher.numbered 1 sampleLog malwareJson]

theorem sampleHasher_binds {entries : List Bytes} (front : entries <+: sampleLog) : sampleHasher.Binds entries :=
  LogHasher.listing_binds (by decide) (by decide) (by decide) (by decide) (by decide) front

def sampleRoot : Nat → Bytes
  | 1 => sampleHasher.hashLeaf firmwareJson
  | 2 => sampleHasher.hashChildren (sampleHasher.hashLeaf firmwareJson) (sampleHasher.hashLeaf malwareJson)
  | _ => sampleHasher.emptyRoot

-- A note is the size of the log; one with a second byte is the log's for another tree of the size.
def sample : Libraries where
  parseLog raw origin :=
    match raw with
    | [size] => .ok (⟨origin, size.toNat, sampleRoot size.toNat⟩, [55, 10])
    | [size, hash] => .ok (⟨origin, size.toNat, [hash]⟩, [55, 10])
    | _ => .error (.text "malformed note")
  hasher := sampleHasher
  proofs := ProofPackage.reference
  decodeStatement raw :=
    if raw = firmwareJson then .ok ⟨firmwareMetadataType, [], [7]⟩
    else if raw = malwareJson then .ok ⟨malwareStatementType, [], [7]⟩
    else .error (.text "invalid character")
  verifyPSS _ _ signature := if signature = [7] then .ok () else .error (.text "crypto/rsa: verification error")

def sampleCheckpoint (size : UInt8) : LogCheckpoint :=
  ⟨⟨ftLogOrigin, size.toNat, sampleRoot size.toNat⟩, 7, [size]⟩

theorem sampleRoot_eq : sampleHasher.logRoot (sampleLog.take 1) = sampleRoot 1 ∧
    sampleHasher.logRoot sampleLog = sampleRoot 2 := by
  constructor
  · exact treeHash_single _ _ _
  · rw [LogHasher.logRoot, treeHash_split _ _ (by decide)]
    exact congrArg₂ sampleHasher.hashChildren (treeHash_single _ _ _) (treeHash_single _ _ _)

end Sample

end Firmware
