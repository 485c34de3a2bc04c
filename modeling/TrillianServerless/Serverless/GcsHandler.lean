import TrillianServerless.Shared.Json
import TrillianServerless.Packages.NoteFormat
import TrillianServerless.Serverless.GcsSequence
import TrillianServerless.Serverless.IntegrateFaults
import TrillianServerless.Serverless.ProofBuilder

set_option autoImplicit false

namespace Serverless

namespace Gcs

open Go Merkle Checkpoints SignedNote

-- NewReader fails, or ReadAll fails after some bytes, which it gives with its error.
inductive ReadFault where
  | none
  | unopened
  | cut (count : Nat)
  deriving DecidableEq, Repr

-- Write fails, or Close does, of an upload that was done all the same or was not.
inductive WriteFault where
  | none
  | write
  | close (stored : Bool)
  deriving DecidableEq, Repr

/-- What the next reads and writes of each object meet. Where a list ends nothing fails any more. -/
structure Faults where
  reads : Path → List ReadFault
  writes : Path → List WriteFault
  attrs : Fault
  create : Fault

/-- The bucket that a request names, if there is one, and the objects that were written or tried to be. -/
structure World where
  bucket : Option Objects
  faults : Faults
  written : List Path

def World.start (bucket : Option Objects) (faults : Faults) : World := ⟨bucket, faults, []⟩

def World.object (w : World) (p : Path) : Option Bytes := w.bucket.bind fun b => b.lookup p

def apiError : GoError := .text "googleapi: Error"

section Client

-- What comes of NewReader and ReadAll.
inductive Read where
  | missing
  | unopened
  | cut (got : Bytes)
  | whole (got : Bytes)
  deriving DecidableEq, Repr

def readObject (p : Path) (w : World) : Read × World :=
  let w' := { w with faults.reads := Function.update w.faults.reads p (w.faults.reads p).tail }
  match (w.faults.reads p).head?.getD .none, w.object p with
  | .unopened, _ => (.unopened, w')
  | _, none => (.missing, w')
  | .none, some raw => (.whole raw, w')
  | .cut count, some raw => (.cut (raw.take count), w')

-- `ofWrite` is what the caller makes of an error of Write.
def writeObject (ofWrite : GoError → GoError) (p : Path) (data : Bytes) : Eff World Unit := fun w =>
  let w' : World := { w with
    faults.writes := Function.update w.faults.writes p (w.faults.writes p).tail
    written := w.written ++ [p] }
  let stored : World := { w' with bucket := w.bucket.map fun b => b.insert p data }
  match (w.faults.writes p).head?.getD .none with
  | .write => (.error (ofWrite apiError), w')
  | .close done => (.error apiError, if done then stored else w')
  | .none => if w.bucket.isSome then (.ok (), stored) else (.error apiError, w')

-- Whether the rights of the new bucket could be set is not looked at. A second try of the client library's finds
-- the bucket of the first.
def create : Eff World Unit := fun w =>
  if w.faults.attrs.isError || w.bucket.isSome then (.error (.text
    "expected bucket %q to not be created yet (bucket attribute retrieval succeeded, expected error)"), w)
  else
    let w' := if w.faults.create.isDone then { w with bucket := some ∅ } else w
    if w.faults.create = .none then (.ok (), w')
    else (.error (.wrap "failed to create bucket %q in project %s: %w" apiError), w')

def writeCheckpoint (newCPRaw : Bytes) : Eff World Unit := writeObject id .checkpoint newCPRaw

-- The bytes and the error, either of which may be there.
def readCheckpoint (w : World) : (Bytes × Option GoError) × World :=
  match readObject .checkpoint w with
  | (.missing, w') => (([], some (.text "storage: object doesn't exist")), w')
  | (.unopened, w') => (([], some apiError), w')
  | (.cut got, w') => ((got, some apiError), w')
  | (.whole got, w') => ((got, none), w')

def getTile (level index logSize : Nat) : Eff World Tile := fun w =>
  match readObject (.tile level index (partialTileSize level index logSize)) w with
  | (.missing, w') => (.error .notExist, w')
  | (.unopened, w') => (.error apiError, w')
  | (.cut _, w') => (.error (.text "failed to read tile object %q in bucket %q: %v"), w')
  | (.whole t, w') => ((Tile.unmarshalText t).wrap "failed to parse tile: %w", w')

def scanFrom : Nat → Nat → World → (List Bytes × Option GoError) × World
  | 0, _, w => (([], none), w)
  | fuel + 1, n, w =>
    match readObject (.seq n) w with
    | (.missing, w') => (([], none), w')
    | (.unopened, w') =>
      (([], some (.text "ScanSequenced: failed to create reader for object %q in bucket %q: %v")), w')
    | (.cut _, w') => (([], some (.wrap "failed to read leafdata at index %d: %w" apiError)), w')
    | (.whole entry, w') =>
      let later := scanFrom fuel ((n + 1) % 2 ^ 64) w'
      ((entry :: later.1.1, later.1.2), later.2)

-- No more entries can follow one another than there are objects.
def scanSequenced (first : Nat) (w : World) : (List Bytes × Option GoError) × World :=
  scanFrom ((w.bucket.getD ∅).keys.length + 1) first w

-- What follows the return of the writer's Close is never reached.
def storeTile (level index : Nat) (tile : Tile) : Eff World Unit :=
  if tile.numLeaves = 0 ∨ 256 < tile.numLeaves then
    Eff.fail (.text "tileSize %d must be > 0 and <= 256")
  else
    writeObject (.wrap "failed to write tile object %q to bucket %q: %w")
      (.tile level index (tile.numLeaves % 256)) tile.marshalText

def client : Storage World where
  getTile := getTile
  storeTile := storeTile
  scanSequenced := scanSequenced

end Client

section Handler

/-- What the handler calls besides: NewSigner and NewVerifier of package note, and Checkpoint.Marshal of formats/log. -/
structure NotePackage extends SignedNote.Package where
  lawful : SignedNote.Lawful toPackage
  newSigner : String → Except GoError Signer
  newVerifier : String → Except GoError Verifier
  marshal : Checkpoint → Bytes

-- A nil Verifier has no name to be listed under.
def NotePackage.openCheckpoint (pkg : NotePackage) (raw : Bytes) (origin : String) : Option Verifier → Outcome Checkpoint
  | none => .panic "invalid memory address or nil pointer dereference"
  | some v => (fun r => r.1) <$> Outcome.ofExcept (pkg.parseCheckpoint raw origin v [])

-- Without a signature there is nothing to verify.
theorem NotePackage.empty_unverified (pkg : NotePackage) (origin : String) (v : Option Verifier) (cp : Checkpoint) :
    pkg.openCheckpoint [] origin v ≠ .ok cp := by
  cases v with
  | none => nofun
  | some v =>
    rw [openCheckpoint]
    cases parsed : pkg.parseCheckpoint [] origin v [] with
    | error reason => nofun
    | ok found =>
      obtain ⟨opened, -⟩ := (pkg.lawful.parse _ _ _ _ found.1 found.2).mp parsed
      obtain ⟨e, decoded, -⟩ := opened_eq_some opened
      cases pkg.lawful.decode_nil.symm.trans decoded

-- The environment variables, and whether a client of GCS can be made.
structure Env where
  getenv : String → String
  newClient : Except GoError Unit

structure Request where
  origin : String
  initialise : Bool
  bucket : String
  deriving DecidableEq, Repr

def requestFields : List (Json.Field Request) :=
  [⟨"origin", fun d v => (v.toText d.origin).map fun s => { d with origin := s }⟩,
    ⟨"initialise", fun d v => (v.toBool d.initialise).map fun b => { d with initialise := b }⟩,
    ⟨"bucket", fun d v => (v.toText d.bucket).map fun s => { d with bucket := s }⟩]

def decodeRequest (body : Bytes) : Except GoError Request := do
  (← Json.decodeNext body).decodeStruct requestFields ⟨"", false, ""⟩

inductive Answer where
  | error (status : Nat) (text : String)
  | body (text : String)
  deriving DecidableEq, Repr

-- The storage, and what was written to the http.ResponseWriter.
structure Exchange where
  store : World
  answers : List Answer

def onStore {A : Type} (x : Eff World A) : Eff Exchange A := fun e =>
  ((x e.store).1, ⟨(x e.store).2, e.answers⟩)

def respond (answer : Answer) : Eff Exchange Unit := fun e => (.ok (), ⟨e.store, e.answers ++ [answer]⟩)

def httpError (text : String) (status : Nat) : Eff Exchange Unit := respond (.error status text)

-- `v, err := f()`, where an error is answered and the handler goes on with a nil value.
def orAnswer {A : Type} (text : String) (x : Eff Exchange A) : Eff Exchange (Option A) := do
  match ← x.attempt with
  | .ok a => return some a
  | .error _ => do
    httpError text 500
    return none

variable (deps : Deps) (h : LogHasher) (pkg : NotePackage) (env : Env)
  (order : List TileEntry → List TileEntry)

def validateCommonArgs (origin : String) : Eff Exchange (Bool × String) :=
  let pubKey := env.getenv "SERVERLESS_LOG_PUBLIC_KEY"
  if origin = "" then do
    httpError "Please set `origin` in HTTP body to log identifier." 400
    return (false, "")
  else if pubKey = "" then do
    httpError "Please set SERVERLESS_LOG_PUBLIC_KEY environment variable" 400
    return (false, "")
  else return (true, pubKey)

def signAndWrite (cp : Option Checkpoint) (s : Signer) (origin : String) : Eff World Unit := do
  let cp ← Eff.deref cp
  let cpNote : Note := ⟨pkg.marshal { cp with origin := origin }, [], []⟩
  let cpNoteSigned ← (Eff.ofExcept (pkg.sign cpNote [s])).wrap
    "failed to sign Checkpoint: %w"
  (writeCheckpoint cpNoteSigned).wrap "failed to store new log checkpoint: %w"

def initialise (d : Request) (s : Signer) : Eff Exchange Unit := do
  match ← (onStore create).attempt with
  | .error _ => httpError "Failed to create bucket for log: %v" 400
  | .ok () => do
    let _ ← orAnswer "Failed to sign: %q" (onStore (signAndWrite pkg (some ⟨"", 0, h.emptyRoot⟩) s d.origin))
    respond (.body "Initialised log at %s.")

-- From where the stored checkpoint is known.
def integrateFrom (cp : Checkpoint) (d : Request) (s : Signer) : Eff Exchange Unit := do
  match ← (onStore (Serverless.integrate deps client h order cp)).attempt with
  | .error _ => httpError "Failed to integrate: %q" 500
  | .ok newCp => do
    if newCp.isNone then httpError "Nothing to integrate" 500
    let _ ← orAnswer "Failed to sign: %q" (onStore (signAndWrite pkg newCp s d.origin))
    return

-- None of the three errors before makes the handler return.
def integrateStored (d : Request) (pubKey : String) (s : Signer) : Eff Exchange Unit := do
  let (cpRaw, err) ← onStore fun w => (.ok (readCheckpoint w).1, (readCheckpoint w).2)
  if err.isSome then httpError "Failed to read log checkpoint: %q" 500
  let v ← orAnswer "Failed to instantiate Verifier: %q" (Eff.ofExcept (pkg.newVerifier pubKey))
  let cp ← orAnswer "Failed to open Checkpoint: %q" (Eff.lift (pkg.openCheckpoint cpRaw d.origin v))
  let cp ← Eff.deref cp
  integrateFrom deps h pkg order cp d s

-- An empty private key is answered, and then makes no signer.
def serve (d : Request) (pubKey : String) : Eff Exchange Unit := do
  let privKey := env.getenv "SERVERLESS_LOG_PRIVATE_KEY"
  if privKey = "" then httpError "Please set SERVERLESS_LOG_PUBLIC_KEY environment variable" 400
  match pkg.newSigner privKey, env.newClient with
  | .error _, _ => httpError "Failed to instantiate signer: %q" 500
  | .ok _, .error _ => httpError "Failed to create GCS client: %v" 400
  | .ok s, .ok () => if d.initialise then initialise h pkg d s else integrateStored deps h pkg order d pubKey s

/-- The entrypoint of the `integrate` function. -/
def integrate (body : Bytes) : Eff Exchange Unit :=
  match decodeRequest body with
  | .error _ => httpError "Bad Request" 400
  | .ok d => do
    let (ok, pubKey) ← validateCommonArgs env d.origin
    if ok then serve deps h pkg env order d pubKey else return

end Handler

section Frame

variable {w w' : World}

def Untouched (w w' : World) : Prop := w'.bucket = w.bucket ∧ w'.written = w.written

-- A read changes nothing but what the next reads of the object meet.
theorem readObject_world (p : Path) (w : World) :
    (readObject p w).2 = { w with faults.reads := Function.update w.faults.reads p (w.faults.reads p).tail } := by
  unfold readObject
  split <;> rfl

/-- Objects other than those of sequence numbers were read. -/
structure Looked (w w' : World) : Prop where
  untouched : Untouched w w'
  seqs : ∀ k, w'.faults.reads (.seq k) = w.faults.reads (.seq k)

theorem Looked.refl (w : World) : Looked w w := ⟨⟨rfl, rfl⟩, fun _ => rfl⟩

theorem Looked.readObject (looked : Looked w w') {p : Path} (other : ∀ k, p ≠ .seq k) :
    Looked w (readObject p w').2 := by
  rw [readObject_world]
  refine ⟨looked.untouched, fun k => ?_⟩
  simpa [Function.update_of_ne (other k).symm] using looked.seqs k

theorem getTile_world (level index logSize : Nat) (w : World) : (getTile level index logSize w).2 =
    (readObject (.tile level index (partialTileSize level index logSize)) w).2 := by
  unfold getTile
  rcases readObject (.tile level index (partialTileSize level index logSize)) w with ⟨_ | _ | _ | _, w'⟩ <;> rfl

theorem readCheckpoint_world (w : World) : (readCheckpoint w).2 = (readObject .checkpoint w).2 := by
  unfold readCheckpoint
  rcases readObject .checkpoint w with ⟨_ | _ | _ | _, w'⟩ <;> rfl

theorem getTile_looked (level index logSize : Nat) : Eff.Keeps (Looked w) (getTile level index logSize) := by
  intro w' looked
  rw [getTile_world]
  exact looked.readObject nofun

theorem readCheckpoint_looked (w : World) : Looked w (readCheckpoint w).2 := by
  rw [readCheckpoint_world]
  exact (Looked.refl w).readObject nofun

-- The scan goes by the bucket and by the faults of sequence numbers alone,
theorem scanFrom_same (fuel n : Nat) (bucket : w'.bucket = w.bucket)
    (seqs : ∀ k, w'.faults.reads (.seq k) = w.faults.reads (.seq k)) :
    (scanFrom fuel n w').1 = (scanFrom fuel n w).1 := by
  induction fuel generalizing n w w' with
  | zero => rfl
  | succ fuel ih =>
    have read : (readObject (.seq n) w').1 = (readObject (.seq n) w).1 := by
      unfold readObject World.object
      rw [bucket, seqs n]
      split <;> rfl
    have later := @ih (readObject (.seq n) w).2 (readObject (.seq n) w').2 ((n + 1) % 2 ^ 64)
      (by simpa [readObject_world] using bucket) fun k => by
        rw [readObject_world, readObject_world]
        by_cases own : (Path.seq k : Path) = .seq n
        · simp [own, seqs n]
        · simp [Function.update_of_ne own, seqs k]
    unfold scanFrom
    rcases here : readObject (.seq n) w with ⟨result, v⟩
    rcases there : readObject (.seq n) w' with ⟨result', v'⟩
    rw [here, there] at read later
    obtain rfl : result' = result := read
    cases result' with
    | missing | unopened | cut => rfl
    | whole entry =>
      dsimp only at later ⊢
      rw [later]

theorem Looked.scanSequenced (looked : Looked w w') (first : Nat) :
    (scanSequenced first w').1 = (scanSequenced first w).1 := by
  unfold Gcs.scanSequenced
  rw [looked.untouched.1]
  exact scanFrom_same _ _ looked.untouched.1 looked.seqs

-- and leaves all else as it is.
theorem scanFrom_keeps {I : World → Prop} (reads : ∀ k w, I w → I (readObject (.seq k) w).2) (fuel n : Nat)
    (held : I w) : I (scanFrom fuel n w).2 := by
  induction fuel generalizing n w with
  | zero => exact held
  | succ fuel ih =>
    have middle := reads n w held
    unfold scanFrom
    rcases read : readObject (.seq n) w with ⟨_ | _ | _ | entry, w'⟩ <;> rw [read] at middle
    · exact middle
    · exact middle
    · exact middle
    · exact ih _ middle

theorem scanSequenced_untouched (first : Nat) (untouched : Untouched w w') :
    Untouched w (scanSequenced first w').2 := by
  refine scanFrom_keeps (fun k v held => ?_) _ first untouched
  rw [readObject_world]
  exact held

theorem writeObject_written (ofWrite : GoError → GoError) (p : Path) (data : Bytes) (w : World) :
    (writeObject ofWrite p data w).2.written = w.written ++ [p] := by
  unfold writeObject
  dsimp only
  split
  · rfl
  · split <;> rfl
  · split <;> rfl

theorem writeObject_ne_panic (ofWrite : GoError → GoError) (p : Path) (data : Bytes) (w : World) (reason : String) :
    (writeObject ofWrite p data w).1 ≠ .panic reason := by
  unfold writeObject
  dsimp only
  split
  · nofun
  · nofun
  · split <;> nofun

theorem storeTile_written (level index : Nat) (tile : Tile) (w : World) :
    (storeTile level index tile w).2.written = w.written ∨
      (storeTile level index tile w).2.written = w.written ++ [.tile level index (tile.numLeaves % 256)] := by
  unfold storeTile
  split
  · exact .inl rfl
  · exact .inr (writeObject_written _ _ _ w)

theorem storeTile_ne_panic (level index : Nat) (tile : Tile) (w : World) (reason : String) :
    (storeTile level index tile w).1 ≠ .panic reason := by
  unfold storeTile
  split
  · nofun
  · exact writeObject_ne_panic _ _ _ w reason

end Frame

section Tiles

variable {w w' : World}

/-- The tiles are those of `w`, of which some were read. -/
structure TilesOf (w w' : World) : Prop where
  objects : ∀ level index size, w'.object (.tile level index size) = w.object (.tile level index size)
  reads : ∀ level index size, w'.faults.reads (.tile level index size) ⊆ w.faults.reads (.tile level index size)

-- UnmarshalText does not come back from a tile.
def TilePanics (w : World) : Prop := ∃ level index size raw reason,
  w.object (.tile level index size) = some raw ∧ Tile.unmarshalText raw = .panic reason

-- A read of a tile fails, or a tile does not parse.
def TileUnreadable (w : World) : Prop := ∃ level index size,
  (∃ fault ∈ w.faults.reads (.tile level index size), fault ≠ .none) ∨
    ∃ raw reason, w.object (.tile level index size) = some raw ∧ Tile.unmarshalText raw = .error reason

theorem TilesOf.refl (w : World) : TilesOf w w := ⟨fun _ _ _ => rfl, fun _ _ _ => List.Subset.refl _⟩

theorem TilesOf.readObject (tiles : TilesOf w w') (p : Path) : TilesOf w (readObject p w').2 := by
  rw [readObject_world]
  refine ⟨tiles.objects, fun level index size => ?_⟩
  by_cases own : Path.tile level index size = p
  · subst own
    intro fault later
    dsimp only at later
    rw [Function.update_self] at later
    exact tiles.reads level index size (List.mem_of_mem_tail later)
  · simpa [Function.update_of_ne own] using tiles.reads level index size

theorem readObject_whole {p : Path} {raw : Bytes} (read : (readObject p w).1 = .whole raw) :
    w.object p = some raw := by
  unfold readObject at read
  split at read
  · cases read
  · cases read
  next found =>
    obtain rfl := Read.whole.inj read
    exact found
  · cases read

theorem readObject_failed {p : Path}
    (failed : (readObject p w).1 = .unopened ∨ ∃ got, (readObject p w).1 = .cut got) :
    ∃ fault ∈ w.faults.reads p, fault ≠ .none := by
  rcases met : w.faults.reads p with _ | ⟨fault, later⟩
  · unfold readObject at failed
    rw [met] at failed
    cases found : w.object p <;> simp [found] at failed
  · refine ⟨fault, by simp, ?_⟩
    rintro rfl
    unfold readObject at failed
    rw [met] at failed
    cases found : w.object p <;> simp [found] at failed

theorem getTile_tilesOf (level index logSize : Nat) : Eff.Keeps (TilesOf w) (getTile level index logSize) := by
  intro w' tiles
  rw [getTile_world]
  exact tiles.readObject _

theorem getTile_panics {level index logSize : Nat} {reason : String} (tiles : TilesOf w w')
    (panics : (getTile level index logSize w').1 = .panic reason) : TilePanics w := by
  unfold getTile at panics
  rcases read : readObject (.tile level index (partialTileSize level index logSize)) w' with ⟨_ | _ | _ | raw, v⟩ <;>
    simp only [read, reduceCtorEq] at panics
  refine ⟨level, index, partialTileSize level index logSize, raw, reason, ?_, ?_⟩
  · rw [← tiles.objects]
    exact readObject_whole (congrArg Prod.fst read)
  · cases parsed : Tile.unmarshalText raw <;> simp_all [Outcome.wrap]

theorem getTile_refused {level index logSize : Nat} {reason : GoError} (tiles : TilesOf w w')
    (failed : (getTile level index logSize w').1 = .error reason) (exists' : reason.isNotExist = false) :
    TileUnreadable w := by
  unfold getTile at failed
  refine ⟨level, index, partialTileSize level index logSize, ?_⟩
  rcases read : readObject (.tile level index (partialTileSize level index logSize)) w' with ⟨_ | _ | got | raw, v⟩
  · simp only [read] at failed
    obtain rfl := Outcome.error.inj failed
    cases exists'
  · obtain ⟨fault, member, bad⟩ := readObject_failed (.inl (congrArg Prod.fst read))
    exact .inl ⟨fault, tiles.reads _ _ _ member, bad⟩
  · obtain ⟨fault, member, bad⟩ := readObject_failed (.inr ⟨got, congrArg Prod.fst read⟩)
    exact .inl ⟨fault, tiles.reads _ _ _ member, bad⟩
  · refine .inr ⟨raw, ?_⟩
    rw [← tiles.objects, readObject_whole (congrArg Prod.fst read)]
    cases parsed : Tile.unmarshalText raw with
    | error cause => exact ⟨cause, rfl, rfl⟩
    | ok tile => simp [read, parsed] at failed
    | panic cause => simp [read, parsed, Outcome.wrap] at failed

variable (deps : Deps) (h : LogHasher) {order : List TileEntry → List TileEntry} {cp : Checkpoint}

/-- Integrate panics only when UnmarshalText does, or when a tile cannot be read after the nodes of the stored range
could. -/
theorem integrate_panic_cause {reason : String}
    (panics : (Serverless.integrate deps client h order cp w).1 = .panic reason) :
    TilePanics w ∨ reason = "panic(err)" ∧
      ∃ hashes w', storedRange deps client cp w = (.ok hashes, w') ∧ TileUnreadable w' := by
  have start : TilesOf w w := .refl w
  rcases integrate_panics deps client h panics with loading | ⟨hashes, w', base, fetched, later⟩
  · exact .inl (fetchRangeNodes_panicsOnly deps (fun _ _ => getTile_tilesOf _ _ _)
      (fun _ _ _ tiles _ failed => getTile_panics tiles failed) cp.size w start reason loading)
  · have kept := fetchRangeNodes_kept deps (fun level index => getTile_tilesOf level index cp.size) cp.size w start
    have final : (storedRange deps client cp w).2 = w' := congrArg Prod.snd fetched
    have read : TilesOf w w' := by
      rw [← final]
      exact kept
    have only : Eff.PanicsOnly (TilesOf w') (fun r => TilePanics w' ∨ r = "panic(err)" ∧ TileUnreadable w')
        (extendBase deps client h order cp base) :=
      extendBase_panicsOnly deps client h (fun level index => getTile_tilesOf level index cp.size)
        (fun _ _ _ tiles _ failed => .inl (getTile_panics tiles failed))
        (fun _ _ _ _ tiles failed exists' => .inr ⟨rfl, getTile_refused tiles failed exists'⟩)
        (fun v tiles => scanFrom_keeps (fun _ _ held => held.readObject _) _ _ tiles) storeTile_ne_panic base
    rcases only w' (.refl w') reason later with ⟨level, index, size, raw, cause, stored, bad⟩ | ⟨rfl, unreadable⟩
    · exact .inl ⟨level, index, size, raw, cause, read.objects _ _ _ ▸ stored, bad⟩
    · exact .inr ⟨rfl, hashes, w', fetched, unreadable⟩

end Tiles

section Branches

variable (deps : Deps) (h : LogHasher) (pkg : NotePackage) (env : Env)
  (order : List TileEntry → List TileEntry)

/-- The request gets past the checks of the handler, with this signer. -/
structure Accepted (d : Request) (s : Signer) (body : Bytes) : Prop where
  decoded : decodeRequest body = .ok d
  origin : d.origin ≠ ""
  pubKey : env.getenv "SERVERLESS_LOG_PUBLIC_KEY" ≠ ""
  signer : pkg.newSigner (env.getenv "SERVERLESS_LOG_PRIVATE_KEY") = .ok s
  client : env.newClient = .ok ()

/-- The bytes that were read are a checkpoint that the log has signed. -/
def Verifies (pubKey origin : String) (w : World) (cp : Checkpoint) : Prop :=
  ∃ v, pkg.newVerifier pubKey = .ok v ∧ pkg.openCheckpoint (readCheckpoint w).1.1 origin (some v) = .ok cp

-- What an accepted request comes to.
def proceed (d : Request) (s : Signer) : Eff Exchange Unit :=
  if d.initialise then initialise h pkg d s
  else integrateStored deps h pkg order d (env.getenv "SERVERLESS_LOG_PUBLIC_KEY") s

theorem integrate_cases (body : Bytes) (e : Exchange) :
    (∀ d s, ¬ Accepted pkg env d s body) ∧
        (∃ answers, integrate deps h pkg env order body e = (.ok (), ⟨e.store, answers⟩)) ∨
      ∃ d s answers, Accepted pkg env d s body ∧
        integrate deps h pkg env order body e = proceed deps h pkg env order d s ⟨e.store, answers⟩ := by
  unfold integrate
  cases decoded : decodeRequest body with
  | error reason =>
    refine .inl ⟨fun d s accepted => ?_, _, rfl⟩
    cases decoded.symm.trans accepted.decoded
  | ok d =>
    have same : ∀ {d' s}, Accepted pkg env d' s body → d' = d := fun accepted =>
      Except.ok.inj (accepted.decoded.symm.trans decoded)
    by_cases origin : d.origin = ""
    · refine .inl ⟨fun d' s accepted => accepted.origin (same accepted ▸ origin), ?_⟩
      simp only [validateCommonArgs, origin, if_pos]
      exact ⟨_, rfl⟩
    by_cases pubKey : env.getenv "SERVERLESS_LOG_PUBLIC_KEY" = ""
    · refine .inl ⟨fun d' s accepted => accepted.pubKey pubKey, ?_⟩
      simp only [validateCommonArgs, origin, pubKey, if_pos, if_neg, not_false_eq_true]
      exact ⟨_, rfl⟩
    simp only [validateCommonArgs, origin, pubKey, if_neg, not_false_eq_true, Eff.pure_bind, if_true]
    unfold serve
    -- The answer about an empty private key makes no difference to what follows.
    have goesOn : ∀ (x : Eff Exchange Unit), ∃ answers, ((do
        if env.getenv "SERVERLESS_LOG_PRIVATE_KEY" = "" then
          httpError "Please set SERVERLESS_LOG_PUBLIC_KEY environment variable" 400
        x : Eff Exchange Unit) e) = x ⟨e.store, answers⟩ := by
      intro x
      split
      · exact ⟨_, rfl⟩
      · exact ⟨e.answers, rfl⟩
    cases signer : pkg.newSigner (env.getenv "SERVERLESS_LOG_PRIVATE_KEY") with
    | error reason =>
      obtain ⟨answers, ran⟩ := goesOn (httpError "Failed to instantiate signer: %q" 500)
      refine .inl ⟨fun d' s accepted => ?_, _, ran⟩
      cases signer.symm.trans accepted.signer
    | ok s =>
      cases made : env.newClient with
      | error reason =>
        obtain ⟨answers, ran⟩ := goesOn (httpError "Failed to create GCS client: %v" 400)
        refine .inl ⟨fun d' s accepted => ?_, _, ran⟩
        cases made.symm.trans accepted.client
      | ok _ =>
        obtain ⟨answers, ran⟩ := goesOn (proceed deps h pkg env order d s)
        exact .inr ⟨d, s, answers, ⟨decoded, origin, pubKey, signer, made⟩, ran⟩

variable {w : World} {d : Request} {s : Signer}

theorem signAndWrite_some (cp : Checkpoint) (origin : String) (w : World) :
    (∀ reason, (signAndWrite pkg (some cp) s origin w).1 ≠ .panic reason) ∧
      ((signAndWrite pkg (some cp) s origin w).2 = w ∨
        (signAndWrite pkg (some cp) s origin w).2.written = w.written ++ [.checkpoint]) := by
  have derefed : (Eff.deref (some cp) : Eff World Checkpoint) w = (.ok cp, w) := rfl
  rw [signAndWrite, Eff.bind_of_ok derefed]
  cases signed : pkg.sign ⟨pkg.marshal { cp with origin := origin }, [], []⟩ [s] with
  | error reason =>
    rw [Eff.bind_of_error (Eff.wrap_of_error (Eff.ofExcept_error _ _))]
    exact ⟨nofun, .inl rfl⟩
  | ok raw =>
    rw [Eff.bind_of_ok (Eff.wrap_eq_ok.mpr (Eff.ofExcept_ok _ _)), Eff.wrap_run]
    refine ⟨fun reason panics => ?_, .inr (writeObject_written _ _ _ w)⟩
    have calm := writeObject_ne_panic id .checkpoint raw w
    cases wrote : (writeCheckpoint raw w).1 with
    | ok _ | error _ => simp [wrote] at panics
    | panic cause => exact calm cause wrote

theorem orAnswer_some {A : Type} (text : String) {x : Eff World A} (calm : ∀ reason, (x w).1 ≠ .panic reason)
    (answers : List Answer) :
    ∃ a answers', orAnswer text (onStore x) ⟨w, answers⟩ = (.ok a, ⟨(x w).2, answers'⟩) := by
  rcases ran : x w with ⟨a | reason | reason, w'⟩
  · exact ⟨some a, answers, by simp [orAnswer, Eff.attempt, onStore, Eff.bind_run, ran]⟩
  · exact ⟨none, _, by simp [orAnswer, Eff.attempt, onStore, Eff.bind_run, ran, httpError, respond]; rfl⟩
  · rw [ran] at calm
    exact absurd rfl (calm reason)

/-- Only a bucket that was not there is initialised. -/
theorem initialise_run (answers : List Answer) :
    (initialise h pkg d s ⟨w, answers⟩).1 = .ok () ∧
      (.checkpoint ∈ (initialise h pkg d s ⟨w, answers⟩).2.store.written →
        .checkpoint ∈ w.written ∨ w.bucket = none) := by
  unfold initialise
  rcases made : create w with ⟨_ | reason | reason, w'⟩
  · have created : (onStore create).attempt ⟨w, answers⟩ = (.ok (.ok ()), ⟨w', answers⟩) := by
      simp [Eff.attempt, onStore, made]
    obtain ⟨a, answers', ran⟩ := orAnswer_some "Failed to sign: %q"
      (signAndWrite_some pkg ⟨"", 0, h.emptyRoot⟩ d.origin w').1 answers
    rw [Eff.bind_of_ok created]
    dsimp only
    rw [Eff.bind_of_ok ran]
    refine ⟨rfl, fun _ => .inr ?_⟩
    unfold create at made
    split at made
    · cases made
    next new =>
      cases absent : w.bucket with
      | none => rfl
      | some b => simp [absent] at new
  · have failed : (onStore create).attempt ⟨w, answers⟩ = (.ok (.error reason), ⟨w', answers⟩) := by
      simp [Eff.attempt, onStore, made]
    rw [Eff.bind_of_ok failed]
    refine ⟨rfl, fun there => .inl ?_⟩
    have written : w'.written = w.written := by
      have final : w' = (create w).2 := by rw [made]
      rw [final]
      unfold create
      dsimp only
      split
      · rfl
      · split <;> split <;> rfl
    rwa [← written]
  · unfold create at made
    dsimp only at made
    split at made
    · cases made
    · split at made <;> cases made

/-- What comes after Integrate, by how that ended. -/
theorem integrateFrom_cases (cp : Checkpoint) (answers : List Answer) :
    let ran := Serverless.integrate deps client h order cp w
    let result := integrateFrom deps h pkg order cp d s ⟨w, answers⟩
    (∃ reason, ran.1 = .panic reason ∧ result.1 = .panic reason ∧ result.2.store = ran.2) ∨
      (ran.1 = .ok none ∧ result.2.store = ran.2) ∨
      (∃ reason, ran.1 = .error reason ∧ result.1 = .ok () ∧ result.2.store = ran.2) ∨
      ∃ newCp, ran.1 = .ok (some newCp) ∧ result.1 = .ok () ∧
        result.2.store = (signAndWrite pkg (some newCp) s d.origin ran.2).2 := by
  intro ran result
  rcases integrated : Serverless.integrate deps client h order cp w with ⟨out, w'⟩
  have attempted : ∀ r : Except GoError (Option Checkpoint), out = Outcome.ofExcept r →
      (onStore (Serverless.integrate deps client h order cp)).attempt ⟨w, answers⟩ = (.ok r, ⟨w', answers⟩) := by
    rintro (_ | _) rfl <;> simp [Eff.attempt, onStore, integrated]
  have outs : ran = (out, w') := integrated
  rw [outs]
  rcases out with (_ | newCp) | reason | reason
  · refine .inr (.inl ⟨rfl, ?_⟩)
    show (integrateFrom deps h pkg order cp d s ⟨w, answers⟩).2.store = w'
    rw [integrateFrom, Eff.bind_of_ok (attempted (.ok none) rfl)]
    rfl
  · obtain ⟨a, answers', written⟩ := orAnswer_some "Failed to sign: %q"
      (signAndWrite_some (s := s) pkg newCp d.origin w').1 answers
    have whole : result = (.ok (), ⟨(signAndWrite pkg (some newCp) s d.origin w').2, answers'⟩) := by
      show integrateFrom deps h pkg order cp d s ⟨w, answers⟩ = _
      rw [integrateFrom, Eff.bind_of_ok (attempted (.ok (some newCp)) rfl)]
      exact Eff.bind_of_ok written
    exact .inr (.inr (.inr ⟨newCp, rfl, by rw [whole], by rw [whole]⟩))
  · have whole : result = (.ok (), ⟨w', answers ++ [.error 500 "Failed to integrate: %q"]⟩) := by
      show integrateFrom deps h pkg order cp d s ⟨w, answers⟩ = _
      rw [integrateFrom, Eff.bind_of_ok (attempted (.error reason) rfl)]
      rfl
    exact .inr (.inr (.inl ⟨reason, rfl, by rw [whole], by rw [whole]⟩))
  · have panicked : (onStore (Serverless.integrate deps client h order cp)).attempt ⟨w, answers⟩ =
        (.panic reason, ⟨w', answers⟩) := by
      simp [Eff.attempt, onStore, integrated]
    have whole : result = (.panic reason, ⟨w', answers⟩) := Eff.bind_of_panic panicked
    exact .inl ⟨reason, rfl, by rw [whole], by rw [whole]⟩

/-- Without a checkpoint that verifies the handler gets no further than to its dereference. -/
theorem integrateStored_cases (pubKey : String) (answers : List Answer) :
    (∀ cp, ¬ Verifies pkg pubKey d.origin w cp) ∧
        (∃ reason answers', integrateStored deps h pkg order d pubKey s ⟨w, answers⟩ =
          (.panic reason, ⟨(readCheckpoint w).2, answers'⟩)) ∨
      ∃ cp answers', Verifies pkg pubKey d.origin w cp ∧
        integrateStored deps h pkg order d pubKey s ⟨w, answers⟩ =
          integrateFrom deps h pkg order cp d s ⟨(readCheckpoint w).2, answers'⟩ := by
  unfold integrateStored
  have read : onStore (fun w => (.ok (readCheckpoint w).1, (readCheckpoint w).2)) ⟨w, answers⟩ =
      (.ok (readCheckpoint w).1, ⟨(readCheckpoint w).2, answers⟩) := rfl
  rw [Eff.bind_of_ok read]
  obtain ⟨answers1, ran⟩ : ∃ answers1, ∀ x : Eff Exchange Unit, ((do
      if (readCheckpoint w).1.2.isSome then httpError "Failed to read log checkpoint: %q" 500
      x : Eff Exchange Unit) ⟨(readCheckpoint w).2, answers⟩) = x ⟨(readCheckpoint w).2, answers1⟩ := by
    split
    · exact ⟨_, fun _ => rfl⟩
    · exact ⟨answers, fun _ => rfl⟩
  dsimp only
  rw [ran]
  cases made : pkg.newVerifier pubKey with
  | error reason =>
    refine .inl ⟨fun cp => ?_, ?_⟩
    · rintro ⟨v, verifier, -⟩
      cases made.symm.trans verifier
    · rw [Eff.bind_of_ok (show orAnswer _ (Eff.ofExcept (.error reason)) _ = (.ok none, _) from rfl)]
      exact ⟨_, _, rfl⟩
  | ok v =>
    rw [Eff.bind_of_ok (show orAnswer _ (Eff.ofExcept (.ok v)) _ = (.ok (some v), _) from rfl)]
    rcases opened : pkg.openCheckpoint (readCheckpoint w).1.1 d.origin (some v) with cp | cause | cause
    · exact .inr ⟨cp, answers1, ⟨v, made, opened⟩, rfl⟩
    · refine .inl ⟨fun cp => ?_, _, _, rfl⟩
      rintro ⟨v', verifier, ok⟩
      obtain rfl := Except.ok.inj (made.symm.trans verifier)
      cases opened.symm.trans ok
    · refine .inl ⟨fun cp => ?_, _, _, rfl⟩
      rintro ⟨v', verifier, ok⟩
      obtain rfl := Except.ok.inj (made.symm.trans verifier)
      cases opened.symm.trans ok

end Branches

section Clean

variable {deps : Deps} {h : LogHasher} {pkg : NotePackage}
  {order : List TileEntry → List TileEntry} {w : World} {d : Request} {s : Signer} {pubKey : String}
  {answers : List Answer}

theorem Verifies.unique {origin : String} {cp cp' : Checkpoint} (verifies : Verifies pkg pubKey origin w cp)
    (verifies' : Verifies pkg pubKey origin w cp') : cp' = cp := by
  obtain ⟨v, made, parsed⟩ := verifies
  obtain ⟨v', made', parsed'⟩ := verifies'
  obtain rfl := Except.ok.inj (made'.symm.trans made)
  exact Outcome.ok.inj (parsed'.symm.trans parsed)

theorem TilePanics.looked {w' : World} (looked : Looked w w') (panics : TilePanics w') : TilePanics w := by
  obtain ⟨level, index, size, raw, reason, stored, bad⟩ := panics
  refine ⟨level, index, size, raw, reason, ?_, bad⟩
  rwa [World.object, looked.untouched.1] at stored

theorem integrateStored_panics {reason : String} {cp : Checkpoint}
    (panics : (integrateStored deps h pkg order d pubKey s ⟨w, answers⟩).1 = .panic reason)
    (verifies : Verifies pkg pubKey d.origin w cp) :
    (scanSequenced cp.size w).1 = ([], none) ∨ TilePanics w ∨ reason = "panic(err)" ∧
      ∃ hashes w', storedRange deps client cp (readCheckpoint w).2 = (.ok hashes, w') ∧ TileUnreadable w' := by
  have looked := readCheckpoint_looked w
  obtain ⟨without, -⟩ | ⟨cp', answers', verified, ran⟩ :=
    integrateStored_cases (w := w) (d := d) (s := s) deps h pkg order pubKey answers
  · exact absurd verifies (without cp)
  obtain rfl := verifies.unique verified
  rw [ran] at panics
  obtain ⟨cause, integrated, same, -⟩ | ⟨nothing, -⟩ | ⟨cause, -, fine, -⟩ | ⟨newCp, -, fine, -⟩ :=
    integrateFrom_cases (w := (readCheckpoint w).2) (d := d) (s := s) deps h pkg order cp' answers'
  · obtain rfl := Outcome.panic.inj (same.symm.trans panics)
    exact .inr ((integrate_panic_cause deps h integrated).imp (TilePanics.looked looked) id)
  · refine .inl ?_
    obtain ⟨w1, kept, empty⟩ := integrate_none (I := Looked w) deps client h
      (fun level index => getTile_looked level index cp'.size) looked (Prod.ext nothing rfl)
    rwa [← kept.scanSequenced]
  · cases fine.symm.trans panics
  · cases fine.symm.trans panics

theorem integrateStored_untouched (nothing : (readCheckpoint w).1.1 = [] ∨
      ∀ cp, Verifies pkg pubKey d.origin w cp → (scanSequenced cp.size w).1.1 = []) :
    Untouched w (integrateStored deps h pkg order d pubKey s ⟨w, answers⟩).2.store := by
  have looked := readCheckpoint_looked w
  obtain ⟨-, reason, answers', ran⟩ | ⟨cp, answers', verified, ran⟩ :=
    integrateStored_cases (w := w) (d := d) (s := s) deps h pkg order pubKey answers
  · rw [ran]
    exact looked.untouched
  have empty : (scanSequenced cp.size w).1.1 = [] := by
    rcases nothing with unread | nothing
    · obtain ⟨v, -, parsed⟩ := verified
      rw [unread] at parsed
      exact absurd parsed (pkg.empty_unverified d.origin (some v) cp)
    · exact nothing cp verified
  have scans : ∀ w1, Looked w w1 →
      (scanSequenced cp.size w1).1.1 = [] ∧ Untouched w (scanSequenced cp.size w1).2 := by
    intro w1 held
    rw [held.scanSequenced]
    exact ⟨empty, scanSequenced_untouched cp.size held.untouched⟩
  obtain ⟨kept, none'⟩ : Untouched w (Serverless.integrate deps client h order cp (readCheckpoint w).2).2 ∧
      ∀ newCp, (Serverless.integrate deps client h order cp (readCheckpoint w).2).1 ≠ .ok (some newCp) :=
    integrate_without_entries deps client h (fun level index => getTile_looked level index cp.size) scans
      (fun _ held => held.untouched) looked
  rw [ran]
  obtain ⟨cause, -, -, store⟩ | ⟨-, store⟩ | ⟨cause, -, -, store⟩ | ⟨newCp, integrated, -⟩ :=
    integrateFrom_cases (w := (readCheckpoint w).2) (d := d) (s := s) deps h pkg order cp answers'
  · rwa [store]
  · rwa [store]
  · rwa [store]
  · exact absurd integrated (none' newCp)

theorem integrateStored_written (fresh : .checkpoint ∉ w.written)
    (written : .checkpoint ∈ (integrateStored deps h pkg order d pubKey s ⟨w, answers⟩).2.store.written) :
    ∃ cp newCp, Verifies pkg pubKey d.origin w cp ∧
      (Serverless.integrate deps client h order cp (readCheckpoint w).2).1 = .ok (some newCp) := by
  have looked := readCheckpoint_looked w
  have still : .checkpoint ∉ (readCheckpoint w).2.written := by rwa [looked.untouched.2]
  obtain ⟨-, reason, answers', ran⟩ | ⟨cp, answers', verified, ran⟩ :=
    integrateStored_cases (w := w) (d := d) (s := s) deps h pkg order pubKey answers
  · rw [ran] at written
    exact absurd written still
  rw [ran] at written
  -- Integrate itself writes tiles only.
  have kept : .checkpoint ∉ (Serverless.integrate deps client h order cp (readCheckpoint w).2).2.written := by
    refine integrate_kept (I := fun w : World => .checkpoint ∉ w.written) deps client h
      (fun level index w1 held => ?_) (fun w1 held => ?_) (fun level index tile w1 held => ?_) _ still
    · rw [client, getTile_world, readObject_world]
      exact held
    · have untouched := scanSequenced_untouched cp.size (⟨rfl, rfl⟩ : Untouched w1 w1)
      rw [client, untouched.2]
      exact held
    · rcases storeTile_written level index tile w1 with same | more
      · rwa [client, same]
      · rw [client, more]
        simpa using held
  obtain ⟨cause, -, -, store⟩ | ⟨-, store⟩ | ⟨cause, -, -, store⟩ | ⟨newCp, integrated, -⟩ :=
    integrateFrom_cases (w := (readCheckpoint w).2) (d := d) (s := s) deps h pkg order cp answers'
  · rw [store] at written
    exact absurd written kept
  · rw [store] at written
    exact absurd written kept
  · rw [store] at written
    exact absurd written kept
  · exact ⟨cp, newCp, verified, integrated⟩

/-- Whatever the request, the environment, the bucket and the storage calls that fail: a panic comes of a request that
was accepted and asks for integration, and where the stored checkpoint verifies and there are entries to integrate it
is the one of tileCache.Visit on a tile that cannot be read, or one of UnmarshalText. On no request but one to
initialise the log is anything written when there is no checkpoint that verifies, or no entry. A checkpoint is written
only for an integration that succeeded and was not empty, or into a bucket that was not there, to initialise it. -/
theorem integrate_fails_cleanly (deps : Deps) (h : LogHasher) (pkg : NotePackage) (env : Env)
    (order : List TileEntry → List TileEntry) (body : Bytes) (bucket : Option Objects) (faults : Faults) :
    let w := World.start bucket faults
    let pubKey := env.getenv "SERVERLESS_LOG_PUBLIC_KEY"
    let result := integrate deps h pkg env order body ⟨w, []⟩
    (∀ reason, result.1 = .panic reason → ∃ d s, Accepted pkg env d s body ∧ d.initialise = false ∧
        ∀ cp, Verifies pkg pubKey d.origin w cp → (scanSequenced cp.size w).1 = ([], none) ∨ TilePanics w ∨
          reason = "panic(err)" ∧ ∃ hashes w', storedRange deps client cp (readCheckpoint w).2 = (.ok hashes, w') ∧
            TileUnreadable w') ∧
      ((∀ d s, Accepted pkg env d s body → d.initialise = false ∧ ((readCheckpoint w).1.1 = [] ∨
          ∀ cp, Verifies pkg pubKey d.origin w cp → (scanSequenced cp.size w).1.1 = [])) →
        Untouched w result.2.store) ∧
      (.checkpoint ∈ result.2.store.written → ∃ d s, Accepted pkg env d s body ∧
        (d.initialise = true ∧ bucket = none ∨ d.initialise = false ∧
          ∃ cp newCp, Verifies pkg pubKey d.origin w cp ∧
            (Serverless.integrate deps client h order cp (readCheckpoint w).2).1 = .ok (some newCp))) := by
  intro w pubKey result
  rcases integrate_cases deps h pkg env order body ⟨w, []⟩ with
    ⟨-, answers, ran⟩ | ⟨d, s, answers, accepted, ran⟩
  · have whole : result = (.ok (), ⟨w, answers⟩) := ran
    rw [whole]
    exact ⟨nofun, fun _ => ⟨rfl, rfl⟩, nofun⟩
  have whole : result = proceed deps h pkg env order d s ⟨w, answers⟩ := ran
  rw [whole, proceed]
  cases asked : d.initialise with
  | true =>
    obtain ⟨returns, created⟩ := initialise_run (w := w) (d := d) (s := s) h pkg answers
    refine ⟨fun reason panics => ?_, fun refused => ?_, fun written => ?_⟩
    · cases returns.symm.trans panics
    · cases asked.symm.trans (refused d s accepted).1
    · exact ⟨d, s, accepted, .inl ⟨asked, (created written).resolve_left nofun⟩⟩
  | false =>
    refine ⟨fun reason panics => ?_, fun refused => ?_, fun written => ?_⟩
    · exact ⟨d, s, accepted, asked, fun cp verifies => integrateStored_panics panics verifies⟩
    · exact integrateStored_untouched (refused d s accepted).2
    · exact ⟨d, s, accepted, .inr ⟨asked, integrateStored_written nofun written⟩⟩

end Clean

section TestLog

def testNotes : NotePackage where
  toPackage := reference
  lawful := reference_lawful
  newSigner key := if key = "" then .error (.text "malformed signer id") else .ok (tagSigner 65 (by decide))
  newVerifier key := if key = "" then .error (.text "malformed verifier id") else .ok (tagVerifier 65)
  marshal cp :=
    asciiBytes cp.origin ++ [newline] ++ formatUint 10 cp.size ++ [newline] ++ encodeBase64 cp.hash ++ [newline]

def testEnv : Env := ⟨fun _ => "key", .ok ()⟩

def noFaults : Faults := ⟨fun _ => [], fun _ => [], .none, .none⟩

def initialiseBody : Bytes := asciiBytes "\x7b\"origin\":\"a\",\"initialise\":true\x7d"

def integrateBody : Bytes := asciiBytes "\x7b\"origin\":\"a\"\x7d"

def testRun (body : Bytes) (bucket : Option Objects) (faults : Faults) : Outcome Unit × Exchange :=
  integrate referenceDeps LogHasher.padded testNotes testEnv id body ⟨.start bucket faults, []⟩

-- A log that was initialised and given one entry, and the same log when that is integrated and there is a second.
def testBucket : Option Objects :=
  (testRun initialiseBody none noFaults).2.store.bucket.map fun b => b.insert (.seq 0) [1]

def grownBucket : Option Objects :=
  (testRun integrateBody testBucket noFaults).2.store.bucket.map fun b => b.insert (.seq 1) [2]

-- The second read of the tile fails.
def brokenTile : Faults := { noFaults with reads := fun p => if p = .tile 0 0 1 then [.none, .unopened] else [] }

-- The connection breaks after the last byte of the checkpoint.
def cutAtEnd : Faults := { noFaults with reads := fun p => if p = .checkpoint then [.cut 1000] else [] }

example : (testRun integrateBody testBucket noFaults).1 = .ok () ∧
    (testRun integrateBody testBucket noFaults).2.store.written = [.tile 0 0 1, .checkpoint] := by
  decide +kernel

/-- A log is initialised without any integration, and Visit panics on a tile that was read before. -/
theorem handler_panics_and_initialises :
    ((testRun initialiseBody none noFaults).1 = .ok () ∧
        (testRun initialiseBody none noFaults).2.store.written = [.checkpoint]) ∧
      (testRun integrateBody grownBucket brokenTile).1 = .panic "panic(err)" := by
  decide +kernel

-- The errors after which the handler does not return: a bucket without a checkpoint makes it panic, and a checkpoint
-- whose read failed after its last byte does not keep it from writing.
example :
    (testRun integrateBody (some ∅) noFaults).1 = .panic "invalid memory address or nil pointer dereference" ∧
      (readCheckpoint (.start testBucket cutAtEnd)).1.2 = some apiError ∧
      (testRun integrateBody testBucket cutAtEnd).2.store.written = [.tile 0 0 1, .checkpoint] := by
  decide +kernel

end TestLog

end Gcs

end Serverless
