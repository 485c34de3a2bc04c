import TrillianServerless.Shared.FileSystem
import TrillianServerless.Serverless.Integrate

set_option autoImplicit false

namespace Serverless

open Go Merkle Checkpoints FileSystem

abbrev LogDisk := Disk Path
abbrev LogWorld := World Path

-- How filepath.Glob takes the root directory's name when it stands in a pattern: a name with glob
-- metacharacters may fail to match itself, or not be a pattern at all.
inductive GlobKind where
  | plain
  | misses
  | malformed
  deriving DecidableEq, Repr

structure Root where
  absolute : Bool
  glob : GlobKind
  deriving DecidableEq, Repr

def createExclusive (f : Path) (d : Bytes) : Eff LogWorld Unit := do
  (World.perform (Disk.openExclusive f)).wrap "unable to create temporary file: %w"
  (World.perform (Disk.writeOpened f d)).wrap "unable to write leafdata to temporary file: %w"

-- os.WriteFile.
def writeFile (f : Path) (d : Bytes) : Eff LogWorld Unit := do
  World.perform (Disk.openTruncate f)
  World.perform (Disk.writeOpened f d)

def getTile (level index logSize : Nat) : Eff LogWorld Tile := fun w =>
  match w.disk.readFile (.tile level index (partialTileSize level index logSize)) with
  | none => (.error .notExist, w)
  | some t => ((Tile.unmarshalText t).wrap "failed to parse tile: %w", w)

-- The text of the link is the path of the full tile, which a relative root makes relative to the
-- directory of the link.
def tileTarget (root : Root) (level index : Nat) : Option Path :=
  if root.absolute then some (.tile level index 0) else none

-- The names that the pattern <tile>.* stands for, in the order of Glob.
def partialNames (level index : Nat) : List Path :=
  ((List.range 255).flatMap fun k => [.tile level index (k + 1), .tileTemp level index (k + 1)]) ++
    [.tileLink level index, .tileTemp level index 0]

def globPartials (root : Root) (level index : Nat) (d : LogDisk) : Except GoError (List Path) :=
  match root.glob with
  | .plain => .ok ((partialNames level index).filter d.has)
  | .misses => .ok []
  | .malformed => .error (.text "syntax error in pattern")

def relink (root : Root) (level index : Nat) (p : Path) : Eff LogWorld Unit := do
  (World.perform (Disk.symlink (tileTarget root level index) (.tileLink level index))).wrap
    "failed to create temp link to full tile: %w"
  (World.perform (Disk.rename (.tileLink level index) p)).wrap
    "failed to rename temp link over partial tile: %w"

def relinkPartials (root : Root) (level index : Nat) : Eff LogWorld Unit := fun w =>
  match globPartials root level index w.disk with
  | .error reason => (.error (.wrap "failed to list partial tiles for clean up; %w" reason), w)
  | .ok partials =>
    (do
      let _ ← Eff.each (relink root level index) partials
      return ()) w

def storeTile (root : Root) (level index : Nat) (tile : Tile) : Eff LogWorld Unit :=
  if tile.numLeaves = 0 ∨ 256 < tile.numLeaves then
    Eff.fail (.text "tileSize %d must be > 0 and <= 256")
  else do
    let size := tile.numLeaves % 256
    (writeFile (.tileTemp level index size) tile.marshalText).wrap
      "failed to write temporary tile file: %w"
    (World.perform (Disk.rename (.tileTemp level index size) (.tile level index size))).wrap
      "failed to rename temporary tile file: %w"
    if tile.numLeaves = 256 then relinkPartials root level index else pure ()

def scanFrom (d : LogDisk) : Nat → Nat → List Bytes
  | 0, _ => []
  | fuel + 1, n =>
    match d.readFile (.seq n) with
    | none => []
    | some entry => entry :: scanFrom d fuel (n + 1)

-- No more sequence files can follow one another than there are names.
def scanSequenced (first : Nat) : LogWorld → (List Bytes × Option GoError) × LogWorld := fun w =>
  ((scanFrom w.disk w.disk.names.keys.length first, none), w)

def writeCheckpoint (newCPRaw : Bytes) : Eff LogWorld Unit := do
  (createExclusive .checkpointTmp newCPRaw).wrap "failed to create temporary checkpoint file: %w"
  World.perform (Disk.rename .checkpointTmp .checkpoint)

def fsStorage (root : Root) : Storage LogWorld where
  getTile := getTile
  storeTile := storeTile root
  scanSequenced := scanSequenced

-- The fetcher of a client that reads the log's directory.
def directoryFetcher : Fetcher LogWorld := fun path w =>
  match w.disk.readFile path with
  | none => (.error .notExist, w)
  | some content => (.ok content, w)

theorem newTileFetcher_directory (n : Nat) :
    newTileFetcher directoryFetcher n = fun level index => getTile level index n := by
  funext level index w
  simp only [newTileFetcher, directoryFetcher, getTile]
  cases w.disk.readFile (.tile level index (partialTileSize level index n)) <;> rfl

theorem getTile_readOnly (level index n : Nat) (w : LogWorld) : (getTile level index n w).2 = w := by
  unfold getTile
  split <;> rfl

section Scan

variable (d : LogDisk)

-- With a name for each of `count` consecutive sequence numbers there are at least `count` names.
theorem seq_count_le {first count : Nat}
    (present : ∀ k < count, d.readFile (.seq (first + k)) ≠ none) : count ≤ d.names.keys.length := by
  have found : ∀ k < count, Path.seq (first + k) ∈ d.names.keys := by
    intro k less
    by_contra absent
    have missing : d.lookup (.seq (first + k)) = none := AList.lookup_eq_none.mpr absent
    exact present k less (d.readFile_missing _ missing)
  have distinct : ((List.range count).map fun k => Path.seq (first + k)).Nodup := by
    refine List.Nodup.map (fun a b same => ?_) List.nodup_range
    simp only [Path.seq.injEq] at same
    omega
  have inside : ((List.range count).map fun k => Path.seq (first + k)) ⊆ d.names.keys := by
    intro path member
    obtain ⟨k, less, rfl⟩ := List.mem_map.mp member
    exact found k (List.mem_range.mp less)
  simpa using (List.subperm_of_subset distinct inside).length_le

theorem scanFrom_eq {first : Nat} {entries : List Bytes}
    (present : ∀ k (bound : k < entries.length), d.readFile (.seq (first + k)) = some entries[k])
    (ends : d.readFile (.seq (first + entries.length)) = none) {fuel : Nat}
    (enough : entries.length ≤ fuel) : scanFrom d fuel first = entries := by
  induction entries generalizing first fuel with
  | nil =>
    cases fuel with
    | zero => rfl
    | succ fuel => simp [scanFrom, show d.readFile (.seq first) = none from ends]
  | cons entry rest ih =>
    cases fuel with
    | zero => simp at enough
    | succ fuel =>
      have here : d.readFile (.seq first) = some entry := present 0 (by simp)
      have later : ∀ k (bound : k < rest.length),
          d.readFile (.seq (first + 1 + k)) = some rest[k] := by
        intro k bound
        have := present (k + 1) (by simp; omega)
        rw [show first + 1 + k = first + (k + 1) by omega, this]
        rfl
      have final : d.readFile (.seq (first + 1 + rest.length)) = none := by
        rw [show first + 1 + rest.length = first + (rest.length + 1) by omega]
        exact ends
      simp only [scanFrom, here]
      rw [ih later final (by simpa using enough)]

/-- ScanSequenced gives all the entries up to the first number that is not in use. -/
theorem scanSequenced_eq {w : LogWorld} {first : Nat} {entries : List Bytes}
    (present : ∀ k (bound : k < entries.length), w.disk.readFile (.seq (first + k)) = some entries[k])
    (ends : w.disk.readFile (.seq (first + entries.length)) = none) :
    scanSequenced first w = ((entries, none), w) := by
  rw [scanSequenced, scanFrom_eq w.disk present ends]
  exact seq_count_le w.disk fun k less => by rw [present k less]; simp

end Scan

end Serverless
