import TrillianServerless.Serverless.IntegrateRetry
import TrillianServerless.Serverless.SeqPaths

set_option autoImplicit false

namespace Serverless

open Go Merkle Checkpoints FileSystem

section Roots

/-- The root directory that a Storage was given, and the directory that its process works in. No directory on
the way is a link. -/
structure RootDir where
  cwd : List Bytes
  path : CleanPath
  glob : GlobKind
  deriving DecidableEq, Repr

namespace RootDir

variable (dir : RootDir)

-- The directory of a tile, and its name there.
def tilePath (level index partialTileSize : Nat) : CleanPath × Bytes :=
  (dir.path.join (tileName :: tileDirs level index), tileBase index partialTileSize)

-- Where the process finds a tile.
def tileLocation (level index size : Nat) : List Bytes :=
  ((dir.tilePath level index size).1.join [(dir.tilePath level index size).2]).resolve dir.cwd

-- Where a link leads that lies beside the tile and has the tile's path for its text.
def linkLocation (level index : Nat) : List Bytes :=
  ((dir.tilePath level index 0).1.join [(dir.tilePath level index 0).2]).resolve
    ((dir.tilePath level index 0).1.resolve dir.cwd)

/-- The path of a tile means the same beside the tile as in the working directory. -/
def Leads : Prop := dir.path.Returns dir.cwd 5

instance : Decidable dir.Leads := inferInstanceAs (Decidable (dir.path.Returns _ _))

-- What StoreTile makes of the root: its links lead to full tiles as those of an absolute root do, or they do
-- not. All tiles are equally deep, so that the first one decides.
def root : Root := ⟨decide (dir.linkLocation 0 0 = dir.tileLocation 0 0 0), dir.glob⟩

variable {dir}

theorem linkLocation_eq_iff (level index : Nat) :
    dir.linkLocation level index = dir.tileLocation level index 0 ↔ dir.Leads := by
  simp only [linkLocation, tileLocation, tilePath, CleanPath.resolve_join, List.append_cancel_right_eq]
  exact CleanPath.resolve_below_iff dir.path (tileName :: tileDirs level index)

theorem root_absolute : dir.root.absolute = true ↔ dir.Leads := by
  rw [root, decide_eq_true_iff, linkLocation_eq_iff]

end RootDir

end Roots

section Steps

variable (deps : Deps) (root : Root) (h : LogHasher)

-- The checkpoint of the empty log, or one that Integrate has returned.
def LogState.Knows (s : LogState) (cp : Checkpoint) : Prop := cp.size = 0 ∨ cp ∈ s.returned

/-- How a directory is used. Processes sequence entries side by side and are killed, and Integrate runs from a
checkpoint of the log where it is allowed to, and may be killed too. -/
inductive DirectoryStep (Allowed : LogDisk → Prop) : LogState → LogState → Prop
  | sequence (s : LogState) (events : List SequenceEvent) :
      DirectoryStep Allowed s ⟨(events.foldl (SequenceSystem.step h) (sequencing s.disk)).disk, s.returned⟩
  | integrate (s : LogState) (allowed : Allowed s.disk) (order : List TileEntry → List TileEntry)
      (permutes : ∀ es, (order es).Perm es) (cp : Checkpoint) (known : s.Knows cp) :
      DirectoryStep Allowed s ⟨(s.integrated deps root h order cp).2.disk,
        s.returned ++ returnedBy (s.integrated deps root h order cp).1⟩
  | killed (s : LogState) (allowed : Allowed s.disk) (order : List TileEntry → List TileEntry)
      (permutes : ∀ es, (order es).Perm es) (cp : Checkpoint) (known : s.Knows cp) (c : LogDisk)
      (passed : c ∈ (s.integrated deps root h order cp).2.states) : DirectoryStep Allowed s ⟨c, s.returned⟩
  | writeCheckpoint (s : LogState) (raw : Bytes) :
      DirectoryStep Allowed s ⟨(writeCheckpoint raw ⟨s.disk, []⟩).2.disk, s.returned⟩

end Steps

section Readable

/-- Every tile that GetTile finds on `d` it finds on `d'`, with all of the hashes that it had. -/
def StillRead (d d' : LogDisk) : Prop :=
  ∀ level index logSize, d.has (.tile level index (partialTileSize level index logSize)) = true →
    ∃ t t', (getTile level index logSize ⟨d, []⟩).1 = .ok t ∧ (getTile level index logSize ⟨d', []⟩).1 = .ok t' ∧
      ∀ slot hash, hash ≠ [] → nodeIn t slot = .ok hash → nodeIn t' slot = .ok hash

-- All of the entries below the tile are sequenced.
def Complete (d : LogDisk) (level index : Nat) : Prop :=
  d.has (.seq (256 * (index + 1) * 2 ^ (8 * level) - 1)) = true

/-- Integrate replaces no partial tile by a link that leads nowhere: links lead to full tiles, or Glob finds no
partial tiles, or none of the tiles that get full has any. -/
def RootDir.Keeps (dir : RootDir) (d : LogDisk) : Prop :=
  dir.Leads ∨ dir.glob ≠ .plain ∨
    ∀ level index size, 0 < size → d.has (.tile level index size) = true → ¬ Complete d level index

variable {h : LogHasher} {entries more : List Bytes} {n : Nat} {d d' : LogDisk}

theorem getTile_read {level index logSize : Nat} {raw : Bytes}
    (read : d.readFile (.tile level index (partialTileSize level index logSize)) = some raw) :
    (getTile level index logSize ⟨d, []⟩).1 = (Tile.unmarshalText raw).wrap "failed to parse tile: %w" := by
  simp [getTile, read]

/-- Tiles of the log that keep their names are still read. -/
theorem TilesKept.stillRead (kept : TilesKept d d') (ok : TilesOk h entries d)
    (ok' : TilesOk h (entries ++ more) d') : StillRead d d' := by
  intro level index logSize has
  obtain ⟨node, found⟩ := (d.has_iff _).mp has
  have present : d.lookup (.tile level index (partialTileSize level index logSize)) ≠ none := by simp [found]
  obtain ⟨t, count, text, holds, -, bound⟩ := ok.readFile present
  obtain ⟨t', count', text', holds', -, bound'⟩ := ok'.readFile (kept.names _ _ _ present)
  have parsed := holds.parsed (Nat.le_trans bound (tileCount_le _ _))
  have parsed' := holds'.parsed (Nat.le_trans bound' (tileCount_le _ _))
  refine ⟨t.readBack, t'.readBack, by rw [getTile_read text, parsed]; rfl, by rw [getTile_read text', parsed']; rfl,
    fun slot hash filled node => ?_⟩
  -- A hash of the tile is that of a tree node.
  obtain ⟨id, tile, -, rfl⟩ : ∃ id, tileOf id = (level, index) ∧ tileStop id ≤ count ∧ slotOf id = slot := by
    unfold nodeIn at node
    split at node
    · cases node
    · cases node
    next inner here =>
      obtain rfl := Except.ok.inj node
      exact holds.readBack.noMore slot _ here filled
  have reads : NodeReads d (partialTileSize level index logSize) id hash := by
    refine ⟨filled, _, _, ?_, parsed, node⟩
    rw [tile]
    exact text
  obtain ⟨-, raw, read, same, parse, still⟩ := reads.kept ok ok' kept
  rw [tile, text'] at same
  obtain rfl := Option.some.inj same
  obtain rfl := Outcome.ok.inj (parsed'.symm.trans parse)
  exact still

theorem Stocked.has_seq (stocked : Stocked h entries n d) (k : Nat) :
    d.has (.seq k) = true ↔ k < entries.length := by
  constructor
  · intro has
    by_contra beyond
    simp [Disk.has, stocked.directory.free k (Nat.le_of_not_lt beyond)] at has
  · intro less
    obtain ⟨i, found, -⟩ := stocked.sequenced k less
    simp [Disk.has, found]

theorem Stocked.mem_of_read (stocked : Stocked h entries n d) {k : Nat} {x : Bytes}
    (read : d.readFile (.seq k) = some x) : x ∈ entries := by
  have holds := stocked.directory.readFile_seq.mp read
  rw [← (stocked.sequenced k (stocked.directory.seq_lt holds)).unique holds]
  exact List.getElem_mem _

theorem tileCount_eq_full (level index n : Nat) :
    tileCount (level, index) n = 256 ↔ 256 * (index + 1) * 2 ^ (8 * level) ≤ n := by
  rw [← Nat.le_div_iff_mul_le (Nat.two_pow_pos _), tileCount]
  dsimp only
  omega

theorem Stocked.complete_iff (stocked : Stocked h entries n d) (level index : Nat) :
    Complete d level index ↔ tileCount (level, index) entries.length = 256 := by
  rw [Complete, stocked.has_seq, tileCount_eq_full]
  have positive : 0 < 256 * (index + 1) * 2 ^ (8 * level) := by positivity
  omega

-- The first tile is full with 256 entries.
theorem Stocked.keeps_short {dir : RootDir} (stocked : Stocked h entries n d) (short : d.has (.seq 255) = false) :
    dir.Keeps d := by
  refine .inr (.inr fun level index size _ _ complete => ?_)
  rw [stocked.complete_iff, tileCount_eq_full] at complete
  have least : 256 * 1 * 1 ≤ 256 * (index + 1) * 2 ^ (8 * level) :=
    Nat.mul_le_mul (Nat.mul_le_mul_left _ (Nat.le_add_left _ _)) Nat.one_le_two_pow
  rw [(stocked.has_seq 255).mpr (by omega)] at short
  cases short

theorem RootDir.Keeps.spared {dir : RootDir} {es : List TileEntry} {m : Nat} (keeps : dir.Keeps d)
    (stocked : Stocked h entries m d) (update : Update h entries n es) : Spared dir.root es d := by
  intro x member full plain
  rcases keeps with leads | other | apart
  · exact .inl (RootDir.root_absolute.mpr leads)
  · exact absurd plain other
  · refine .inr fun size positive => ?_
    by_contra present
    obtain ⟨node, found⟩ := Option.ne_none_iff_exists'.mp present
    refine apart x.1.1 x.1.2 size positive ((d.has_iff _).mpr ⟨node, found⟩) ?_
    rw [stocked.complete_iff, ← full, update.dirty.numLeaves x member]

end Readable

section Invariant

variable {deps : Deps} {root : Root} {dir : RootDir} {h : LogHasher} {entries : List Bytes} {s s' : LogState}
  {order : List TileEntry → List TileEntry} {cp : Checkpoint}

/-- A directory with tiles of its entries, in which the trees are whole whose checkpoints were returned. -/
structure Housed (h : LogHasher) (entries : List Bytes) (s : LogState) : Prop where
  stocked : Stocked h entries 0 s.disk
  known : ∀ cp ∈ s.returned, cp.size ≤ entries.length ∧ Present s.disk cp.size

theorem Housed.initial : Housed h [] .initial := ⟨.empty h, fun _ member => nomatch member⟩

theorem Housed.stocked_at (housed : Housed h entries s) (known : s.Knows cp) :
    Stocked h entries cp.size s.disk := by
  have there : cp.size ≤ entries.length ∧ Present s.disk cp.size := by
    rcases known with zero | returned
    · rw [zero]
      exact ⟨Nat.zero_le _, housed.stocked.present⟩
    · exact housed.known cp returned
  refine { housed.stocked with
    order := there.1
    present := there.2
    temps := fun key size gains => housed.stocked.temps key size ?_ }
  exact Nat.lt_of_le_of_lt (tileCount_mono key (Nat.zero_le _)) gains

/-- The tiles that Integrate stores, and how it ends. -/
theorem Housed.integrates (lawful : Compact.Lawful deps.compact) (housed : Housed h entries s) (known : s.Knows cp)
    (permutes : ∀ es, (order es).Perm es) :
    entries.length ≤ cp.size ∧ s.integrated deps root h order cp = (.ok none, ⟨s.disk, []⟩) ∨
      ∃ es, Update h entries cp.size es ∧ IntegrateEnds root es ⟨"", entries.length, h.logRoot entries⟩ s.disk
        (Between root es s.disk) (s.integrated deps root h order cp) := by
  have stocked := housed.stocked_at known
  rcases Nat.lt_or_ge cp.size entries.length with more | all
  · obtain ⟨es, update, runs⟩ := stocked.integrates lawful more
    exact .inr ⟨es, update, runs order permutes⟩
  · exact .inl ⟨all, stocked.ready.nothing lawful all order⟩

theorem Housed.moved (housed : Housed h entries s) {d : LogDisk} {more : List Bytes}
    (stocked : Stocked h (entries ++ more) 0 d) (kept : TilesKept s.disk d) :
    Housed h (entries ++ more) ⟨d, s.returned⟩ := by
  refine ⟨stocked, fun cp member => ?_⟩
  obtain ⟨size, present⟩ := housed.known cp member
  refine ⟨?_, fun key some' => kept.names _ _ _ (present key some')⟩
  rw [List.length_append]
  omega

/-- Wherever Integrate is, the directory is right and no tile name is gone. -/
theorem Housed.passed (lawful : Compact.Lawful deps.compact) (housed : Housed h entries s)
    (keeps : dir.Keeps s.disk) (permutes : ∀ es, (order es).Perm es) (known : s.Knows cp) {c : LogDisk}
    (passed : c ∈ (s.integrated deps dir.root h order cp).2.states) :
    Stocked h entries 0 c ∧ TilesKept s.disk c := by
  rcases @Housed.integrates deps dir.root h entries s order cp lawful housed known permutes with
    ⟨-, idle⟩ | ⟨es, update, ends⟩
  · rw [idle] at passed
    obtain rfl := List.mem_singleton.mp passed
    exact ⟨housed.stocked, .of_same fun _ _ _ => rfl⟩
  have between := ends.always c passed
  have spared := keeps.spared housed.stocked update
  exact ⟨housed.stocked.between (Nat.zero_le _) update spared between,
    housed.stocked.tiles.kept between spared update.dirty.numLeaves⟩

-- A checkpoint is returned once all of its tiles are stored.
theorem Housed.returned (lawful : Compact.Lawful deps.compact) (housed : Housed h entries s)
    (permutes : ∀ es, (order es).Perm es) (known : s.Knows cp) :
    ∀ new ∈ returnedBy (s.integrated deps root h order cp).1,
      new.size ≤ entries.length ∧ Present (s.integrated deps root h order cp).2.disk new.size := by
  intro new member
  rcases @Housed.integrates deps root h entries s order cp lawful housed known permutes with
    ⟨-, idle⟩ | ⟨es, update, -, ⟨returned, -, stored, between⟩ | ⟨⟨reason, failed⟩, -⟩⟩
  · rw [idle] at member
    cases member
  · rw [returned] at member
    obtain rfl := List.mem_singleton.mp member
    have stocked := housed.stocked_at known
    have settled : Settled root es s.disk (s.integrated deps root h order cp).2.disk := ⟨stored, between⟩
    exact ⟨Nat.le_refl _, settled.present stocked.present update.dirty stocked.order⟩
  · rw [failed] at member
    cases member

theorem DirectoryStep.housed (lawful : Compact.Lawful deps.compact)
    (step : DirectoryStep deps dir.root h dir.Keeps s s') (housed : Housed h entries s) :
    ∃ more, Housed h (entries ++ more) s' ∧ TilesKept s.disk s'.disk := by
  have same : entries ++ [] = entries := List.append_nil entries
  cases step with
  | sequence events =>
    obtain ⟨more, stocked⟩ := housed.stocked.sequence events
    have frame := housed.stocked.directory.safe.run_frame events
    have kept : TilesKept s.disk _ := .of_frame frame fun _ mine => mine.1
    exact ⟨more, housed.moved stocked kept, kept⟩
  | integrate allowed order permutes cp known =>
    obtain ⟨stocked, kept⟩ := housed.passed lawful allowed permutes known (List.mem_cons_self ..)
    refine ⟨[], ?_, kept⟩
    have moved : Housed h (entries ++ []) _ := housed.moved (by rwa [same]) kept
    rw [same] at moved ⊢
    refine ⟨stocked, fun new member => ?_⟩
    rcases List.mem_append.mp member with old | now
    · exact moved.known new old
    · exact housed.returned lawful permutes known new now
  | killed allowed order permutes cp known c passed =>
    obtain ⟨stocked, kept⟩ := housed.passed lawful allowed permutes known passed
    exact ⟨[], housed.moved (by rwa [same]) kept, kept⟩
  | writeCheckpoint raw =>
    have frame := writeCheckpoint_frame raw ⟨s.disk, []⟩
    have kept : TilesKept s.disk _ := .of_frame frame checkpoint_not_tile
    exact ⟨[], housed.moved (by rw [same]; exact housed.stocked.framed frame) kept, kept⟩

theorem DirectoryStep.run (lawful : Compact.Lawful deps.compact)
    (steps : Relation.ReflTransGen (DirectoryStep deps dir.root h dir.Keeps) s s') (housed : Housed h entries s) :
    ∃ more, Housed h (entries ++ more) s' ∧ TilesKept s.disk s'.disk := by
  induction steps with
  | refl => exact ⟨[], by rwa [List.append_nil], .of_same fun _ _ _ => rfl⟩
  | tail _ step ih =>
    obtain ⟨more, now, kept⟩ := ih
    obtain ⟨more', after, kept'⟩ := step.housed lawful now
    rw [List.append_assoc] at after
    exact ⟨more ++ more', after, kept.trans kept'⟩

/-- The partial tiles of a tile that Integrate makes full become links. -/
theorem Housed.relinked (lawful : Compact.Lawful deps.compact) (housed : Housed h entries s)
    (plain : root.glob = .plain) (free : ∀ level index, s.disk.lookup (.tileLink level index) = none)
    (permutes : ∀ es, (order es).Perm es) (known : s.Knows cp) {level index size : Nat} (positive : 0 < size)
    (has : s.disk.has (.tile level index size) = true) (complete : Complete s.disk level index)
    (part : tileCount (level, index) cp.size < 256) :
    (s.integrated deps root h order cp).2.disk.lookup (.tile level index size) =
      some (.symlink (tileTarget root level index)) := by
  have full := (housed.stocked.complete_iff level index).mp complete
  rcases @Housed.integrates deps root h entries s order cp lawful housed known permutes with
    ⟨all, -⟩ | ⟨es, update, -, ⟨-, -, stored, -⟩ | ⟨-, x, -, blocked⟩⟩
  · have := tileCount_mono (level, index) all
    omega
  · obtain ⟨x, member, key⟩ := update.dirty.all (level, index) (by omega)
    obtain ⟨rfl, rfl⟩ : x.1.1 = level ∧ x.1.2 = index := Prod.mk.inj key
    have leaves : x.2.numLeaves = 256 := (update.dirty.numLeaves x member).trans full
    obtain ⟨node, found⟩ := (s.disk.has_iff _).mp has
    have small := housed.stocked.tiles.small x.1.1 x.1.2 size (by simp [found])
    have target : Path.tile x.1.1 x.1.2 size ≠ tilePath x := by
      rw [tilePath_full leaves]
      simp only [ne_eq, Path.tile.injEq, true_and]
      omega
    refine ((stored x member).others _ rfl target fun same => by cases same).1 ⟨leaves, plain, ?_, has⟩
    simp only [partialNames, List.mem_append, List.mem_flatMap, List.mem_range]
    exact .inl ⟨size - 1, by omega, by simp; omega⟩
  · exact absurd (fun _ => ⟨by simp [plain], fun _ => free _ _⟩) blocked

end Invariant

section Runs

variable {deps : Deps} {dir : RootDir} {h : LogHasher} {s : LogState}

theorem exists_logSize (level index : Nat) {size : Nat} (positive : 0 < size) (small : size < 256) :
    ∃ logSize, partialTileSize level index logSize = size := by
  refine ⟨(256 * index + size) * 2 ^ (8 * level), ?_⟩
  have count : tileCount (level, index) ((256 * index + size) * 2 ^ (8 * level)) = size := by
    rw [tileCount, Nat.mul_div_cancel _ (Nat.two_pow_pos _)]
    dsimp only
    omega
  rw [partialTileSize_eq (by omega), count, Nat.mod_eq_of_lt small]

theorem getTile_dangling {d : LogDisk} {level index logSize : Nat}
    (link : d.lookup (.tile level index (partialTileSize level index logSize)) = some (.symlink none)) :
    (getTile level index logSize ⟨d, []⟩).1 = .error .notExist := by
  simp [getTile, d.readFile_dangling _ link]

/-- In every run in which Integrate is started only where it replaces no partial tile by a link that leads
nowhere, every tile is read ever after with the hashes that it had. Where it is started elsewhere and no temporary
link is in its way, there is a checkpoint from which it makes a tile unreadable. -/
theorem partial_tiles_readable (deps : Deps) (lawful : Compact.Lawful deps.compact) (dir : RootDir) (h : LogHasher)
    (s : LogState) (reached : Relation.ReflTransGen (DirectoryStep deps dir.root h dir.Keeps) .initial s) :
    (∀ s', Relation.ReflTransGen (DirectoryStep deps dir.root h dir.Keeps) s s' → StillRead s.disk s'.disk) ∧
    ((∀ level index, s.disk.lookup (.tileLink level index) = none) →
      ((∀ order, (∀ es, (order es).Perm es) → ∀ cp, s.Knows cp →
        StillRead s.disk (s.integrated deps dir.root h order cp).2.disk) ↔ dir.Keeps s.disk)) := by
  obtain ⟨entries, housed, -⟩ := DirectoryStep.run lawful reached Housed.initial
  have later : ∀ s', Relation.ReflTransGen (DirectoryStep deps dir.root h dir.Keeps) s s' →
      StillRead s.disk s'.disk := by
    intro s' steps
    obtain ⟨more, after, kept⟩ := DirectoryStep.run lawful steps housed
    exact kept.stillRead housed.stocked.tiles after.stocked.tiles
  refine ⟨later, fun free => ⟨fun reads => ?_, fun keeps order permutes cp known => ?_⟩⟩
  · by_contra breaks
    simp only [RootDir.Keeps, not_or, not_forall, not_not] at breaks
    obtain ⟨astray, plain, level, index, size, positive, has, complete⟩ := breaks
    obtain ⟨node, found⟩ := (s.disk.has_iff _).mp has
    have small := housed.stocked.tiles.small level index size (by simp [found])
    obtain ⟨logSize, rfl⟩ := exists_logSize level index positive small
    have relinked := @Housed.relinked deps dir.root h _ s id ⟨"", 0, []⟩ lawful housed plain free
      (fun _ => .refl _) (.inl rfl) level index _ positive has complete (by simp [tileCount])
    rw [tileTarget, if_neg fun absolute => astray (RootDir.root_absolute.mp absolute)] at relinked
    obtain ⟨t, t', -, read, -⟩ := reads id (fun _ => .refl _) ⟨"", 0, []⟩ (.inl rfl) level index logSize has
    rw [getTile_dangling relinked] at read
    cases read
  · exact later _ (.single (.integrate s keeps order permutes cp known))

-- One entry is sequenced and integrated.
def firstEntry : LogState :=
  ⟨((.load 0 0 :: submit [0]).foldl (SequenceSystem.step LogHasher.padded) (sequencing .empty)).disk, []⟩

def firstTile (root : Root) : LogState :=
  ⟨(firstEntry.integrated referenceDeps root LogHasher.padded id ⟨"", 0, []⟩).2.disk,
    firstEntry.returned ++ returnedBy (firstEntry.integrated referenceDeps root LogHasher.padded id ⟨"", 0, []⟩).1⟩

theorem firstTile_reached {Allowed : LogDisk → Prop} {root : Root} (allowed : Allowed firstEntry.disk) :
    Relation.ReflTransGen (DirectoryStep referenceDeps root LogHasher.padded Allowed) .initial (firstTile root) :=
  .tail (.single (.sequence .initial _))
    (.integrate firstEntry allowed id (fun _ => .refl _) ⟨"", 0, []⟩ (.inl rfl))

theorem firstTile_read (absolute : Bool) :
    (firstTile ⟨absolute, .plain⟩).disk.has (.tile 0 0 (partialTileSize 0 0 1)) = true ∧
      ∃ t, (getTile 0 0 1 ⟨(firstTile ⟨absolute, .plain⟩).disk, []⟩).1 = .ok t ∧
        nodeIn t 0 = .ok (LogHasher.padded.hashLeaf [0]) := by
  refine ⟨?_, ⟨1, [some (LogHasher.padded.hashLeaf [0])]⟩, ?_, rfl⟩
  · cases absolute <;> decide +kernel
  · cases absolute <;> decide +kernel

def srvName : Bytes := [115, 114, 118]

def logName : Bytes := [108, 111, 103]

-- ../../../../../../log in /srv/log: the ups lead to the top from there and from beside a tile.
def climbingRoot : RootDir := ⟨[srvName, logName], .relative 6 [logName], .plain⟩

theorem climbingRoot_leads : climbingRoot.Leads := by decide

def secondTile (first : Checkpoint) : LogState :=
  let sequenced : LogState := ⟨((.load 0 1 :: submit [1]).foldl (SequenceSystem.step LogHasher.padded)
    (sequencing (firstTile climbingRoot.root).disk)).disk, (firstTile climbingRoot.root).returned⟩
  ⟨(sequenced.integrated referenceDeps climbingRoot.root LogHasher.padded id first).2.disk,
    sequenced.returned ++ returnedBy
      (sequenced.integrated referenceDeps climbingRoot.root LogHasher.padded id first).1⟩

theorem partial_tiles_readable_second : ∃ t,
    (getTile 0 0 1 ⟨(secondTile ⟨"", 1, LogHasher.padded.hashLeaf [0]⟩).disk, []⟩).1 = .ok t ∧
      nodeIn t 0 = .ok (LogHasher.padded.hashLeaf [0]) := by
  have root : climbingRoot.root = ⟨true, .plain⟩ := by
    rw [← RootDir.root_absolute.mpr climbingRoot_leads]
    rfl
  obtain ⟨has, t, read, node⟩ := firstTile_read true
  have returned : (firstTile ⟨true, .plain⟩).returned = [⟨"", 1, LogHasher.padded.hashLeaf [0]⟩] := by
    decide +kernel
  rw [← root] at has read returned
  have later : Relation.ReflTransGen
      (DirectoryStep referenceDeps climbingRoot.root LogHasher.padded climbingRoot.Keeps)
      (firstTile climbingRoot.root) (secondTile ⟨"", 1, LogHasher.padded.hashLeaf [0]⟩) :=
    .tail (.single (.sequence _ (.load 0 1 :: submit [1])))
      (.integrate _ (.inl climbingRoot_leads) id (fun _ => .refl _) _ (.inr (by simp [returned])))
  obtain ⟨still, -⟩ := partial_tiles_readable referenceDeps Compact.reference_lawful climbingRoot LogHasher.padded
    (firstTile climbingRoot.root) (firstTile_reached (.inl climbingRoot_leads))
  obtain ⟨t0, t', read0, read', nodes⟩ := still _ later 0 0 1 has
  obtain rfl := Outcome.ok.inj (read.symm.trans read0)
  exact ⟨t', read', nodes 0 _ (by decide) node⟩

end Runs

section Enough

variable {deps : Deps} {root : Root} {h : LogHasher} {entries : List Bytes} {s : LogState}

-- The first process is where its call is.
def At (c : SequenceCall) (σ : SequenceSystem) (call : CallState) : Prop :=
  σ.disk = call.disk ∧ match call.next with
    | .goto pc => ∃ added, σ.processes 0 = some ⟨call.nextSeq, some ⟨c, pc, added⟩⟩
    | .finish _ => ∃ n, σ.processes 0 = some ⟨n, none⟩

variable (h) in
theorem At.step {c : SequenceCall} {σ : SequenceSystem} {call : CallState} (now : At c σ call) :
    At c (σ.step h (.step 0)) (call.advance c) := by
  obtain ⟨disk, n, next⟩ := call
  obtain ⟨rfl, process⟩ := now
  cases next with
  | finish result =>
    obtain ⟨n', idle⟩ := process
    refine ⟨by simp only [SequenceSystem.step, idle, CallState.advance], n', ?_⟩
    simp only [SequenceSystem.step, idle]
  | goto pc =>
    obtain ⟨added, running⟩ := process
    simp only [SequenceSystem.step, running, SequenceSystem.stepProcess, CallState.advance]
    rcases sequenceStep c n σ.disk pc with ⟨disk', n', pc' | result⟩
    · exact ⟨rfl, ((⟨c, pc, added⟩ : Running).after n pc').added, by dsimp only; exact setProcess_own 0 _⟩
    · exact ⟨rfl, n', by dsimp only; exact setProcess_own 0 _⟩

theorem At.run {c : SequenceCall} {σ : SequenceSystem} {n : Nat} {d : LogDisk} (start : At c σ (.start n d))
    (k : Nat) :
    At c ((List.replicate k (.step 0)).foldl (SequenceSystem.step h) σ) (callAfter c n d k) := by
  induction k with
  | zero => exact start
  | succ k ih =>
    rw [List.replicate_succ', List.foldl_append]
    exact ih.step h

theorem callAfter_others {c : SequenceCall} {n : Nat} {d : LogDisk} {g : Bytes} (other : g ≠ c.leafhash) (k : Nat) :
    (callAfter c n d k).disk.lookup (.leaf g) = d.lookup (.leaf g) ∧
      (callAfter c n d k).disk.lookup (.pending g) = d.lookup (.pending g) := by
  induction k with
  | zero => exact ⟨rfl, rfl⟩
  | succ k ih =>
    rw [callAfter, CallState.advance]
    split
    next pc _ =>
      rw [← ih.1, ← ih.2]
      have leaf : ¬ Touches c (callAfter c n d k).nextSeq pc (.leaf g) := by
        intro touches
        cases pc <;> first | exact other (Path.leaf.inj touches) | cases touches
      have pending : ¬ Touches c (callAfter c n d k).nextSeq pc (.pending g) := by
        intro touches
        cases pc <;> first | exact other (Path.pending.inj touches) | cases touches
      exact ⟨sequenceStep_lookup leaf, sequenceStep_lookup pending⟩
    · exact ih

-- The leaf has left nothing in the directory.
def Fresh (h : LogHasher) (d : LogDisk) (leaf : Bytes) : Prop :=
  d.lookup (.leaf (h.hashLeaf leaf)) = none ∧ d.lookup (.pending (h.hashLeaf leaf)) = none

instance (h : LogHasher) (d : LogDisk) (leaf : Bytes) : Decidable (Fresh h d leaf) :=
  inferInstanceAs (Decidable (_ ∧ _))

theorem Stocked.sequences {d : LogDisk} (stocked : Stocked h entries 0 d) (room : entries.length < 2 ^ 64)
    {leaf : Bytes} (fresh : Fresh h d leaf) :
    ∃ events : List SequenceEvent, ∃ t, (events.foldl (SequenceSystem.step h) (sequencing d)).disk.readFile (.seq t) =
        some leaf ∧ ∀ other, h.hashLeaf other ≠ h.hashLeaf leaf → Fresh h d other →
          Fresh h (events.foldl (SequenceSystem.step h) (sequencing d)).disk other := by
  obtain ⟨k, t, -, read⟩ := finishes_start (n := 0) (c := ⟨h.hashLeaf leaf, leaf⟩) stocked.directory room
    (Nat.zero_le _) trivial rfl fresh.1 fresh.2
  rw [← callAfter_iterate] at read
  have start : At ⟨h.hashLeaf leaf, leaf⟩ (((sequencing d).step h (.load 0 0)).step h (.call 0 leaf))
      (.start 0 d) := by
    refine ⟨?_, none, ?_⟩ <;>
      simp [SequenceSystem.step, sequencing, Loadable, SequenceSystem.setProcess, CallState.start]
  have begun := @At.run h _ _ 0 d start k
  refine ⟨.load 0 0 :: .call 0 leaf :: List.replicate k (.step 0), t, ?_, fun other apart clear => ?_⟩
  · rw [List.foldl_cons, List.foldl_cons, begun.1]
    exact read
  · rw [List.foldl_cons, List.foldl_cons, begun.1]
    obtain ⟨leaves, pendings⟩ := @callAfter_others ⟨h.hashLeaf leaf, leaf⟩ 0 d _ apart k
    exact ⟨leaves.trans clear.1, pendings.trans clear.2⟩

/-- Entries can be sequenced as long as there are numbers for them. -/
theorem Housed.sequences {Allowed : LogDisk → Prop} (leaves : List Bytes) (housed : Housed h entries s)
    (distinct : (leaves.map h.hashLeaf).Nodup) (fresh : ∀ x ∈ leaves, Fresh h s.disk x) :
    ∃ s' more, Relation.ReflTransGen (DirectoryStep deps root h Allowed) s s' ∧ Housed h (entries ++ more) s' ∧
      s'.returned = s.returned ∧ Frame SequenceName s.disk s'.disk ∧
      (2 ^ 64 ≤ (entries ++ more).length ∨ leaves ⊆ entries ++ more) := by
  induction leaves generalizing s entries with
  | nil => exact ⟨s, [], .refl, by rwa [List.append_nil], rfl, .refl _ _, .inr (List.nil_subset _)⟩
  | cons x rest ih =>
    rcases Nat.lt_or_ge entries.length (2 ^ 64) with room | out
    swap
    · exact ⟨s, [], .refl, by rwa [List.append_nil], rfl, .refl _ _, .inl (by rwa [List.append_nil])⟩
    obtain ⟨notIn, distinct'⟩ := List.nodup_cons.mp distinct
    obtain ⟨events, t, read, kept⟩ := housed.stocked.sequences room (fresh x (by simp))
    obtain ⟨added, stocked⟩ := housed.stocked.sequence events
    have frame := housed.stocked.directory.safe.run_frame events
    have housed' := housed.moved stocked (.of_frame frame fun _ mine => mine.1)
    have member := stocked.mem_of_read read
    obtain ⟨s', more, steps, after, returned, frame', all⟩ := ih housed' distinct' fun y inside =>
      kept y (fun same => notIn (same ▸ List.mem_map_of_mem inside)) (fresh y (by simp [inside]))
    rw [List.append_assoc] at after all
    refine ⟨s', added ++ more, .head (.sequence s events) steps, after, returned, frame.trans frame',
      all.imp_right fun subset => List.cons_subset.mpr ⟨?_, subset⟩⟩
    rw [← List.append_assoc]
    exact List.mem_append_left _ member

end Enough

section Relative

-- log in /srv.
def relativeRoot : RootDir := ⟨[srvName], .relative 0 [logName], .plain⟩

theorem relativeRoot_root : relativeRoot.root = ⟨false, .plain⟩ := by
  have astray : relativeRoot.root.absolute = false :=
    Bool.eq_false_iff.mpr fun absolute => absurd (RootDir.root_absolute.mp absolute) (by decide)
  rw [← astray]
  rfl

-- As many more entries as the first tile has room for.
def moreLeaves : List Bytes := (List.range 255).map fun k => [UInt8.ofNat (k + 1)]

theorem moreLeaves_fresh : ∀ x ∈ moreLeaves, Fresh LogHasher.padded (firstTile ⟨false, .plain⟩).disk x := by
  decide +kernel

theorem moreLeaves_distinct : (([0] :: moreLeaves).map LogHasher.padded.hashLeaf).Nodup := by
  have all : [0] :: moreLeaves = (List.range 256).map fun k => [UInt8.ofNat k] := by decide +kernel
  rw [all, List.map_map]
  refine List.nodup_range.map_on fun j small k small' same => ?_
  rw [List.mem_range] at small small'
  have bytes : UInt8.ofNat j = UInt8.ofNat k := (List.cons.inj (List.cons.inj same).2).1
  have numbers := congrArg UInt8.toNat bytes
  rwa [UInt8.toNat_ofNat', UInt8.toNat_ofNat', Nat.mod_eq_of_lt small, Nat.mod_eq_of_lt small'] at numbers

theorem firstTile_housed : ∃ entries, Housed LogHasher.padded entries (firstTile ⟨false, .plain⟩) := by
  obtain ⟨first, before, -⟩ := @DirectoryStep.run referenceDeps relativeRoot _ _ _ _ Compact.reference_lawful
    (.single (.sequence .initial (.load 0 0 :: submit [0]))) Housed.initial
  have keeps : relativeRoot.Keeps firstEntry.disk := before.stocked.keeps_short (by decide +kernel)
  obtain ⟨entries, housed, -⟩ := DirectoryStep.run Compact.reference_lawful
    (@firstTile_reached relativeRoot.Keeps relativeRoot.root keeps) Housed.initial
  rw [relativeRoot_root] at housed
  exact ⟨_, housed⟩

-- The tile of the first entry is partial, and the entries that make it full are waiting.
theorem waiting_reached : ∃ s entries,
    Relation.ReflTransGen (DirectoryStep referenceDeps ⟨false, .plain⟩ LogHasher.padded fun _ => True) .initial s ∧
      Housed LogHasher.padded entries s ∧ Complete s.disk 0 0 ∧
      s.returned = (firstTile ⟨false, .plain⟩).returned ∧
      Frame SequenceName (firstTile ⟨false, .plain⟩).disk s.disk ∧
      StillRead (firstTile ⟨false, .plain⟩).disk s.disk := by
  obtain ⟨entries, housed⟩ := firstTile_housed
  obtain ⟨s, more, steps, after, returned, frame, all⟩ := @Housed.sequences referenceDeps
    ⟨false, .plain⟩ LogHasher.padded _ _ (fun _ => True) moreLeaves housed
    (List.nodup_cons.mp moreLeaves_distinct).2 moreLeaves_fresh
  have kept : TilesKept (firstTile ⟨false, .plain⟩).disk s.disk := .of_frame frame fun _ mine => mine.1
  refine ⟨s, entries ++ more, .trans (firstTile_reached trivial) steps, after, ?_, returned, frame,
    kept.stillRead housed.stocked.tiles after.stocked.tiles⟩
  have zero : [0] ∈ entries := housed.stocked.mem_of_read (k := 0) (by decide +kernel)
  rw [after.stocked.complete_iff, tileCount_eq_full]
  rcases all with many | subset
  · exact Nat.le_trans (by decide) many
  · have distinct : ([0] :: moreLeaves).Nodup := moreLeaves_distinct.of_map _
    have members := List.cons_subset.mpr ⟨List.mem_append_left more zero, subset⟩
    have counted := (List.subperm_of_subset distinct members).length_le
    simpa [moreLeaves] using counted

/-- In a directory that is called log from the working directory, the partial tile of the first entry is lost when
the tile gets full. -/
theorem relative_root_unreadable : ∃ s s',
    Relation.ReflTransGen (DirectoryStep referenceDeps relativeRoot.root LogHasher.padded fun _ => True) .initial s ∧
      DirectoryStep referenceDeps relativeRoot.root LogHasher.padded (fun _ => True) s s' ∧
      (∃ t, (getTile 0 0 1 ⟨s.disk, []⟩).1 = .ok t ∧ nodeIn t 0 = .ok (LogHasher.padded.hashLeaf [0])) ∧
      (getTile 0 0 1 ⟨s'.disk, []⟩).1 = .error .notExist := by
  rw [relativeRoot_root]
  obtain ⟨s, entries, reached, housed, complete, returned, frame, still⟩ := waiting_reached
  obtain ⟨has, t, read, node⟩ := firstTile_read false
  obtain ⟨t0, t', read0, read', nodes⟩ := still 0 0 1 has
  obtain rfl := Outcome.ok.inj (read.symm.trans read0)
  have tileName : ∀ p, TileName p → s.disk.lookup p = (firstTile ⟨false, .plain⟩).disk.lookup p := fun p tile =>
    frame.names p fun mine => mine.1 tile
  have free : ∀ level index, s.disk.lookup (.tileLink level index) = none := fun level index => by
    rw [tileName _ (by simp [TileName, tileKeyOf])]
    exact no_links (by decide +kernel) level index
  have named : s.disk.has (.tile 0 0 (partialTileSize 0 0 1)) = true := by
    rw [Disk.has, tileName _ (by simp [TileName, tileKeyOf])]
    exact has
  have known : s.Knows ⟨"", 1, LogHasher.padded.hashLeaf [0]⟩ := by
    rw [LogState.Knows, returned]
    decide +kernel
  have relinked := @Housed.relinked referenceDeps ⟨false, .plain⟩ LogHasher.padded _ s id _ Compact.reference_lawful
    housed rfl free (fun _ => .refl _) known 0 0 _ (by decide) named complete (by decide)
  exact ⟨s, _, reached, .integrate s trivial id (fun _ => .refl _) _ known, ⟨t', read', nodes 0 _ (by decide) node⟩,
    getTile_dangling relinked⟩

end Relative

end Serverless
