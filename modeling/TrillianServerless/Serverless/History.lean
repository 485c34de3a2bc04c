import TrillianServerless.Serverless.LogTree
import TrillianServerless.Serverless.SequenceRecovery

set_option autoImplicit false

namespace Serverless

open Go Merkle Checkpoints FileSystem

/-- What an operation leaves alone that has the names `own` for itself. -/
structure Frame (own : Path → Prop) (d s : LogDisk) : Prop where
  names : ∀ p, ¬ own p → s.lookup p = d.lookup p
  data : ∀ p i, ¬ own p → d.lookup p = some (.file i) → s.data i = d.data i
  sole : ∀ p i, ¬ own p → d.Sole p i → s.Sole p i

def TileName (p : Path) : Prop := tileKeyOf p ≠ none

def CheckpointName (p : Path) : Prop := p = .checkpoint ∨ p = .checkpointTmp

def SequenceName (p : Path) : Prop := ¬ TileName p ∧ ¬ CheckpointName p

theorem checkpoint_not_tile : ∀ p, CheckpointName p → ¬ TileName p := by
  rintro p (rfl | rfl) tile
  · exact tile rfl
  · exact tile rfl

section Frames

variable {own : Path → Prop} {d s t : LogDisk}

theorem Frame.refl (own : Path → Prop) (d : LogDisk) : Frame own d d :=
  ⟨fun _ _ => rfl, fun _ _ _ _ => rfl, fun _ _ _ sole => sole⟩

theorem Frame.trans (first : Frame own d s) (second : Frame own s t) : Frame own d t where
  names p other := by rw [second.names p other, first.names p other]
  data p i other found := by
    rw [second.data p i other (by rw [first.names p other, found]), first.data p i other found]
  sole p i other sole := second.sole p i other (first.sole p i other sole)

theorem Frame.unshared (frame : Frame own d s) {p : Path} (other : ¬ own p) (unshared : d.Unshared p) :
    s.Unshared p := by
  rcases unshared with missing | ⟨i, sole⟩
  · exact .inl (by rw [frame.names p other, missing])
  · exact .inr ⟨i, frame.sole p i other sole⟩

theorem CallFrame.sequence {hash : Bytes} (frame : CallFrame hash d s) : Frame SequenceName d s := by
  have leaf : SequenceName (.leaf hash) := ⟨fun named => named rfl, by simp [CheckpointName]⟩
  have seq : ∀ k, SequenceName (.seq k) := fun k => ⟨fun named => named rfl, by simp [CheckpointName]⟩
  have other : ∀ p, ¬ SequenceName p → ¬ Private hash p := by
    rintro p foreign (rfl | rfl)
    · exact foreign ⟨fun named => named rfl, by simp [CheckpointName]⟩
    · exact foreign ⟨fun named => named rfl, by simp [CheckpointName]⟩
  constructor
  · intro p foreign
    rcases frame.names p (other p foreign) with same | ⟨_, rfl | ⟨k, rfl⟩⟩
    · exact same
    · exact absurd leaf foreign
    · exact absurd (seq k) foreign
  · exact fun p i foreign => frame.data p i (other p foreign)
  · exact fun p i foreign => frame.sole p i (other p foreign)

theorem Between.frame {root : Root} {es : List TileEntry} (between : Between root es d s)
    (unshared : ∀ x ∈ es, d.Unshared (tempPath x)) : Frame TileName d s := by
  have foreign : ∀ p, ¬ TileName p → ∀ x ∈ es, tileKeyOf p ≠ some x.1 := by
    intro p other x _ same
    exact other (by rw [TileName, same]; simp)
  constructor
  · exact fun p other => between.outside p (foreign p other)
  · intro p i other found
    refine between.data i (d.lookup_lt p found) fun x member => ?_
    refine unused_temp found (unshared x member) ?_
    rintro rfl
    exact foreign _ other x member rfl
  · exact fun p i other sole => between.sole sole (between.outside p (foreign p other))

end Frames

section Sequencing

variable {h : LogHasher} {used : Bytes → Prop} {d s : LogDisk} {m : Nat}

theorem SeqHolds.framed {own : Path → Prop} (frame : Frame own d s) {k : Nat} (other : ¬ own (.seq k))
    {x : Bytes} (holds : SeqHolds d k x) : SeqHolds s k x := by
  obtain ⟨i, found, content⟩ := holds
  exact ⟨i, by rw [frame.names _ other, found], by rw [frame.data _ i other found, content]⟩

/-- Storing tiles and writing checkpoints is nothing to the sequenced entries. -/
theorem DirectoryOk.framed {own : Path → Prop} (frame : Frame own d s)
    (others : ∀ p, own p → TileName p ∨ CheckpointName p) (ok : DirectoryOk h used d m) :
    DirectoryOk h used s m := by
  have outside : ∀ p, tileKeyOf p = none → p ≠ .checkpoint → p ≠ .checkpointTmp → ¬ own p := by
    intro p notTile final temporary mine
    rcases others p mine with tile | same | same
    · exact tile notTile
    · exact final same
    · exact temporary same
  have seq : ∀ k, ¬ own (.seq k) := fun k => outside _ rfl (by simp) (by simp)
  have pending : ∀ g, ¬ own (.pending g) := fun g => outside _ rfl (by simp) (by simp)
  have leafTmp : ∀ g, ¬ own (.leafTmp g) := fun g => outside _ rfl (by simp) (by simp)
  have leaf : ∀ g, ¬ own (.leaf g) := fun g => outside _ rfl (by simp) (by simp)
  refine ⟨ok.bound, fun k less => ?_, fun k beyond => ?_, fun g missing => ?_, fun g node found => ?_⟩
  · obtain ⟨x, holds, known⟩ := ok.seqs k less
    exact ⟨x, holds.framed frame (seq k), known⟩
  · rw [frame.names _ (seq k), ok.free k beyond]
  · rw [frame.names _ (pending g)] at missing
    rw [frame.names _ (leafTmp g), ok.leafTmps g missing]
  · rw [frame.names _ (leaf g)] at found
    obtain ⟨k, x, ⟨j, file, content⟩, small, holds, hashed⟩ := ok.leaves g node found
    refine ⟨k, x, ⟨j, ?_, ?_⟩, small, holds.framed frame (seq k), hashed⟩
    · rw [frame.names _ (leaf g), file]
    · rw [frame.data _ j (leaf g) file, content]

/-- The entries of the log, by number. -/
def EntriesOf (d : LogDisk) (entries : List Bytes) : Prop :=
  ∀ k (bound : k < entries.length), SeqHolds d k entries[k]

theorem SeqHolds.unique {k : Nat} {x y : Bytes} (left : SeqHolds d k x) (right : SeqHolds d k y) :
    x = y :=
  Option.some.inj (left.readFile.symm.trans right.readFile)

theorem DirectoryOk.entries (ok : DirectoryOk h used d m) :
    ∃ entries : List Bytes, entries.length = m ∧ EntriesOf d entries := by
  have content : ∀ k : Fin m, ∃ x, SeqHolds d k x := fun k => by
    obtain ⟨x, holds, _⟩ := ok.seqs k k.2
    exact ⟨x, holds⟩
  choose entry holds using content
  refine ⟨List.ofFn entry, List.length_ofFn, fun k bound => ?_⟩
  rw [List.getElem_ofFn]
  exact holds ⟨k, by simpa using bound⟩

-- Entries that are still there are the first ones of those that are there now.
theorem EntriesOf.extend {entries now : List Bytes} (before : EntriesOf d entries) (after : EntriesOf s now)
    (kept : ∀ k x, SeqHolds d k x → SeqHolds s k x) (length : entries.length ≤ now.length) :
    ∃ more, now = entries ++ more := by
  refine ⟨now.drop entries.length, ?_⟩
  have front : now.take entries.length = entries := by
    refine List.ext_getElem (by simpa using length) fun k lower upper => ?_
    rw [List.getElem_take]
    exact (after k (by omega)).unique (kept k _ (before k upper))
  rw [← front, List.length_take_of_le length, List.take_append_drop]

variable {c : SequenceCall} {n : Nat}

/-- A call of Sequence keeps to its own files and adds to the entries at most. -/
theorem callAfter_frame (ok : DirectoryOk h used d m) (low : n ≤ m) (small : n < 2 ^ 64)
    (member : used c.leaf) (hashed : h.hashLeaf c.leaf = c.leafhash) (k : Nat) :
    Frame SequenceName d (callAfter c n d k).disk := by
  induction k with
  | zero => exact .refl _ _
  | succ k ih =>
    obtain ⟨m', added, now⟩ := callAfter_ok ok low small member hashed k
    rw [callAfter, CallState.advance]
    cases next : (callAfter c n d k).next with
    | finish result => exact ih
    | goto pc =>
      obtain ⟨m'', stepOk⟩ := sequenceStep_ok (r := ⟨c, pc, added⟩) now.directory now.nextSeq.1
        now.nextSeq.2 member hashed (now.goes pc next)
      exact ih.trans stepOk.frame.sequence

end Sequencing

section WriteCheckpoint

variable {w : LogWorld}

theorem writeCheckpoint_taken (raw : Bytes) {node : Node Path} (taken : w.disk.lookup .checkpointTmp = some node) :
    ∃ reason, writeCheckpoint raw w = (.error reason, w) := by
  have opened : World.perform (Disk.openExclusive .checkpointTmp) w = (.error .exist, w) :=
    World.perform_error (openExclusive_taken taken)
  exact ⟨_, Eff.bind_of_error (Eff.wrap_of_error (Eff.bind_of_error (Eff.wrap_of_error opened)))⟩

/-- The disks of a call of WriteCheckpoint that goes through: the new file is made, written, renamed. -/
theorem writeCheckpoint_free (free : w.disk.lookup .checkpointTmp = none) (raw : Bytes) :
    ∃ final, writeCheckpoint raw w = (.ok (), ⟨final, (w.disk.create .checkpointTmp).write w.disk.next raw ::
        w.disk.create .checkpointTmp :: w.states⟩) ∧
      final.data = ((w.disk.create .checkpointTmp).write w.disk.next raw).data ∧
      ∀ q, final.lookup q = if q = .checkpoint then some (.file w.disk.next)
        else if q = .checkpointTmp then none else w.disk.lookup q := by
  have opened : World.perform (Disk.openExclusive .checkpointTmp) w =
      (.ok (), ⟨w.disk.create .checkpointTmp, w.states⟩) :=
    World.perform_ok (openExclusive_free free)
  have made : (w.disk.create .checkpointTmp).lookup .checkpointTmp = some (.file w.disk.next) := by
    rw [Disk.lookup_create, if_pos rfl]
  have written : World.perform (Disk.writeOpened .checkpointTmp raw)
      ⟨w.disk.create .checkpointTmp, w.states⟩ =
        (.ok (), ⟨(w.disk.create .checkpointTmp).write w.disk.next raw,
          w.disk.create .checkpointTmp :: w.states⟩) :=
    World.perform_ok (Disk.writeOpened_file made raw)
  have named : ((w.disk.create .checkpointTmp).write w.disk.next raw).lookup .checkpointTmp =
      some (.file w.disk.next) := made
  obtain ⟨final, renamed, data, _, names⟩ := Disk.rename_ok .checkpoint named
  have created : (createExclusive .checkpointTmp raw).wrap "failed to create temporary checkpoint file: %w" w =
      (.ok (), ⟨(w.disk.create .checkpointTmp).write w.disk.next raw,
        w.disk.create .checkpointTmp :: w.states⟩) :=
    Eff.wrap_eq_ok.mpr ((Eff.bind_of_ok (Eff.wrap_eq_ok.mpr opened)).trans (Eff.wrap_eq_ok.mpr written))
  refine ⟨final, ?_, data, fun q => ?_⟩
  · rw [writeCheckpoint, Eff.bind_of_ok created]
    exact World.perform_ok renamed
  · rw [names q]
    by_cases last : q = .checkpoint
    · rw [if_pos last, if_pos last]
    rw [if_neg last, if_neg last]
    by_cases temporary : q = .checkpointTmp
    · rw [if_pos temporary, if_pos temporary]
    · rw [if_neg temporary, if_neg temporary, Disk.lookup_write, Disk.lookup_create, if_neg temporary]

theorem frame_of_checkpoint {d s : LogDisk}
    (names : ∀ q, ¬ CheckpointName q → s.lookup q = d.lookup q)
    (fresh : ∀ q, CheckpointName q → s.lookup q = d.lookup q ∨ s.lookup q = none ∨
      s.lookup q = some (.file d.next))
    (data : ∀ i < d.next, s.data i = d.data i) : Frame CheckpointName d s where
  names := names
  data p i _ found := data i (d.lookup_lt p found)
  sole p i other sole := by
    refine ⟨by rw [names p other, sole.1], fun q same => ?_⟩
    by_cases mine : CheckpointName q
    · rcases fresh q mine with kept | missing | new
      · exact sole.2 q (by rw [← kept, same])
      · rw [missing] at same
        cases same
      · rw [new] at same
        obtain rfl : d.next = i := by simpa using same
        exact absurd (d.lookup_lt p sole.1) (Nat.lt_irrefl _)
    · exact sole.2 q (by rw [← names q mine, same])

theorem writeCheckpoint_data (d : LogDisk) (raw : Bytes) {i : Nat} (old : i < d.next) :
    ((d.create .checkpointTmp).write d.next raw).data i = d.data i := by
  have other : i ≠ d.next := Nat.ne_of_lt old
  exact (Function.update_of_ne other _ _).trans (Function.update_of_ne other _ _)

theorem writeCheckpoint_frame (raw : Bytes) (w : LogWorld) :
    Frame CheckpointName w.disk (writeCheckpoint raw w).2.disk := by
  cases found : w.disk.lookup .checkpointTmp with
  | some node =>
    obtain ⟨reason, failed⟩ := writeCheckpoint_taken raw found
    rw [failed]
    exact .refl _ _
  | none =>
    obtain ⟨final, ran, data, names⟩ := writeCheckpoint_free found raw
    rw [ran]
    refine frame_of_checkpoint (fun q other => ?_) (fun q mine => ?_) fun i old => ?_
    · have last : q ≠ .checkpoint := fun same => other (.inl same)
      have temporary : q ≠ .checkpointTmp := fun same => other (.inr same)
      rw [names q, if_neg last, if_neg temporary]
    · rcases mine with rfl | rfl
      · exact .inr (.inr (by rw [names, if_pos rfl]))
      · exact .inr (.inl (by rw [names, if_neg (by simp), if_pos rfl]))
    · rw [data]
      exact writeCheckpoint_data w.disk raw old

end WriteCheckpoint

section Tiles

variable {h : LogHasher} {entries : List Bytes} {d s : LogDisk}

-- How many leaves a tile of this size in its name has.
def leavesOf (size : Nat) : Nat := if size = 0 then 256 else size

/-- The file of a tile has the nodes of the log that its name promises. -/
def TileFile (h : LogHasher) (entries : List Bytes) (d : LogDisk) (level index size inode : Nat) : Prop :=
  leavesOf size ≤ tileCount (level, index) entries.length ∧
    ∃ t : Tile, d.data inode = t.marshalText ∧ t.Holds (h.logNode entries) (level, index) (leavesOf size)

/-- Every tile name is a file of the log's nodes, or a link to the full tile. -/
structure TilesOk (h : LogHasher) (entries : List Bytes) (d : LogDisk) : Prop where
  small : ∀ level index size, d.lookup (.tile level index size) ≠ none → size < 256
  files : ∀ level index size inode, d.lookup (.tile level index size) = some (.file inode) →
    TileFile h entries d level index size inode
  links : ∀ level index size target, d.lookup (.tile level index size) = some (.symlink target) →
    target = some (.tile level index 0) ∧ ∃ inode, d.lookup (.tile level index 0) = some (.file inode)

theorem TilesOk.own (ok : TilesOk h entries d) : OwnLinks d := by
  intro level index size t linked
  exact Option.some.inj (ok.links level index size _ linked).1

theorem tileCount_full {key : TileKey} {n : Nat} (full : 256 ≤ tileCount key n) : tileCount key n = 256 :=
  Nat.le_antisymm (tileCount_le key n) full

-- A node of a tile is complete in the log.
theorem logNode_tile (h : LogHasher) (entries more : List Bytes) {key : TileKey} {count : Nat}
    (inside : count ≤ tileCount key entries.length) {id : NodeID} (tile : tileOf id = key)
    (stop : tileStop id ≤ count) : h.logNode (entries ++ more) id = h.logNode entries id := by
  refine h.logNode_append entries more ((stop_le_iff id _).mpr ?_)
  rw [tile]
  omega

theorem Tile.Holds.append {t : Tile} {key : TileKey} {count : Nat}
    (holds : t.Holds (h.logNode entries) key count) (more : List Bytes)
    (inside : count ≤ tileCount key entries.length) : t.Holds (h.logNode (entries ++ more)) key count where
  numLeaves := holds.numLeaves
  length := holds.length
  hasNodes id tile stop := by
    rw [holds.hasNodes id tile stop, logNode_tile h entries more inside tile stop]
  noMore := holds.noMore

theorem TilesOk.append (ok : TilesOk h entries d) (more : List Bytes) : TilesOk h (entries ++ more) d where
  small := ok.small
  files level index size inode found := by
    obtain ⟨bound, t, content, holds⟩ := ok.files level index size inode found
    refine ⟨Nat.le_trans bound (tileCount_mono _ ?_), t, content, holds.append more bound⟩
    simp
  links := ok.links

theorem TilesOk.framed {own : Path → Prop} (ok : TilesOk h entries d) (frame : Frame own d s)
    (others : ∀ p, own p → ¬ TileName p) : TilesOk h entries s := by
  have tile : ∀ level index size, ¬ own (.tile level index size) := fun level index size mine =>
    others _ mine (by simp [TileName, tileKeyOf])
  refine ⟨fun level index size => ?_, fun level index size inode => ?_, fun level index size target => ?_⟩
  · rw [frame.names _ (tile level index size)]
    exact ok.small level index size
  · rw [frame.names _ (tile level index size)]
    intro found
    obtain ⟨bound, t, content, holds⟩ := ok.files level index size inode found
    exact ⟨bound, t, by rw [frame.data _ inode (tile level index size) found, content], holds⟩
  · rw [frame.names _ (tile level index size), frame.names _ (tile level index 0)]
    exact ok.links level index size target

/-- What is read through a tile name: at least the leaves of the name, and the nodes of the log. -/
theorem TilesOk.readFile (ok : TilesOk h entries d) {level index size : Nat}
    (present : d.lookup (.tile level index size) ≠ none) :
    ∃ (t : Tile) (count : Nat), d.readFile (.tile level index size) = some t.marshalText ∧
      t.Holds (h.logNode entries) (level, index) count ∧
      ((∃ inode, d.lookup (.tile level index size) = some (.file inode)) ∧ count = leavesOf size ∨
        (∃ target, d.lookup (.tile level index size) = some (.symlink target)) ∧ count = 256) ∧
      count ≤ tileCount (level, index) entries.length := by
  obtain ⟨node, found⟩ := Option.ne_none_iff_exists'.mp present
  cases node with
  | file inode =>
    obtain ⟨bound, t, content, holds⟩ := ok.files level index size inode found
    exact ⟨t, _, by rw [d.readFile_file _ found, content], holds, .inl ⟨⟨inode, found⟩, rfl⟩, bound⟩
  | symlink target =>
    obtain ⟨rfl, inode, full⟩ := ok.links level index size target found
    obtain ⟨bound, t, content, holds⟩ := ok.files level index 0 inode full
    exact ⟨t, 256, by rw [d.readFile_symlink _ found full, content], holds, .inr ⟨⟨_, found⟩, rfl⟩,
      bound⟩

theorem Tile.Holds.parsed {t : Tile} {key : TileKey} {count : Nat}
    (holds : t.Holds (h.logNode entries) key count) (bound : count ≤ 256) :
    Tile.unmarshalText t.marshalText = .ok t.readBack := by
  refine Tile.unmarshalText_marshalText ?_ (holds.endsFilled bound (h.logNode_ne_nil _))
  rw [holds.numLeaves]
  omega

theorem leavesOf_mod {count : Nat} (positive : 0 < count) (bound : count ≤ 256) :
    leavesOf (count % 256) = count := by
  unfold leavesOf
  split <;> omega

theorem tile_of_partial {key : TileKey} {size : Nat}
    (member : Path.tile key.1 key.2 size ∈ partialNames key.1 key.2) : 0 < size ∧ size < 256 := by
  simp only [partialNames, List.mem_append, List.mem_flatMap, List.mem_range, List.mem_cons,
    List.not_mem_nil, or_false, Path.tile.injEq, true_and, reduceCtorEq, or_self] at member
  obtain ⟨k, small, rfl⟩ := member
  omega

variable {root : Root} {es : List TileEntry}

/-- What storing the tiles may have done to a tile name. -/
theorem Between.tile_cases (between : Between root es d s) (level index size : Nat) :
    s.lookup (.tile level index size) = d.lookup (.tile level index size) ∨
      ∃ x ∈ es, x.1 = (level, index) ∧ Placed x s ∧ (size = x.2.numLeaves % 256 ∨
        (x.2.numLeaves = 256 ∧ root.glob = .plain ∧ 0 < size ∧ size < 256) ∧
          d.lookup (.tile level index size) ≠ none ∧
          s.lookup (.tile level index size) = some (.symlink (tileTarget root level index))) := by
  by_cases foreign : ∀ x ∈ es, tileKeyOf (.tile level index size) ≠ some x.1
  · exact .inl (between.outside _ foreign)
  push Not at foreign
  obtain ⟨x, member, key⟩ := foreign
  obtain ⟨rfl, rfl⟩ : level = x.1.1 ∧ index = x.1.2 := Prod.mk.inj (Option.some.inj key)
  have touched := between.own x member
  by_cases target : size = x.2.numLeaves % 256
  · subst target
    exact touched.target.imp_right fun placed => ⟨x, member, rfl, placed, .inl rfl⟩
  have notTarget : Path.tile x.1.1 x.1.2 size ≠ tilePath x := fun same =>
    target (Path.tile.inj same).2.2
  have notTemp : Path.tile x.1.1 x.1.2 size ≠ tempPath x := fun same => by cases same
  rcases touched.others _ rfl notTarget notTemp with same | ⟨relinks | ⟨wrong, _⟩, link, placed⟩
  · exact .inl same
  · obtain ⟨full, plain, listed, has⟩ := relinks
    obtain ⟨node, found⟩ := (d.has_iff _).mp has
    exact .inr ⟨x, member, rfl, placed, .inr ⟨⟨full, plain, tile_of_partial listed⟩, by simp [found], link⟩⟩
  · cases wrong

-- No tile name goes away.
theorem Between.present (between : Between root es d s) {level index size : Nat}
    (present : d.lookup (.tile level index size) ≠ none) : s.lookup (.tile level index size) ≠ none := by
  rcases between.tile_cases level index size with same | ⟨x, _, key, ⟨i, sole, _⟩, rfl | ⟨_, _, link⟩⟩
  · rwa [same]
  · obtain ⟨rfl, rfl⟩ := Prod.mk.inj key
    have found := sole.1
    rw [tilePath] at found
    simp [found]
  · simp [link]

-- The links that are made lead to the full tile, if any are made.
def Spared (root : Root) (es : List TileEntry) (d : LogDisk) : Prop :=
  ∀ x ∈ es, x.2.numLeaves = 256 → root.glob = .plain →
    root.absolute = true ∨ ∀ size, 0 < size → d.lookup (.tile x.1.1 x.1.2 size) = none

theorem Spared.target (spared : Spared root es d) {x : TileEntry} (member : x ∈ es) (full : x.2.numLeaves = 256)
    (plain : root.glob = .plain) {size : Nat} (positive : 0 < size)
    (present : d.lookup (.tile x.1.1 x.1.2 size) ≠ none) :
    tileTarget root x.1.1 x.1.2 = some (.tile x.1.1 x.1.2 0) := by
  rcases spared x member full plain with absolute | missing
  · exact if_pos absolute
  · exact absurd (missing size positive) present

/-- The tiles are right at every point while tiles of the log are stored. -/
theorem TilesOk.between (ok : TilesOk h entries d) (between : Between root es d s) (spared : Spared root es d)
    (unshared : ∀ x ∈ es, d.Unshared (tempPath x)) (sizes : ∀ x ∈ es, 0 < x.2.numLeaves)
    (holds : ∀ x ∈ es, x.2.Holds (h.logNode entries) x.1 (tileCount x.1 entries.length)) :
    TilesOk h entries s := by
  refine ⟨fun level index size present => ?_, fun level index size inode found => ?_,
    fun level index size target found => ?_⟩
  · rcases between.tile_cases level index size with same | ⟨x, _, _, _, rfl | ⟨⟨_, _, _, small⟩, _⟩⟩
    · exact ok.small level index size (by rwa [← same])
    · exact Nat.mod_lt _ (by decide)
    · exact small
  · rcases between.tile_cases level index size with
      same | ⟨x, member, key, ⟨i, sole, content⟩, rfl | ⟨_, _, link⟩⟩
    · rw [same] at found
      obtain ⟨bound, t, content, holds⟩ := ok.files level index size inode found
      exact ⟨bound, t, by rw [between.data_tile unshared found, content], holds⟩
    · obtain ⟨rfl, rfl⟩ : x.1.1 = level ∧ x.1.2 = index := Prod.mk.inj key
      obtain rfl : i = inode := by
        have named := sole.1
        rw [tilePath, found] at named
        simpa using named.symm
      have count := (holds x member).numLeaves
      have leaves : leavesOf (x.2.numLeaves % 256) = tileCount x.1 entries.length := by
        rw [leavesOf_mod (sizes x member) (by rw [count]; exact tileCount_le _ _), count]
      exact ⟨Nat.le_of_eq leaves, x.2, content, by rw [leaves]; exact holds x member⟩
    · rw [link] at found
      cases found
  · have full : ∀ i, d.lookup (.tile level index 0) = some (.file i) →
        ∃ j, s.lookup (.tile level index 0) = some (.file j) := by
      intro i file
      rcases between.tile_cases level index 0 with
        same | ⟨x, member, key, ⟨j, sole, _⟩, zero | ⟨⟨_, _, positive, _⟩, _⟩⟩
      · exact ⟨i, by rw [same, file]⟩
      · obtain ⟨rfl, rfl⟩ : x.1.1 = level ∧ x.1.2 = index := Prod.mk.inj key
        exact ⟨j, by rw [zero]; exact sole.1⟩
      · omega
    rcases between.tile_cases level index size with
      same | ⟨x, member, key, ⟨i, sole, content⟩, rfl | ⟨⟨complete, plain, positive, _⟩, present, link⟩⟩
    · rw [same] at found
      obtain ⟨rfl, i, file⟩ := ok.links level index size target found
      exact ⟨rfl, full i file⟩
    · obtain ⟨rfl, rfl⟩ : x.1.1 = level ∧ x.1.2 = index := Prod.mk.inj key
      have named := sole.1
      rw [tilePath, found] at named
      cases named
    · obtain ⟨rfl, rfl⟩ : x.1.1 = level ∧ x.1.2 = index := Prod.mk.inj key
      rw [link, spared.target member complete plain positive present] at found
      refine ⟨by simpa using found.symm, i, ?_⟩
      rw [← tilePath_full complete]
      exact sole.1

end Tiles

section Present

variable {h : LogHasher} {entries : List Bytes} {d s : LogDisk} {n : Nat}

/-- Every tile of a log of size `n` has its name. -/
def Present (d : LogDisk) (n : Nat) : Prop :=
  ∀ key : TileKey, 0 < tileCount key n → d.lookup (.tile key.1 key.2 (tileCount key n % 256)) ≠ none

theorem Present.framed {own : Path → Prop} (present : Present d n) (frame : Frame own d s)
    (others : ∀ p, own p → ¬ TileName p) : Present s n := by
  intro key some'
  rw [frame.names _ fun mine => others _ mine (by simp [TileName, tileKeyOf])]
  exact present key some'

theorem Present.between {root : Root} {es : List TileEntry} (present : Present d n)
    (between : Between root es d s) : Present s n :=
  fun key some' => between.present (present key some')

theorem readsAs_missing {key : TileKey} {past : List LogDisk}
    (missing : d.lookup (.tile key.1 key.2 (partialTileSize key.1 key.2 n)) = none) :
    ReadsAs (fun l i => getTile l i n) (⟨d, past⟩ : LogWorld) key Tile.fresh := by
  have read := d.readFile_missing _ missing
  exact .inr ⟨by simp [getTile, read], rfl⟩

/-- What Integrate starts a tile from: nodes of the log, at least as many as the tile has at size `n`. -/
theorem TilesOk.base (ok : TilesOk h entries d) (present : Present d n) (past : List LogDisk)
    (key : TileKey) :
    ∃ (t : Tile) (count : Nat), ReadsAs (fun l i => getTile l i n) (⟨d, past⟩ : LogWorld) key t ∧
      t.Holds (h.logNode entries) key count ∧ tileCount key n ≤ count ∧
      count ≤ tileCount key entries.length := by
  obtain ⟨level, index⟩ := key
  by_cases missing : d.lookup (.tile level index (partialTileSize level index n)) = none
  · refine ⟨Tile.fresh, 0, readsAs_missing missing, Tile.fresh_holds, ?_, Nat.zero_le _⟩
    by_contra more
    rw [partialTileSize_eq (by omega)] at missing
    exact present (level, index) (by omega) missing
  · obtain ⟨t, count, read, holds, shape, bound⟩ := ok.readFile missing
    have size := shape.imp And.right And.right
    have limit := tileCount_le (level, index) entries.length
    have parsed := holds.parsed (by omega)
    refine ⟨t.readBack, count, .inl (getTile_of_read read parsed), holds.readBack, ?_, bound⟩
    have small := tileCount_le (level, index) n
    by_cases none : tileCount (level, index) n = 0
    · omega
    · rw [partialTileSize_eq (by omega), leavesOf_mod (by omega) small] at size
      omega

theorem TilesOk.correct (ok : TilesOk h entries d) (present : Present d n) (past : List LogDisk) :
    TilesCorrect (fun l i => getTile l i n) (⟨d, past⟩ : LogWorld) n (h.logNode entries) := by
  refine tilesCorrect_of_base fun key => ?_
  obtain ⟨t, count, reads, holds, lower, _⟩ := ok.base present past key
  exact ⟨t, count, reads, holds, lower⟩

end Present

section Loading

variable {deps : Deps} {h : LogHasher} {entries : List Bytes} {d : LogDisk} {n : Nat}

-- Up a tile from a node of it to the range node above that node.
theorem tile_range_node {key : TileKey} (part : tileCount key n < 256) (gap : Nat) {id : NodeID}
    (row : id.level % 8 + gap = 7) (tile : tileOf id = key) (complete : id.stop ≤ n) :
    ∃ above ∈ cover 0 n, tileOf above = key := by
  induction gap generalizing id with
  | zero =>
    refine ⟨id, (mem_cover_iff 0 n id).mpr ⟨⟨Nat.zero_le _, complete⟩, fun parent => ?_⟩, tile⟩
    subst tile
    have level : id.level + 1 = 8 * (id.level / 8) + 8 := by omega
    have stop : id.parent.stop = (256 * (id.index / 2) + 256) * 2 ^ (8 * (id.level / 8)) := by
      simp only [NodeID.parent, NodeID.stop, level, pow_add]
      ring
    have bound := (Nat.le_div_iff_mul_le (Nat.two_pow_pos _)).mpr (stop ▸ parent.2)
    have half : 8 - id.level % 8 = 1 := by omega
    simp only [tileCount, tileOf, nodeCoordsToTileAddress, half, pow_one] at part
    omega
  | succ gap ih =>
    by_cases parent : id.parent.Within 0 n
    · refine @ih id.parent (by simp only [NodeID.parent]; omega) ?_ parent.2
      rw [← tile]
      have width : 8 - id.level % 8 = (8 - (id.level + 1) % 8) + 1 := by omega
      simp only [tileOf, nodeCoordsToTileAddress, NodeID.parent, Nat.div_div_eq_div_mul, width,
        pow_succ, Nat.mul_comm 2, Prod.mk.injEq, and_true]
      omega
    · exact ⟨id, (mem_cover_iff 0 n id).mpr ⟨⟨Nat.zero_le _, complete⟩, parent⟩, tile⟩

/-- A checkpoint whose range nodes can be fetched is one of a log that has been integrated. -/
theorem TilesOk.loaded (ok : TilesOk h entries d) (whole : Present d entries.length)
    (read : ∀ id ∈ cover 0 n,
      d.lookup (.tile (tileOf id).1 (tileOf id).2 (partialTileSize (tileOf id).1 (tileOf id).2 n)) ≠ none) :
    n ≤ entries.length ∧ Present d n := by
  have inside : n ≤ entries.length := by
    rcases Nat.eq_zero_or_pos n with rfl | positive
    · exact Nat.zero_le _
    obtain ⟨id, member, stop⟩ := exists_cover_stop positive
    obtain ⟨t, count, _, _, shape, bound⟩ := ok.readFile (read id member)
    have size := shape.imp And.right And.right
    have complete := (stop_le_iff id n).mp (Nat.le_of_eq stop)
    have leaf : 0 < tileStop id := Nat.mul_pos (Nat.succ_pos _) (Nat.two_pow_pos _)
    have limit := tileCount_le (tileOf id) n
    have positive : 0 < tileCount (tileOf id) n := by omega
    have path : partialTileSize (tileOf id).1 (tileOf id).2 n = tileCount (tileOf id) n % 256 :=
      partialTileSize_eq positive
    have bound : count ≤ tileCount (tileOf id) entries.length := bound
    rw [path, leavesOf_mod positive limit] at size
    rw [← stop, stop_le_iff]
    omega
  refine ⟨inside, fun key some' => ?_⟩
  have limit := tileCount_le key n
  by_cases part : tileCount key n < 256
  · obtain ⟨tile, stop, _⟩ := tileLeaf_facts key (show tileCount key n - 1 < 256 by omega)
    obtain ⟨id, member, same⟩ := @tile_range_node n key part 7 (tileLeaf key (tileCount key n - 1))
      (by simp [tileLeaf]) tile (by rw [stop_le_iff, tile, stop]; omega)
    have found := read id member
    rwa [same, partialTileSize_eq some'] at found
  · have more := tileCount_mono key inside
    have full : tileCount key n = tileCount key entries.length := by
      have := tileCount_le key entries.length
      omega
    rw [full]
    exact whole key (by omega)

theorem getTile_present {level index : Nat} {w w' : LogWorld} {t : Tile}
    (read : getTile level index n w = (.ok t, w')) :
    w.disk.lookup (.tile level index (partialTileSize level index n)) ≠ none := by
  obtain ⟨raw, found, _⟩ := getTile_ok read
  intro missing
  rw [w.disk.readFile_missing _ missing] at found
  cases found

/-- Integrate leaves a directory alone from which it cannot load its checkpoint. -/
theorem integrate_loads {root : Root} {cp : Checkpoint} {order : List TileEntry → List TileEntry}
    {w : LogWorld} (lawful : Compact.Lawful deps.compact) :
    ((integrate deps (fsStorage root) h order cp w).2 = w ∧
      ∀ result, (integrate deps (fsStorage root) h order cp w).1 ≠ .ok result) ∨
    ∀ id ∈ cover 0 cp.size, w.disk.lookup
      (.tile (tileOf id).1 (tileOf id).2 (partialTileSize (tileOf id).1 (tileOf id).2 cp.size)) ≠ none := by
  have readOnly : ∀ level index w', ((fsStorage root).getTile level index cp.size w').2 = w' :=
    fun level index w' => getTile_readOnly level index cp.size w'
  have same : (storedRange deps (fsStorage root) cp w).2 = w :=
    @fetchRangeNodes_readOnly _ (fun l i => (fsStorage root).getTile l i cp.size) w _ readOnly deps
  rcases stored : storedRange deps (fsStorage root) cp w with ⟨hashes | reason | reason, w'⟩
  · right
    intro id member
    obtain ⟨tile, read⟩ := @fetchRangeNodes_read _ (fun l i => (fsStorage root).getTile l i cp.size) _ _ readOnly
      _ lawful _ _ stored _ member
    exact getTile_present read
  · obtain rfl : w' = w := by rwa [stored] at same
    left
    rw [integrate, Eff.bind_of_error (loadBase_error stored)]
    exact ⟨rfl, by simp⟩
  · obtain rfl : w' = w := by rwa [stored] at same
    left
    rw [integrate, Eff.bind_of_panic (loadBase_panic stored)]
    exact ⟨rfl, by simp⟩

end Loading

section Ready

variable {deps : Deps} {root : Root} {h : LogHasher} {entries : List Bytes} {d : LogDisk} {cp : Checkpoint}

/-- A directory on which the tree of the first `n` entries can be extended to all of them. -/
structure Ready (h : LogHasher) (entries : List Bytes) (n : Nat) (d : LogDisk) : Prop where
  tiles : TilesOk h entries d
  present : Present d n
  sequenced : Sequenced d n (entries.drop n)
  temps : ∀ key, tileCount key n < tileCount key entries.length →
    d.Unshared (.tileTemp key.1 key.2 (tileCount key entries.length % 256))

theorem Ready.nothing (lawful : Compact.Lawful deps.compact) (ready : Ready h entries cp.size d)
    (all : entries.length ≤ cp.size) (order : List TileEntry → List TileEntry) :
    integrate deps (fsStorage root) h order cp ⟨d, []⟩ = (.ok none, ⟨d, []⟩) := by
  have sequenced := ready.sequenced
  rw [List.drop_eq_nil_of_le all] at sequenced
  exact integrate_nothing (w := ⟨d, []⟩) lawful (ready.tiles.correct ready.present []) sequenced order

variable (root) in
/-- How Integrate ends on it. -/
theorem Ready.ends (lawful : Compact.Lawful deps.compact) (ready : Ready h entries cp.size d)
    (more : cp.size < entries.length) :
    ∃ es, Dirty (h.logNode entries) cp.size entries.length es ∧
      (∀ x ∈ es, x.2.Holds (h.logNode entries) x.1 (tileCount x.1 entries.length)) ∧
      ∀ order : List TileEntry → List TileEntry, (∀ es, (order es).Perm es) →
      ∀ Inv : LogDisk → Prop, (∀ s, Between root es d s → Inv s) → Inv d →
        IntegrateEnds root es ⟨"", entries.length, h.logRoot entries⟩ d Inv
          (integrate deps (fsStorage root) h order cp ⟨d, []⟩) := by
  have some' : entries.drop cp.size ≠ [] := by
    rw [Ne, List.drop_eq_nil_iff]
    omega
  have total : cp.size + (entries.drop cp.size).length = entries.length := by
    rw [List.length_drop]
    omega
  choose base count reads holds lower upper using fun key => ready.tiles.base ready.present [] key
  have extends' := logNode_extends_drop h (Nat.le_of_lt more)
  obtain ⟨es, dirty, filled, runs⟩ := integrate_ends_from root base lawful (h := h) (w := ⟨d, []⟩)
    (ready.tiles.correct ready.present []) ready.sequenced some' extends' (h.logNode_ne_nil _)
    (fun key _ => ⟨reads key, by rw [(holds key).numLeaves, total]; exact upper key⟩)
    (fun key gains => by rw [total] at gains ⊢; exact ready.temps key gains)
  rw [total] at dirty filled runs
  rw [logRoot_cover h fun empty => some' (by rw [empty, List.drop_nil])] at runs
  refine ⟨es, dirty, fun x member => filled x member _ (lower x.1) (upper x.1) (holds x.1),
    fun order permutes Inv kept start => runs order permutes Inv kept ?_⟩
  intro s state
  obtain rfl := List.mem_singleton.mp state
  exact start

end Ready

section Histories

variable (deps : Deps) (root : Root) (h : LogHasher)

/-- A directory, and the checkpoints that Integrate has returned for it. -/
structure LogState where
  disk : LogDisk
  returned : List Checkpoint

namespace LogState

def initial : LogState := ⟨.empty, []⟩

def sequenced (s : LogState) (leaf : Bytes) (n steps : Nat) : CallState :=
  callAfter ⟨h.hashLeaf leaf, leaf⟩ n s.disk steps

def integrated (s : LogState) (order : List TileEntry → List TileEntry) (cp : Checkpoint) :
    Outcome (Option Checkpoint) × LogWorld :=
  integrate deps (fsStorage root) h order cp ⟨s.disk, []⟩

end LogState

def returnedBy : Outcome (Option Checkpoint) → List Checkpoint
  | .ok (some new) => [new]
  | _ => []

/-- An operation that runs to its end. Integrate may be given any checkpoint and may fail, but not between
two tiles, as it can only where the name of the root directory is no pattern for Glob. -/
inductive LogStep : LogState → LogState → Prop
  | sequence (s : LogState) (leaf : Bytes) (n steps : Nat) (result : SequenceResult)
      (loaded : Loadable s.disk n) (ends : (s.sequenced h leaf n steps).next = .finish result) :
      LogStep s ⟨(s.sequenced h leaf n steps).disk, s.returned⟩
  | integrate (s : LogState) (order : List TileEntry → List TileEntry) (permutes : ∀ es, (order es).Perm es)
      (cp : Checkpoint) (completes : ∀ reason, (s.integrated deps root h order cp).1 = .error reason →
        root.glob = .malformed → (s.integrated deps root h order cp).2.disk = s.disk) :
      LogStep s ⟨(s.integrated deps root h order cp).2.disk,
        s.returned ++ returnedBy (s.integrated deps root h order cp).1⟩
  | writeCheckpoint (s : LogState) (raw : Bytes) :
      LogStep s ⟨(writeCheckpoint raw ⟨s.disk, []⟩).2.disk, s.returned⟩

/-- A returned checkpoint: the root of the first entries, whose tiles are all there. -/
structure Published (integrated : List Bytes) (d : LogDisk) (cp : Checkpoint) : Prop where
  positive : 0 < cp.size
  size : cp.size ≤ integrated.length
  hash : cp.hash = h.logRoot (integrated.take cp.size)
  present : Present d cp.size

/-- A log of which the entries `integrated` are in the tree and the entries `waiting` only sequenced. -/
structure LogOk (s : LogState) (integrated waiting : List Bytes) : Prop where
  directory : DirectoryOk h (fun _ => True) s.disk (integrated ++ waiting).length
  entries : EntriesOf s.disk (integrated ++ waiting)
  tiles : TilesOk h integrated s.disk
  present : Present s.disk integrated.length
  temps : ∀ level index size, s.disk.lookup (.tileTemp level index size) = none
  links : ∀ level index, s.disk.lookup (.tileLink level index) = none
  returned : ∀ cp ∈ s.returned, Published h integrated s.disk cp

end Histories

section Kept

variable {h : LogHasher} {root : Root} {entries : List Bytes} {d d' : LogDisk}

-- Tile names stay, and links stay links.
structure TilesKept (d d' : LogDisk) : Prop where
  names : ∀ level index size, d.lookup (.tile level index size) ≠ none →
    d'.lookup (.tile level index size) ≠ none
  links : ∀ level index size t, d.lookup (.tile level index size) = some (.symlink t) →
    d'.lookup (.tile level index size) = some (.symlink t)

theorem TilesKept.of_same
    (same : ∀ level index size, d'.lookup (.tile level index size) = d.lookup (.tile level index size)) :
    TilesKept d d' :=
  ⟨fun _ _ _ found => by rwa [same], fun _ _ _ _ found => by rwa [same]⟩

theorem TilesKept.of_frame {own : Path → Prop} (frame : Frame own d d') (others : ∀ p, own p → ¬ TileName p) :
    TilesKept d d' :=
  .of_same fun level index size => frame.names _ fun mine => others _ mine (by simp [TileName, tileKeyOf])

theorem TilesKept.trans {d'' : LogDisk} (first : TilesKept d d') (second : TilesKept d' d'') :
    TilesKept d d'' :=
  ⟨fun level index size found => second.names _ _ _ (first.names level index size found),
    fun level index size t found => second.links _ _ _ t (first.links level index size t found)⟩

theorem TilesOk.kept {es : List TileEntry} (ok : TilesOk h entries d)
    (between : Between root es d d') (spared : Spared root es d)
    (numLeaves : ∀ x ∈ es, x.2.numLeaves = tileCount x.1 entries.length) :
    TilesKept d d' := by
  refine ⟨fun level index size => between.present, fun level index size t found => ?_⟩
  obtain ⟨rfl, inode, full⟩ := ok.links level index size t found
  rcases between.tile_cases level index size with
    same | ⟨x, member, key, _, here | ⟨⟨complete, plain, positive, _⟩, present, link⟩⟩
  · rw [same, found]
  · -- A tile that is linked to is full, so it is stored under its own name.
    obtain ⟨rfl, rfl⟩ : x.1.1 = level ∧ x.1.2 = index := Prod.mk.inj key
    have complete := (ok.files _ _ _ inode full).1
    have leaves : tileCount x.1 entries.length = 256 := tileCount_full complete
    rw [here, numLeaves x member, leaves] at found
    rw [full] at found
    cases found
  · obtain ⟨rfl, rfl⟩ : x.1.1 = level ∧ x.1.2 = index := Prod.mk.inj key
    rw [link, spared.target member complete plain positive present]

/-- The hash that is read for a node through the path of its tile for a size. A line that is empty
stands for a node that the tile does not have yet. -/
def NodeReads (d : LogDisk) (size : Nat) (id : NodeID) (hash : Bytes) : Prop :=
  hash ≠ [] ∧ ∃ raw t, d.readFile (.tile (tileOf id).1 (tileOf id).2 size) = some raw ∧
    Tile.unmarshalText raw = .ok t ∧ nodeIn t (slotOf id) = .ok hash

theorem Tile.Holds.nodeIn_eq {v : NodeID → Bytes} {t : Tile} {id : NodeID} {count : Nat}
    (holds : t.Holds v (tileOf id) count) {hash : Bytes} (filled : hash ≠ []) :
    nodeIn t.readBack (slotOf id) = .ok hash → hash = v id ∧ tileStop id ≤ count := by
  intro read
  have back := holds.readBack
  unfold nodeIn at read
  split at read
  · cases read
  · cases read
  next node found =>
    obtain rfl := Except.ok.inj read
    obtain ⟨other, tile, inside, slot⟩ := back.noMore _ _ found filled
    obtain rfl := slot_injective tile slot
    rw [back.hasNodes other rfl inside] at found
    exact ⟨by simpa using found.symm, inside⟩

theorem Tile.Holds.nodeIn_ok {v : NodeID → Bytes} {t : Tile} {id : NodeID} {count : Nat}
    (holds : t.Holds v (tileOf id) count) (inside : tileStop id ≤ count) :
    nodeIn t.readBack (slotOf id) = .ok (v id) := by
  rw [nodeIn, holds.readBack.hasNodes id rfl inside]

/-- The hashes that can be read are the log's, and the tile has all of the leaves below their nodes. -/
theorem NodeReads.holds (ok : TilesOk h entries d) {size : Nat} {id : NodeID} {hash : Bytes}
    (reads : NodeReads d size id hash) : hash = h.logNode entries id ∧ ∃ count, tileStop id ≤ count ∧
      count ≤ tileCount (tileOf id) entries.length ∧
      ((∃ inode, d.lookup (.tile (tileOf id).1 (tileOf id).2 size) = some (.file inode)) ∧
          count = leavesOf size ∨
        ∃ target, d.lookup (.tile (tileOf id).1 (tileOf id).2 size) = some (.symlink target)) := by
  obtain ⟨filled, raw, t, found, parsed, node⟩ := reads
  have present : d.lookup (.tile (tileOf id).1 (tileOf id).2 size) ≠ none := fun missing => by
    rw [d.readFile_missing _ missing] at found
    cases found
  obtain ⟨t0, count, text, holds, shape, bound⟩ := ok.readFile present
  obtain rfl := Option.some.inj (text.symm.trans found)
  have limit := tileCount_le ((tileOf id).1, (tileOf id).2) entries.length
  rw [holds.parsed (by omega)] at parsed
  obtain rfl := Outcome.ok.inj parsed
  obtain ⟨value, inside⟩ := @Tile.Holds.nodeIn_eq _ _ id _ holds _ filled node
  exact ⟨value, count, inside, bound, shape.imp_right And.left⟩

theorem NodeReads.kept {more : List Bytes} (ok : TilesOk h entries d) (ok' : TilesOk h (entries ++ more) d')
    (kept : TilesKept d d') {size : Nat} {id : NodeID} {hash : Bytes} (reads : NodeReads d size id hash) :
    NodeReads d' size id hash := by
  obtain ⟨rfl, count, inside, bound, shape⟩ := reads.holds ok
  have present : d.lookup (.tile (tileOf id).1 (tileOf id).2 size) ≠ none := by
    rcases shape with ⟨⟨inode, file⟩, _⟩ | ⟨target, link⟩
    · simp [file]
    · simp [link]
  obtain ⟨t, count', text, holds, shape', bound'⟩ := ok'.readFile (kept.names _ _ _ present)
  have limit := tileCount_le ((tileOf id).1, (tileOf id).2) (entries ++ more).length
  have stop := tileStop_le id
  have still : tileStop id ≤ count' := by
    rcases shape' with ⟨⟨inode, file⟩, same⟩ | ⟨_, full⟩
    · rcases shape with ⟨_, leaves⟩ | ⟨target, link⟩
      · omega
      · rw [kept.links _ _ _ _ link] at file
        cases file
    · omega
  have value := @logNode_tile h entries more _ _ bound id rfl inside
  refine ⟨reads.1, _, _, text, holds.parsed (by omega), ?_⟩
  rw [← value]
  exact @Tile.Holds.nodeIn_ok _ _ id _ holds still

end Kept

section Invariant

variable {deps : Deps} {root : Root} {h : LogHasher} {s : LogState} {integrated waiting : List Bytes}

theorem LogOk.initial : LogOk h .initial [] [] where
  directory := ⟨by simp, fun k less => by simp at less, fun k _ => rfl, fun g _ => rfl,
    fun g node found => by cases found⟩
  entries k bound := by simp at bound
  tiles := ⟨fun _ _ _ present => absurd rfl present, fun _ _ _ _ found => (by cases found),
    fun _ _ _ _ found => (by cases found)⟩
  present key some' := by simp [tileCount] at some'
  temps _ _ _ := rfl
  links _ _ := rfl
  returned cp member := by cases member

-- An operation that has nothing to do with tiles may add entries.
theorem LogOk.framed {own : Path → Prop} {d : LogDisk} (ok : LogOk h s integrated waiting)
    (frame : Frame own s.disk d) (others : ∀ p, own p → ¬ TileName p) {more : List Bytes}
    (directory : DirectoryOk h (fun _ => True) d (integrated ++ (waiting ++ more)).length)
    (entries : EntriesOf d (integrated ++ (waiting ++ more))) :
    LogOk h ⟨d, s.returned⟩ integrated (waiting ++ more) where
  directory := directory
  entries := entries
  tiles := ok.tiles.framed frame others
  present := ok.present.framed frame others
  temps level index size := by
    rw [frame.names _ fun mine => others _ mine (by simp [TileName, tileKeyOf])]
    exact ok.temps level index size
  links level index := by
    rw [frame.names _ fun mine => others _ mine (by simp [TileName, tileKeyOf])]
    exact ok.links level index
  returned cp member := by
    obtain ⟨positive, size, hash, present⟩ := ok.returned cp member
    exact ⟨positive, size, hash, present.framed frame others⟩

theorem Loadable.le {used : Bytes → Prop} {d : LogDisk} {m n : Nat} (loaded : Loadable d n)
    (ok : DirectoryOk h used d m) : n ≤ m := by
  by_contra beyond
  have present := loaded.2 m (by omega)
  simp [Disk.has, ok.free m (Nat.le_refl m)] at present

theorem DirectoryOk.grown {used : Bytes → Prop} {d d' : LogDisk} {m m' : Nat}
    (before : DirectoryOk h used d m) (after : DirectoryOk h used d' m')
    (kept : ∀ k x, SeqHolds d k x → SeqHolds d' k x) : m ≤ m' := by
  by_contra less
  obtain ⟨x, holds, _⟩ := before.seqs m' (by omega)
  exact Nat.lt_irrefl _ (after.seq_lt (kept m' x holds))

theorem LogOk.sequence (ok : LogOk h s integrated waiting) (leaf : Bytes) {n : Nat}
    (loaded : Loadable s.disk n) (steps : Nat) :
    ∃ more, LogOk h ⟨(s.sequenced h leaf n steps).disk, s.returned⟩ integrated (waiting ++ more) := by
  have low := loaded.le ok.directory
  have frame := callAfter_frame (c := ⟨h.hashLeaf leaf, leaf⟩) ok.directory low loaded.1 trivial rfl steps
  obtain ⟨m, added, call⟩ := callAfter_ok (c := ⟨h.hashLeaf leaf, leaf⟩) ok.directory low loaded.1 trivial
    rfl steps
  obtain ⟨now, length, entries⟩ := call.directory.entries
  have grown := ok.directory.grown call.directory call.kept
  obtain ⟨more, rfl⟩ := ok.entries.extend entries call.kept (by rwa [length])
  have directory := call.directory
  rw [← length, List.append_assoc] at directory
  rw [List.append_assoc] at entries
  exact ⟨more, ok.framed frame (fun _ mine => mine.1) directory entries⟩

theorem LogOk.writeCheckpoint (ok : LogOk h s integrated waiting) (raw : Bytes) :
    LogOk h ⟨(writeCheckpoint raw ⟨s.disk, []⟩).2.disk, s.returned⟩ integrated waiting := by
  have frame : Frame CheckpointName s.disk (Serverless.writeCheckpoint raw ⟨s.disk, []⟩).2.disk :=
    writeCheckpoint_frame raw ⟨s.disk, []⟩
  have directory := ok.directory.framed frame fun p mine => .inr mine
  have entries : EntriesOf _ (integrated ++ waiting) := fun k bound =>
    (ok.entries k bound).framed frame (by simp [CheckpointName])
  have kept : LogOk h _ integrated (waiting ++ []) := ok.framed frame checkpoint_not_tile (by rwa [List.append_nil])
    (by rwa [List.append_nil])
  rwa [List.append_nil] at kept

theorem EntriesOf.scanned {used : Bytes → Prop} {d : LogDisk} {entries : List Bytes} (holds : EntriesOf d entries)
    (directory : DirectoryOk h used d entries.length) (n : Nat) : Sequenced d n (entries.drop n) where
  present k bound := by
    rw [List.length_drop] at bound
    rw [List.getElem_drop]
    exact (holds (n + k) (by omega)).readFile
  ends := by
    refine d.readFile_missing _ (directory.free _ ?_)
    rw [List.length_drop]
    omega

theorem Settled.present {v : NodeID → Bytes} {n e : Nat} {es : List TileEntry} {d f : LogDisk}
    (settled : Settled root es d f) (present : Present d n) (dirty : Dirty v n e es) (order : n ≤ e) :
    Present f e := by
  intro key some'
  by_cases gained : tileCount key n < tileCount key e
  · obtain ⟨x, member, rfl⟩ := dirty.all key gained
    obtain ⟨i, sole, _⟩ := (settled.stored x member).placed
    have found := sole.1
    rw [tilePath, dirty.numLeaves x member] at found
    rw [found]
    simp
  · have same : tileCount key n = tileCount key e := by
      have := tileCount_mono key order
      omega
    have old := settled.between.present (present key (by omega))
    rwa [same] at old

-- The new tiles replace what the old ones were read from.
theorem LogOk.settled (ok : LogOk h s integrated waiting) {es : List TileEntry} {d : LogDisk} {n : Nat}
    (absolute : root.absolute = true) (present : Present s.disk n)
    (dirty : Dirty (h.logNode (integrated ++ waiting)) n (integrated ++ waiting).length es)
    (holds : ∀ x ∈ es, x.2.Holds (h.logNode (integrated ++ waiting)) x.1
      (tileCount x.1 (integrated ++ waiting).length)) (settled : Settled root es s.disk d)
    (more : n < (integrated ++ waiting).length) :
    LogOk h ⟨d, s.returned ++ [⟨"", (integrated ++ waiting).length, h.logRoot (integrated ++ waiting)⟩]⟩
      (integrated ++ waiting) [] := by
  have unshared : ∀ x ∈ es, s.disk.Unshared (tempPath x) := fun x _ => .inl (ok.temps _ _ _)
  have frame := settled.between.frame unshared
  have shown := settled.present present dirty (Nat.le_of_lt more)
  have names : ∀ p, p ∉ es.map tilePath → s.disk.lookup p = none → d.lookup p = none := by
    intro p other missing
    by_cases foreign : ∀ x ∈ es, tileKeyOf p ≠ some x.1
    · rw [settled.between.outside p foreign, missing]
    push Not at foreign
    obtain ⟨x, member, key⟩ := foreign
    have stored := settled.stored x member
    by_cases temp : p = tempPath x
    · rw [temp, stored.temp]
    · have target : p ≠ tilePath x := fun same => other (same ▸ List.mem_map_of_mem member)
      rw [(stored.others p key target temp).2 fun relinks => ?_, missing]
      obtain ⟨_, _, _, has⟩ := relinks
      simp [Disk.has, missing] at has
  refine ⟨?_, fun k bound => ?_, ?_, shown, fun level index size => ?_, fun level index => ?_,
    fun cp member => ?_⟩
  · rw [List.append_nil]
    exact ok.directory.framed frame fun p mine => .inl mine
  · simp only [List.append_nil] at bound ⊢
    exact (ok.entries k bound).framed frame (by simp [TileName, tileKeyOf])
  · exact (ok.tiles.append waiting).between settled.between (fun _ _ _ _ => .inl absolute) unshared
      (fun x member => (dirty.sizes member).1) holds
  · exact names _ (by simp [tilePath]) (ok.temps level index size)
  · exact names _ (by simp [tilePath]) (ok.links level index)
  · rcases List.mem_append.mp member with old | new
    · obtain ⟨positive, size, hash, there⟩ := ok.returned cp old
      refine ⟨positive, by rw [List.length_append]; omega, ?_, there.between settled.between⟩
      rw [hash, List.take_append_of_le_length size]
    · obtain rfl := List.mem_singleton.mp new
      exact ⟨by dsimp only; omega, Nat.le_refl _, by rw [List.take_length], shown⟩

theorem LogOk.integrate (lawful : Compact.Lawful deps.compact) (absolute : root.absolute = true)
    (ok : LogOk h s integrated waiting) {order : List TileEntry → List TileEntry}
    (permutes : ∀ es, (order es).Perm es) {cp : Checkpoint}
    (completes : ∀ reason, (s.integrated deps root h order cp).1 = .error reason →
      root.glob = .malformed → (s.integrated deps root h order cp).2.disk = s.disk) :
    ∃ more waiting', LogOk h ⟨(s.integrated deps root h order cp).2.disk,
        s.returned ++ returnedBy (s.integrated deps root h order cp).1⟩ (integrated ++ more) waiting' ∧
      TilesKept s.disk (s.integrated deps root h order cp).2.disk ∧
      Frame TileName s.disk (s.integrated deps root h order cp).2.disk := by
  have idle : (s.integrated deps root h order cp).2.disk = s.disk →
      returnedBy (s.integrated deps root h order cp).1 = [] →
      ∃ more waiting', LogOk h ⟨(s.integrated deps root h order cp).2.disk,
          s.returned ++ returnedBy (s.integrated deps root h order cp).1⟩ (integrated ++ more) waiting' ∧
        TilesKept s.disk (s.integrated deps root h order cp).2.disk ∧
        Frame TileName s.disk (s.integrated deps root h order cp).2.disk := by
    intro disk none
    rw [disk, none, List.append_nil]
    exact ⟨[], waiting, by rwa [List.append_nil], .of_same fun _ _ _ => rfl, .refl _ _⟩
  rcases @integrate_loads deps h root cp order ⟨s.disk, []⟩ lawful with
    ⟨world, failed⟩ | read
  · refine idle (by rw [LogState.integrated, world]) ?_
    rw [LogState.integrated]
    unfold returnedBy
    split
    next new returned => exact absurd returned (failed _)
    next => rfl
  obtain ⟨_, present⟩ := ok.tiles.loaded ok.present read
  have ready : Ready h (integrated ++ waiting) cp.size s.disk :=
    ⟨ok.tiles.append waiting, present, ok.entries.scanned ok.directory cp.size, fun key _ => .inl (ok.temps _ _ _)⟩
  rcases Nat.lt_or_ge cp.size (integrated ++ waiting).length with more | all
  swap
  · have nothing := @Ready.nothing deps root h _ s.disk cp lawful ready all order
    exact idle (by rw [LogState.integrated, nothing]) (by rw [LogState.integrated, nothing]; rfl)
  obtain ⟨es, dirty, holds, runs⟩ := ready.ends root lawful more
  obtain ⟨_, ends⟩ := runs order permutes (fun _ => True) (fun _ _ => trivial) trivial
  rcases ends with ⟨returned, _, stored, between⟩ | ⟨⟨reason, failed⟩, x, _, blocked⟩
  · refine ⟨waiting, [], ?_, (ok.tiles.append waiting).kept between (fun _ _ _ _ => .inl absolute) dirty.numLeaves,
      between.frame fun x _ => .inl (ok.temps _ _ _)⟩
    have settled := ok.settled absolute present dirty holds ⟨stored, between⟩ more
    rw [LogState.integrated, returned]
    exact settled
  · by_cases glob : root.glob = .malformed
    · exact idle (completes reason failed glob) (by rw [LogState.integrated, failed]; rfl)
    · exact absurd (fun _ => ⟨glob, fun _ => ok.links _ _⟩) blocked

end Invariant

section Published

variable {deps : Deps} {root : Root} {h : LogHasher} {s s' : LogState} {d : LogDisk}
  {integrated waiting : List Bytes}

theorem LogStep.ok (lawful : Compact.Lawful deps.compact) (absolute : root.absolute = true)
    (step : LogStep deps root h s s') (ok : LogOk h s integrated waiting) :
    ∃ more waiting', LogOk h s' (integrated ++ more) waiting' ∧ TilesKept s.disk s'.disk ∧
      s.returned ⊆ s'.returned := by
  cases step with
  | sequence leaf n steps result loaded ends =>
    obtain ⟨added, after⟩ := ok.sequence leaf loaded steps
    have frame := callAfter_frame (c := ⟨h.hashLeaf leaf, leaf⟩) ok.directory (loaded.le ok.directory)
      loaded.1 trivial rfl steps
    exact ⟨[], _, by rw [List.append_nil]; exact after, .of_frame frame fun _ mine => mine.1, by simp⟩
  | integrate order permutes cp completes =>
    obtain ⟨more, waiting', after, kept, -⟩ := ok.integrate lawful absolute permutes completes
    exact ⟨more, waiting', after, kept, by simp⟩
  | writeCheckpoint raw =>
    have frame := writeCheckpoint_frame raw ⟨s.disk, []⟩
    exact ⟨[], waiting, by rw [List.append_nil]; exact ok.writeCheckpoint raw, .of_frame frame checkpoint_not_tile,
      by simp⟩

theorem LogStep.run (lawful : Compact.Lawful deps.compact) (absolute : root.absolute = true)
    (steps : Relation.ReflTransGen (LogStep deps root h) s s') (ok : LogOk h s integrated waiting) :
    ∃ more waiting', LogOk h s' (integrated ++ more) waiting' ∧ TilesKept s.disk s'.disk ∧
      s.returned ⊆ s'.returned := by
  induction steps with
  | refl => exact ⟨[], waiting, by rwa [List.append_nil], .of_same fun _ _ _ => rfl, List.Subset.refl _⟩
  | tail _ step ih =>
    obtain ⟨more, waiting', before, kept, returned⟩ := ih
    obtain ⟨more', waiting'', after, kept', returned'⟩ := step.ok lawful absolute before
    rw [List.append_assoc] at after
    exact ⟨more ++ more', waiting'', after, kept.trans kept',
      fun _ member => returned' (returned member)⟩

/-- A proof builder can be made for the checkpoint, and all its proofs are accepted. -/
def Provable (deps : Deps) (h : LogHasher) (d : LogDisk) (cp : Checkpoint) : Prop :=
  ∃ entries : List Bytes, EntriesOf d entries ∧ cp.size = entries.length ∧ cp.hash = h.logRoot entries ∧
    ∃ pb, newProofBuilder deps cp h.hashChildren directoryFetcher ⟨d, []⟩ = (.ok pb, ⟨d, []⟩) ∧
      ∀ earlier : List Request, (∀ r ∈ earlier, r.Valid cp.size) → ∀ r : Request, r.Valid cp.size →
        ∃ proof, (pb.answer deps r (pb.afterRequests deps earlier (pb.session ⟨d, []⟩))).1 = .ok proof ∧
          r.Accepts deps h entries proof

theorem LogOk.provable (compactLaws : Compact.Lawful deps.compact)
    (proofLaws : ProofPackage.Lawful deps.proofs) (ok : LogOk h s integrated waiting) {cp : Checkpoint}
    (member : cp ∈ s.returned) : Provable deps h s.disk cp := by
  obtain ⟨positive, size, hash, present⟩ := ok.returned cp member
  have length : (integrated.take cp.size).length = cp.size := List.length_take_of_le size
  have correct : TilesCorrect (newTileFetcher directoryFetcher (integrated.take cp.size).length)
      ⟨s.disk, []⟩ (integrated.take cp.size).length (h.logNode (integrated.take cp.size)) := by
    rw [newTileFetcher_directory, length]
    intro id complete
    rw [← h.logNode_append (integrated.take cp.size) (integrated.drop cp.size) (by rwa [length]),
      List.take_append_drop]
    exact ok.tiles.correct present [] id complete
  obtain ⟨pb, built, answers⟩ := proofBuilder_answers compactLaws proofLaws (by omega) directoryFetcher
    length.symm hash correct
  refine ⟨integrated.take cp.size, fun k bound => ?_, length.symm, hash, pb, built, ?_⟩
  · have entry := ok.entries k (by rw [List.length_append]; omega)
    rwa [List.getElem_append_left (by omega), ← List.getElem_take (h := bound)] at entry
  · rwa [length] at answers

/-- Whatever is done to the log after a checkpoint was returned, the checkpoint can be proved from the
directory, and a hash that could be read can still be read and is the only one for its node. -/
theorem published_history_provable (compactLaws : Compact.Lawful deps.compact)
    (proofLaws : ProofPackage.Lawful deps.proofs) (absolute : root.absolute = true)
    (reached : Relation.ReflTransGen (LogStep deps root h) .initial s)
    (later : Relation.ReflTransGen (LogStep deps root h) s s') :
    (∀ cp ∈ s.returned, Provable deps h s'.disk cp) ∧
      ∀ size id hash, NodeReads s.disk size id hash → NodeReads s'.disk size id hash ∧
        ∀ size' hash', NodeReads s'.disk size' id hash' → hash' = hash := by
  obtain ⟨integrated, waiting, now, _⟩ := LogStep.run compactLaws absolute reached LogOk.initial
  obtain ⟨more, waiting', after, kept, returned⟩ := LogStep.run compactLaws absolute later now
  refine ⟨fun cp member => after.provable compactLaws proofLaws (returned member),
    fun size id hash reads => ?_⟩
  have still := reads.kept now.tiles after.tiles kept
  refine ⟨still, fun size' hash' other => ?_⟩
  rw [(other.holds after.tiles).1, (still.holds after.tiles).1]

-- Two leaves are sequenced and integrated one after the other, the second time from the first checkpoint.
def sequencedOne : LogState := ⟨(LogState.initial.sequenced LogHasher.padded [1] 0 9).disk, []⟩

def integratedOne : LogState :=
  ⟨(sequencedOne.integrated referenceDeps ⟨true, .plain⟩ LogHasher.padded id ⟨"", 0, []⟩).2.disk,
    sequencedOne.returned ++ returnedBy
      (sequencedOne.integrated referenceDeps ⟨true, .plain⟩ LogHasher.padded id ⟨"", 0, []⟩).1⟩

def sequencedTwo : LogState :=
  ⟨(integratedOne.sequenced LogHasher.padded [2] 1 9).disk, integratedOne.returned⟩

def integratedTwo : LogState :=
  ⟨(sequencedTwo.integrated referenceDeps ⟨true, .plain⟩ LogHasher.padded id ⟨"", 1, hashOne⟩).2.disk,
    sequencedTwo.returned ++ returnedBy
      (sequencedTwo.integrated referenceDeps ⟨true, .plain⟩ LogHasher.padded id ⟨"", 1, hashOne⟩).1⟩

theorem published_history_provable_pair :
    integratedTwo.returned = [⟨"", 1, hashOne⟩, ⟨"", 2, hashPair⟩] ∧
      Provable referenceDeps LogHasher.padded integratedTwo.disk ⟨"", 1, hashOne⟩ := by
  have first : (LogState.initial.sequenced LogHasher.padded [1] 0 9).next = .finish (0, none) := by
    decide +kernel
  have returned : (sequencedOne.integrated referenceDeps ⟨true, .plain⟩ LogHasher.padded id ⟨"", 0, []⟩).1 =
      .ok (some ⟨"", 1, hashOne⟩) := by decide +kernel
  have second : (integratedOne.sequenced LogHasher.padded [2] 1 9).next = .finish (1, none) := by
    decide +kernel
  have extended : (sequencedTwo.integrated referenceDeps ⟨true, .plain⟩ LogHasher.padded id
      ⟨"", 1, hashOne⟩).1 = .ok (some ⟨"", 2, hashPair⟩) := by decide +kernel
  have reached : Relation.ReflTransGen (LogStep referenceDeps ⟨true, .plain⟩ LogHasher.padded) .initial
      integratedOne :=
    .tail (.single (b := sequencedOne) (.sequence .initial [1] 0 9 _ (by decide +kernel) first))
      (.integrate sequencedOne id (fun _ => .refl _) ⟨"", 0, []⟩ fun _ _ malformed => by cases malformed)
  have later : Relation.ReflTransGen (LogStep referenceDeps ⟨true, .plain⟩ LogHasher.padded) integratedOne
      integratedTwo :=
    .tail (.single (b := sequencedTwo) (.sequence integratedOne [2] 1 9 _ (by decide +kernel) second))
      (.integrate sequencedTwo id (fun _ => .refl _) ⟨"", 1, hashOne⟩ fun _ _ malformed => by cases malformed)
  have member : ⟨"", 1, hashOne⟩ ∈ integratedOne.returned := by
    rw [integratedOne, returned]
    simp [returnedBy]
  refine ⟨?_, (published_history_provable Compact.reference_lawful ProofPackage.reference_lawful rfl reached
    later).1 _ member⟩
  rw [integratedTwo, extended, sequencedTwo, integratedOne, returned]
  rfl

end Published

end Serverless
