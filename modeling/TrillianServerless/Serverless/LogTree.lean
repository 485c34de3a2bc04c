import TrillianServerless.Serverless.TreeUpdate

set_option autoImplicit false

namespace Serverless

open Go Merkle Checkpoints FileSystem

-- A tile name links, if at all, to the full tile.
def OwnLinks (d : LogDisk) : Prop :=
  ∀ level index size t, d.lookup (.tile level index size) = some (.symlink (some t)) →
    t = .tile level index 0

section Reading

variable {root : Root} {es : List TileEntry} {d s : LogDisk}

theorem unused_temp {p : Path} {i : Nat} (named : d.lookup p = some (.file i))
    {temp : Path} (unshared : d.Unshared temp) (apart : p ≠ temp) :
    d.lookup temp ≠ some (.file i) := by
  intro same
  rcases unshared with missing | ⟨j, found, sole⟩
  · rw [missing] at same
    cases same
  · obtain rfl : j = i := by simpa [found] using same
    exact apart (sole p named)

-- A file under a tile's name keeps its content.
theorem Between.data_tile (between : Between root es d s)
    (unshared : ∀ x ∈ es, d.Unshared (tempPath x)) {level index size i : Nat}
    (named : d.lookup (.tile level index size) = some (.file i)) : s.data i = d.data i :=
  between.data i (d.lookup_lt _ named) fun x member =>
    unused_temp named (unshared x member) fun same => by cases same

theorem Between.readFile_kept (between : Between root es d s)
    (unshared : ∀ x ∈ es, d.Unshared (tempPath x)) (own : OwnLinks d) {level index size : Nat}
    (name : s.lookup (.tile level index size) = d.lookup (.tile level index size))
    (full : s.lookup (.tile level index 0) = d.lookup (.tile level index 0)) :
    s.readFile (.tile level index size) = d.readFile (.tile level index size) := by
  refine Disk.readFile_congr name (fun t linked => ?_) fun i found => ?_
  · rw [own _ _ _ t linked, full]
  · rcases d.inodeOf_eq_some _ found with file | ⟨t, linked, file⟩
    · exact between.data_tile unshared file
    · rw [own _ _ _ t linked] at file
      exact between.data_tile unshared file

theorem Between.readFile_outside (between : Between root es d s)
    (unshared : ∀ x ∈ es, d.Unshared (tempPath x)) (own : OwnLinks d) (level index : Nat)
    (outside : ∀ x ∈ es, x.1 ≠ (level, index)) (size : Nat) :
    s.readFile (.tile level index size) = d.readFile (.tile level index size) := by
  have foreign : ∀ x ∈ es, some (level, index) ≠ some x.1 := fun x member same =>
    outside x member (Option.some.inj same).symm
  exact between.readFile_kept unshared own (between.outside _ foreign) (between.outside _ foreign)

theorem Placed.readFile {e : TileEntry} (placed : Placed e s) :
    s.readFile (tilePath e) = some e.2.marshalText := by
  obtain ⟨i, sole, content⟩ := placed
  rw [s.readFile_file _ sole.1, content]

theorem Placed.getTile {e : TileEntry} {n : Nat} (placed : Placed e s)
    (count : e.2.numLeaves = tileCount e.1 n) (positive : 0 < tileCount e.1 n) (ends : e.2.EndsFilled)
    {past : List LogDisk} :
    getTile e.1.1 e.1.2 n ⟨s, past⟩ = (.ok e.2.readBack, ⟨s, past⟩) := by
  have bound := tileCount_le e.1 n
  have found : s.readFile (.tile e.1.1 e.1.2 (partialTileSize e.1.1 e.1.2 n)) =
      some e.2.marshalText := by
    rw [partialTileSize_eq positive, ← count]
    exact placed.readFile
  exact getTile_of_read found (Tile.unmarshalText_marshalText (by omega) ends)

end Reading

section Settled

variable {v : NodeID → Bytes} {n e : Nat} {root : Root} {es : List TileEntry} {d s : LogDisk}

/-- All tiles that gained a node are stored. -/
structure Settled (root : Root) (es : List TileEntry) (d s : LogDisk) : Prop where
  stored : ∀ x ∈ es, Stored root x d s
  between : Between root es d s

/-- The tiles are correct for the new log. -/
theorem Settled.correct (settled : Settled root es d s) (dirty : Dirty v n e es)
    (unshared : ∀ x ∈ es, d.Unshared (tempPath x)) (own : OwnLinks d) (order : n ≤ e)
    {past past' : List LogDisk} (before : TilesCorrect (fun l i => getTile l i n) ⟨d, past⟩ n v) :
    TilesCorrect (fun l i => getTile l i e) ⟨s, past'⟩ e v := by
  intro id complete
  have inside := (stop_le_iff id e).mp complete
  have positive : 0 < tileStop id := Nat.mul_pos (Nat.succ_pos _) (Nat.two_pow_pos _)
  by_cases more : tileCount (tileOf id) n < tileCount (tileOf id) e
  · obtain ⟨x, member, key⟩ := dirty.all _ more
    have placed := (settled.stored x member).placed
    refine ⟨x.2.readBack, ?_, ?_⟩
    · rw [← key]
      exact placed.getTile (dirty.numLeaves x member) (by rw [key]; omega) (dirty.ends x member)
    · exact (dirty.hasNodes x member).readBack id key.symm (by rw [key]; exact inside)
  · have same : tileCount (tileOf id) n = tileCount (tileOf id) e := by
      have := tileCount_mono (tileOf id) order
      omega
    obtain ⟨tile, read, slot⟩ := before id ((stop_le_iff id n).mpr (by rw [same]; exact inside))
    have path : partialTileSize (tileOf id).1 (tileOf id).2 e =
        partialTileSize (tileOf id).1 (tileOf id).2 n := by
      have now : 0 < tileCount (tileOf id) e := by omega
      have earlier : 0 < tileCount (tileOf id) n := by omega
      calc partialTileSize (tileOf id).1 (tileOf id).2 e
          = tileCount (tileOf id) e % 256 := partialTileSize_eq now
        _ = tileCount (tileOf id) n % 256 := by rw [same]
        _ = partialTileSize (tileOf id).1 (tileOf id).2 n := (partialTileSize_eq earlier).symm
    have kept := settled.between.readFile_outside unshared own (tileOf id).1
      (tileOf id).2 (fun x member key => more (by
        have := dirty.more x member
        rwa [key] at this)) (partialTileSize (tileOf id).1 (tileOf id).2 n)
    refine ⟨tile, ?_, slot⟩
    obtain ⟨raw, found, parsed⟩ := getTile_ok read
    exact getTile_of_read (by rw [path]; exact kept.trans found) parsed

open Classical in
/-- What a name of a stored tile reads as. -/
noncomputable def settledRead (root : Root) (x : TileEntry) (d : LogDisk) (size : Nat) : Option Bytes :=
  if size = x.2.numLeaves % 256 then some x.2.marshalText
  else if Relinks root x d (.tile x.1.1 x.1.2 size) then
    if root.absolute then some x.2.marshalText else none
  else if x.2.numLeaves = 256 ∧ d.lookup (.tile x.1.1 x.1.2 size) =
      some (.symlink (some (.tile x.1.1 x.1.2 0))) then some x.2.marshalText
  else d.readFile (.tile x.1.1 x.1.2 size)

theorem tilePath_full {x : TileEntry} (full : x.2.numLeaves = 256) :
    tilePath x = .tile x.1.1 x.1.2 0 := by
  rw [tilePath, full]

theorem Placed.readFile_link {x : TileEntry} {p : Path} (placed : Placed x s)
    (full : x.2.numLeaves = 256) (link : s.lookup p = some (.symlink (some (.tile x.1.1 x.1.2 0)))) :
    s.readFile p = some x.2.marshalText := by
  obtain ⟨i, sole, content⟩ := placed
  rw [tilePath_full full] at sole
  rw [s.readFile_symlink p link sole.1, content]

theorem Settled.readFile_inside (settled : Settled root es d s)
    (unshared : ∀ x ∈ es, d.Unshared (tempPath x)) (own : OwnLinks d) {x : TileEntry}
    (member : x ∈ es) (bounds : 0 < x.2.numLeaves ∧ x.2.numLeaves ≤ 256) (size : Nat) :
    s.readFile (.tile x.1.1 x.1.2 size) = settledRead root x d size := by
  have stored := settled.stored x member
  unfold settledRead
  by_cases target : size = x.2.numLeaves % 256
  · rw [if_pos target, target]
    exact stored.placed.readFile
  have notTarget : Path.tile x.1.1 x.1.2 size ≠ tilePath x := by
    intro same
    exact target (Path.tile.inj same).2.2
  have notTemp : Path.tile x.1.1 x.1.2 size ≠ tempPath x := fun same => by cases same
  have others := stored.others _ rfl notTarget notTemp
  rw [if_neg target]
  by_cases relinks : Relinks root x d (.tile x.1.1 x.1.2 size)
  · have link := others.1 relinks
    rw [if_pos relinks]
    by_cases absolute : root.absolute = true
    · rw [if_pos absolute]
      rw [tileTarget, if_pos absolute] at link
      exact stored.placed.readFile_link relinks.1 link
    · rw [if_neg absolute]
      rw [tileTarget, if_neg absolute] at link
      exact s.readFile_dangling _ link
  · have kept := others.2 relinks
    rw [if_neg relinks]
    by_cases full : x.2.numLeaves = 256 ∧ d.lookup (.tile x.1.1 x.1.2 size) =
        some (.symlink (some (.tile x.1.1 x.1.2 0)))
    · rw [if_pos full]
      exact stored.placed.readFile_link full.1 (kept.trans full.2)
    · rw [if_neg full]
      refine Disk.readFile_congr kept (fun t linked => ?_) fun i found => ?_
      · obtain rfl := own _ _ _ t linked
        have part : x.2.numLeaves ≠ 256 := fun same => full ⟨same, linked⟩
        have zero : Path.tile x.1.1 x.1.2 0 ≠ tilePath x := by
          intro same
          have remainder := (Path.tile.inj same).2.2
          omega
        exact (stored.others _ rfl zero fun same => by cases same).2 fun relinks => part relinks.1
      · rcases d.inodeOf_eq_some _ found with file | ⟨t, linked, file⟩
        · exact settled.between.data_tile unshared file
        · rw [own _ _ _ t linked] at file
          exact settled.between.data_tile unshared file

-- The order in which the tiles were stored cannot be read off the directory.
theorem Settled.readFile_unique {s' : LogDisk} (settled : Settled root es d s)
    (settled' : Settled root es d s') (dirty : Dirty v n e es)
    (unshared : ∀ x ∈ es, d.Unshared (tempPath x)) (own : OwnLinks d) (level index size : Nat) :
    s.readFile (.tile level index size) = s'.readFile (.tile level index size) := by
  by_cases inside : ∃ x ∈ es, x.1 = (level, index)
  · obtain ⟨x, member, key⟩ := inside
    obtain ⟨rfl, rfl⟩ := Prod.mk.inj key
    rw [settled.readFile_inside unshared own member (dirty.sizes member),
      settled'.readFile_inside unshared own member (dirty.sizes member)]
  · have outside : ∀ x ∈ es, x.1 ≠ (level, index) := fun x member key => inside ⟨x, member, key⟩
    rw [settled.between.readFile_outside unshared own _ _ outside,
      settled'.between.readFile_outside unshared own _ _ outside]

end Settled

section Correct

variable {deps : Deps} {h : LogHasher} {root : Root} {w : LogWorld}

/-- The tile names are as StoreTile makes them, without what an interrupted run would leave for the
tiles that are to be stored. -/
structure Tidy (d : LogDisk) (n e : Nat) : Prop where
  own : OwnLinks d
  temps : ∀ key, tileCount key n < tileCount key e →
    d.Unshared (.tileTemp key.1 key.2 (tileCount key e % 256))
  links : ∀ key, tileCount key n < tileCount key e → tileCount key e = 256 →
    d.lookup (linkPath key) = none

theorem logRoot_cover (h : LogHasher) {entries : List Bytes} (nonempty : entries ≠ []) :
    rangeRoot h.hashChildren [] ((cover 0 entries.length).map (h.logNode entries)) =
      h.logRoot entries := by
  rw [h.rangeRoot_logNode, LogHasher.logRoot]
  exact treeHash_empty h.hashChildren _ _ (by simpa using List.length_pos_iff.mpr nonempty)

/-- Integrate appends the sequenced entries to the tree, in whichever order the tiles are stored. -/
theorem integrate_correct (lawful : Compact.Lawful deps.compact) (glob : root.glob ≠ .malformed)
    (entries more : List Bytes) (cp : Checkpoint) (size : cp.size = entries.length)
    (correct : TilesCorrect (fun l i => getTile l i cp.size) w cp.size (h.logNode entries))
    (sequenced : Sequenced w.disk cp.size more)
    (extendable : Extendable w cp.size (cp.size + more.length))
    (tidy : Tidy w.disk cp.size (cp.size + more.length)) :
    (more = [] → ∀ order, integrate deps (fsStorage root) h order cp w = (.ok none, w)) ∧
    (more ≠ [] → ∃ reading : Nat → Nat → Nat → Option Bytes,
      ∀ order : List TileEntry → List TileEntry, (∀ es, (order es).Perm es) →
      ∃ w', integrate deps (fsStorage root) h order cp w =
          (.ok (some ⟨"", cp.size + more.length, h.logRoot (entries ++ more)⟩), w') ∧
        TilesCorrect (fun l i => getTile l i (cp.size + more.length)) w' (cp.size + more.length)
          (h.logNode (entries ++ more)) ∧
        ∀ level index size, w'.disk.readFile (.tile level index size) = reading level index size) := by
  constructor
  · rintro rfl order
    exact integrate_nothing lawful correct sequenced order
  intro some'
  have correct' : TilesCorrect (fun l i => getTile l i cp.size) w cp.size
      (h.logNode (entries ++ more)) := by
    intro id complete
    rw [h.logNode_append entries more (by rw [← size]; exact complete)]
    exact correct id complete
  obtain ⟨es, dirty, runs⟩ := integrate_ends root (h := h) lawful correct' sequenced some'
    (by rw [size]; exact logNode_extends h entries more) (h.logNode_ne_nil _) extendable tidy.temps
  have unshared : ∀ x ∈ es, w.disk.Unshared (tempPath x) := by
    intro x member
    rw [tempPath, dirty.numLeaves x member]
    exact tidy.temps x.1 (dirty.more x member)
  have linkable : ∀ x ∈ es, Linkable root x w.disk := by
    intro x member full
    rw [dirty.numLeaves x member] at full
    exact ⟨glob, fun _ => tidy.links x.1 (dirty.more x member) full⟩
  have newRoot : rangeRoot h.hashChildren [] ((cover 0 (cp.size + more.length)).map
      (h.logNode (entries ++ more))) = h.logRoot (entries ++ more) := by
    rw [size, ← List.length_append]
    exact logRoot_cover h (by simp [some'])
  rw [newRoot] at runs
  have settles : ∀ order : List TileEntry → List TileEntry, (∀ es, (order es).Perm es) →
      ∃ w', integrate deps (fsStorage root) h order cp w =
          (.ok (some ⟨"", cp.size + more.length, h.logRoot (entries ++ more)⟩), w') ∧
        Settled root es w.disk w'.disk := by
    intro order permutes
    obtain ⟨_, ends⟩ := runs order permutes (fun _ => True) (fun _ _ => trivial) fun _ _ => trivial
    rcases ends with ⟨ok, _, stored, between⟩ | ⟨_, x, member, blocked⟩
    · exact ⟨_, Prod.ext ok rfl, stored, between⟩
    · exact absurd (linkable x member) blocked
  obtain ⟨w0, _, settled0⟩ := settles id fun _ => List.Perm.refl _
  refine ⟨fun level index size => w0.disk.readFile (.tile level index size),
    fun order permutes => ?_⟩
  obtain ⟨w', ran, settled⟩ := settles order permutes
  refine ⟨w', ran, ?_, fun level index size => ?_⟩
  · exact settled.correct dirty unshared tidy.own (Nat.le_add_right _ _) correct'
  · exact settled.readFile_unique settled0 dirty unshared tidy.own level index size

end Correct

section Example

-- The directory of the log [1] with [2] sequenced after it.
def oneLeafDisk (tile : Tile) : LogDisk :=
  ((((((Disk.empty.create (.tile 0 0 1)).write 0 tile.marshalText).create (.seq 0)).write 1 [1]).create
    (.seq 1)).write 2 [2])

def oneLeafWorld (numLeaves : Nat) : LogWorld := ⟨oneLeafDisk ⟨numLeaves, [some hashOne]⟩, []⟩

theorem oneLeafDisk_lookup (tile : Tile) (p : Path) :
    (oneLeafDisk tile).lookup p = if p = .seq 1 then some (.file 2) else if p = .seq 0 then some (.file 1)
      else if p = .tile 0 0 1 then some (.file 0) else none := by
  simp only [oneLeafDisk, Disk.lookup_write, Disk.lookup_create, Disk.lookup_empty]
  rfl

theorem stop_le_one {id : NodeID} (complete : id.stop ≤ 1) : id = ⟨0, 0⟩ :=
  leaf_of_bounds (Nat.zero_le _) complete

theorem oneLeaf_correct {numLeaves : Nat}
    (read : getTile 0 0 1 (oneLeafWorld numLeaves) = (.ok ⟨numLeaves, [some hashOne]⟩,
      oneLeafWorld numLeaves)) :
    TilesCorrect (fun l i => getTile l i 1) (oneLeafWorld numLeaves) 1
      (LogHasher.padded.logNode [[1]]) := by
  intro id complete
  obtain rfl := stop_le_one complete
  exact ⟨_, read, rfl⟩

theorem oneLeaf_sequenced (numLeaves : Nat) :
    Sequenced (oneLeafWorld numLeaves).disk 1 [[2]] where
  present k bound := by
    obtain rfl : k = 0 := by simpa using bound
    rfl
  ends := rfl

theorem oneLeaf_extendable : Extendable (oneLeafWorld 1) 1 2 := by
  rintro ⟨level, index⟩ more
  have bottom : level = 0 := by
    by_contra high
    have large : 2 ^ 8 ≤ 2 ^ (8 * level) := Nat.pow_le_pow_right (by decide) (by omega)
    have none : 2 / 2 ^ (8 * level) = 0 := Nat.div_eq_of_lt (by omega)
    simp [tileCount, none] at more
  subst bottom
  obtain rfl : index = 0 := by
    simp only [tileCount, Nat.mul_zero, pow_zero, Nat.div_one] at more
    omega
  exact ⟨⟨1, [some hashOne]⟩, Or.inl (Prod.ext (by decide +kernel) (getTile_readOnly _ _ _ _)),
    by decide⟩

theorem oneLeaf_tidy : Tidy (oneLeafWorld 1).disk 1 2 where
  own level index size t linked := by
    rw [oneLeafWorld, oneLeafDisk_lookup] at linked
    split at linked
    · cases linked
    · split at linked
      · cases linked
      · split at linked <;> cases linked
  temps key _ := Or.inl (by simp [oneLeafWorld, oneLeafDisk_lookup])
  links key _ _ := by simp [oneLeafWorld, oneLeafDisk_lookup, linkPath]

theorem integrate_correct_pair :
    ∃ w', integrate referenceDeps (fsStorage ⟨true, .plain⟩) LogHasher.padded List.reverse
        ⟨"example log", 1, hashOne⟩ (oneLeafWorld 1) =
          (.ok (some ⟨"", 2, LogHasher.padded.logRoot [[1], [2]]⟩), w') ∧
      TilesCorrect (fun l i => getTile l i 2) w' 2 (LogHasher.padded.logNode [[1], [2]]) := by
  have read : getTile 0 0 1 (oneLeafWorld 1) = (.ok ⟨1, [some hashOne]⟩, oneLeafWorld 1) :=
    Prod.ext (by decide +kernel) (getTile_readOnly _ _ _ _)
  obtain ⟨_, reading, runs⟩ := (@integrate_correct referenceDeps LogHasher.padded
    ⟨true, .plain⟩ (oneLeafWorld 1) Compact.reference_lawful (by decide) [[1]] [[2]]
    ⟨"example log", 1, hashOne⟩ rfl (oneLeaf_correct read) (oneLeaf_sequenced 1) oneLeaf_extendable
    oneLeaf_tidy).imp_right fun later => later (by decide)
  obtain ⟨w', ran, correct, _⟩ := runs List.reverse fun es => List.reverse_perm es
  exact ⟨w', ran, correct⟩

-- A tile that holds the right node but claims five leaves is stored where it is not looked for.
theorem integrate_misplaces_tile :
    TilesCorrect (fun l i => getTile l i 1) (oneLeafWorld 5) 1 (LogHasher.padded.logNode [[1]]) ∧
      Sequenced (oneLeafWorld 5).disk 1 [[2]] ∧
      (integrate referenceDeps (fsStorage ⟨true, .plain⟩) LogHasher.padded id
        ⟨"example log", 1, hashOne⟩ (oneLeafWorld 5)).1 = .ok (some ⟨"", 2, hashPair⟩) ∧
      ¬ TilesCorrect (fun l i => getTile l i 2) (integrate referenceDeps (fsStorage ⟨true, .plain⟩)
        LogHasher.padded id ⟨"example log", 1, hashOne⟩ (oneLeafWorld 5)).2 2
        (LogHasher.padded.logNode [[1], [2]]) := by
  have read : getTile 0 0 1 (oneLeafWorld 5) = (.ok ⟨5, [some hashOne]⟩, oneLeafWorld 5) :=
    Prod.ext (by decide +kernel) (getTile_readOnly _ _ _ _)
  refine ⟨oneLeaf_correct read, oneLeaf_sequenced 5, by decide +kernel, fun correct => ?_⟩
  obtain ⟨tile, found, _⟩ := correct ⟨0, 0⟩ (by decide)
  obtain ⟨raw, present, _⟩ := getTile_ok found
  have missing : (integrate referenceDeps (fsStorage ⟨true, .plain⟩) LogHasher.padded id
      ⟨"example log", 1, hashOne⟩ (oneLeafWorld 5)).2.disk.readFile (.tile 0 0 2) = none := by
    decide +kernel
  rw [show partialTileSize (tileOf ⟨0, 0⟩).1 (tileOf ⟨0, 0⟩).2 2 = 2 by decide] at present
  exact absurd (missing.symm.trans present) (by simp)

end Example

end Serverless
