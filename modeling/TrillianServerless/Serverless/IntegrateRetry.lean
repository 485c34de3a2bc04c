import TrillianServerless.Serverless.History

set_option autoImplicit false

namespace Serverless

open Go Merkle Checkpoints FileSystem

section Release

variable (deps : Deps) (root : Root) (h : LogHasher) (opens : Bytes → Checkpoint) (signs : Checkpoint → Bytes)

-- `signs` makes a note of the checkpoint and signs it.
def signAndWrite (cp : Checkpoint) : Eff LogWorld Unit :=
  (writeCheckpoint (signs cp)).wrap "failed to store new log checkpoint: %w"

def writeReturned (newCp : Option Checkpoint) : Eff LogWorld (Option Checkpoint) :=
  match newCp with
  | none => return none
  | some cp => do
    signAndWrite signs cp
    return some cp

/-- Integrate from the checkpoint that was written last, then WriteCheckpoint, as the integrate command
runs them. `opens` is ParseCheckpoint. -/
def release (order : List TileEntry → List TileEntry) : Eff LogWorld (Option Checkpoint) := fun w =>
  match w.disk.readFile .checkpoint with
  | none => (.error .notExist, w)
  | some raw =>
    (do
      let newCp ← integrate deps (fsStorage root) h order (opens raw)
      writeReturned signs newCp) w

end Release

section Texts

variable {h : LogHasher} {entries : List Bytes} {d d' : LogDisk}

-- Where tile names are files, links or missing alike, the same is read through them.
theorem TilesOk.reads_same (ok : TilesOk h entries d) (ok' : TilesOk h entries d') {level index size : Nat}
    (alike : d'.lookup (.tile level index size) = d.lookup (.tile level index size) ∨
      ∃ i j, d.lookup (.tile level index size) = some (.file i) ∧
        d'.lookup (.tile level index size) = some (.file j)) :
    d'.readFile (.tile level index size) = d.readFile (.tile level index size) := by
  by_cases missing : d.lookup (.tile level index size) = none
  · have missing' : d'.lookup (.tile level index size) = none := by
      rcases alike with same | ⟨i, j, file, -⟩
      · rw [same, missing]
      · rw [missing] at file
        cases file
    rw [d.readFile_missing _ missing, d'.readFile_missing _ missing']
  have present' : d'.lookup (.tile level index size) ≠ none := by
    rcases alike with same | ⟨i, j, -, file⟩
    · rwa [same]
    · simp [file]
  obtain ⟨t, count, text, holds, shape, -⟩ := ok.readFile missing
  obtain ⟨t', count', text', holds', shape', -⟩ := ok'.readFile present'
  obtain rfl : count = count' := by
    rcases shape with ⟨⟨i, file⟩, rfl⟩ | ⟨⟨target, link⟩, rfl⟩ <;>
      rcases shape' with ⟨⟨i', file'⟩, rfl⟩ | ⟨⟨target', link'⟩, rfl⟩
    · rfl
    · rcases alike with same | ⟨_, j, _, file'⟩
      · rw [link', file] at same
        cases same
      · rw [link'] at file'
        cases file'
    · rcases alike with same | ⟨j, _, file, _⟩
      · rw [file', link] at same
        cases same
      · rw [link] at file
        cases file
    · rfl
  rw [text, text', holds.marshalText_eq holds']

end Texts

section Alike

variable {root : Root} {v : NodeID → Bytes} {n e : Nat} {es es' : List TileEntry} {d c f f' : LogDisk}

-- A name that was not replaced yet is replaced by the second run if the first would have done so.
theorem Touched.relinks_iff {x x' : TileEntry} (touched : Touched root x d c) (key : x'.1 = x.1)
    (leaves : x'.2.numLeaves = x.2.numLeaves) {p : Path} (own : tileKeyOf p = some x.1) (target : p ≠ tilePath x)
    (temp : p ≠ tempPath x) (link : p ≠ linkPath x.1) :
    (Relinks root x' c p ↔ Relinks root x d p) ∧ (¬ Relinks root x d p → c.lookup p = d.lookup p) := by
  unfold Relinks
  rw [key, leaves, Disk.has, Disk.has]
  rcases touched.others p own target temp with same | ⟨relinks | ⟨here, -⟩, linked, -⟩
  · rw [same]
    exact ⟨Iff.rfl, fun _ => rfl⟩
  · have relinks' := relinks
    unfold Relinks at relinks'
    rw [Disk.has] at relinks'
    refine ⟨⟨fun _ => relinks', fun _ => ⟨relinks'.1, relinks'.2.1, relinks'.2.2.1, by rw [linked]; rfl⟩⟩,
      fun not => absurd relinks' not⟩
  · exact absurd here link

/-- Tiles that are stored after an interrupted run have the names that they would have had without. -/
theorem Settled.alike (settled : Settled root es d f) (between : Between root es d c)
    (settled' : Settled root es' c f') (dirty : Dirty v n e es) (dirty' : Dirty v n e es') (level index size : Nat) :
    f'.lookup (.tile level index size) = f.lookup (.tile level index size) ∨
      ∃ i j, f.lookup (.tile level index size) = some (.file i) ∧
        f'.lookup (.tile level index size) = some (.file j) := by
  by_cases gains : tileCount (level, index) n < tileCount (level, index) e
  · obtain ⟨x, member, key⟩ := dirty.all _ gains
    obtain ⟨x', member', key'⟩ := dirty'.all _ gains
    obtain ⟨rfl, rfl⟩ : x.1.1 = level ∧ x.1.2 = index := Prod.mk.inj key
    have same : x'.1 = x.1 := key'
    have leaves : x'.2.numLeaves = x.2.numLeaves := by
      rw [dirty.numLeaves x member, dirty'.numLeaves x' member', same]
    have stored := settled.stored x member
    have stored' := settled'.stored x' member'
    have path : tilePath x' = tilePath x := by
      unfold tilePath
      rw [same, leaves]
    by_cases target : Path.tile x.1.1 x.1.2 size = tilePath x
    · obtain ⟨i, sole, -⟩ := stored.placed
      obtain ⟨j, sole', -⟩ := stored'.placed
      rw [path] at sole'
      exact .inr ⟨i, j, by rw [target]; exact sole.1, by rw [target]; exact sole'.1⟩
    · left
      have temp : Path.tile x.1.1 x.1.2 size ≠ tempPath x := fun same => by cases same
      have temp' : Path.tile x.1.1 x.1.2 size ≠ tempPath x' := fun same => by cases same
      obtain ⟨linked, kept⟩ := stored.others _ rfl target temp
      obtain ⟨linked', kept'⟩ := stored'.others (.tile x.1.1 x.1.2 size) (by rw [same]; rfl)
        (by rw [path]; exact target) temp'
      obtain ⟨relinks, untouched⟩ := (between.own x member).relinks_iff same leaves (p := .tile x.1.1 x.1.2 size)
        rfl target temp fun same => by cases same
      by_cases replaced : Relinks root x d (.tile x.1.1 x.1.2 size)
      · rw [linked replaced, linked' (relinks.mpr replaced), same]
      · rw [kept replaced, kept' fun again => replaced (relinks.mp again), untouched replaced]
  · have outside : ∀ x ∈ es, tileKeyOf (.tile level index size) ≠ some x.1 := by
      rintro x member same
      have more := dirty.more x member
      rw [← Option.some.inj same] at more
      exact gains more
    have outside' : ∀ x ∈ es', tileKeyOf (.tile level index size) ≠ some x.1 := by
      rintro x member same
      have more := dirty'.more x member
      rw [← Option.some.inj same] at more
      exact gains more
    left
    rw [settled'.between.outside _ outside', between.outside _ outside, settled.between.outside _ outside]

end Alike

section Sequencing

variable {h : LogHasher} {used : Bytes → Prop} {σ : SequenceSystem} {m : Nat}

theorem Safe.step_frame (safe : Safe h used σ m) (event : SequenceEvent) :
    Frame SequenceName σ.disk (σ.step h event).disk := by
  cases event with
  | load p size =>
    simp only [SequenceSystem.step]
    split
    · split
      · exact .refl _ _
      · exact .refl _ _
    · exact .refl _ _
  | call p leaf =>
    simp only [SequenceSystem.step]
    split
    · exact .refl _ _
    · exact .refl _ _
  | step p =>
    simp only [SequenceSystem.step]
    split
    next n r found =>
      obtain ⟨m', stepOk⟩ := safe.process_ok found
      unfold SequenceSystem.stepProcess
      dsimp only
      split
      · exact stepOk.frame.sequence
      · exact stepOk.frame.sequence
    · exact .refl _ _
  | crash p => exact .refl _ _

theorem Safe.run_frame (safe : Safe h (fun _ => True) σ m) (events : List SequenceEvent) :
    Frame SequenceName σ.disk (events.foldl (SequenceSystem.step h) σ).disk := by
  induction events generalizing σ m with
  | nil => exact .refl _ _
  | cons event rest ih =>
    obtain ⟨m', after, -⟩ := safe.step event fun _ _ _ => trivial
    exact (safe.step_frame event).trans (ih after)

-- Processes that are started on a directory, whatever was left there.
def sequencing (d : LogDisk) : SequenceSystem := ⟨d, fun _ => none, []⟩

theorem DirectoryOk.safe {d : LogDisk} (ok : DirectoryOk h used d m) : Safe h used (sequencing d) m where
  directory := ok
  nextSeq _ _ found := nomatch found
  calls _ _ _ found := nomatch found
  exclusive _ _ _ _ _ _ found := nomatch found
  distinct _ _ _ := fun ⟨_, _, found, _⟩ => nomatch found
  notReturned _ _ := fun ⟨_, _, found, _⟩ => nomatch found
  returnedOnce := List.nodup_nil
  returned _ member := nomatch member

end Sequencing

section Stocked

variable {deps : Deps} {root : Root} {h : LogHasher} {entries : List Bytes} {n : Nat} {es : List TileEntry}
  {d c f : LogDisk}

/-- A directory with its entries, and with the tree of the first `n` of them. Runs that were killed may have
left tiles of all of the entries and temporary files of tiles. -/
structure Stocked (h : LogHasher) (entries : List Bytes) (n : Nat) (d : LogDisk) : Prop where
  directory : DirectoryOk h (fun _ => True) d entries.length
  sequenced : EntriesOf d entries
  tiles : TilesOk h entries d
  order : n ≤ entries.length
  present : Present d n
  temps : ∀ key size, tileCount key n < size → tileCount key entries.length ≤ size → size ≤ 256 →
    d.Unshared (.tileTemp key.1 key.2 (size % 256))

/-- The tiles that Integrate stores. -/
structure Update (h : LogHasher) (entries : List Bytes) (n : Nat) (es : List TileEntry) : Prop where
  dirty : Dirty (h.logNode entries) n entries.length es
  holds : ∀ x ∈ es, x.2.Holds (h.logNode entries) x.1 (tileCount x.1 entries.length)

-- Where tiles get full, the links to them can be made and lead to them.
def Leads (root : Root) (m : Nat) : Prop :=
  root.glob ≠ .malformed ∧ (root.glob = .plain → root.absolute = true) ∨ m < 256

theorem Leads.full (leads : Leads root entries.length) (update : Update h entries n es) {x : TileEntry}
    (member : x ∈ es)
    (full : x.2.numLeaves = 256) : root.glob ≠ .malformed ∧ (root.glob = .plain → root.absolute = true) := by
  rcases leads with leads | short
  · exact leads
  · rw [update.dirty.numLeaves x member, tileCount] at full
    have := Nat.div_le_self entries.length (2 ^ (8 * x.1.1))
    omega

theorem Leads.spared (leads : Leads root entries.length) (update : Update h entries n es) : Spared root es d :=
  fun _ member full plain => .inl ((leads.full update member full).2 plain)

variable {m : Nat}

theorem Stocked.unshared (stocked : Stocked h entries m d) (order : m ≤ n) (update : Update h entries n es) :
    ∀ x ∈ es, d.Unshared (tempPath x) := by
  intro x member
  have gains := Nat.lt_of_le_of_lt (tileCount_mono x.1 order) (update.dirty.more x member)
  rw [tempPath, update.dirty.numLeaves x member]
  exact stocked.temps x.1 _ gains (Nat.le_refl _) (tileCount_le _ _)

theorem Stocked.ready (stocked : Stocked h entries n d) : Ready h entries n d where
  tiles := stocked.tiles
  present := stocked.present
  sequenced := stocked.sequenced.scanned stocked.directory n
  temps key gains := stocked.temps key _ gains (Nat.le_refl _) (tileCount_le _ _)

theorem Stocked.framed (stocked : Stocked h entries n d) (frame : Frame CheckpointName d c) :
    Stocked h entries n c where
  directory := stocked.directory.framed frame fun p mine => .inr mine
  sequenced k bound := (stocked.sequenced k bound).framed frame (by simp [CheckpointName])
  tiles := stocked.tiles.framed frame checkpoint_not_tile
  order := stocked.order
  present := stocked.present.framed frame checkpoint_not_tile
  temps key size gains bound small :=
    frame.unshared (by simp [CheckpointName]) (stocked.temps key size gains bound small)

-- A temporary file is turned into a link only when a later one will not have its name.
theorem Stocked.temps_between (stocked : Stocked h entries m d) (update : Update h entries n es)
    (between : Between root es d c) {key : TileKey} {size : Nat} (gains : tileCount key m < size)
    (bound : tileCount key entries.length ≤ size) (small : size ≤ 256) :
    c.Unshared (.tileTemp key.1 key.2 (size % 256)) := by
  have before := stocked.temps key size gains bound small
  by_cases stored : tileCount key n < tileCount key entries.length
  · obtain ⟨x, member, rfl⟩ := update.dirty.all key stored
    have leaves := update.dirty.numLeaves x member
    have touched := between.own x member
    by_cases now : size = tileCount x.1 entries.length
    · rw [now, ← leaves]
      exact touched.temp
    have other : Path.tileTemp x.1.1 x.1.2 (size % 256) ≠ tempPath x := by
      intro same
      have sizes := (Path.tileTemp.inj same).2.2
      omega
    refine between.unshared before ?_
    rcases touched.others _ rfl (fun same => by cases same) other with kept | ⟨⟨full, -⟩ | ⟨wrong, -⟩, -⟩
    · exact kept
    · omega
    · cases wrong
  · refine between.unshared before (between.outside _ fun x member same => stored ?_)
    obtain rfl : key = x.1 := Option.some.inj same
    exact update.dirty.more x member

theorem Stocked.between (stocked : Stocked h entries m d) (order : m ≤ n) (update : Update h entries n es)
    (spared : Spared root es d) (between : Between root es d c) : Stocked h entries m c := by
  have unshared := stocked.unshared order update
  have frame := between.frame unshared
  refine ⟨stocked.directory.framed frame fun p mine => .inl mine, fun k bound => ?_, ?_, stocked.order,
    stocked.present.between between, fun key size => stocked.temps_between update between⟩
  · exact (stocked.sequenced k bound).framed frame fun named => named rfl
  · exact stocked.tiles.between between spared unshared (fun x member => (update.dirty.sizes member).1) update.holds

theorem Stocked.settled (stocked : Stocked h entries n d) (leads : Leads root entries.length)
    (update : Update h entries n es) (settled : Settled root es d f) : Stocked h entries entries.length f := by
  have now := stocked.between (Nat.le_refl _) update (leads.spared update) settled.between
  refine ⟨now.directory, now.sequenced, now.tiles, Nat.le_refl _,
    settled.present stocked.present update.dirty stocked.order, fun key size gains bound small => ?_⟩
  exact now.temps key size (Nat.lt_of_le_of_lt (tileCount_mono key stocked.order) gains) bound small

/-- Sequencing adds entries, and is nothing to the tree. -/
theorem Stocked.sequence (stocked : Stocked h entries n d) (events : List SequenceEvent) :
    ∃ more, Stocked h (entries ++ more) n (events.foldl (SequenceSystem.step h) (sequencing d)).disk := by
  have safe := stocked.directory.safe
  have frame := safe.run_frame events
  obtain ⟨m, after, kept⟩ := safe.run events fun _ _ => trivial
  obtain ⟨now, length, entries'⟩ := after.directory.entries
  have grown := stocked.directory.grown after.directory kept
  obtain ⟨more, rfl⟩ := stocked.sequenced.extend entries' kept (by rwa [length])
  have tile : ∀ p, TileName p → ¬ SequenceName p := fun p named mine => mine.1 named
  refine ⟨more, by rw [length]; exact after.directory, entries', ?_, ?_, ?_, fun key size gains bound small => ?_⟩
  · exact (stocked.tiles.append more).framed frame fun p mine => mine.1
  · rw [List.length_append]
    exact Nat.le_trans stocked.order (Nat.le_add_right _ _)
  · exact stocked.present.framed frame fun p mine => mine.1
  · refine frame.unshared (tile _ (by simp [TileName, tileKeyOf])) (stocked.temps key size gains ?_ small)
    refine Nat.le_trans (tileCount_mono key ?_) bound
    simp

end Stocked

section Releases

variable {deps : Deps} {root : Root} {h : LogHasher} {opens : Bytes → Checkpoint} {signs : Checkpoint → Bytes}
  {entries : List Bytes} {n : Nat} {es : List TileEntry} {d c f : LogDisk} {raw : Bytes}

def CheckpointFile (d : LogDisk) (raw : Bytes) : Prop :=
  ∃ i, d.lookup .checkpoint = some (.file i) ∧ d.data i = raw

theorem CheckpointFile.framed {own : Path → Prop} (file : CheckpointFile d raw) (frame : Frame own d c)
    (other : ¬ own .checkpoint) : CheckpointFile c raw := by
  obtain ⟨i, found, content⟩ := file
  exact ⟨i, by rw [frame.names _ other, found], by rw [frame.data _ i other found, content]⟩

theorem CheckpointFile.readFile (file : CheckpointFile d raw) : d.readFile .checkpoint = some raw := by
  obtain ⟨i, found, content⟩ := file
  rw [d.readFile_file _ found, content]

/-- None of the temporary names is left that the next run would fail on. -/
structure Clean (root : Root) (d : LogDisk) : Prop where
  tmp : d.lookup .checkpointTmp = none
  links : root.glob = .plain → ∀ level index, d.lookup (.tileLink level index) = none

theorem Clean.framed {own : Path → Prop} (clean : Clean root d) (frame : Frame own d c)
    (others : ∀ p, own p → ¬ CheckpointName p ∧ ¬ TileName p) : Clean root c where
  tmp := by rw [frame.names _ fun mine => (others _ mine).1 (.inr rfl), clean.tmp]
  links plain level index := by
    rw [frame.names _ fun mine => (others _ mine).2 (by simp [TileName, tileKeyOf]), clean.links plain]

theorem Clean.linkable (clean : Clean root d) (leads : Leads root entries.length) (update : Update h entries n es) :
    ∀ x ∈ es, Linkable root x d :=
  fun _ member full => ⟨(leads.full update member full).1, fun plain => clean.links plain _ _⟩

theorem Settled.links (settled : Settled root es d f) (clean : Clean root d) (plain : root.glob = .plain)
    (level index : Nat) : f.lookup (.tileLink level index) = none := by
  have before := clean.links plain level index
  by_cases foreign : ∀ x ∈ es, tileKeyOf (.tileLink level index) ≠ some x.1
  · rw [settled.between.outside _ foreign, before]
  push Not at foreign
  obtain ⟨x, member, key⟩ := foreign
  have stored := settled.stored x member
  rw [(stored.others _ key (fun same => by cases same) fun same => by cases same).2 ?_, before]
  rintro ⟨-, -, -, has⟩
  simp [Disk.has, before] at has

theorem Stocked.integrates {cp : Checkpoint} (lawful : Compact.Lawful deps.compact)
    (stocked : Stocked h entries cp.size d) (more : cp.size < entries.length) :
    ∃ es, Update h entries cp.size es ∧
      ∀ order : List TileEntry → List TileEntry, (∀ es, (order es).Perm es) →
        IntegrateEnds root es ⟨"", entries.length, h.logRoot entries⟩ d (Between root es d)
          (integrate deps (fsStorage root) h order cp ⟨d, []⟩) := by
  obtain ⟨es, dirty, holds, runs⟩ := stocked.ready.ends root lawful more
  have update : Update h entries cp.size es := ⟨dirty, holds⟩
  refine ⟨es, update, fun order permutes => ?_⟩
  exact runs order permutes (Between root es d) (fun _ between => between)
    (.refl (stocked.unshared (Nat.le_refl _) update))

theorem release_read (written : CheckpointFile d raw) (order : List TileEntry → List TileEntry) :
    release deps root h opens signs order ⟨d, []⟩ =
      (integrate deps (fsStorage root) h order (opens raw) >>= writeReturned signs) ⟨d, []⟩ := by
  unfold release
  dsimp only
  rw [written.readFile]

theorem release_nothing (written : CheckpointFile d raw) {order : List TileEntry → List TileEntry}
    (ran : integrate deps (fsStorage root) h order (opens raw) ⟨d, []⟩ = (.ok none, ⟨d, []⟩)) :
    release deps root h opens signs order ⟨d, []⟩ = (.ok none, ⟨d, []⟩) :=
  (release_read written order).trans (Eff.bind_of_ok ran)

/-- The new checkpoint is written last. Until then its temporary file is there or the tiles are being stored. -/
theorem release_writes (written : CheckpointFile d raw) {order : List TileEntry → List TileEntry}
    {new : Checkpoint} {w : LogWorld}
    (ran : integrate deps (fsStorage root) h order (opens raw) ⟨d, []⟩ = (.ok (some new), w))
    (free : w.disk.lookup .checkpointTmp = none) :
    ∃ final, release deps root h opens signs order ⟨d, []⟩ = (.ok (some new), final) ∧
      CheckpointFile final.disk (signs new) ∧ final.disk.lookup .checkpointTmp = none ∧
      Frame CheckpointName w.disk final.disk ∧
      ∀ c ∈ final.states, c = final.disk ∨ c ∈ w.states ∨
        c.lookup .checkpointTmp ≠ none ∧ Frame CheckpointName w.disk c ∧
          ∀ old, CheckpointFile w.disk old → CheckpointFile c old := by
  obtain ⟨final, wrote, data, names⟩ := writeCheckpoint_free free (signs new)
  have frame := writeCheckpoint_frame (signs new) w
  rw [wrote] at frame
  refine ⟨_, ?_, ⟨w.disk.next, ?_, ?_⟩, ?_, frame, fun c state => ?_⟩
  · rw [release_read written, Eff.bind_of_ok ran]
    exact Eff.bind_of_ok (Eff.wrap_eq_ok.mpr wrote)
  · rw [names, if_pos rfl]
  · rw [data]
    exact Function.update_self _ _ _
  · rw [names, if_neg (by simp), if_pos rfl]
  have opened : ∀ c : LogDisk, (∀ q, c.lookup q = (w.disk.create .checkpointTmp).lookup q) →
      (∀ i < w.disk.next, c.data i = w.disk.data i) → c.lookup .checkpointTmp ≠ none ∧
        Frame CheckpointName w.disk c ∧ ∀ old, CheckpointFile w.disk old → CheckpointFile c old := by
    intro c same kept
    have other : ∀ q, q ≠ .checkpointTmp → c.lookup q = w.disk.lookup q := fun q other => by
      rw [same, Disk.lookup_create, if_neg other]
    have tmp : c.lookup .checkpointTmp = some (.file w.disk.next) := by
      rw [same, Disk.lookup_create, if_pos rfl]
    refine ⟨by simp [tmp], frame_of_checkpoint (fun q foreign => other q fun tmp => foreign (.inr tmp))
      (fun q mine => ?_) kept, fun old ⟨i, found, content⟩ => ⟨i, ?_, ?_⟩⟩
    · rcases mine with rfl | rfl
      · exact .inl (other _ (by simp))
      · exact .inr (.inr tmp)
    · rw [other _ (by simp), found]
    · rw [kept i (w.disk.lookup_lt _ found), content]
  simp only [World.states, List.mem_cons] at state ⊢
  rcases state with rfl | rfl | rfl | older
  · exact .inl rfl
  · exact .inr (.inr (opened _ (fun _ => rfl) fun i old => writeCheckpoint_data w.disk _ old))
  · exact .inr (.inr (opened _ (fun _ => rfl) fun i old => Function.update_of_ne (Nat.ne_of_lt old) _ _))
  · exact .inr (.inl older)

/-- A run of Integrate and WriteCheckpoint that goes through, and the disks that it may be killed at. -/
structure Released (root : Root) (h : LogHasher) (signs : Checkpoint → Bytes) (entries : List Bytes) (n : Nat)
    (raw : Bytes) (es : List TileEntry) (d : LogDisk) (result : Outcome (Option Checkpoint) × LogWorld) : Prop where
  returned : result.1 = .ok (some ⟨"", entries.length, h.logRoot entries⟩)
  written : CheckpointFile result.2.disk (signs ⟨"", entries.length, h.logRoot entries⟩)
  clean : Clean root result.2.disk
  stored : ∃ f, Settled root es d f ∧ Frame CheckpointName f result.2.disk
  states : ∀ c ∈ result.2.states, c = result.2.disk ∨ Between root es d c ∨
    c.lookup .checkpointTmp ≠ none ∧ Stocked h entries n c ∧ CheckpointFile c raw

theorem Released.stocked {result : Outcome (Option Checkpoint) × LogWorld} (stocked : Stocked h entries n d)
    (leads : Leads root entries.length) (update : Update h entries n es)
    (released : Released root h signs entries n raw es d result) :
    Stocked h entries entries.length result.2.disk := by
  obtain ⟨f, settled, frame⟩ := released.stored
  exact (stocked.settled leads update settled).framed frame

theorem Stocked.releases (stocked : Stocked h entries (opens raw).size d) (written : CheckpointFile d raw)
    (leads : Leads root entries.length) (update : Update h entries (opens raw).size es) (clean : Clean root d)
    {order : List TileEntry → List TileEntry}
    (ends : IntegrateEnds root es ⟨"", entries.length, h.logRoot entries⟩ d (Between root es d)
      (integrate deps (fsStorage root) h order (opens raw) ⟨d, []⟩)) :
    Released root h signs entries (opens raw).size raw es d
      (release deps root h opens signs order ⟨d, []⟩) := by
  obtain ⟨always, ⟨returned, -, stored, between⟩ | ⟨-, x, member, blocked⟩⟩ := ends
  swap
  · exact absurd (clean.linkable leads update x member) blocked
  have frame := between.frame (stocked.unshared (Nat.le_refl _) update)
  have free : (integrate deps (fsStorage root) h order (opens raw) ⟨d, []⟩).2.disk.lookup .checkpointTmp = none := by
    rw [frame.names _ fun named => named rfl, clean.tmp]
  obtain ⟨final, done, file, gone, frame', states⟩ := release_writes written (Prod.ext returned rfl) free
  have settled : Settled root es d (integrate deps (fsStorage root) h order (opens raw) ⟨d, []⟩).2.disk :=
    ⟨stored, between⟩
  rw [done]
  refine ⟨rfl, file, ⟨gone, fun plain level index => ?_⟩, ⟨_, settled, frame'⟩, fun c state => ?_⟩
  · rw [frame'.names _ (by simp [CheckpointName]), settled.links clean plain]
  · rcases states c state with last | earlier | ⟨tmp, opened, old⟩
    · exact .inl last
    · exact .inr (.inl (always c earlier))
    · refine .inr (.inr ⟨tmp, (stocked.between (Nat.le_refl _) update
        (leads.spared update) between).framed opened, old raw ?_⟩)
      exact written.framed frame fun named => named rfl

theorem Stocked.release_fails (stocked : Stocked h entries (opens raw).size d) (written : CheckpointFile d raw)
    (update : Update h entries (opens raw).size es) {order : List TileEntry → List TileEntry}
    (ends : IntegrateEnds root es ⟨"", entries.length, h.logRoot entries⟩ d (Between root es d)
      (integrate deps (fsStorage root) h order (opens raw) ⟨d, []⟩))
    (blocked : d.lookup .checkpointTmp ≠ none ∨ ∃ x ∈ es, ¬ Linkable root x d) :
    ∃ reason, (release deps root h opens signs order ⟨d, []⟩).1 = .error reason := by
  rw [release_read written]
  rcases ran : integrate deps (fsStorage root) h order (opens raw) ⟨d, []⟩ with ⟨out, w⟩
  rw [ran] at ends
  obtain ⟨-, ⟨rfl, linkable, -, between⟩ | ⟨⟨reason, rfl⟩, -⟩⟩ := ends
  · rcases blocked with tmp | ⟨x, member, not⟩
    swap
    · exact absurd (linkable x member) not
    have frame := between.frame (stocked.unshared (Nat.le_refl _) update)
    obtain ⟨node, taken⟩ := Option.ne_none_iff_exists'.mp tmp
    obtain ⟨reason, failed⟩ := @writeCheckpoint_taken w (signs ⟨"", entries.length, h.logRoot entries⟩) node (by
      rw [frame.names _ fun named => named rfl, taken])
    have failed' : signAndWrite signs ⟨"", entries.length, h.logRoot entries⟩ w = (.error _, w) :=
      Eff.wrap_of_error failed
    refine ⟨.wrap "failed to store new log checkpoint: %w" reason, ?_⟩
    rw [Eff.bind_of_ok ran]
    exact congrArg Prod.fst (Eff.bind_of_error failed')
  · exact ⟨reason, congrArg Prod.fst (Eff.bind_of_error ran)⟩

end Releases

section Upkeep

variable (deps : Deps) (root : Root) (h : LogHasher) (opens : Bytes → Checkpoint) (signs : Checkpoint → Bytes)

-- What integrate makes of an empty directory when it is told to initialise it.
def initialised : LogDisk := (signAndWrite signs ⟨"", 0, h.emptyRoot⟩ ⟨.empty, []⟩).2.disk

/-- Links to full tiles lead to them, or no tile is full: the first one is full with 256 entries. -/
def LinksLead (d : LogDisk) : Prop :=
  root.glob ≠ .malformed ∧ (root.glob = .plain → root.absolute = true) ∨ d.lookup (.seq 255) = none

/-- A run that is killed leaves nothing behind that the next one fails on, and no link that leads astray. -/
structure Retryable (d c : LogDisk) : Prop where
  leads : LinksLead root d
  clean : Clean root c

/-- How a log directory is used. Processes sequence entries side by side and are killed, and a run of Integrate
and WriteCheckpoint goes through or is killed where it leaves nothing that the next one fails on. -/
inductive UpkeepStep : LogDisk → LogDisk → Prop
  | sequence (d : LogDisk) (events : List SequenceEvent) :
      UpkeepStep d (events.foldl (SequenceSystem.step h) (sequencing d)).disk
  | release (d : LogDisk) (order : List TileEntry → List TileEntry) (permutes : ∀ es, (order es).Perm es)
      (c : LogDisk) (killed : c ∈ (release deps root h opens signs order ⟨d, []⟩).2.states)
      (retryable : Retryable root d c) : UpkeepStep d c

def Maintained (d : LogDisk) : Prop :=
  ∃ entries raw, Stocked h entries (opens raw).size d ∧ CheckpointFile d raw ∧ Clean root d

end Upkeep

section Runs

variable {deps : Deps} {root : Root} {h : LogHasher} {opens : Bytes → Checkpoint} {signs : Checkpoint → Bytes}
  {entries : List Bytes} {n : Nat} {d d' : LogDisk}

theorem LinksLead.leads (leads : LinksLead root d) (stocked : Stocked h entries n d) : Leads root entries.length := by
  refine leads.imp_right fun missing => ?_
  by_contra enough
  obtain ⟨x, ⟨i, found, -⟩, -⟩ := stocked.directory.seqs 255 (by omega)
  rw [missing] at found
  cases found

theorem Stocked.empty (h : LogHasher) : Stocked h [] 0 .empty where
  directory := (LogOk.initial (h := h)).directory
  sequenced := (LogOk.initial (h := h)).entries
  tiles := (LogOk.initial (h := h)).tiles
  order := Nat.le_refl _
  present := (LogOk.initial (h := h)).present
  temps _ _ _ _ _ := .inl rfl

theorem initialised_maintained (signed : ∀ cp, (opens (signs cp)).size = cp.size) :
    Maintained root h opens (initialised h signs) := by
  obtain ⟨final, ran, data, names⟩ := @writeCheckpoint_free ⟨.empty, []⟩ (Disk.lookup_empty _)
    (signs ⟨"", 0, h.emptyRoot⟩)
  have done : signAndWrite signs ⟨"", 0, h.emptyRoot⟩ ⟨.empty, []⟩ = _ := Eff.wrap_eq_ok.mpr ran
  have frame := writeCheckpoint_frame (signs ⟨"", 0, h.emptyRoot⟩) (⟨.empty, []⟩ : LogWorld)
  rw [ran] at frame
  unfold initialised
  rw [done]
  refine ⟨[], signs ⟨"", 0, h.emptyRoot⟩, ?_, ?_⟩
  · rw [signed]
    exact (Stocked.empty h).framed frame
  refine ⟨⟨(Disk.empty : LogDisk).next, ?_, ?_⟩, ?_, fun _ level index => ?_⟩
  · rw [names, if_pos rfl]
  · simp [data, Disk.write]
  · rw [names, if_neg (by simp), if_pos rfl]
  · rw [names, if_neg (by simp), if_neg (by simp)]
    exact Disk.lookup_empty _

theorem UpkeepStep.maintained (lawful : Compact.Lawful deps.compact)
    (signed : ∀ cp, (opens (signs cp)).size = cp.size) (step : UpkeepStep deps root h opens signs d d')
    (before : Maintained root h opens d) : Maintained root h opens d' := by
  obtain ⟨entries, raw, stocked, written, clean⟩ := before
  cases step with
  | sequence events =>
    have frame := stocked.directory.safe.run_frame events
    obtain ⟨more, after⟩ := stocked.sequence events
    exact ⟨_, raw, after, written.framed frame fun named => named.2 (.inl rfl),
      clean.framed frame fun p mine => ⟨mine.2, mine.1⟩⟩
  | release order permutes c killed retryable =>
    have leads := retryable.leads.leads stocked
    have clean' := retryable.clean
    rcases Nat.lt_or_ge (opens raw).size entries.length with more | all
    swap
    · rw [release_nothing written (stocked.ready.nothing lawful all order)] at killed
      obtain rfl := List.mem_singleton.mp killed
      exact ⟨entries, raw, stocked, written, clean⟩
    obtain ⟨es, update, runs⟩ := stocked.integrates lawful more
    have released : Released root h signs entries _ raw es d _ :=
      stocked.releases written leads update clean (runs order permutes)
    rcases released.states d' killed with rfl | between | ⟨tmp, -⟩
    · refine ⟨entries, _, ?_, released.written, released.clean⟩
      rw [signed]
      exact released.stocked stocked leads update
    · exact ⟨entries, raw, stocked.between (Nat.le_refl _) update (leads.spared update) between,
        written.framed (between.frame (stocked.unshared (Nat.le_refl _) update)) fun named => named rfl, clean'⟩
    · exact absurd clean'.tmp tmp

theorem upkeep_maintained (lawful : Compact.Lawful deps.compact)
    (signed : ∀ cp, (opens (signs cp)).size = cp.size)
    (reached : Relation.ReflTransGen (UpkeepStep deps root h opens signs) (initialised h signs) d) :
    Maintained root h opens d := by
  induction reached with
  | refl => exact initialised_maintained signed
  | tail _ step ih => exact step.maintained lawful signed ih

/-- The checkpoint and everything that can be read from tiles are the same. -/
def SameLog (d d' : LogDisk) : Prop :=
  d'.readFile .checkpoint = d.readFile .checkpoint ∧
    ∀ level index size, d'.readFile (.tile level index size) = d.readFile (.tile level index size)

theorem SameLog.refl (d : LogDisk) : SameLog d d := ⟨rfl, fun _ _ _ => rfl⟩

/-- The run after one that was killed at `c` comes to where that one would have come. -/
def Retried (deps : Deps) (root : Root) (h : LogHasher) (opens : Bytes → Checkpoint) (signs : Checkpoint → Bytes)
    (uninterrupted : Outcome (Option Checkpoint) × LogWorld) (order : List TileEntry → List TileEntry) (c : LogDisk) :
    Prop :=
  (∃ result, (release deps root h opens signs order ⟨c, []⟩).1 = .ok result) ∧
    SameLog uninterrupted.2.disk (release deps root h opens signs order ⟨c, []⟩).2.disk

theorem not_retried_of_error {uninterrupted : Outcome (Option Checkpoint) × LogWorld}
    {order : List TileEntry → List TileEntry} {c : LogDisk}
    (failed : ∃ reason, (release deps root h opens signs order ⟨c, []⟩).1 = .error reason) :
    ¬ Retried deps root h opens signs uninterrupted order c := by
  obtain ⟨reason, failed⟩ := failed
  rintro ⟨⟨result, done⟩, -⟩
  rw [failed] at done
  cases done

variable {es es' : List TileEntry} {raw : Bytes} {c : LogDisk}

theorem Released.same {result result' : Outcome (Option Checkpoint) × LogWorld} (stocked : Stocked h entries n d)
    (leads : Leads root entries.length) (update : Update h entries n es) (update' : Update h entries n es')
    (between : Between root es d c) (released : Released root h signs entries n raw es d result)
    (released' : Released root h signs entries n raw es' c result') : SameLog result.2.disk result'.2.disk := by
  have after := released.stocked stocked leads update
  have after' := released'.stocked (stocked.between (Nat.le_refl _) update
    (leads.spared update) between) leads update'
  refine ⟨by rw [released.written.readFile, released'.written.readFile], fun level index size => ?_⟩
  obtain ⟨f, settled, frame⟩ := released.stored
  obtain ⟨f', settled', frame'⟩ := released'.stored
  refine after.tiles.reads_same after'.tiles ?_
  have tile : ¬ CheckpointName (.tile level index size) := by simp [CheckpointName]
  rw [frame.names _ tile, frame'.names _ tile]
  exact settled.alike between settled' update.dirty update'.dirty level index size

/-- A link that a killed run has left stands in the way of the same tile. -/
theorem Between.blocked (between : Between root es d c) (clean : Clean root d) (plain : root.glob = .plain)
    (update : Update h entries n es) (update' : Update h entries n es') {level index : Nat}
    (left : c.lookup (.tileLink level index) ≠ none) : ∃ x ∈ es', ¬ Linkable root x c := by
  have before := clean.links plain level index
  have stored : ∃ x ∈ es, tileKeyOf (.tileLink level index) = some x.1 := by
    by_contra foreign
    push Not at foreign
    rw [between.outside _ foreign, before] at left
    exact left rfl
  obtain ⟨x, member, key⟩ := stored
  obtain ⟨rfl, rfl⟩ : level = x.1.1 ∧ index = x.1.2 := Prod.mk.inj (Option.some.inj key)
  have full : x.2.numLeaves = 256 := by
    rcases (between.own x member).others (.tileLink x.1.1 x.1.2) rfl (fun same => by cases same)
      (fun same => by cases same) with kept | ⟨⟨full, -⟩ | ⟨-, full⟩, -⟩
    · rw [kept, before] at left
      exact absurd rfl left
    · exact full
    · exact full
  obtain ⟨x', member', same⟩ := update'.dirty.all x.1 (update.dirty.more x member)
  refine ⟨x', member', fun linkable => left ?_⟩
  have full' : x'.2.numLeaves = 256 := by
    rw [update'.dirty.numLeaves x' member', same, ← update.dirty.numLeaves x member, full]
  have free := (linkable full').2 plain
  rwa [linkPath, same] at free

-- Where links lead to their tiles, only what is left of a checkpoint or of a link stands in the way.
theorem retried_iff_clean (lawful : Compact.Lawful deps.compact) (signed : ∀ cp, (opens (signs cp)).size = cp.size)
    (reached : Relation.ReflTransGen (UpkeepStep deps root h opens signs) (initialised h signs) d)
    (leads : LinksLead root d) {order order' : List TileEntry → List TileEntry}
    (permutes : ∀ es, (order es).Perm es) (permutes' : ∀ es, (order' es).Perm es) :
    (∃ result, (release deps root h opens signs order ⟨d, []⟩).1 = .ok result) ∧
    ∀ c ∈ (release deps root h opens signs order ⟨d, []⟩).2.states,
      (Retried deps root h opens signs (release deps root h opens signs order ⟨d, []⟩) order' c ↔ Clean root c) := by
  obtain ⟨entries, raw, stocked, written, clean⟩ := upkeep_maintained lawful signed reached
  have leads := leads.leads stocked
  rcases Nat.lt_or_ge (opens raw).size entries.length with more | all
  swap
  · have nothing : ∀ order, release deps root h opens signs order ⟨d, []⟩ = (.ok none, ⟨d, []⟩) := fun order =>
      release_nothing written (stocked.ready.nothing lawful all order)
    rw [nothing order]
    refine ⟨⟨_, rfl⟩, fun c state => ?_⟩
    obtain rfl := List.mem_singleton.mp state
    unfold Retried
    rw [nothing order']
    exact ⟨fun _ => clean, fun _ => ⟨⟨_, rfl⟩, .refl _⟩⟩
  obtain ⟨es, update, runs⟩ := stocked.integrates lawful more
  have released : Released root h signs entries _ raw es d (release deps root h opens signs order ⟨d, []⟩) :=
    stocked.releases written leads update clean (runs order permutes)
  refine ⟨⟨_, released.returned⟩, fun c state => ?_⟩
  rcases released.states c state with rfl | between | ⟨tmp, stocked', written'⟩
  · -- The new checkpoint is in its place, and there is nothing left to integrate.
    have after := released.stocked stocked leads update
    have size : (opens (signs ⟨"", entries.length, h.logRoot entries⟩)).size = entries.length := signed _
    rw [← size] at after
    have nothing := @release_nothing deps root h opens signs _ _ released.written order'
      (after.ready.nothing lawful (by rw [size]) order')
    unfold Retried
    rw [nothing]
    exact ⟨fun _ => released.clean, fun _ => ⟨⟨_, rfl⟩, .refl _⟩⟩
  · have stocked' := stocked.between (Nat.le_refl _) update (leads.spared update) between
    have frame := between.frame (stocked.unshared (Nat.le_refl _) update)
    have written' : CheckpointFile c raw := written.framed frame fun named => named rfl
    obtain ⟨es', update', runs'⟩ := stocked'.integrates lawful more
    refine ⟨fun retried => ?_, fun clean' => ?_⟩
    · refine ⟨by rw [frame.names _ fun named => named rfl, clean.tmp], fun plain level index => ?_⟩
      by_contra left
      refine not_retried_of_error ?_ retried
      exact stocked'.release_fails written' update' (runs' order' permutes')
        (.inr (between.blocked clean plain update update' left))
    · have released' : Released root h signs entries _ raw es' c _ :=
        stocked'.releases written' leads update' clean' (runs' order' permutes')
      exact ⟨⟨_, released'.returned⟩, released.same stocked leads update update' between released'⟩
  · refine ⟨fun retried => ?_, fun clean' => absurd clean'.tmp tmp⟩
    obtain ⟨es', update', runs'⟩ := stocked'.integrates lawful more
    refine absurd retried (not_retried_of_error ?_)
    exact stocked'.release_fails written' update' (runs' order' permutes') (.inl tmp)

end Runs

/-- In every use of a log directory, a run of Integrate and WriteCheckpoint goes through. Wherever it is killed,
the next run comes to the same checkpoint and the same tiles if links lead to their tiles and neither the temporary
file of the checkpoint nor a temporary link is left, and where links do, only then. -/
theorem release_retried_iff (deps : Deps) (lawful : Compact.Lawful deps.compact) (root : Root) (h : LogHasher)
    (opens : Bytes → Checkpoint) (signs : Checkpoint → Bytes) (signed : ∀ cp, (opens (signs cp)).size = cp.size)
    (d : LogDisk) (reached : Relation.ReflTransGen (UpkeepStep deps root h opens signs) (initialised h signs) d)
    (order order' : List TileEntry → List TileEntry) (permutes : ∀ es, (order es).Perm es)
    (permutes' : ∀ es, (order' es).Perm es) :
    (LinksLead root d → ∃ result, (release deps root h opens signs order ⟨d, []⟩).1 = .ok result) ∧
    ∀ c ∈ (release deps root h opens signs order ⟨d, []⟩).2.states,
      (Retryable root d c →
        Retried deps root h opens signs (release deps root h opens signs order ⟨d, []⟩) order' c) ∧
      (LinksLead root d →
        Retried deps root h opens signs (release deps root h opens signs order ⟨d, []⟩) order' c →
        Retryable root d c) := by
  have runs := fun leads => retried_iff_clean lawful signed reached leads permutes permutes'
  exact ⟨fun leads => (runs leads).1, fun c state =>
    ⟨fun retryable => ((runs retryable.leads).2 c state).mpr retryable.clean,
      fun leads retried => ⟨leads, ((runs leads).2 c state).mp retried⟩⟩⟩

section OneEntry

-- A note of the size alone.
def sizeNote (cp : Checkpoint) : Bytes := formatUint 10 cp.size

def openSize (raw : Bytes) : Checkpoint := ⟨"", (raw.foldl (accumulate 10) (some 0)).getD 0, []⟩

theorem openSize_sizeNote (cp : Checkpoint) : (openSize (sizeNote cp)).size = cp.size := by
  have back := @accumulate_formatUint 10 (by decide) (by decide) cp.size
  simp only [openSize, sizeNote, back, Option.getD_some]

def oneEntry : LogDisk :=
  ((.load 0 0 :: submit [1]).foldl (SequenceSystem.step LogHasher.padded)
    (sequencing (initialised LogHasher.padded sizeNote))).disk

def releaseOne (d : LogDisk) : Outcome (Option Checkpoint) × LogWorld :=
  release referenceDeps ⟨true, .plain⟩ LogHasher.padded openSize sizeNote id ⟨d, []⟩

theorem oneEntry_reached : Relation.ReflTransGen
    (UpkeepStep referenceDeps ⟨true, .plain⟩ LogHasher.padded openSize sizeNote)
    (initialised LogHasher.padded sizeNote) oneEntry :=
  .single (.sequence _ _)

-- The disks of the run, from the last to the first.
theorem releaseOne_states : (releaseOne oneEntry).2.states.length = 7 := by decide +kernel

def killedAt (k : Fin 7) : LogDisk := (releaseOne oneEntry).2.states.get (k.cast releaseOne_states.symm)

def isLink : Path → Bool
  | .tileLink _ _ => true
  | _ => false

theorem no_links {d : LogDisk} (without : d.names.keys.any isLink = false) (level index : Nat) :
    d.lookup (.tileLink level index) = none := by
  refine AList.lookup_eq_none.mpr fun member => ?_
  exact List.any_eq_false.mp without _ member rfl

theorem release_retried_iff_one :
    (∃ result, (releaseOne oneEntry).1 = .ok result) ∧
      Retried referenceDeps ⟨true, .plain⟩ LogHasher.padded openSize sizeNote (releaseOne oneEntry) id
        (killedAt 5) := by
  obtain ⟨done, retried⟩ := release_retried_iff referenceDeps Compact.reference_lawful ⟨true, .plain⟩
    LogHasher.padded openSize sizeNote openSize_sizeNote oneEntry oneEntry_reached id id (fun _ => .refl _)
    fun _ => .refl _
  have leads : LinksLead ⟨true, .plain⟩ oneEntry := .inl ⟨by decide, fun _ => rfl⟩
  exact ⟨done leads, (retried _ (List.get_mem _ _)).1
    ⟨leads, by decide +kernel, fun _ => no_links (by decide +kernel)⟩⟩

/-- Once the temporary file of the checkpoint is left, no run goes through any more. -/
theorem release_stuck :
    Relation.ReflTransGen (UpkeepStep referenceDeps ⟨true, .plain⟩ LogHasher.padded openSize sizeNote)
        (initialised LogHasher.padded sizeNote) oneEntry ∧
      killedAt 1 ∈ (releaseOne oneEntry).2.states ∧
      (∃ cp, (releaseOne oneEntry).1 = .ok (some cp)) ∧
      ¬ Retried referenceDeps ⟨true, .plain⟩ LogHasher.padded openSize sizeNote (releaseOne oneEntry) id
        (killedAt 1) := by
  refine ⟨oneEntry_reached, List.get_mem _ _, ⟨⟨"", 1, hashOne⟩, by decide +kernel⟩, not_retried_of_error ⟨?_, ?_⟩⟩
  · exact .wrap "failed to store new log checkpoint: %w" (.wrap "failed to create temporary checkpoint file: %w"
      (.wrap "unable to create temporary file: %w" .exist))
  · decide +kernel

end OneEntry

end Serverless
