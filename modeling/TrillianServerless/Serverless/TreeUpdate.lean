import TrillianServerless.Serverless.StateCheck
import TrillianServerless.Serverless.TileFill
import TrillianServerless.Serverless.StoreTile

set_option autoImplicit false

namespace Serverless

open Go Merkle Checkpoints FileSystem

section Run

variable {W : Type} {deps : Deps} {st : Storage W} {h : LogHasher} {cp : Checkpoint} {w : W}

theorem logNode_extends (h : LogHasher) (entries more : List Bytes) :
    Extends h (h.logNode (entries ++ more)) entries.length more where
  leaves i bound := by
    have leaf : h.logNode (entries ++ more) ⟨0, entries.length + i⟩ =
        h.leafOf (entries ++ more) (entries.length + i) := rfl
    simp [leaf, LogHasher.leafOf, bound]
  parents l i _ := nodeHash_parent h.hashChildren (h.leafOf (entries ++ more)) l i

theorem logNode_extends_drop (h : LogHasher) {entries : List Bytes} {n : Nat} (order : n ≤ entries.length) :
    Extends h (h.logNode entries) n (entries.drop n) := by
  have extends' := logNode_extends h (entries.take n) (entries.drop n)
  rwa [List.take_append_drop, List.length_take_of_le order] at extends'

-- The tiles that Integrate stores for the visited nodes.
structure DirtyTiles (base : TileKey → Tile) (visits : List Compact.Visit) (m : TileMap) : Prop where
  lookup : ∀ key, m.lookup key =
    if visitsOf visits key = [] then none else some ((base key).fill (visitsOf visits key))

theorem DirtyTiles.mem {base : TileKey → Tile} {visits : List Compact.Visit} {m : TileMap}
    (dirty : DirtyTiles base visits m) {e : TileEntry} (member : e ∈ m.entries) :
    visitsOf visits e.1 ≠ [] ∧ e.2 = (base e.1).fill (visitsOf visits e.1) := by
  have found : m.lookup e.1 = some e.2 := AList.mem_lookup_iff.mpr member
  rw [dirty.lookup] at found
  split at found
  · cases found
  next some' => exact ⟨some', (Option.some.inj found).symm⟩

theorem DirtyTiles.find {base : TileKey → Tile} {visits : List Compact.Visit} {m : TileMap}
    (dirty : DirtyTiles base visits m) {key : TileKey} (some' : visitsOf visits key ≠ []) :
    ⟨key, (base key).fill (visitsOf visits key)⟩ ∈ m.entries := by
  apply AList.mem_lookup_iff.mp
  rw [dirty.lookup, if_neg some']
  rfl

theorem scanEntries_run {entries : List Bytes} {m : TileMap}
    (scan : st.scanSequenced cp.size w = ((entries, none), w))
    (visited : visitAll (fun l i => st.getTile l i cp.size) ∅
      (appendedRange deps h (deps.compact.newEmptyRange cp.size) entries).2 w = (.ok m, w)) :
    scanEntries deps st h cp w =
      (.ok ((appendedRange deps h (deps.compact.newEmptyRange cp.size) entries).1, m,
        entries.length), w) := by
  simp only [scanEntries, scan, appendEntries_eq]
  rw [Eff.bind_assoc, Eff.bind_of_ok visited]
  rfl

variable (st) in
/-- Over correct tiles Integrate comes to storing the tiles that the new nodes fall into. -/
theorem integrate_dirty (base : TileKey → Tile) (lawful : Compact.Lawful deps.compact)
    {v : NodeID → Bytes} {entries : List Bytes}
    (correct : TilesCorrect (fun l i => st.getTile l i cp.size) w cp.size v)
    (scan : st.scanSequenced cp.size w = ((entries, none), w))
    (extends' : Extends h v cp.size entries)
    (reads : ∀ key, tileCount key cp.size < tileCount key (cp.size + entries.length) →
      ReadsAs (fun l i => st.getTile l i cp.size) w key (base key)) :
    ∃ visits m, Visited visits (Gained cp.size (cp.size + entries.length)) v ∧
      DirtyTiles base visits m ∧ ∀ order, integrate deps st h order cp w =
        if entries.length = 0 then (.ok none, w)
        else (do
          storeTiles st (order m.entries)
          return some ⟨"", cp.size + entries.length, rangeRoot h.hashChildren []
            ((cover 0 (cp.size + entries.length)).map v)⟩ : Eff W (Option Checkpoint)) w := by
  have stored : storedRange deps st cp w = (.ok ((cover 0 cp.size).map v), w) :=
    fetchRangeNodes_correct lawful correct
  obtain ⟨err, range, visited⟩ := merge_correct lawful extends'
  have reads' : ∀ node ∈ allVisits deps h ⟨0, cp.size, (cover 0 cp.size).map v⟩ entries,
      ReadsAs (fun l i => st.getTile l i cp.size) w (tileOf node.1) (base (tileOf node.1)) := by
    intro node member
    obtain ⟨_, _, more, inside⟩ := visitsOf_gained visited (mem_visitsOf.mpr ⟨member, rfl⟩)
    exact reads _ (by omega)
  obtain ⟨m, ran, lookups⟩ := visitAll_run base ∅ reads'
  refine ⟨_, m, visited, ⟨fun key => by rw [lookups key]; simp⟩, fun order => ?_⟩
  rw [allVisits, visitAll_append] at ran
  obtain ⟨m1, w1, first, second⟩ := Eff.bind_eq_ok.mp ran
  have readOnly : w1 = w := by
    obtain ⟨m2, again, _⟩ := visitAll_run base ∅ fun node member => reads' node (by
      rw [allVisits]
      exact List.mem_append_left _ member)
    rw [first] at again
    exact (Prod.mk.inj again).2
  subst readOnly
  have scanned := scanEntries_run (h := h) scan first
  rw [integrate_run st.storeTile (loadBase_ok lawful stored) scanned, mergeScanned]
  by_cases none : entries.length = 0
  · rw [if_pos none, if_pos none]
    rfl
  · rw [if_neg none, if_neg none, Eff.bind_of_ok second,
      publish_run err (by rw [range, lawful.getRootHash _ _ rfl]), range]

end Run

section Dirty

variable {v : NodeID → Bytes} {n e : Nat}

/-- The tiles to be stored are those that gain a node, with all nodes that they have in the new log. -/
structure Dirty (v : NodeID → Bytes) (n e : Nat) (es : List TileEntry) : Prop where
  distinct : DistinctKeys es
  more : ∀ x ∈ es, tileCount x.1 n < tileCount x.1 e
  numLeaves : ∀ x ∈ es, x.2.numLeaves = tileCount x.1 e
  hasNodes : ∀ x ∈ es, x.2.HasNodes v x.1 (tileCount x.1 e)
  ends : ∀ x ∈ es, x.2.EndsFilled
  all : ∀ key, tileCount key n < tileCount key e → ∃ x ∈ es, x.1 = key

theorem DirtyTiles.dirty {base : TileKey → Tile} {visits : List Compact.Visit} {m : TileMap}
    (dirty : DirtyTiles base visits m) (visited : Visited visits (Gained n e) v)
    (filled : ∀ id, v id ≠ []) (has : ∀ key, tileCount key n < tileCount key e →
      (base key).HasNodes v key (tileCount key n) ∧ (base key).numLeaves ≤ tileCount key e ∧
        (base key).EndsFilled) : Dirty v n e m.entries := by
  have grows : ∀ x ∈ m.entries, tileCount x.1 n < tileCount x.1 e := fun x member =>
    (visitsOf_some visited).mp (dirty.mem member).1
  refine ⟨m.nodupKeys, grows, fun x member => ?_, fun x member => ?_, fun x member => ?_,
    fun key more => ⟨_, dirty.find ((visitsOf_some visited).mpr more), rfl⟩⟩
  · rw [(dirty.mem member).2]
    exact fill_count visited (grows x member) (has _ (grows x member)).2.1
  · rw [(dirty.mem member).2]
    exact fill_hasNodes visited (has _ (grows x member)).1
  · rw [(dirty.mem member).2]
    refine Tile.fill_endsFilled (has _ (grows x member)).2.2 fun node inside => ?_
    rw [(visitsOf_gained visited inside).2.1]
    exact filled _

theorem Dirty.sizes {es : List TileEntry} (dirty : Dirty v n e es) {x : TileEntry} (member : x ∈ es) :
    0 < x.2.numLeaves ∧ x.2.numLeaves ≤ 256 := by
  have more := dirty.more x member
  rw [dirty.numLeaves x member]
  exact ⟨by omega, tileCount_le x.1 e⟩

end Dirty

section Files

variable {deps : Deps} {h : LogHasher} {root : Root} {cp : Checkpoint} {w : LogWorld}
  {v : NodeID → Bytes} {n e : Nat}

theorem getTile_ok {level index : Nat} {w' : LogWorld} {t : Tile}
    (read : getTile level index n w = (.ok t, w')) :
    ∃ raw, w.disk.readFile (.tile level index (partialTileSize level index n)) = some raw ∧
      Tile.unmarshalText raw = .ok t := by
  unfold getTile at read
  split at read
  · cases read
  next raw found =>
    exact ⟨raw, found, Outcome.wrap_eq_ok.mp (Prod.mk.inj read).1⟩

theorem getTile_of_read {level index : Nat} {raw : Bytes} {t : Tile}
    (found : w.disk.readFile (.tile level index (partialTileSize level index n)) = some raw)
    (parsed : Tile.unmarshalText raw = .ok t) : getTile level index n w = (.ok t, w) := by
  simp [getTile, found, parsed]

theorem ReadsAs.endsFilled {key : TileKey} {t : Tile}
    (reads : ReadsAs (fun l i => getTile l i n) w key t) : t.EndsFilled := by
  rcases reads with read | ⟨_, rfl⟩
  · obtain ⟨raw, _, parsed⟩ := getTile_ok read
    exact Tile.unmarshalText_endsFilled parsed
  · exact Tile.fresh_endsFilled

/-- The nodes of the tiles that Integrate starts from are those that it reads. -/
theorem tilesCorrect_of_base {W : Type} {getTile : GetTileFunc W} {w : W}
    (base : ∀ key, ∃ (t : Tile) (count : Nat),
      ReadsAs getTile w key t ∧ t.Holds v key count ∧ tileCount key n ≤ count) :
    TilesCorrect getTile w n v := by
  intro id complete
  have inside := (stop_le_iff id n).mp complete
  obtain ⟨t, count, reads, holds, lower⟩ := base (tileOf id)
  have slot := holds.hasNodes id rfl (by omega)
  rcases reads with read | ⟨_, rfl⟩
  · exact ⟨t, read, slot⟩
  · simp [Tile.fresh] at slot

theorem ReadsAs.hasNodes {W : Type} {getTile : GetTileFunc W} {w : W} {key : TileKey} {t : Tile}
    (reads : ReadsAs getTile w key t) (correct : TilesCorrect getTile w n v) :
    t.HasNodes v key (tileCount key n) := by
  intro id tile inside
  obtain ⟨other, read, slot⟩ := correct id ((stop_le_iff id n).mpr (by rw [tile]; exact inside))
  rw [tile] at read
  rcases reads with same | ⟨missing, _⟩
  · rw [same] at read
    rw [show t = other by simpa using read, slot]
  · rw [missing] at read
    simp at read

/-- The entries of the log after `first`, as they are sequenced. -/
structure Sequenced (d : LogDisk) (first : Nat) (entries : List Bytes) : Prop where
  present : ∀ k (bound : k < entries.length), d.readFile (.seq (first + k)) = some entries[k]
  ends : d.readFile (.seq (first + entries.length)) = none

/-- Every tile that gains a node is absent or holds no more leaves than it gets. -/
def Extendable (w : LogWorld) (n e : Nat) : Prop :=
  ∀ key, tileCount key n < tileCount key e → ∃ tile,
    ReadsAs (fun l i => getTile l i n) w key tile ∧ tile.numLeaves ≤ tileCount key e

-- How Integrate ends when there are entries to integrate, and that it can be killed only between.
structure IntegrateEnds (root : Root) (es : List TileEntry) (new : Checkpoint) (d : LogDisk)
    (Inv : LogDisk → Prop) (result : Outcome (Option Checkpoint) × LogWorld) : Prop where
  always : result.2.Always Inv
  ends : (result.1 = .ok (some new) ∧ (∀ x ∈ es, Linkable root x d) ∧
      (∀ x ∈ es, Stored root x d result.2.disk) ∧ Between root es d result.2.disk) ∨
    (∃ reason, result.1 = .error reason) ∧ ∃ x ∈ es, ¬ Linkable root x d

theorem publish_ends {es : List TileEntry} (dirty : Dirty v n e es)
    (unshared : ∀ x ∈ es, w.disk.Unshared (tempPath x)) {order : List TileEntry → List TileEntry}
    (permutes : (order es).Perm es) (new : Checkpoint) {Inv : LogDisk → Prop}
    (kept : ∀ s, Between root es w.disk s → Inv s) (always : w.Always Inv) :
    IntegrateEnds root es new w.disk Inv ((do
      storeTiles (fsStorage root) (order es)
      return some new : Eff LogWorld (Option Checkpoint)) w) := by
  have distinct : DistinctKeys (order es) := (permutes.map Sigma.fst).nodup_iff.mpr dirty.distinct
  have free : ∀ x ∈ order es, w.disk.Unshared (tempPath x) := fun x member =>
    unshared x (permutes.subset member)
  have all : order es ++ [] = order es := List.append_nil _
  have stores := storeTiles_run (d := w.disk) root (order es) []
    (by rwa [all]) (fun x member => dirty.sizes (permutes.subset member)) (by rwa [all])
    (Between.refl (by simp)) (by simp)
    (fun s between => kept s ((all ▸ between).mono permutes.subset dirty.distinct unshared)) always
  rw [all] at stores
  rcases ran : storeTiles (fsStorage root) (order es) w with ⟨out, w'⟩
  rw [ran] at stores
  rcases stores.ends with ⟨ok, links, stored, between⟩ | ⟨⟨reason, failed⟩, x, member, blocked⟩
  · obtain rfl : out = .ok () := ok
    rw [Eff.bind_of_ok ran]
    exact ⟨stores.always, Or.inl ⟨rfl, fun x member => links x (permutes.symm.subset member),
      fun x member => stored x (permutes.symm.subset member),
      between.mono permutes.subset dirty.distinct unshared⟩⟩
  · obtain rfl : out = .error reason := failed
    rw [Eff.bind_of_error ran]
    exact ⟨stores.always, Or.inr ⟨⟨reason, rfl⟩, x, permutes.subset member, blocked⟩⟩

theorem integrate_nothing (lawful : Compact.Lawful deps.compact)
    (correct : TilesCorrect (fun l i => getTile l i cp.size) w cp.size v)
    (sequenced : Sequenced w.disk cp.size []) (order : List TileEntry → List TileEntry) :
    integrate deps (fsStorage root) h order cp w = (.ok none, w) := by
  have nothing : Extends h v cp.size [] := ⟨by simp, fun l i gained => by
    have := gained.1
    have := gained.2
    simp at this
    omega⟩
  obtain ⟨_, m, _, _, runs⟩ := integrate_dirty (fsStorage root)
    (fun _ => Tile.fresh) lawful correct
    (scanSequenced_eq sequenced.present sequenced.ends) nothing (by simp)
  rw [runs order]
  rfl

variable (root) in
/-- Integrate stores the dirty tiles, each made of the tile that was read for it, and returns the
checkpoint of the new log, unless a tile cannot be linked. -/
theorem integrate_ends_from (base : TileKey → Tile) (lawful : Compact.Lawful deps.compact)
    {entries : List Bytes} (correct : TilesCorrect (fun l i => getTile l i cp.size) w cp.size v)
    (sequenced : Sequenced w.disk cp.size entries) (some' : entries ≠ [])
    (extends' : Extends h v cp.size entries) (filled : ∀ id, v id ≠ [])
    (reads : ∀ key, tileCount key cp.size < tileCount key (cp.size + entries.length) →
      ReadsAs (fun l i => getTile l i cp.size) w key (base key) ∧
        (base key).numLeaves ≤ tileCount key (cp.size + entries.length))
    (temps : ∀ key, tileCount key cp.size < tileCount key (cp.size + entries.length) →
      w.disk.Unshared (.tileTemp key.1 key.2 (tileCount key (cp.size + entries.length) % 256))) :
    ∃ es, Dirty v cp.size (cp.size + entries.length) es ∧
      (∀ x ∈ es, ∀ count, tileCount x.1 cp.size ≤ count →
        count ≤ tileCount x.1 (cp.size + entries.length) → (base x.1).Holds v x.1 count →
        x.2.Holds v x.1 (tileCount x.1 (cp.size + entries.length))) ∧
      ∀ order : List TileEntry → List TileEntry, (∀ es, (order es).Perm es) →
      ∀ Inv : LogDisk → Prop, (∀ s, Between root es w.disk s → Inv s) → w.Always Inv →
        IntegrateEnds root es ⟨"", cp.size + entries.length, rangeRoot h.hashChildren []
          ((cover 0 (cp.size + entries.length)).map v)⟩ w.disk Inv
          (integrate deps (fsStorage root) h order cp w) := by
  obtain ⟨visits, m, visited, found, runs⟩ := integrate_dirty (fsStorage root) base
    lawful correct (scanSequenced_eq sequenced.present sequenced.ends) extends'
    fun key more => (reads key more).1
  have dirty := found.dirty visited filled fun key more =>
    ⟨(reads key more).1.hasNodes correct, (reads key more).2, (reads key more).1.endsFilled⟩
  refine ⟨m.entries, dirty, fun x member count lower upper holds => ?_,
    fun order permutes Inv kept always => ?_⟩
  · rw [(found.mem member).2]
    exact fill_holds visited (dirty.more x member) lower upper holds
  · rw [runs order, if_neg (by simpa using some')]
    refine publish_ends dirty (fun x member => ?_) (permutes _) _ kept always
    rw [tempPath, dirty.numLeaves x member]
    exact temps x.1 (dirty.more x member)

variable (root) in
theorem integrate_ends (lawful : Compact.Lawful deps.compact) {entries : List Bytes}
    (correct : TilesCorrect (fun l i => getTile l i cp.size) w cp.size v)
    (sequenced : Sequenced w.disk cp.size entries) (some' : entries ≠ [])
    (extends' : Extends h v cp.size entries) (filled : ∀ id, v id ≠ [])
    (extendable : Extendable w cp.size (cp.size + entries.length))
    (temps : ∀ key, tileCount key cp.size < tileCount key (cp.size + entries.length) →
      w.disk.Unshared (.tileTemp key.1 key.2 (tileCount key (cp.size + entries.length) % 256))) :
    ∃ es, Dirty v cp.size (cp.size + entries.length) es ∧
      ∀ order : List TileEntry → List TileEntry, (∀ es, (order es).Perm es) →
      ∀ Inv : LogDisk → Prop, (∀ s, Between root es w.disk s → Inv s) → w.Always Inv →
        IntegrateEnds root es ⟨"", cp.size + entries.length, rangeRoot h.hashChildren []
          ((cover 0 (cp.size + entries.length)).map v)⟩ w.disk Inv
          (integrate deps (fsStorage root) h order cp w) := by
  have based : ∀ key, ∃ tile, tileCount key cp.size < tileCount key (cp.size + entries.length) →
      ReadsAs (fun l i => getTile l i cp.size) w key tile ∧
        tile.numLeaves ≤ tileCount key (cp.size + entries.length) := by
    intro key
    by_cases more : tileCount key cp.size < tileCount key (cp.size + entries.length)
    · obtain ⟨tile, facts⟩ := extendable key more
      exact ⟨tile, fun _ => facts⟩
    · exact ⟨Tile.fresh, fun less => absurd less more⟩
  choose base facts using based
  obtain ⟨es, dirty, _, runs⟩ :=
    integrate_ends_from root base lawful correct sequenced some' extends' filled facts temps
  exact ⟨es, dirty, runs⟩

end Files

end Serverless
