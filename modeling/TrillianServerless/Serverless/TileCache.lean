import TrillianServerless.Serverless.TileText
import TrillianServerless.Serverless.TreeUpdate
import TrillianServerless.Shared.TreeBinding

set_option autoImplicit false

namespace Serverless

open Go Merkle Checkpoints

section Grown

variable {A : Type} (combine : A → A → A) (old : NodeID → A) (leaf : Nat → A) (n : Nat)

-- The nodes of a log that has grown from `n` leaves, over whatever values its old nodes have.
def grownAt : Nat → Nat → A
  | 0, i => if (⟨0, i⟩ : NodeID).stop ≤ n then old ⟨0, i⟩ else leaf i
  | l + 1, i =>
    if (⟨l + 1, i⟩ : NodeID).stop ≤ n then old ⟨l + 1, i⟩
    else combine (grownAt l (2 * i)) (grownAt l (2 * i + 1))

def grown (id : NodeID) : A := grownAt combine old leaf n id.level id.index

theorem grown_old {id : NodeID} (before : id.stop ≤ n) : grown combine old leaf n id = old id := by
  obtain ⟨level, index⟩ := id
  cases level with
  | zero => exact if_pos before
  | succ level => exact if_pos before

theorem grown_leaf {i : Nat} (after : n ≤ i) : grown combine old leaf n ⟨0, i⟩ = leaf i :=
  if_neg (by simp; omega)

theorem grown_parents (e : Nat) : ParentsHash combine (grown combine old leaf n) (Gained n e) :=
  fun _ _ gained => if_neg (Nat.not_le.mpr gained.1)

end Grown

section Visits

variable {W : Type} {deps : Deps} {h : LogHasher}

/-- Whatever hashes stand for the old log, the log with the new entries has nodes over them. -/
theorem exists_extends (h : LogHasher) {n : Nat} {hashes : List Bytes} (length : hashes.length = (cover 0 n).length)
    (entries : List Bytes) : ∃ v, (cover 0 n).map v = hashes ∧ Extends h v n entries := by
  let leaf (i : Nat) : Bytes := h.hashLeaf (entries.getD (i - n) [])
  refine ⟨grown h.hashChildren (coverValue [] 0 n hashes) leaf n, ?_, fun i bound => ?_, grown_parents _ _ _ _ _⟩
  · conv_rhs => rw [← map_coverValue [] length]
    apply List.map_congr_left
    intro id member
    exact grown_old _ _ _ _ ((mem_cover_iff 0 n id).mp member).1.2
  · rw [grown_leaf _ _ _ _ (Nat.le_add_right n i)]
    simp [leaf, bound]

theorem Extends.ne_nil {v : NodeID → Bytes} {n : Nat} {entries : List Bytes} (extends' : Extends h v n entries)
    {id : NodeID} (gained : Gained n (n + entries.length) id) : v id ≠ [] := by
  obtain ⟨level, index⟩ := id
  cases level with
  | zero =>
    obtain ⟨after, before⟩ := gained
    rw [NodeID.leaf_stop] at after before
    have leaf := extends'.leaves (index - n) (by omega)
    rw [show n + (index - n) = index by omega] at leaf
    rw [leaf, ← List.length_pos_iff, h.leafSize]
    decide
  | succ level =>
    rw [extends'.parents level index gained, ← List.length_pos_iff, h.childSize]
    decide

theorem loadBase_range {st : Storage W} {cp : Checkpoint} {w w' : W} {base : Compact.Range}
    (lawful : Compact.Lawful deps.compact) (loaded : loadBase deps st h cp w = (.ok base, w')) :
    ∃ hashes, hashes.length = (cover 0 cp.size).length ∧ base = ⟨0, cp.size, hashes⟩ := by
  obtain ⟨hashes, w1, _, loaded⟩ := Eff.bind_eq_ok.mp loaded
  obtain ⟨range, w2, formed, loaded⟩ := Eff.bind_eq_ok.mp loaded
  obtain ⟨_, w3, _, loaded⟩ := Eff.bind_eq_ok.mp loaded
  obtain rfl := Outcome.ok.inj (Prod.mk.inj loaded).1
  have made := Outcome.ofExcept_eq_ok.mp (Prod.mk.inj (Eff.wrap_eq_ok.mp formed)).1
  obtain ⟨_, length, rfl⟩ := lawful.newRange_eq_ok.mp made
  exact ⟨hashes, length, rfl⟩

-- No visit of Integrate sets an empty hash, also over a log that was stored wrongly.
theorem allVisits_ne_nil {st : Storage W} {cp : Checkpoint} {w w' : W} {base : Compact.Range}
    (lawful : Compact.Lawful deps.compact) (loaded : loadBase deps st h cp w = (.ok base, w'))
    (entries : List Bytes) : ∀ node ∈ allVisits deps h base entries, node.2 ≠ [] := by
  obtain ⟨hashes, length, rfl⟩ := loadBase_range lawful loaded
  obtain ⟨v, rfl, extends'⟩ := exists_extends h length entries
  intro node member
  obtain ⟨gained, value⟩ := ((merge_correct lawful extends').2.2.complete node.1 node.2).mp member
  rw [value]
  exact extends'.ne_nil gained

end Visits

section Cache

variable {W : Type} {deps : Deps} {h : LogHasher} {st : Storage W} {cp : Checkpoint}

-- What the text format can carry.
structure Tile.Writable (t : Tile) : Prop where
  numLeaves : t.numLeaves < 2 ^ 16
  ends : t.EndsFilled

theorem Tile.fresh_writable : Tile.fresh.Writable := ⟨by decide, Tile.fresh_endsFilled⟩

theorem Tile.writable_of_read {raw : Bytes} {t : Tile} (read : Tile.unmarshalText raw = .ok t) : t.Writable := by
  obtain ⟨hashes, ⟨⟨first, second, _, _, count⟩, _⟩, _⟩ := Tile.unmarshalText_eq_ok.mp read
  exact ⟨parseUint_lt count, Tile.unmarshalText_endsFilled read⟩

theorem Tile.Writable.setNode {t : Tile} (writable : t.Writable) (id : NodeID) {hash : Bytes} (filled : hash ≠ []) :
    (t.setNode id hash).Writable where
  numLeaves := by
    have bound := tileStop_le id
    have small := writable.numLeaves
    rw [Tile.setNode_numLeaves]
    split <;> omega
  ends := Tile.setNode_endsFilled writable.ends id filled

/-- GetTile of a storage gives out what UnmarshalText has read. -/
def Storage.ReadsTiles (st : Storage W) : Prop :=
  ∀ level index size w t w', st.getTile level index size w = (.ok t, w') → ∃ raw, Tile.unmarshalText raw = .ok t

theorem fsStorage_readsTiles (root : Root) : (fsStorage root).ReadsTiles := by
  intro level index size w t w' read
  obtain ⟨raw, _, parsed⟩ := getTile_ok read
  exact ⟨raw, parsed⟩

def TileMap.Writable (m : TileMap) : Prop := ∀ key t, m.lookup key = some t → t.Writable

theorem TileMap.Writable.insert {m : TileMap} (writable : m.Writable) {key : TileKey} {t : Tile} (new : t.Writable) :
    TileMap.Writable (m.insert key t) := by
  intro other tile found
  by_cases same : other = key
  · subst same
    rw [AList.lookup_insert] at found
    obtain rfl := Option.some.inj found
    exact new
  · rw [AList.lookup_insert_ne same] at found
    exact writable other tile found

theorem visit_writable (reads : st.ReadsTiles) {size : Nat} {m m' : TileMap} {node : Compact.Visit} {w w' : W}
    (writable : m.Writable) (filled : node.2 ≠ [])
    (ran : visit (fun l i => st.getTile l i size) m node w = (.ok m', w')) : m'.Writable := by
  unfold visit at ran
  dsimp only at ran
  split at ran
  next tile cached =>
    obtain rfl := Outcome.ok.inj (Prod.mk.inj ran).1
    exact writable.insert ((writable _ _ cached).setNode node.1 filled)
  next =>
    split at ran
    next tile w1 read =>
      obtain rfl := Outcome.ok.inj (Prod.mk.inj ran).1
      obtain ⟨raw, parsed⟩ := reads _ _ _ _ _ _ read
      exact writable.insert ((Tile.writable_of_read parsed).setNode node.1 filled)
    · split at ran
      · obtain rfl := Outcome.ok.inj (Prod.mk.inj ran).1
        exact writable.insert (Tile.fresh_writable.setNode node.1 filled)
      · cases ran
    · cases ran

theorem visitAll_writable (reads : st.ReadsTiles) {size : Nat} {m m' : TileMap} {visits : List Compact.Visit}
    {w w' : W} (writable : m.Writable) (filled : ∀ node ∈ visits, node.2 ≠ [])
    (ran : visitAll (fun l i => st.getTile l i size) m visits w = (.ok m', w')) : m'.Writable := by
  induction visits generalizing m w with
  | nil =>
    obtain rfl := Outcome.ok.inj (Prod.mk.inj ran).1
    exact writable
  | cons node rest ih =>
    obtain ⟨m1, w1, first, ran⟩ := Eff.bind_eq_ok.mp ran
    exact ih (visit_writable reads writable (filled node (by simp)) first)
      (fun other member => filled other (by simp [member])) ran

/-- Reading the text of a tile gives its leaves and nodes, an absent node as an empty one. -/
def Tile.RoundTrips (t : Tile) : Prop :=
  ∃ t', Tile.unmarshalText t.marshalText = .ok t' ∧ t'.numLeaves = t.numLeaves ∧
    t'.nodes.length = t.nodes.length ∧
    ∀ (i : Nat) (node : Option Bytes), t.nodes[i]? = some node → t'.nodes[i]? = some (some (node.getD []))

theorem Tile.Writable.roundTrips {t : Tile} (writable : t.Writable) : t.RoundTrips := by
  refine ⟨t.readBack, Tile.unmarshalText_marshalText writable.numLeaves writable.ends, rfl, ?_, ?_⟩
  · rw [Tile.readBack, List.length_map]
  · intro i node found
    rw [Tile.readBack, List.getElem?_map, found, Option.map_some]

/-- A run of Integrate has got through the calls `visits` of Visit, and its cache of tiles is `m`. -/
structure HasVisited (deps : Deps) (st : Storage W) (h : LogHasher) (cp : Checkpoint) (start : W)
    (visits : List Compact.Visit) (m : TileMap) : Prop where
  run : ∃ base entries err scanning reading now, loadBase deps st h cp start = (.ok base, scanning) ∧
    st.scanSequenced cp.size scanning = ((entries, err), reading) ∧ visits <+: allVisits deps h base entries ∧
    visitAll (fun l i => st.getTile l i cp.size) ∅ visits reading = (.ok m, now)

theorem HasVisited.writable {w : W} {visits : List Compact.Visit} {m : TileMap} (reads : st.ReadsTiles)
    (lawful : Compact.Lawful deps.compact) (visited : HasVisited deps st h cp w visits m) : m.Writable := by
  obtain ⟨base, entries, err, w1, w2, w3, loaded, _, front, ran⟩ := visited.run
  refine visitAll_writable reads (fun key t found => ?_) (fun node member => ?_) ran
  · rw [AList.lookup_empty] at found
    cases found
  · exact allVisits_ne_nil lawful loaded entries node (front.subset member)

theorem scanEntries_eq_ok {w w' : W} {range : Compact.Range} {m : TileMap} {n : Nat}
    (ran : scanEntries deps st h cp w = (.ok (range, m, n), w')) :
    ∃ entries err reading, st.scanSequenced cp.size w = ((entries, err), reading) ∧
      range = (appendedRange deps h (deps.compact.newEmptyRange cp.size) entries).1 ∧
      visitAll (fun l i => st.getTile l i cp.size) ∅
        (appendedRange deps h (deps.compact.newEmptyRange cp.size) entries).2 reading = (.ok m, w') := by
  rcases scan : st.scanSequenced cp.size w with ⟨⟨entries, err⟩, reading⟩
  simp only [scanEntries, scan, appendEntries_eq] at ran
  obtain ⟨⟨range', m'⟩, w1, appended, ran⟩ := Eff.bind_eq_ok.mp ran
  obtain ⟨m1, w2, visited, appended⟩ := Eff.bind_eq_ok.mp appended
  obtain ⟨same, rfl⟩ := Prod.mk.inj appended
  obtain ⟨rfl, rfl⟩ := Prod.mk.inj (Outcome.ok.inj same)
  cases err with
  | some reason => cases ran
  | none =>
    obtain ⟨same, rfl⟩ := Prod.mk.inj ran
    obtain ⟨rfl, rest⟩ := Prod.mk.inj (Outcome.ok.inj same)
    obtain ⟨rfl, -⟩ := Prod.mk.inj rest
    exact ⟨entries, none, reading, rfl, rfl, visited⟩

/-- The tiles that a run of Integrate stores are the ones that its visits have made. -/
theorem integrate_stores_visited (lawful : Compact.Lawful deps.compact) {order : List TileEntry → List TileEntry}
    {new : Checkpoint} {w w' : W} (ran : integrate deps st h order cp w = (.ok (some new), w')) :
    ∃ visits m now, HasVisited deps st h cp w visits m ∧ storeTiles st (order m.entries) now = (.ok (), w') := by
  obtain ⟨base, w1, loaded, ran⟩ := Eff.bind_eq_ok.mp ran
  obtain ⟨⟨range, m, n⟩, w2, scanned, ran⟩ := Eff.bind_eq_ok.mp ran
  obtain ⟨entries, err, reading, scan, rfl, first⟩ := scanEntries_eq_ok scanned
  dsimp only [mergeScanned] at ran
  split at ran
  · cases ran
  · obtain ⟨m', w3, second, ran⟩ := Eff.bind_eq_ok.mp ran
    have all : visitAll (fun l i => st.getTile l i cp.size) ∅ (allVisits deps h base entries) reading =
        (.ok m', w3) := by
      obtain ⟨hashes, _, rfl⟩ := loadBase_range lawful loaded
      rw [allVisits, visitAll_append, Eff.bind_of_ok first]
      exact second
    cases merged : (deps.compact.appendRange h.hashChildren base
        (appendedRange deps h (deps.compact.newEmptyRange cp.size) entries).1).err with
    | some reason =>
      simp only [publish, merged] at ran
      cases ran
    | none =>
      simp only [publish, merged] at ran
      obtain ⟨root, w4, rooted, ran⟩ := Eff.bind_eq_ok.mp ran
      obtain ⟨_, w5, stored, done⟩ := Eff.bind_eq_ok.mp ran
      obtain rfl : w3 = w4 := (Prod.mk.inj rooted).2
      obtain rfl : w5 = w' := (Prod.mk.inj done).2
      exact ⟨_, m', w3, ⟨base, entries, err, w1, reading, w3, loaded, scan, List.prefix_refl _, all⟩, stored⟩

/-- Every tile that the visits of a run of Integrate have made so far round-trips. -/
theorem visited_tiles_roundTrip (lawful : Compact.Lawful deps.compact) (reads : st.ReadsTiles) {w : W}
    {visits : List Compact.Visit} {m : TileMap} (visited : HasVisited deps st h cp w visits m) {key : TileKey}
    {t : Tile} (cached : m.lookup key = some t) : t.RoundTrips :=
  (visited.writable reads lawful key t cached).roundTrips

-- A log of one entry, with two more to be integrated.
def smallTile : Tile := ⟨1, [some (LogHasher.padded.hashLeaf [1])]⟩

def smallLog : Storage Unit where
  getTile level index _ w := if level = 0 ∧ index = 0 then (.ok smallTile, w) else (.error .notExist, w)
  storeTile _ _ _ w := (.ok (), w)
  scanSequenced _ w := (([[2], [3]], none), w)

theorem smallLog_readsTiles : smallLog.ReadsTiles := by
  intro level index size w t w' read
  unfold smallLog at read
  dsimp only at read
  split at read
  · obtain rfl := Outcome.ok.inj (Prod.mk.inj read).1
    refine ⟨smallTile.marshalText, Tile.unmarshalText_marshalText (by decide) fun node last => ?_⟩
    obtain rfl := Option.some.inj last
    decide
  · cases read

def smallVisits : List Compact.Visit :=
  [(⟨0, 1⟩, LogHasher.padded.hashLeaf [2]), (⟨0, 2⟩, LogHasher.padded.hashLeaf [3]),
    (⟨1, 0⟩, LogHasher.padded.hashChildren (LogHasher.padded.hashLeaf [1]) (LogHasher.padded.hashLeaf [2]))]

theorem smallLog_visits :
    allVisits referenceDeps LogHasher.padded ⟨0, 1, [LogHasher.padded.hashLeaf [1]]⟩ [[2], [3]] = smallVisits := by
  decide +kernel

theorem visited_tiles_roundTrip_smallLog :
    ∃ m t, HasVisited referenceDeps smallLog LogHasher.padded ⟨"", 1, []⟩ () smallVisits m ∧
      m.lookup (0, 0) = some t ∧ t.numLeaves = 3 ∧ t.nodes[3]? = some none ∧ t.RoundTrips := by
  have reads : ∀ node ∈ smallVisits,
      ReadsAs (fun l i => smallLog.getTile l i 1) () (tileOf node.1) smallTile := by
    simp only [smallVisits, List.forall_mem_cons]
    exact ⟨.inl rfl, .inl rfl, .inl rfl, by simp⟩
  obtain ⟨m, ran, lookups⟩ := visitAll_run (fun _ => smallTile) (∅ : TileMap) reads
  have visited : HasVisited referenceDeps smallLog LogHasher.padded ⟨"", 1, []⟩ () smallVisits m :=
    ⟨⟨0, 1, [LogHasher.padded.hashLeaf [1]]⟩, [[2], [3]], none, (), (), (), by decide +kernel, rfl,
      smallLog_visits ▸ List.prefix_refl _, ran⟩
  have cached := lookups (0, 0)
  exact ⟨m, _, visited, cached, by decide +kernel, by decide +kernel,
    visited_tiles_roundTrip Compact.reference_lawful smallLog_readsTiles visited cached⟩

end Cache

end Serverless
