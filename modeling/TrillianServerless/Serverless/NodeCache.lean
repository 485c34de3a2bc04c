import TrillianServerless.Serverless.TileText
import TrillianServerless.Serverless.ProofBuilder

set_option autoImplicit false

namespace Serverless

open Go Merkle Checkpoints

section Serve

variable {W : Type}

-- A node cache asks for no tile twice, so the responses it gets are a function of the path.
def serve (answers : Path → Outcome Bytes) : Fetcher W := fun p w => (answers p, w)

def tileFile (size : Nat) (id : NodeID) : Path :=
  .tile (tileOf id).1 (tileOf id).2 (partialTileSize (tileOf id).1 (tileOf id).2 size)

/-- The text has a line for the node, with nothing on it. -/
def BlankAt (raw : Bytes) (id : NodeID) : Prop :=
  ∃ line, (rawLines raw)[slotOf id + 2]? = some line ∧ base64Symbols line = []

def Blank (answers : Path → Outcome Bytes) (size : Nat) (id : NodeID) : Prop :=
  ∃ raw, answers (tileFile size id) = .ok raw ∧ BlankAt raw id

-- The cached tiles are those that the responses hold; a log of size 0 has no complete nodes.
def Session.Served (answers : Path → Outcome Bytes) (size : Nat) (s : Session W) : Prop :=
  s.Clean (newTileFetcher (serve answers) size) s.world 0

variable {answers : Path → Outcome Bytes} {size : Nat}

theorem served_readOnly (level index : Nat) (w : W) :
    (newTileFetcher (serve answers) size level index w).2 = w := by
  unfold newTileFetcher serve
  rcases answers (.tile level index (partialTileSize level index size)) with _ | reason | _
  · rfl
  · dsimp only
    split <;> rfl
  · rfl

theorem tileFetcher_eq_ok {id : NodeID} {w : W} {t : Tile} :
    newTileFetcher (serve answers) size (tileOf id).1 (tileOf id).2 w = (.ok t, w) ↔
      ∃ raw, answers (tileFile size id) = .ok raw ∧ Tile.unmarshalText raw = .ok t := by
  unfold newTileFetcher serve tileFile
  rcases answers _ with raw | reason | reason
  · simp [Outcome.wrap_eq_ok]
  · dsimp only
    split <;> simp
  · simp

theorem blankAt_of_slot {raw : Bytes} {t : Tile} {id : NodeID} {hash : Bytes}
    (parsed : Tile.unmarshalText raw = .ok t) (slot : t.nodes[slotOf id]? = some (some hash)) :
    hash = [] ↔ BlankAt raw id := by
  obtain ⟨hashes, ⟨⟨first, second, lines, _, _⟩, _⟩, nodes⟩ := Tile.unmarshalText_eq_ok.mp parsed
  rw [nodes, List.getElem?_map, Option.map_eq_some_iff] at slot
  obtain ⟨line, found, decoded⟩ := slot
  rw [BlankAt, lines, decodeBase64_empty_iff decoded]
  simp [found]

theorem slot_of_blankAt {raw : Bytes} {t : Tile} {id : NodeID}
    (parsed : Tile.unmarshalText raw = .ok t) (blank : BlankAt raw id) :
    t.nodes[slotOf id]? = some (some []) := by
  obtain ⟨hashes, ⟨⟨first, second, lines, _, _⟩, all⟩, nodes⟩ := Tile.unmarshalText_eq_ok.mp parsed
  obtain ⟨line, found, none⟩ := blank
  rw [lines] at found
  have member : hashes[slotOf id]? = some line := by simpa using found
  obtain ⟨hash, decoded⟩ := Option.isSome_iff_exists.mp (all line (List.mem_of_getElem? member))
  obtain rfl := (decodeBase64_empty_iff decoded).mpr none
  rw [nodes, List.getElem?_map, member, Option.map_some, decoded]

theorem getNode_keeps_served (id : NodeID) {s : Session W} (served : s.Served answers size) :
    (getNode (newTileFetcher (serve answers) size) id s).2.Served answers size := by
  have clean := getNode_keeps served_readOnly id s served
  rwa [Session.Served, clean.world]

/-- A node is handed out empty exactly when its line in the tile is blank and no ephemeral node stands for it. -/
theorem getNode_empty_iff {id : NodeID} {s s' : Session W} {hash : Bytes} (served : s.Served answers size)
    (got : getNode (newTileFetcher (serve answers) size) id s = (.ok hash, s')) :
    hash = [] ↔ s.cache.ephemeral id = [] ∧ Blank answers size id := by
  by_cases known : s.cache.ephemeral id = []
  · rw [getNode, if_neg (not_not.mpr known)] at got
    obtain ⟨tile, s1, cached, looked⟩ := Eff.bind_eq_ok.mp got
    have read := cachedTile_read served_readOnly served cached
    obtain ⟨raw, answered, parsed⟩ := tileFetcher_eq_ok.mp read
    have slot : tile.nodes[slotOf id]? = some (some hash) := by
      rcases node : tile.nodes[slotOf id]? with _ | _ | found <;> simp [nodeIn, node, Eff.ofExcept] at looked
      rw [looked.1]
    rw [blankAt_of_slot parsed slot, Blank]
    simp [known, answered]
  · rw [getNode, if_pos known] at got
    obtain rfl := Outcome.ok.inj (Prod.mk.inj got).1
    simp [known]

def ErrorOrFilled (result : Outcome Bytes) : Prop :=
  (∃ reason, result = .error reason) ∨ ∃ hash, result = .ok hash ∧ hash ≠ []

theorem cachedTile_served {id : NodeID} {s : Session W} {raw : Bytes} {t : Tile} (served : s.Served answers size)
    (answered : answers (tileFile size id) = .ok raw) (parsed : Tile.unmarshalText raw = .ok t) :
    ∃ s', cachedTile (newTileFetcher (serve answers) size) (tileOf id) s = (.ok t, s') := by
  obtain ⟨s', cached, _⟩ := cachedTile_clean served (tileFetcher_eq_ok.mpr ⟨raw, answered, parsed⟩)
  exact ⟨s', cached⟩

theorem getNode_errorOrFilled {id : NodeID} {s : Session W} {raw : Bytes} {t : Tile} (served : s.Served answers size)
    (answered : answers (tileFile size id) = .ok raw) (parsed : Tile.unmarshalText raw = .ok t) :
    ErrorOrFilled (getNode (newTileFetcher (serve answers) size) id s).1 ↔
      s.cache.ephemeral id ≠ [] ∨ ¬ BlankAt raw id := by
  by_cases known : s.cache.ephemeral id = []
  · obtain ⟨s', cached⟩ := cachedTile_served served answered parsed
    rw [getNode, if_neg (not_not.mpr known), Eff.bind_of_ok cached]
    rcases node : t.nodes[slotOf id]? with _ | _ | hash
    · have inside : ¬ BlankAt raw id := fun blank => by
        rw [slot_of_blankAt parsed blank] at node
        cases node
      simp [ErrorOrFilled, nodeIn, node, Eff.ofExcept, inside]
    · have inside : ¬ BlankAt raw id := fun blank => by
        rw [slot_of_blankAt parsed blank] at node
        cases node
      simp [ErrorOrFilled, nodeIn, node, Eff.ofExcept, inside]
    · simp [ErrorOrFilled, nodeIn, node, Eff.ofExcept, known, ← blankAt_of_slot parsed node]
  · simp [getNode, ErrorOrFilled, known]

theorem getNode_ephemeral (getTile : GetTileFunc W) (id : NodeID) (s : Session W) :
    (getNode getTile id s).2.cache.ephemeral = s.cache.ephemeral := by
  have cached : (cachedTile getTile (tileOf id) s).2.cache.ephemeral = s.cache.ephemeral := by
    unfold cachedTile
    split
    · rfl
    · split <;> rfl
  unfold getNode
  split
  · rfl
  · rw [Eff.bind_run]
    rcases ran : cachedTile getTile (tileOf id) s with ⟨tile | _ | _, s'⟩ <;> rw [ran] at cached <;> exact cached

-- GetNode for one node after another, with its errors wrapped or hidden.
theorem getNodes_empty_iff {g : NodeID → Eff (Session W) Bytes}
    (same : ∀ id s hash s', g id s = (.ok hash, s') →
      getNode (newTileFetcher (serve answers) size) id s = (.ok hash, s'))
    {ids : List NodeID} {s s' : Session W} {hashes : List Bytes} (served : s.Served answers size)
    (ran : Eff.each g ids s = (.ok hashes, s')) :
    [] ∈ hashes ↔ ∃ id ∈ ids, s.cache.ephemeral id = [] ∧ Blank answers size id := by
  have round : ∀ id (now : Session W) hash next,
      (now.Served answers size ∧ now.cache.ephemeral = s.cache.ephemeral) → g id now = (.ok hash, next) →
      (next.Served answers size ∧ next.cache.ephemeral = s.cache.ephemeral) ∧
        (hash = [] ↔ s.cache.ephemeral id = [] ∧ Blank answers size id) := by
    intro id now hash next held ran
    have got := same id now hash next ran
    have kept := getNode_keeps_served id held.1
    have ephemeral := getNode_ephemeral (newTileFetcher (serve answers) size) id now
    rw [got] at kept ephemeral
    refine ⟨⟨kept, ephemeral.trans held.2⟩, ?_⟩
    rw [getNode_empty_iff held.1 got, held.2]
  exact Eff.mem_results_iff (Eff.each_results round ⟨served, rfl⟩ ran)

def ProofBuilder.nodeHashes (deps : Deps) (pb : ProofBuilder W) (nodes : deps.proofs.Nodes) :
    Eff (Session W) (List Bytes) :=
  Eff.each (fun id => (getNode pb.getTile id).wrap "failed to get node (%v): %w") (deps.proofs.ids nodes)

/-- The sessions that calls on a proof builder lead to. -/
inductive ProofBuilder.Reaches (deps : Deps) (pb : ProofBuilder W) (w : W) : Session W → Prop
  | start : Reaches deps pb w (pb.session w)
  | inclusionProof {s : Session W} (index : Nat) :
    Reaches deps pb w s → Reaches deps pb w (pb.inclusionProof deps index s).2
  | consistencyProof {s : Session W} (smaller larger : Nat) :
    Reaches deps pb w s → Reaches deps pb w (pb.consistencyProof deps smaller larger s).2

theorem newProofBuilder_ok {deps : Deps} {cp : Checkpoint} {hash : Compact.HashFn} {f : Fetcher W} {w w' : W}
    {pb : ProofBuilder W} (built : newProofBuilder deps cp hash f w = (.ok pb, w')) :
    pb.getTile = newTileFetcher f cp.size ∧ ∀ key, pb.nodeCache.tiles key = none := by
  obtain ⟨hashes, w1, _, built⟩ := Eff.bind_eq_ok.mp built
  obtain ⟨range, w2, _, built⟩ := Eff.bind_eq_ok.mp built
  obtain ⟨root, w3, _, built⟩ := Eff.bind_eq_ok.mp built
  split at built
  · obtain rfl := Outcome.ok.inj (Prod.mk.inj built).1
    exact ⟨rfl, fun key => by simp only [ephemeral_tiles]; rfl⟩
  · cases built

-- The cache of a builder after some of its calls: nothing but tiles has been added.
structure ProofBuilder.Serves (answers : Path → Outcome Bytes) (size : Nat) (pb : ProofBuilder W) (s : Session W) :
    Prop where
  served : s.Served answers size
  ephemeral : s.cache.ephemeral = pb.nodeCache.ephemeral

theorem ProofBuilder.fetchNodes_keeps (deps : Deps) {pb : ProofBuilder W}
    (fetches : pb.getTile = newTileFetcher (serve answers) size) (nodes : deps.proofs.Nodes) :
    Eff.Keeps (pb.Serves answers size) (pb.fetchNodes deps nodes) := by
  refine Eff.Keeps.bind (Eff.Keeps.each (fun id => Eff.Keeps.wrap (fun s held => ?_) _) _) fun _ =>
    Eff.Keeps.wrap (Eff.keeps_lift _) _
  rw [fetches]
  exact ⟨getNode_keeps_served id held.served, (getNode_ephemeral _ id s).trans held.ephemeral⟩

theorem ProofBuilder.Reaches.serves {deps : Deps} {cp : Checkpoint} {hash : Compact.HashFn} {w w' : W}
    {pb : ProofBuilder W} (built : newProofBuilder deps cp hash (serve answers) w = (.ok pb, w')) {now : W}
    {s : Session W} (reached : pb.Reaches deps now s) : pb.Serves answers cp.size s := by
  obtain ⟨fetches, none⟩ := newProofBuilder_ok built
  induction reached with
  | start =>
    exact ⟨⟨rfl, fun id stop => absurd stop (by have := id.first_lt_stop; omega),
      fun key tile cached => by simp [ProofBuilder.session, none] at cached⟩, rfl⟩
  | inclusionProof index _ ih =>
    exact (Eff.Keeps.bind (Eff.Keeps.wrap (Eff.keeps_lift _) _) (pb.fetchNodes_keeps deps fetches)) _ ih
  | consistencyProof smaller larger _ ih =>
    exact (Eff.Keeps.bind (Eff.Keeps.wrap (Eff.keeps_lift _) _) (pb.fetchNodes_keeps deps fetches)) _ ih

/-- With any responses, GetNode errs or gives a hash for a node exactly when its tile has no blank line there or an
ephemeral node stands for it, and those who collect nodes hand out an empty one exactly when there is such a line. -/
theorem empty_nodes_iff_blank_lines (deps : Deps) (answers : Path → Outcome Bytes) (size : Nat) (w : W) :
    (∀ (s : Session W) (id : NodeID) (raw : Bytes) (t : Tile), s.Served answers size →
      answers (tileFile size id) = .ok raw → Tile.unmarshalText raw = .ok t →
      (ErrorOrFilled (getNode (newTileFetcher (serve answers) size) id s).1 ↔
        s.cache.ephemeral id ≠ [] ∨ ¬ BlankAt raw id)) ∧
    (∀ hashes, (fetchRangeNodes deps size (newTileFetcher (serve answers) size) w).1 = .ok hashes →
      ([] ∈ hashes ↔ ∃ id ∈ deps.compact.rangeNodes 0 size, Blank answers size id)) ∧
    (∀ first N hashes, (fetchLeafHashes (serve answers) first N size w).1 = .ok hashes →
      ([] ∈ hashes ↔ ∃ i < N, Blank answers size ⟨0, (first + i) % 2 ^ 64⟩)) ∧
    ∀ (cp : Checkpoint) (hash : Compact.HashFn) (pb : ProofBuilder W) (now : W) (s : Session W)
      (nodes : deps.proofs.Nodes) (hashes : List Bytes), cp.size = size →
      (newProofBuilder deps cp hash (serve answers) w).1 = .ok pb → pb.Reaches deps now s →
      (pb.nodeHashes deps nodes s).1 = .ok hashes →
      ([] ∈ hashes ↔ ∃ id ∈ deps.proofs.ids nodes, pb.nodeCache.ephemeral id = [] ∧ Blank answers size id) := by
  have empty : Session.Served answers size (⟨w, .empty⟩ : Session W) := empty_clean
  refine ⟨fun s id raw t served answered parsed => getNode_errorOrFilled served answered parsed,
    fun hashes fetched => ?_, fun first N hashes fetched => ?_, ?_⟩
  · have ran : (Eff.each (getNode (newTileFetcher (serve answers) size)) (deps.compact.rangeNodes 0 size)
      ⟨w, .empty⟩).1 = .ok hashes := fetched
    rw [getNodes_empty_iff (fun _ _ _ _ got => got) empty (Prod.ext ran rfl)]
    simp [NodeCache.empty]
  · unfold fetchLeafHashes at fetched
    split at fetched
    · cases fetched
    · rw [getNodes_empty_iff (fun _ _ _ _ got => Eff.hide_eq_ok.mp got) empty (Prod.ext fetched rfl)]
      simp [NodeCache.empty]
  · rintro cp hash pb now s nodes hashes rfl built reached ran
    have built' : newProofBuilder deps cp hash (serve answers) w =
        (.ok pb, (newProofBuilder deps cp hash (serve answers) w).2) := Prod.ext built rfl
    have serves := reached.serves built'
    rw [ProofBuilder.nodeHashes, (newProofBuilder_ok built').1] at ran
    rw [getNodes_empty_iff (fun _ _ _ _ got => Eff.wrap_eq_ok.mp got) serves.served (Prod.ext ran rfl),
      serves.ephemeral]

-- The tile of a log of three entries: the node above all four leaves is not complete, and left out.
def threeLeaves : Tile :=
  let hash : Bytes := List.replicate 32 7
  ⟨3, [some hash, some hash, some hash, none, some hash]⟩

theorem threeLeaves_read : Tile.unmarshalText threeLeaves.marshalText = .ok threeLeaves.readBack := by
  refine Tile.unmarshalText_marshalText (by decide) fun node last => ?_
  obtain rfl := Option.some.inj last
  decide

theorem incomplete_node_handed_out : ¬ ErrorOrFilled
    (getNode (newTileFetcher (serve fun _ => .ok threeLeaves.marshalText) 3) ⟨2, 0⟩
      (⟨(), .empty⟩ : Session Unit)).1 := by
  obtain ⟨s', cached⟩ : ∃ s', cachedTile (newTileFetcher (serve fun _ => .ok threeLeaves.marshalText) 3)
      (tileOf ⟨2, 0⟩) (⟨(), .empty⟩ : Session Unit) = (.ok threeLeaves.readBack, s') :=
    cachedTile_served empty_clean rfl threeLeaves_read
  rw [getNode, if_neg (by simp [NodeCache.empty]), Eff.bind_of_ok cached]
  rintro (⟨reason, failed⟩ | ⟨hash, handed, filled⟩)
  · cases failed
  · exact filled (Outcome.ok.inj handed).symm

end Serve

end Serverless
