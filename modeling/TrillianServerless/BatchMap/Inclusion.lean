import TrillianServerless.Packages.SparseMap

set_option autoImplicit false

namespace BatchMap

open Go Smt Sparse

-- A []byte, with what is in its spare capacity.
structure Slice where
  bytes : Bytes
  spare : Bytes
  deriving DecidableEq, Repr

-- s[:n] reaches into the spare capacity, s[n:] does not.
def Slice.upTo (s : Slice) (n : Nat) : Outcome Bytes :=
  if n ≤ s.bytes.length + s.spare.length then .ok ((s.bytes ++ s.spare).take n) else .panic "slice bounds out of range"

def Slice.from (s : Slice) (n : Nat) : Outcome Bytes :=
  if n ≤ s.bytes.length then .ok (s.bytes.drop n) else .panic "slice bounds out of range"

structure TileLeaf where
  path : Bytes
  hash : Bytes
  deriving DecidableEq, Repr

-- The leaves are pointers.
structure Tile where
  path : Slice
  leaves : List (Option TileLeaf)
  rootHash : Bytes
  deriving DecidableEq, Repr

structure Libraries where
  hasher : Hasher
  smt : HStar3

/-- `digest` is the configured hash, whose Sum makes a slice of its own. -/
structure MapVerifier where
  tileFetch : Int → Bytes → Except GoError (Option Tile)
  prefixStrata : Int
  treeID : Int
  digest : Bytes → Slice

def toNode (path : Bytes) (l : TileLeaf) : Node := ⟨.new (path ++ l.path) (8 * (path ++ l.path).length), l.hash⟩

def deref {A : Type} : Option A → Outcome A
  | none => .panic "invalid memory address or nil pointer dereference"
  | some a => .ok a

namespace MapVerifier

variable (libs : Libraries) (v : MapVerifier)

def getTilesForKey (rev : Int) (key : Slice) : Outcome (List (Option Tile)) :=
  if v.prefixStrata + 1 < 0 then .panic "makeslice: len out of range"
  else
    (List.range (v.prefixStrata + 1).toNat).mapM fun i => do
      let tilePath ← key.upTo i
      .ofExcept (hideErr "failed to read tile %x @ revision %d: %v" (v.tileFetch rev tilePath))

-- The leaves of a tile that were read, and the tile's root from them; the last leaf at the path counts.
def checkLeaves (tile : Tile) (leaves : List TileLeaf) (needLeafPath needValue : Bytes) : Outcome (Slice × Bytes) :=
  match leaves.reverse.find? fun l => l.path = needLeafPath with
  | none => .error (.text "couldn't find expected leaf %x in tile %x")
  | some leaf =>
    if leaf.hash ≠ needValue then .error (.text "wrong leaf value in tile %x, leaf %x: got %x, want %x")
    else do
      let hs ← .ofExcept (hideErr "failed to create HStar3 for tile %x: %v"
        (libs.smt.new (leaves.map (toNode tile.path.bytes)) libs.hasher.hashChildren
          (8 * (tile.path.bytes.length + leaf.path.length)) (8 * tile.path.bytes.length)))
      let res ← .ofExcept (hideErr "failed to hash tile %x: %v" (libs.smt.update hs (libs.hasher.hashEmpty v.treeID)))
      match res.roots with
      | [root] =>
        if root.hash ≠ tile.rootHash then .error (.text "wrong root hash for tile %x: got %x, calculated %x")
        else .ok (tile.path, root.hash)
      | _ => .error (.text "wrong number of roots for tile %x: got %v, want %v")

-- One round of the loop, with the path and the value that the tile has to have and those for the tile above it.
def checkTile (need : Slice × Bytes) (tile : Option Tile) : Outcome (Slice × Bytes) := do
  let tile ← deref tile
  let want ← need.1.upTo tile.path.bytes.length
  if tile.path.bytes ≠ want then .error (.text "wrong tile found at index %d: got %x, want %x")
  else do
    let needLeafPath ← need.1.from tile.path.bytes.length
    let leaves ← tile.leaves.mapM deref
    v.checkLeaves libs tile leaves needLeafPath need.2

def expectedValueHash (key value : Bytes) : Bytes :=
  libs.hasher.hashLeaf v.treeID (.new (v.digest key).bytes (8 * (v.digest key).bytes.length)) value

def checkInclusion (rev : Int) (key value : Bytes) : Outcome Bytes :=
  match v.getTilesForKey rev (v.digest key) with
  | .panic reason => .panic reason
  | .error _ => .error (.text "couldn't load tiles: %v")
  | .ok tiles => do
    let need ← tiles.reverse.foldlM (v.checkTile libs) (v.digest key, v.expectedValueHash libs key value)
    .ok need.2

end MapVerifier

-- Whether a round goes through the tile's path and leaves without a panic.
def Tile.Handled (needPath : Slice) (tile : Tile) : Prop :=
  tile.path.bytes.length ≤ needPath.bytes.length + needPath.spare.length ∧
    (tile.path.bytes <+: needPath.bytes ++ needPath.spare →
      tile.path.bytes.length ≤ needPath.bytes.length ∧ none ∉ tile.leaves)

/-- The tiles from a leaf tile up, as far as they are accepted: each of them can be handled, and the last is at the empty
path. -/
def MapVerifier.Trusted (libs : Libraries) (v : MapVerifier) : Slice × Bytes → List (Option Tile) → Prop
  | need, [] => need.1.bytes = []
  | _, none :: _ => False
  | need, some tile :: rest => tile.Handled need.1 ∧
      (v.checkTile libs need (some tile) = .ok (tile.path, tile.rootHash) →
        Trusted libs v (tile.path, tile.rootHash) rest)

def MapVerifier.TrustedTiles (libs : Libraries) (v : MapVerifier) (rev : Int) (key value : Bytes) : Prop :=
  -1 ≤ v.prefixStrata ∧ ∀ tiles, v.getTilesForKey rev (v.digest key) = .ok tiles →
    v.Trusted libs (v.digest key, v.expectedValueHash libs key value) tiles.reverse

/-- A root that commits to the value at the key: there is a path from it to the leaf, and the value is in every map that
has this root. -/
structure Commits (h : Hasher) (treeID : Int) (key value root : Bytes) : Prop where
  path : ∃ siblings, siblings.length = 8 * key.length ∧
    pathRoot h.hashChildren (bitsOf key) siblings (h.hashLeaf treeID (bitsOf key) value) = root
  maps : ∀ content, h.Binds treeID content (8 * key.length) → h.rootHash treeID content (8 * key.length) = root →
    content (bitsOf key) = some value

section Rounds

variable {libs : Libraries} {v : MapVerifier}

theorem toNode_id (path : Bytes) (l : TileLeaf) : (toNode path l).id = bitsOf (path ++ l.path) := new_all _

theorem mapM_deref {A : Type} {items : List (Option A)} (there : none ∉ items) :
    items.mapM deref = .ok items.reduceOption := by
  induction items with
  | nil => rfl
  | cons item rest ih =>
    cases item with
    | none => simp at there
    | some a =>
      rw [List.mapM_cons, ih (by simpa using there)]
      rfl

theorem mapM_deref_nil {A : Type} {items : List (Option A)} (missing : none ∈ items) :
    ∃ reason, items.mapM deref = .panic reason := by
  induction items with
  | nil => cases missing
  | cons item rest ih =>
    rw [List.mapM_cons]
    cases item with
    | none => exact ⟨_, rfl⟩
    | some a =>
      obtain ⟨reason, panics⟩ := ih (by simpa using missing)
      exact ⟨reason, by rw [panics]; rfl⟩

theorem checkLeaves_no_panic (tile : Tile) (leaves : List TileLeaf) (needLeafPath needValue : Bytes)
    (reason : String) :
    v.checkLeaves libs tile leaves needLeafPath needValue ≠ .panic reason := by
  intro panics
  unfold MapVerifier.checkLeaves at panics
  split at panics
  next => cases panics
  next =>
    split at panics
    next => cases panics
    next =>
      rcases Outcome.bind_eq_panic.mp panics with new | ⟨hs, -, panics⟩
      · exact Outcome.ofExcept_ne_panic _ _ new
      · rcases Outcome.bind_eq_panic.mp panics with update | ⟨res, -, panics⟩
        · exact Outcome.ofExcept_ne_panic _ _ update
        · split at panics
          next => split at panics <;> cases panics
          next => cases panics

theorem checkTile_reads {need : Slice × Bytes} {tile : Tile}
    (start : tile.path.bytes <+: need.1.bytes ++ need.1.spare) :
    v.checkTile libs need (some tile) = (do
      let needLeafPath ← need.1.from tile.path.bytes.length
      let leaves ← tile.leaves.mapM deref
      v.checkLeaves libs tile leaves needLeafPath need.2) := by
  have fits := start.length_le
  rw [List.length_append] at fits
  rw [MapVerifier.checkTile, deref, Outcome.bind_ok, Slice.upTo, if_pos fits, Outcome.bind_ok,
    if_neg (not_not.mpr (List.prefix_iff_eq_take.mp start))]

theorem checkTile_start {need next : Slice × Bytes} {tile : Tile}
    (accepted : v.checkTile libs need (some tile) = .ok next) : tile.path.bytes <+: need.1.bytes ++ need.1.spare := by
  rw [MapVerifier.checkTile, deref, Outcome.bind_ok] at accepted
  obtain ⟨want, read, accepted⟩ := Outcome.bind_eq_ok.mp accepted
  rw [Slice.upTo] at read
  split at read
  next =>
    obtain rfl := Outcome.ok.inj read
    split at accepted
    next => cases accepted
    next same => exact List.prefix_iff_eq_take.mpr (not_not.mp same)
  next => cases read

-- The rounds that panic.
theorem checkTile_panics {need : Slice × Bytes} {tile : Tile} :
    (∃ reason, v.checkTile libs need (some tile) = .panic reason) ↔ ¬ tile.Handled need.1 := by
  by_cases start : tile.path.bytes <+: need.1.bytes ++ need.1.spare
  · have fits := start.length_le
    rw [List.length_append] at fits
    rw [checkTile_reads start, Tile.Handled, Slice.from]
    by_cases short : tile.path.bytes.length ≤ need.1.bytes.length
    · rw [if_pos short, Outcome.bind_ok]
      by_cases missing : none ∈ tile.leaves
      · obtain ⟨reason, panics⟩ := mapM_deref_nil missing
        simp [panics, missing, start]
      · rw [mapM_deref missing, Outcome.bind_ok]
        simp [checkLeaves_no_panic, fits, short, missing]
    · simp [short, start]
  · by_cases fits : tile.path.bytes.length ≤ need.1.bytes.length + need.1.spare.length
    · have apart : tile.path.bytes ≠ (need.1.bytes ++ need.1.spare).take tile.path.bytes.length :=
        fun same => start (List.prefix_iff_eq_take.mpr same)
      simp [MapVerifier.checkTile, deref, Slice.upTo, fits, apart, Tile.Handled, start]
    · simp [MapVerifier.checkTile, deref, Slice.upTo, fits, Tile.Handled]

theorem checkLeaves_ok (lawful : libs.smt.Lawful) {tile : Tile} {leaves : List TileLeaf}
    {needLeafPath needValue : Bytes}
    {next : Slice × Bytes} (accepted : v.checkLeaves libs tile leaves needLeafPath needValue = .ok next) :
    next = (tile.path, tile.rootHash) ∧ ∃ siblings, siblings.length = 8 * needLeafPath.length ∧
      pathRoot libs.hasher.hashChildren (bitsOf needLeafPath) siblings needValue = tile.rootHash := by
  unfold MapVerifier.checkLeaves at accepted
  split at accepted
  next => cases accepted
  next leaf found =>
    split at accepted
    next => cases accepted
    next value =>
      obtain ⟨hs, new, accepted⟩ := Outcome.bind_eq_ok.mp accepted
      obtain ⟨res, updated, accepted⟩ := Outcome.bind_eq_ok.mp accepted
      rw [Outcome.ofExcept_eq_ok, hideErr_eq_ok] at new updated
      have prepared := (lawful.new _ _ _ _).mp ⟨hs, new⟩
      obtain ⟨u, made, computes⟩ := lawful.update _ _ _ _ hs (libs.hasher.hashEmpty v.treeID) new
      rw [updated] at made
      obtain rfl := Except.ok.inj made
      have member : leaf ∈ leaves := List.mem_reverse.mp (List.mem_of_find?_eq_some found)
      have path : leaf.path = needLeafPath := by simpa using List.find?_some found
      have under : ∀ n ∈ leaves.map (toNode tile.path.bytes), bitsOf tile.path.bytes <+: n.id := by
        intro n listed
        obtain ⟨l, -, rfl⟩ := List.mem_map.mp listed
        rw [toNode_id, bitsOf_append]
        exact List.prefix_append _ _
      have some' : leaves.map (toNode tile.path.bytes) ≠ [] := by simpa using List.ne_nil_of_mem member
      obtain ⟨hash, top, roots⟩ := computes.root prepared some' (bitsOf_length _) under
      rw [roots] at accepted
      simp only at accepted
      split at accepted
      next => cases accepted
      next same =>
        obtain rfl := not_not.mp same
        refine ⟨(Outcome.ok.inj accepted).symm, ?_⟩
        -- The leaf leads to the tile's root.
        have given : given (leaves.map (toNode tile.path.bytes)) (bitsOf tile.path.bytes ++ bitsOf needLeafPath) =
            some needValue := by
          rw [given_eq_some prepared.distinct]
          refine List.mem_map.mpr ⟨leaf, member, ?_⟩
          rw [toNode, new_all, path, bitsOf_append, not_not.mp value]
        have up := @nodeAt_path _ libs.hasher.hashChildren (libs.hasher.hashEmpty v.treeID) _ _ _ _ given
        have levels : 8 * (tile.path.bytes.length + leaf.path.length) - 8 * tile.path.bytes.length =
            (bitsOf needLeafPath).length := by
          rw [bitsOf_length, path]
          omega
        rw [levels, up] at top
        exact ⟨_, (siblingsOf_length _ _).trans (bitsOf_length _), Option.some.inj top⟩

theorem checkTile_ok (lawful : libs.smt.Lawful) {need next : Slice × Bytes} {tile : Tile}
    (accepted : v.checkTile libs need (some tile) = .ok next) :
    next = (tile.path, tile.rootHash) ∧ tile.path.bytes <+: need.1.bytes ∧
      ∃ siblings, siblings.length = 8 * (need.1.bytes.length - tile.path.bytes.length) ∧
        pathRoot libs.hasher.hashChildren (bitsOf (need.1.bytes.drop tile.path.bytes.length)) siblings need.2 =
          tile.rootHash := by
  have start := checkTile_start accepted
  rw [checkTile_reads start] at accepted
  obtain ⟨needLeafPath, rest, accepted⟩ := Outcome.bind_eq_ok.mp accepted
  obtain ⟨leaves, -, accepted⟩ := Outcome.bind_eq_ok.mp accepted
  obtain ⟨made, siblings, length, path⟩ := checkLeaves_ok lawful accepted
  rw [Slice.from] at rest
  split at rest
  next short =>
    obtain rfl := Outcome.ok.inj rest
    rw [List.length_drop] at length
    refine ⟨made, ?_, siblings, length, path⟩
    exact List.prefix_of_prefix_length_le start (List.prefix_append _ _) short
  next => cases rest

end Rounds

section Walk

variable {libs : Libraries} {v : MapVerifier}

-- The tiles that were accepted make one path from the leaf up to where they end.
theorem walk_ok (lawful : libs.smt.Lawful) {tiles : List (Option Tile)} {need last : Slice × Bytes}
    (accepted : tiles.foldlM (v.checkTile libs) need = .ok last) :
    last.1.bytes <+: need.1.bytes ∧
      ∃ siblings, siblings.length = 8 * (need.1.bytes.length - last.1.bytes.length) ∧
        pathRoot libs.hasher.hashChildren (bitsOf (need.1.bytes.drop last.1.bytes.length)) siblings need.2 =
          last.2 := by
  induction tiles generalizing need with
  | nil =>
    obtain rfl := Outcome.ok.inj accepted
    exact ⟨List.prefix_rfl, [], by simp, by simp [pathRoot]⟩
  | cons tile rest ih =>
    rw [List.foldlM_cons] at accepted
    obtain ⟨next, first, others⟩ := Outcome.bind_eq_ok.mp accepted
    cases tile with
    | none => cases first
    | some tile =>
      obtain ⟨rfl, inside, siblings, length, path⟩ := checkTile_ok lawful first
      obtain ⟨higher, above, count, up⟩ := ih others
      simp only at higher count up
      refine ⟨higher.trans inside, above ++ siblings, ?_, ?_⟩
      · have upper := higher.length_le
        have lower := inside.length_le
        rw [List.length_append, length, count]
        omega
      · obtain ⟨more, split⟩ := inside
        have parts : need.1.bytes.drop last.1.bytes.length =
            tile.path.bytes.drop last.1.bytes.length ++ need.1.bytes.drop tile.path.bytes.length := by
          rw [← split, List.drop_append_of_le_length higher.length_le, List.drop_left]
        have sized : above.length = (bitsOf (tile.path.bytes.drop last.1.bytes.length)).length := by
          rw [count, bitsOf_length, List.length_drop]
        rw [parts, bitsOf_append, pathRoot_append sized, path, up]

theorem trusted_iff (lawful : libs.smt.Lawful) {tiles : List (Option Tile)} {need : Slice × Bytes} :
    v.Trusted libs need tiles ↔ (∀ reason, tiles.foldlM (v.checkTile libs) need ≠ .panic reason) ∧
      ∀ last, tiles.foldlM (v.checkTile libs) need = .ok last → last.1.bytes = [] := by
  induction tiles generalizing need with
  | nil => simp [MapVerifier.Trusted]
  | cons tile rest ih =>
    rw [List.foldlM_cons]
    cases tile with
    | none => simp [MapVerifier.Trusted, MapVerifier.checkTile, deref]
    | some tile =>
      have handled : tile.Handled need.1 ↔ ∀ reason, v.checkTile libs need (some tile) ≠ .panic reason := by
        rw [← not_iff_not, ← @checkTile_panics libs v]
        simp
      rw [MapVerifier.Trusted, handled]
      cases round : v.checkTile libs need (some tile) with
      | ok next =>
        obtain ⟨rfl, -⟩ := checkTile_ok lawful round
        simp [ih]
      | error reason => simp
      | panic reason => simp

theorem getTilesForKey_panics (rev : Int) {key : Slice} (short : v.prefixStrata < key.bytes.length) :
    (∃ reason, v.getTilesForKey rev key = .panic reason) ↔ v.prefixStrata < -1 := by
  unfold MapVerifier.getTilesForKey
  split
  next negative => simp; omega
  next positive =>
    have quiet : ∀ i ∈ List.range (v.prefixStrata + 1).toNat, ∀ reason, (do
        let tilePath ← key.upTo i
        .ofExcept (hideErr "failed to read tile %x @ revision %d: %v" (v.tileFetch rev tilePath))) ≠
          Outcome.panic reason := by
      intro i inside reason
      have bound := List.mem_range.mp inside
      rw [Slice.upTo, if_pos (by omega), Outcome.bind_ok]
      exact Outcome.ofExcept_ne_panic _ _
    constructor
    · rintro ⟨reason, panics⟩
      exact absurd panics (Outcome.mapM_ne_panic quiet reason)
    · intro negative
      omega

-- What a walk that ends at a path shows: the root commits to the value, or it is no root.
theorem walk_commits (lawful : libs.smt.Lawful) {key value : Bytes} {tiles : List (Option Tile)}
    {last : Slice × Bytes}
    (accepted : tiles.foldlM (v.checkTile libs) (v.digest key, v.expectedValueHash libs key value) = .ok last)
    (whole : last.1.bytes = []) : Commits libs.hasher v.treeID (v.digest key).bytes value last.2 := by
  obtain ⟨-, siblings, length, path⟩ := walk_ok lawful accepted
  rw [whole, List.length_nil, Nat.sub_zero] at length
  rw [whole, List.length_nil, List.drop_zero, MapVerifier.expectedValueHash, new_all] at path
  refine ⟨⟨siblings, length, path⟩, ?_⟩
  intro content binds root
  rw [← bitsOf_length] at length binds root
  exact binds.committed length (path.trans root.symm)

theorem walk_rootless (lawful : libs.smt.Lawful) {key value : Bytes} {tiles : List (Option Tile)}
    {last : Slice × Bytes}
    (accepted : tiles.foldlM (v.checkTile libs) (v.digest key, v.expectedValueHash libs key value) = .ok last)
    (inner : last.1.bytes ≠ []) {content : ID → Option Bytes}
    (binds : libs.hasher.Binds v.treeID content (8 * (v.digest key).bytes.length)) :
    libs.hasher.rootHash v.treeID content (8 * (v.digest key).bytes.length) ≠ last.2 := by
  obtain ⟨start, siblings, length, path⟩ := walk_ok lawful accepted
  rw [← path]
  have positive := List.length_pos_iff.mpr inner
  have bound := start.length_le
  refine (binds.deep ?_ ?_ _ _).symm
  · rw [length, bitsOf_length, List.length_drop]
  · rw [bitsOf_length, List.length_drop]
    simp only at bound ⊢
    omega

theorem checkInclusion_sound (libs : Libraries) (lawful : libs.smt.Lawful) (v : MapVerifier) (rev : Int)
    (key value : Bytes) (short : v.prefixStrata < (v.digest key).bytes.length) :
    (v.TrustedTiles libs rev key value →
      (∀ reason, v.checkInclusion libs rev key value ≠ .panic reason) ∧
        ∀ root, v.checkInclusion libs rev key value = .ok root →
          Commits libs.hasher v.treeID (v.digest key).bytes value root) ∧
    (¬ v.TrustedTiles libs rev key value →
      (∃ reason, v.checkInclusion libs rev key value = .panic reason) ∨
        ∃ root, v.checkInclusion libs rev key value = .ok root ∧
          ∀ content, libs.hasher.Binds v.treeID content (8 * (v.digest key).bytes.length) →
            libs.hasher.rootHash v.treeID content (8 * (v.digest key).bytes.length) ≠ root) := by
  have loads := @getTilesForKey_panics v rev _ short
  cases loaded : v.getTilesForKey rev (v.digest key) with
  | panic reason =>
    have negative : v.prefixStrata < -1 := loads.mp ⟨reason, loaded⟩
    refine ⟨fun trusted => absurd trusted.1 (by omega), fun _ => .inl ⟨reason, ?_⟩⟩
    rw [MapVerifier.checkInclusion, loaded]
  | error reason =>
    have strata : ¬ v.prefixStrata < -1 := by simp [← loads, loaded]
    have failed : v.checkInclusion libs rev key value = .error (.text "couldn't load tiles: %v") := by
      rw [MapVerifier.checkInclusion, loaded]
    refine ⟨fun _ => by simp [failed], fun distrusted => absurd ⟨by omega, fun tiles read => ?_⟩ distrusted⟩
    rw [loaded] at read
    cases read
  | ok tiles =>
    have strata : ¬ v.prefixStrata < -1 := by simp [← loads, loaded]
    have trusts : v.TrustedTiles libs rev key value ↔
        v.Trusted libs (v.digest key, v.expectedValueHash libs key value) tiles.reverse := by
      simp [MapVerifier.TrustedTiles, Int.not_lt.mp strata, loaded]
    have walks : v.checkInclusion libs rev key value = (do
        let need ← tiles.reverse.foldlM (v.checkTile libs) (v.digest key, v.expectedValueHash libs key value)
        .ok need.2) := by rw [MapVerifier.checkInclusion, loaded]
    rw [trusts, trusted_iff lawful, walks]
    cases walked : tiles.reverse.foldlM (v.checkTile libs) (v.digest key, v.expectedValueHash libs key value) with
    | panic reason => simp
    | error reason => simp
    | ok last =>
      simp only [Outcome.bind_ok]
      refine ⟨fun trusted => ⟨by simp, ?_⟩, fun distrusted => .inr ⟨last.2, rfl, ?_⟩⟩
      · intro root same
        obtain rfl := Outcome.ok.inj same
        exact walk_commits lawful walked (trusted.2 last rfl)
      · intro content binds
        refine walk_rootless lawful walked (fun whole => distrusted ⟨by simp, ?_⟩) binds
        intro other same
        obtain rfl := Outcome.ok.inj same
        exact whole

end Walk

section OneLeaf

variable (libs : Libraries) (treeID : Int)

-- The tile at `path` with one leaf below it.
def oneLeafTile (path rest hash : Bytes) : Tile :=
  ⟨⟨path, []⟩, [some ⟨rest, hash⟩],
    hashAt libs.hasher.hashChildren (libs.hasher.hashEmpty treeID) (given [⟨bitsOf (path ++ rest), hash⟩])
      (8 * rest.length) (bitsOf path)⟩

variable {libs treeID}

theorem oneLeafTile_accepted (lawful : libs.smt.Lawful) (v : MapVerifier) (path rest spare hash : Bytes) :
    v.checkTile libs (⟨path ++ rest, spare⟩, hash) (some (oneLeafTile libs v.treeID path rest hash)) =
      .ok (⟨path, []⟩, (oneLeafTile libs v.treeID path rest hash).rootHash) := by
  have prepared : Prepared ([⟨rest, hash⟩].map (toNode path)) (8 * (path.length + rest.length))
    (8 * path.length) := by
    refine ⟨by omega, ?_, List.nodup_singleton _⟩
    intro n listed
    obtain rfl := List.mem_singleton.mp listed
    rw [toNode_id, bitsOf_length, List.length_append]
  obtain ⟨hs, new⟩ := (lawful.new _ libs.hasher.hashChildren _ _).mpr prepared
  obtain ⟨u, updated, computes⟩ := lawful.update _ _ _ _ hs (libs.hasher.hashEmpty v.treeID) new
  obtain ⟨root, top, roots⟩ := computes.root prepared (by simp) (bitsOf_length path) (by simp [toNode_id])
  have levels : 8 * (path.length + rest.length) - 8 * path.length = 8 * rest.length := by omega
  rw [levels, List.map_singleton, toNode, new_all] at top
  have rootHash : (oneLeafTile libs v.treeID path rest hash).rootHash = root := by
    rw [oneLeafTile, hashAt, top, Option.getD_some]
  have checked : v.checkLeaves libs (oneLeafTile libs v.treeID path rest hash) [⟨rest, hash⟩] rest hash =
      .ok (⟨path, []⟩, root) := by
    have found : [(⟨rest, hash⟩ : TileLeaf)].reverse.find? (fun l => l.path = rest) = some ⟨rest, hash⟩ := by simp
    have here : (oneLeafTile libs v.treeID path rest hash).path = ⟨path, []⟩ := rfl
    simp only [MapVerifier.checkLeaves, found, here, new, updated, roots, rootHash, hideErr, Except.mapError,
      Outcome.ofExcept_ok, Outcome.bind_ok, ne_eq, not_true, if_false]
  have read : Slice.from ⟨path ++ rest, spare⟩ path.length = .ok rest := by
    rw [Slice.from, if_pos (by simp), List.drop_left]
  have leaves : (oneLeafTile libs v.treeID path rest hash).leaves.mapM deref = .ok [⟨rest, hash⟩] := rfl
  have start : (oneLeafTile libs v.treeID path rest hash).path.bytes <+: path ++ rest ++ spare := by
    simp [oneLeafTile]
  have size : (oneLeafTile libs v.treeID path rest hash).path.bytes.length = path.length := rfl
  rw [checkTile_reads start, size, read, Outcome.bind_ok, leaves, Outcome.bind_ok, checked, rootHash]

def sampleLibraries : Libraries := ⟨.tagged, .reference⟩

-- SHA-512/256 of the empty string.
def emptyDigest : Bytes :=
  [198, 114, 184, 209, 239, 86, 237, 40, 171, 135, 195, 98, 44, 81, 20, 6, 155, 221, 58, 215, 184, 249, 115, 116, 152,
    208, 192, 30, 206, 240, 150, 122]

def oneTileVerifier (tile : Option Tile) : MapVerifier where
  tileFetch _ _ := .ok tile
  prefixStrata := 0
  treeID := 1
  digest _ := ⟨emptyDigest, []⟩

-- What the leaf at the empty key has to be for the value 9.
def nineHash : Bytes := Merkle.LogHasher.fit [0, 9]

-- The map with that leaf alone, in a tile for its first byte and one below it.
def lowerTile : Tile := oneLeafTile sampleLibraries 1 [198] emptyDigest.tail nineHash

def upperTile : Tile := oneLeafTile sampleLibraries 1 [] [198] lowerTile.rootHash

def twoTileVerifier : MapVerifier where
  tileFetch _ path := .ok (some (if path = [] then upperTile else lowerTile))
  prefixStrata := 1
  treeID := 1
  digest _ := ⟨emptyDigest, []⟩

theorem twoTiles_loaded :
    twoTileVerifier.getTilesForKey 0 ⟨emptyDigest, []⟩ = .ok [some upperTile, some lowerTile] := rfl

theorem twoTiles_walk : [some lowerTile, some upperTile].foldlM (twoTileVerifier.checkTile sampleLibraries)
    (⟨emptyDigest, []⟩, nineHash) = .ok (⟨[], []⟩, upperTile.rootHash) := by
  have lower : twoTileVerifier.checkTile sampleLibraries (⟨emptyDigest, []⟩, nineHash) (some lowerTile) =
      .ok (⟨[198], []⟩, lowerTile.rootHash) :=
    oneLeafTile_accepted reference_lawful twoTileVerifier [198] emptyDigest.tail [] nineHash
  have upper : twoTileVerifier.checkTile sampleLibraries (⟨[198], []⟩, lowerTile.rootHash) (some upperTile) =
      .ok (⟨[], []⟩, upperTile.rootHash) :=
    oneLeafTile_accepted reference_lawful twoTileVerifier [] [198] [] lowerTile.rootHash
  rw [List.foldlM_cons, lower, Outcome.bind_ok, List.foldlM_cons, upper]
  rfl

theorem checkInclusion_sound_chained :
    twoTileVerifier.checkInclusion sampleLibraries 0 [] [9] = .ok upperTile.rootHash ∧
      Commits sampleLibraries.hasher 1 emptyDigest [9] upperTile.rootHash := by
  have trusted : twoTileVerifier.TrustedTiles sampleLibraries 0 [] [9] := by
    refine ⟨by decide, ?_⟩
    intro tiles loaded
    obtain rfl := Outcome.ok.inj (twoTiles_loaded.symm.trans loaded)
    refine (trusted_iff reference_lawful).mpr ⟨?_, ?_⟩
    · intro reason panics
      cases twoTiles_walk.symm.trans panics
    · intro last walked
      obtain rfl := Outcome.ok.inj (twoTiles_walk.symm.trans walked)
      rfl
  have checked : twoTileVerifier.checkInclusion sampleLibraries 0 [] [9] = .ok upperTile.rootHash :=
    Outcome.bind_eq_ok.mpr ⟨_, twoTiles_walk, rfl⟩
  have sound := (checkInclusion_sound sampleLibraries reference_lawful twoTileVerifier 0 [] [9] (by decide)).1 trusted
  exact ⟨checked, sound.2 _ checked⟩

theorem oneTile_walk {path rest : Bytes} (split : path ++ rest = emptyDigest) :
    [some (oneLeafTile sampleLibraries 1 path rest nineHash)].foldlM
        ((oneTileVerifier (some (oneLeafTile sampleLibraries 1 path rest nineHash))).checkTile sampleLibraries)
        (⟨emptyDigest, []⟩, nineHash) =
      .ok (⟨path, []⟩, (oneLeafTile sampleLibraries 1 path rest nineHash).rootHash) := by
  have accepted := @oneLeafTile_accepted sampleLibraries reference_lawful
    (oneTileVerifier (some (oneLeafTile sampleLibraries 1 path rest nineHash))) path rest [] nineHash
  rw [split] at accepted
  rw [List.foldlM_cons]
  exact Outcome.bind_eq_ok.mpr ⟨_, accepted, rfl⟩

theorem oneTile_checked {path rest : Bytes} (split : path ++ rest = emptyDigest) :
    (oneTileVerifier (some (oneLeafTile sampleLibraries 1 path rest nineHash))).checkInclusion
      sampleLibraries 0 [] [9] =
      .ok (oneLeafTile sampleLibraries 1 path rest nineHash).rootHash :=
  Outcome.bind_eq_ok.mpr ⟨_, oneTile_walk split, rfl⟩

theorem oneLeafTile_leaf (path hash : Bytes) : (oneLeafTile libs treeID path [] hash).rootHash = hash := by
  simp [oneLeafTile, hashAt, nodeAt, given]

-- A leaf that is served as a tile of its own is taken for the root of the map, and a missing tile panics.
theorem leaf_taken_for_root :
    ((oneTileVerifier (some (oneLeafTile sampleLibraries 1 emptyDigest [] nineHash))).checkInclusion
        sampleLibraries 0 [] [9] = .ok nineHash ∧
      ¬ Commits sampleLibraries.hasher 1 emptyDigest [9] nineHash) ∧
    (oneTileVerifier none).checkInclusion sampleLibraries 0 [] [9] =
      .panic "invalid memory address or nil pointer dereference" := by
  have taken := oneTile_checked (List.append_nil emptyDigest)
  rw [oneLeafTile_leaf] at taken
  refine ⟨⟨taken, ?_⟩, rfl⟩
  rintro ⟨⟨siblings, length, path⟩, -⟩
  -- The root of a map is the hash of two children.
  have first : (bitsOf emptyDigest).length = siblings.length := by rw [length, bitsOf_length]
  cases bits : bitsOf emptyDigest with
  | nil =>
    have size := congrArg List.length bits
    rw [bitsOf_length] at size
    cases size
  | cons bit bits' =>
    rw [bits] at first path
    cases siblings with
    | nil => cases first
    | cons sibling siblings =>
      have head := congrArg List.head? path
      cases bit <;> simp [pathRoot, above, sampleLibraries, Hasher.tagged, nineHash, Merkle.LogHasher.fit] at head

end OneLeaf

end BatchMap
