import TrillianServerless.Serverless.Client

set_option autoImplicit false

namespace Serverless

open Go Merkle Checkpoints

section Build

variable {W : Type}

/-- Every complete node of a log of size `n` has its value `v` in the tile that is read for it. -/
def TilesCorrect (getTile : GetTileFunc W) (w : W) (n : Nat) (v : NodeID → Bytes) : Prop :=
  ∀ id : NodeID, id.stop ≤ n →
    ∃ tile, getTile (tileOf id).1 (tileOf id).2 w = (.ok tile, w) ∧
      tile.nodes[slotOf id]? = some (some (v id))

-- The cache holds only tiles as they are read, and nothing in the place of a complete node.
structure Session.Clean (getTile : GetTileFunc W) (w : W) (n : Nat) (s : Session W) : Prop where
  world : s.world = w
  ephemeral : ∀ id : NodeID, id.stop ≤ n → s.cache.ephemeral id = []
  tiles : ∀ key tile, s.cache.tiles key = some tile → getTile key.1 key.2 w = (.ok tile, w)

variable {getTile : GetTileFunc W} {w : W} {n : Nat} {v : NodeID → Bytes}

theorem cachedTile_clean {s : Session W} (clean : s.Clean getTile w n) {key : TileKey} {tile : Tile}
    (read : getTile key.1 key.2 w = (.ok tile, w)) :
    ∃ s', cachedTile getTile key s = (.ok tile, s') ∧ s'.Clean getTile w n := by
  unfold cachedTile
  cases cached : s.cache.tiles key with
  | some other =>
    have same : other = tile := by
      have := clean.tiles key other cached
      rw [read] at this
      simpa using this.symm
    exact ⟨s, by simp [same], clean⟩
  | none =>
    refine ⟨⟨w, s.cache.addTile key tile⟩, by simp [clean.world, read], rfl, clean.ephemeral, ?_⟩
    intro other found stored
    by_cases same : other = key
    · subst same
      simp only [NodeCache.addTile, Function.update_self, Option.some.injEq] at stored
      rw [← stored, read]
    · simp only [NodeCache.addTile, Function.update_of_ne same] at stored
      exact clean.tiles other found stored

theorem getNode_complete (correct : TilesCorrect getTile w n v) {s : Session W}
    (clean : s.Clean getTile w n) {id : NodeID} (complete : id.stop ≤ n) :
    ∃ s', getNode getTile id s = (.ok (v id), s') ∧ s'.Clean getTile w n := by
  obtain ⟨tile, read, slot⟩ := correct id complete
  obtain ⟨s', cached, clean'⟩ := cachedTile_clean clean read
  refine ⟨s', ?_, clean'⟩
  rw [getNode, if_neg (by simp [clean.ephemeral id complete]), Eff.bind_of_ok cached]
  simp [Eff.ofExcept, nodeIn, slot]

theorem getNodes_complete (correct : TilesCorrect getTile w n v) (message : String)
    {ids : List NodeID} (complete : ∀ id ∈ ids, id.stop ≤ n) (s : Session W)
    (clean : s.Clean getTile w n) :
    ∃ s', Eff.each (fun id => (getNode getTile id).wrap message) ids s = (.ok (ids.map v), s') ∧
      s'.Clean getTile w n := by
  refine Eff.each_ok (fun id member s clean => ?_) s clean
  obtain ⟨s', got, clean'⟩ := getNode_complete correct clean (complete id member)
  exact ⟨s', Eff.wrap_eq_ok.mpr got, clean'⟩

theorem empty_clean : Session.Clean getTile w n ⟨w, .empty⟩ :=
  ⟨rfl, fun _ _ => rfl, fun _ _ stored => by simp [NodeCache.empty] at stored⟩

theorem fetchRangeNodes_correct {deps : Deps} (lawful : Compact.Lawful deps.compact)
    (correct : TilesCorrect getTile w n v) :
    fetchRangeNodes deps n getTile w = (.ok ((cover 0 n).map v), w) := by
  have complete : ∀ id ∈ cover 0 n, id.stop ≤ n := fun id member =>
    ((mem_cover_iff 0 n id).mp member).1.2
  have round : ∀ id ∈ cover 0 n, ∀ s : Session W, s.Clean getTile w n →
      ∃ s', getNode getTile id s = (.ok (v id), s') ∧ s'.Clean getTile w n :=
    fun id member s clean => getNode_complete correct clean (complete id member)
  obtain ⟨s', fetched, clean⟩ := Eff.each_ok round ⟨w, .empty⟩ empty_clean
  simp only [fetchRangeNodes, lawful.rangeNodes 0 n (Nat.zero_le n), fetched, clean.world]

section Reading

variable (readOnly : ∀ level index w', (getTile level index w').2 = w')

include readOnly

theorem cachedTile_keeps (key : TileKey) :
    Eff.Keeps (Session.Clean getTile w n) (cachedTile getTile key) := by
  intro s clean
  unfold cachedTile
  cases cached : s.cache.tiles key with
  | some tile => exact clean
  | none =>
    have same := readOnly key.1 key.2 s.world
    rcases read : getTile key.1 key.2 s.world with ⟨tile | reason | reason, w'⟩
    · rw [read] at same
      obtain rfl : w' = s.world := same
      rw [clean.world] at read
      obtain ⟨s', ran, kept⟩ := cachedTile_clean clean read
      unfold cachedTile at ran
      simp only [cached, clean.world, read] at ran
      simpa [clean.world, (Prod.mk.inj ran).2] using kept
    · rw [read] at same
      exact ⟨same.trans clean.world, clean.ephemeral, clean.tiles⟩
    · rw [read] at same
      exact ⟨same.trans clean.world, clean.ephemeral, clean.tiles⟩

theorem getNode_keeps (id : NodeID) : Eff.Keeps (Session.Clean getTile w n) (getNode getTile id) := by
  intro s clean
  unfold getNode
  split
  · exact clean
  · exact (cachedTile_keeps readOnly (tileOf id)).bind (fun _ => Eff.keeps_lift _) s clean

-- A tile that the cache gives out has been read.
theorem cachedTile_read {s s' : Session W} (clean : s.Clean getTile w n) {key : TileKey} {tile : Tile}
    (ran : cachedTile getTile key s = (.ok tile, s')) : getTile key.1 key.2 w = (.ok tile, w) := by
  unfold cachedTile at ran
  cases cached : s.cache.tiles key with
  | some other =>
    simp only [cached, Prod.mk.injEq, Outcome.ok.injEq] at ran
    rw [← ran.1]
    exact clean.tiles key other cached
  | none =>
    rw [cached] at ran
    have same := readOnly key.1 key.2 s.world
    rcases read : getTile key.1 key.2 s.world with ⟨other | reason | reason, w'⟩
    · rw [read] at ran same
      obtain rfl : w' = s.world := same
      obtain rfl := Outcome.ok.inj (Prod.mk.inj ran).1
      rwa [clean.world] at read
    · simp [read] at ran
    · simp [read] at ran

theorem fetchRangeNodes_readOnly (deps : Deps) : (fetchRangeNodes deps n getTile w).2 = w :=
  (Eff.Keeps.each (getNode_keeps readOnly) _ ⟨w, .empty⟩ (empty_clean (n := n))).world

/-- The range nodes can be fetched only when all the tiles they are in can be read. -/
theorem fetchRangeNodes_read {deps : Deps} (lawful : Compact.Lawful deps.compact) {hashes : List Bytes}
    {w' : W} (fetched : fetchRangeNodes deps n getTile w = (.ok hashes, w')) {id : NodeID}
    (member : id ∈ cover 0 n) : ∃ tile, getTile (tileOf id).1 (tileOf id).2 w = (.ok tile, w) := by
  have ran : (Eff.each (getNode getTile) (deps.compact.rangeNodes 0 n) ⟨w, .empty⟩).1 = .ok hashes :=
    congrArg Prod.fst fetched
  rw [← lawful.rangeNodes 0 n (Nat.zero_le n)] at member
  obtain ⟨s, hash, s', clean, got⟩ :=
    Eff.Keeps.each_rounds (getNode_keeps readOnly) (empty_clean (n := n)) (Prod.ext ran rfl)
      member
  rw [lawful.rangeNodes 0 n (Nat.zero_le n), mem_cover_iff] at member
  rw [getNode, if_neg (by simp [clean.ephemeral id member.1.2])] at got
  obtain ⟨tile, s1, cached, _⟩ := Eff.bind_eq_ok.mp got
  exact ⟨tile, cachedTile_read readOnly clean cached⟩

end Reading

theorem ephemeral_outside {visits : List Compact.Visit}
    (outside : ∀ visit ∈ visits, ¬ visit.1.Within 0 n) (cache : NodeCache) {id : NodeID}
    (complete : id.stop ≤ n) :
    (visits.foldl (fun cache visit => cache.setEphemeralNode visit.1 visit.2) cache).ephemeral id =
      cache.ephemeral id := by
  induction visits generalizing cache with
  | nil => rfl
  | cons visit rest ih =>
    have other : id ≠ visit.1 := by
      intro same
      exact outside visit (by simp) ⟨Nat.zero_le _, by rwa [← same]⟩
    rw [List.foldl_cons, ih (fun visit member => outside visit (by simp [member]))]
    simp [NodeCache.setEphemeralNode, Function.update_of_ne other]

theorem ephemeral_tiles (visits : List Compact.Visit) (cache : NodeCache) :
    (visits.foldl (fun cache visit => cache.setEphemeralNode visit.1 visit.2) cache).tiles =
      cache.tiles := by
  induction visits generalizing cache with
  | nil => rfl
  | cons visit rest ih => rw [List.foldl_cons, ih]; rfl

theorem newProofBuilder_correct {deps : Deps} (lawful : Compact.Lawful deps.compact)
    (cp : Checkpoint) (hash : Compact.HashFn) {f : Fetcher W}
    (correct : TilesCorrect (newTileFetcher f cp.size) w cp.size v)
    (root : cp.hash = rangeRoot hash [] ((cover 0 cp.size).map v)) :
    ∃ pb, newProofBuilder deps cp hash f w = (.ok pb, w) ∧ pb.cp = cp ∧ pb.h = hash ∧
      pb.getTile = newTileFetcher f cp.size ∧
      (pb.session w).Clean (newTileFetcher f cp.size) w cp.size := by
  have fetched := fetchRangeNodes_correct lawful correct
  have made := lawful.newRange_ok 0 cp.size ((cover 0 cp.size).map v) (Nat.zero_le _) (by simp)
  have hashed := lawful.getRootHash hash ⟨0, cp.size, (cover 0 cp.size).map v⟩ rfl
  have outside := lawful.ephemeral hash ⟨0, cp.size, (cover 0 cp.size).map v⟩ rfl (by simp)
  rw [newProofBuilder, Eff.bind_of_ok (Eff.wrap_eq_ok.mpr fetched)]
  rw [made, Eff.bind_of_ok (Eff.ofExcept_ok _ w)]
  dsimp only
  rw [hashed, Eff.bind_of_ok (Eff.ofExcept_ok _ w), if_pos root]
  refine ⟨_, rfl, rfl, rfl, rfl, rfl, ?_, ?_⟩
  · intro id complete
    exact ephemeral_outside outside .empty complete
  · intro key tile stored
    simp only [ProofBuilder.session, ephemeral_tiles] at stored
    simp [NodeCache.empty] at stored

inductive Request where
  | inclusion (index : Nat)
  | consistency (smaller larger : Nat)

def Request.Valid (n : Nat) : Request → Prop
  | .inclusion index => index < n
  | .consistency smaller larger => 0 < smaller ∧ smaller ≤ larger ∧ larger ≤ n

def ProofBuilder.answer (deps : Deps) (pb : ProofBuilder W) : Request → Eff (Session W) (List Bytes)
  | .inclusion index => pb.inclusionProof deps index
  | .consistency smaller larger => pb.consistencyProof deps smaller larger

def Request.Accepts (deps : Deps) (h : LogHasher) (entries : List Bytes) (proof : List Bytes) :
    Request → Prop
  | .inclusion index => deps.proofs.verifyInclusion h index entries.length (h.leafOf entries index)
      proof (h.logRoot entries) = .ok ()
  | .consistency smaller larger => deps.proofs.verifyConsistency h smaller larger proof
      (h.logRoot (entries.take smaller)) (h.logRoot (entries.take larger)) = .ok ()

theorem fetchNodes_correct {deps : Deps} (pb : ProofBuilder W)
    (correct : TilesCorrect pb.getTile w n v) {nodes : deps.proofs.Nodes} {proof : List Bytes}
    (complete : ∀ id ∈ deps.proofs.ids nodes, id.stop ≤ n)
    (rehashed : deps.proofs.rehash nodes ((deps.proofs.ids nodes).map v) pb.h = .ok proof)
    {s : Session W} (clean : s.Clean pb.getTile w n) :
    ∃ s', pb.fetchNodes deps nodes s = (.ok proof, s') ∧ s'.Clean pb.getTile w n := by
  obtain ⟨s', got, clean'⟩ := getNodes_complete correct "failed to get node (%v): %w" complete s
    clean
  refine ⟨s', ?_, clean'⟩
  rw [ProofBuilder.fetchNodes, Eff.bind_of_ok got, rehashed]
  rfl

theorem answer_accepted {deps : Deps} (lawful : ProofPackage.Lawful deps.proofs) {h : LogHasher}
    {entries : List Bytes} {pb : ProofBuilder W} (size : pb.cp.size = entries.length)
    (hash : pb.h = h.hashChildren)
    (correct : TilesCorrect pb.getTile w entries.length (h.logNode entries)) {r : Request}
    (valid : r.Valid entries.length) {s : Session W} (clean : s.Clean pb.getTile w entries.length) :
    ∃ proof s', pb.answer deps r s = (.ok proof, s') ∧ r.Accepts deps h entries proof ∧
      s'.Clean pb.getTile w entries.length := by
  cases r with
  | inclusion index =>
    obtain ⟨nodes, proof, listed, within, rehashed, accepted⟩ := lawful.inclusion h entries index valid
    obtain ⟨s', fetched, clean'⟩ := fetchNodes_correct pb correct
      (fun id member => (within id member).2) (by rw [hash]; exact rehashed) clean
    refine ⟨proof, s', ?_, accepted, clean'⟩
    rw [ProofBuilder.answer, ProofBuilder.inclusionProof, size, listed,
      Eff.bind_of_ok (Eff.wrap_eq_ok.mpr (Eff.ofExcept_ok nodes s)), fetched]
  | consistency smaller larger =>
    obtain ⟨positive, order, bound⟩ := valid
    obtain ⟨nodes, proof, listed, within, rehashed, accepted⟩ :=
      lawful.consistency h entries smaller larger positive order bound
    obtain ⟨s', fetched, clean'⟩ := fetchNodes_correct pb correct
      (fun id member => Nat.le_trans (within id member).2 bound) (by rw [hash]; exact rehashed) clean
    refine ⟨proof, s', ?_, accepted, clean'⟩
    rw [ProofBuilder.answer, ProofBuilder.consistencyProof, listed,
      Eff.bind_of_ok (Eff.wrap_eq_ok.mpr (Eff.ofExcept_ok nodes s)), fetched]

-- The builder's state after it has answered some requests.
def ProofBuilder.afterRequests (deps : Deps) (pb : ProofBuilder W) (earlier : List Request)
    (s : Session W) : Session W :=
  earlier.foldl (fun s r => (pb.answer deps r s).2) s

theorem afterRequests_clean {deps : Deps} (lawful : ProofPackage.Lawful deps.proofs) {h : LogHasher}
    {entries : List Bytes} {pb : ProofBuilder W} (size : pb.cp.size = entries.length)
    (hash : pb.h = h.hashChildren)
    (correct : TilesCorrect pb.getTile w entries.length (h.logNode entries)) {earlier : List Request}
    (valid : ∀ r ∈ earlier, r.Valid entries.length) {s : Session W}
    (clean : s.Clean pb.getTile w entries.length) :
    (pb.afterRequests deps earlier s).Clean pb.getTile w entries.length := by
  induction earlier generalizing s with
  | nil => exact clean
  | cons r rest ih =>
    obtain ⟨proof, s', answered, _, clean'⟩ :=
      answer_accepted lawful size hash correct (valid r (by simp)) clean
    rw [ProofBuilder.afterRequests, List.foldl_cons, answered]
    exact ih (fun r member => valid r (by simp [member])) clean'

/-- Over correct tiles the proof builder can be made, and whatever it was asked before, it answers every
request with a proof that is accepted. -/
theorem proofBuilder_answers {deps : Deps} (compactLaws : Compact.Lawful deps.compact)
    (proofLaws : ProofPackage.Lawful deps.proofs) {h : LogHasher} {entries : List Bytes}
    (nonempty : 0 < entries.length) (f : Fetcher W) {w : W} {cp : Checkpoint}
    (size : cp.size = entries.length) (root : cp.hash = h.logRoot entries)
    (correct : TilesCorrect (newTileFetcher f entries.length) w entries.length (h.logNode entries)) :
    ∃ pb, newProofBuilder deps cp h.hashChildren f w = (.ok pb, w) ∧
      ∀ earlier : List Request, (∀ r ∈ earlier, r.Valid entries.length) →
        ∀ r : Request, r.Valid entries.length →
          ∃ proof, (pb.answer deps r (pb.afterRequests deps earlier (pb.session w))).1 = .ok proof ∧
            r.Accepts deps h entries proof := by
  have emptyRoot : h.logRoot entries =
      rangeRoot h.hashChildren [] ((cover 0 entries.length).map (h.logNode entries)) := by
    rw [h.rangeRoot_logNode, LogHasher.logRoot, treeHash_empty _ _ [] (by simpa using nonempty)]
  obtain ⟨pb, built, checkpoint, hash, tiles, clean⟩ := newProofBuilder_correct compactLaws cp
    h.hashChildren (by rw [size]; exact correct) (by rw [root, size, emptyRoot])
  rw [size] at tiles clean
  rw [← tiles] at clean correct
  have pbSize : pb.cp.size = entries.length := by rw [checkpoint, size]
  refine ⟨pb, built, fun earlier before r valid => ?_⟩
  have later := afterRequests_clean proofLaws pbSize hash correct before clean
  obtain ⟨proof, s', answered, accepted, _⟩ := answer_accepted proofLaws pbSize hash correct valid later
  exact ⟨proof, congrArg Prod.fst answered, accepted⟩

theorem proofBuilder_complete (deps : Deps) (compactLaws : Compact.Lawful deps.compact)
    (proofLaws : ProofPackage.Lawful deps.proofs) (h : LogHasher) (entries : List Bytes)
    (nonempty : 0 < entries.length) (f : Fetcher W) (w : W) (cp : Checkpoint)
    (size : cp.size = entries.length) (root : cp.hash = h.logRoot entries)
    (correct : TilesCorrect (newTileFetcher f entries.length) w entries.length (h.logNode entries)) :
    ∃ pb, newProofBuilder deps cp h.hashChildren f w = (.ok pb, w) ∧
      ∀ earlier : List Request, (∀ r ∈ earlier, r.Valid entries.length) →
        let s := pb.afterRequests deps earlier (pb.session w)
        (∀ i < entries.length, ∃ proof, (pb.inclusionProof deps i s).1 = .ok proof ∧
          deps.proofs.verifyInclusion h i entries.length (h.leafOf entries i) proof
            (h.logRoot entries) = .ok ()) ∧
        ∀ smaller larger, 0 < smaller → smaller ≤ larger → larger ≤ entries.length →
          ∃ proof, (pb.consistencyProof deps smaller larger s).1 = .ok proof ∧
            deps.proofs.verifyConsistency h smaller larger proof
              (h.logRoot (entries.take smaller)) (h.logRoot (entries.take larger)) = .ok () := by
  obtain ⟨pb, built, answers⟩ := proofBuilder_answers compactLaws proofLaws nonempty f size root correct
  refine ⟨pb, built, fun earlier valid => ?_⟩
  dsimp only
  constructor
  · intro i bound
    exact answers earlier valid (.inclusion i) bound
  · intro smaller larger positive order bound
    exact answers earlier valid (.consistency smaller larger) ⟨positive, order, bound⟩

end Build

section Reference

def referenceDeps : Deps := ⟨Compact.reference, ProofPackage.reference⟩

def hashOne : Bytes := LogHasher.padded.hashLeaf [1]
def hashTwo : Bytes := LogHasher.padded.hashLeaf [2]
def hashPair : Bytes := LogHasher.padded.hashChildren hashOne hashTwo

def pairTile : Tile := ⟨2, [some hashOne, some hashPair, some hashTwo]⟩

def pairLog : Fetcher Unit := fun path w =>
  if path = .tile 0 0 2 then (.ok pairTile.marshalText, w) else (.error .notExist, w)

theorem pairLog_correct :
    TilesCorrect (newTileFetcher pairLog 2) () 2 (LogHasher.padded.logNode [[1], [2]]) := by
  rintro ⟨level, index⟩ complete
  have read : newTileFetcher pairLog 2 0 0 () = (.ok pairTile, ()) := by decide +kernel
  have bound : (index + 1) * 2 ^ level ≤ 2 := complete
  match level with
  | 0 =>
    match index with
    | 0 => exact ⟨pairTile, read, by decide +kernel⟩
    | 1 => exact ⟨pairTile, read, by decide +kernel⟩
    | index + 2 => omega
  | 1 =>
    match index with
    | 0 => exact ⟨pairTile, read, by decide +kernel⟩
    | index + 1 => omega
  | level + 2 =>
    have large : 2 ^ (level + 2) = 2 ^ level * 4 := pow_add 2 level 2
    have positive := Nat.two_pow_pos level
    have wide := Nat.le_mul_of_pos_left (2 ^ (level + 2)) (show 0 < index + 1 by omega)
    omega

theorem logRoot_pair : LogHasher.padded.logRoot [[1], [2]] = hashPair := by
  rw [LogHasher.logRoot, treeHash_split _ _ (by decide)]
  have split : splitPoint (List.map LogHasher.padded.hashLeaf [[1], [2]]).length = 1 :=
    splitPoint_eq (l := 0) (by decide) (by decide)
  rw [split]
  simp [hashPair, hashOne, hashTwo]

theorem proofBuilder_complete_pair :
    ∃ pb, newProofBuilder referenceDeps ⟨"example log", 2, hashPair⟩ LogHasher.padded.hashChildren
        pairLog () = (.ok pb, ()) ∧
      ∃ proof, (pb.inclusionProof referenceDeps 1 (pb.session ())).1 = .ok proof ∧
        referenceDeps.proofs.verifyInclusion LogHasher.padded 1 2
          (LogHasher.padded.leafOf [[1], [2]] 1) proof (LogHasher.padded.logRoot [[1], [2]]) =
            .ok () := by
  obtain ⟨pb, built, proofs⟩ := proofBuilder_complete referenceDeps
    Compact.reference_lawful ProofPackage.reference_lawful LogHasher.padded [[1], [2]] (by decide)
    pairLog () ⟨"example log", 2, hashPair⟩ rfl logRoot_pair.symm pairLog_correct
  exact ⟨pb, built, (proofs [] (by simp)).1 1 (by decide)⟩

end Reference

end Serverless
