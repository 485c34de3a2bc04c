import TrillianServerless.Serverless.Ranges
import TrillianServerless.Serverless.ProofBuilder
import TrillianServerless.Shared.TreeBinding

set_option autoImplicit false

namespace Serverless

open Go Merkle Checkpoints

section Graft

variable (h : LogHasher)

-- The hashes of a range with leaf hashes appended one by one.
def appendLeaves (n : Nat) (hashes leaves : List Bytes) : List Bytes :=
  let stack := ((cover 0 n).zip hashes).reverse
  let nodes := (leaves.zipIdx n).map fun leaf => ((⟨0, leaf.2⟩ : NodeID), leaf.1)
  (pushNodes h.hashChildren stack nodes).1.reverse.map Prod.snd

-- The tree that has the given nodes up to leaf `n` and new leaves after it.
def graftAt (base : NodeID → Bytes) (n : Nat) (leaf : Nat → Bytes) : Nat → Nat → Bytes
  | 0, i => if i < n then base ⟨0, i⟩ else leaf i
  | l + 1, i =>
    if (i + 1) * 2 ^ (l + 1) ≤ n then base ⟨l + 1, i⟩
    else h.hashChildren (graftAt base n leaf l (2 * i)) (graftAt base n leaf l (2 * i + 1))

def graft (base : NodeID → Bytes) (n : Nat) (leaf : Nat → Bytes) (id : NodeID) : Bytes :=
  graftAt h base n leaf id.level id.index

theorem graft_old (base : NodeID → Bytes) {n : Nat} (leaf : Nat → Bytes) {id : NodeID}
    (complete : id.stop ≤ n) : graft h base n leaf id = base id := by
  obtain ⟨level, index⟩ := id
  cases level with
  | zero =>
    rw [NodeID.leaf_stop] at complete
    exact if_pos complete
  | succ level => exact if_pos complete

theorem graft_parents (base : NodeID → Bytes) (n : Nat) (leaf : Nat → Bytes) :
    ParentsHash h.hashChildren (graft h base n leaf) fun id => n < id.stop := by
  intro l i gained
  exact if_neg (Nat.not_le.mpr gained)

def rangeValue (n : Nat) (hashes : List Bytes) (id : NodeID) : Bytes :=
  hashes.getD ((cover 0 n).idxOf id) []

theorem map_rangeValue {n : Nat} {hashes : List Bytes} (length : hashes.length = (cover 0 n).length) :
    (cover 0 n).map (rangeValue n hashes) = hashes :=
  map_coverValue [] length

def grafted (n : Nat) (hashes leaves : List Bytes) : NodeID → Bytes :=
  graft h (rangeValue n hashes) n fun i => leaves.getD (i - n) []

theorem cover_grafted {n : Nat} {hashes : List Bytes} (leaves : List Bytes)
    (length : hashes.length = (cover 0 n).length) :
    (cover 0 n).map (grafted h n hashes leaves) = hashes := by
  conv_rhs => rw [← map_rangeValue length]
  apply List.map_congr_left
  intro id member
  exact graft_old h _ _ ((mem_cover_iff 0 n id).mp member).1.2

theorem grafted_leaf (n : Nat) (hashes leaves : List Bytes) {i : Nat} (bound : i < leaves.length) :
    grafted h n hashes leaves ⟨0, n + i⟩ = leaves[i] := by
  simp [grafted, graft, graftAt, bound]

theorem grafted_extends (n : Nat) (hashes entries : List Bytes) :
    Extends h (grafted h n hashes (entries.map h.hashLeaf)) n entries where
  leaves i bound := by
    rw [grafted_leaf h n hashes _ (by simpa using bound)]
    simp
  parents l i gained := graft_parents h _ n _ l i gained.1

theorem pushLeaves_correct (v : NodeID → Bytes) (leaves : List Bytes) {n : Nat}
    {stack : List (NodeID × Bytes)} (held : stack.reverse = labelled v (cover 0 n))
    (values : ∀ i (bound : i < leaves.length), v ⟨0, n + i⟩ = leaves[i])
    (parents : ParentsHash h.hashChildren v fun id => n < id.stop) :
    (pushNodes h.hashChildren stack
      ((leaves.zipIdx n).map fun leaf => ((⟨0, leaf.2⟩ : NodeID), leaf.1))).1.reverse =
      labelled v (cover 0 (n + leaves.length)) := by
  induction leaves generalizing n stack with
  | nil => simpa [pushNodes] using held
  | cons leaf rest ih =>
    have here := values 0 (by simp)
    rw [List.getElem_cons_zero] at here
    have one := pushNode_correct h.hashChildren v (b := 0) ⟨0, n⟩ stack (by simpa using held)
      (Nat.zero_le _) fun l i straddles => parents l i (by simpa using straddles.bounds.2.2.1)
    rw [NodeID.leaf_stop, show v ⟨0, n⟩ = leaf from here] at one
    have later := ih (n := n + 1) one.1
      (fun i bound => by
        have := values (i + 1) (by simp; omega)
        rw [show n + 1 + i = n + (i + 1) by omega, this]
        rfl)
      fun l i gained => parents l i (by dsimp only at gained ⊢; omega)
    rw [List.zipIdx_cons, List.map_cons, pushNodes, List.length_cons,
      show n + (rest.length + 1) = n + 1 + rest.length by omega]
    exact later

theorem appendLeaves_eq {n : Nat} {hashes : List Bytes} (leaves : List Bytes)
    (length : hashes.length = (cover 0 n).length) :
    appendLeaves h n hashes leaves =
      (cover 0 (n + leaves.length)).map (grafted h n hashes leaves) := by
  have zipped : ((cover 0 n).zip hashes).reverse.reverse =
      labelled (grafted h n hashes leaves) (cover 0 n) := by
    rw [List.reverse_reverse, ← Compact.zip_labelled, cover_grafted h leaves length]
  rw [appendLeaves, pushLeaves_correct h (grafted h n hashes leaves) leaves zipped
    (fun i bound => grafted_leaf h n hashes leaves bound) (graft_parents h _ n _)]
  simp [labelled]

end Graft

section Check

variable {W : Type} (deps : Deps) (st : Storage W) (h : LogHasher)
  (order : List TileEntry → List TileEntry) (cp : Checkpoint) (w : W)

def RecomputesToHash : Prop :=
  ∃ hashes w', storedRange deps st cp w = (.ok hashes, w') ∧
    rangeRoot h.hashChildren [] hashes = cp.hash

-- Nothing is stored when the outcome is the same whatever StoreTile does.
def ExtendsGivenTree : Prop :=
  (∀ new w', integrate deps st h order cp w = (.ok (some new), w') →
    ∃ hashes w1, storedRange deps st cp w = (.ok hashes, w1) ∧
      rangeRoot h.hashChildren [] hashes = cp.hash ∧
      new.size = cp.size + (st.scanSequenced cp.size w1).1.1.length ∧
      new.hash = rangeRoot h.hashChildren [] (appendLeaves h cp.size hashes
        ((st.scanSequenced cp.size w1).1.1.map h.hashLeaf))) ∧
  (¬ RecomputesToHash deps st h cp w → ∃ reason w', ∀ storeTile,
    integrate deps { st with storeTile } h order cp w = (.error reason, w'))

def ChecksState : Prop :=
  (∃ reason w', storedRange deps st cp w = (.error reason, w')) ∨ RecomputesToHash deps st h cp w ∨
    ∃ hashes w1 reason w2, storedRange deps st cp w = (.ok hashes, w1) ∧
      scanEntries deps st h cp w1 = (.error reason, w2)

variable {deps st h order cp w}

theorem storedRange_length (lawful : Compact.Lawful deps.compact) {hashes : List Bytes} {w' : W}
    (stored : storedRange deps st cp w = (.ok hashes, w')) :
    hashes.length = (cover 0 cp.size).length := by
  have fetched : (Eff.each (getNode fun l i => st.getTile l i cp.size)
      (deps.compact.rangeNodes 0 cp.size) ⟨w, .empty⟩).1 = .ok hashes := congrArg Prod.fst stored
  rw [← lawful.rangeNodes 0 cp.size (Nat.zero_le _)]
  exact Eff.each_length (Prod.ext fetched rfl)

theorem loadBase_ok (lawful : Compact.Lawful deps.compact) {hashes : List Bytes} {w' : W}
    (stored : storedRange deps st cp w = (.ok hashes, w')) :
    loadBase deps st h cp w = (.ok ⟨0, cp.size, hashes⟩, w') := by
  have made := lawful.newRange_ok 0 cp.size hashes (Nat.zero_le _) (storedRange_length lawful stored)
  have root := lawful.getRootHash h.hashChildren ⟨0, cp.size, hashes⟩ rfl
  unfold loadBase
  rw [Eff.bind_of_ok (Eff.wrap_eq_ok.mpr stored), made,
    Eff.bind_of_ok (Eff.wrap_eq_ok.mpr (Eff.ofExcept_ok _ w')), root,
    Eff.bind_of_ok (Eff.wrap_eq_ok.mpr (Eff.ofExcept_ok _ w'))]
  rfl

theorem loadBase_error {reason : GoError} {w' : W}
    (stored : storedRange deps st cp w = (.error reason, w')) :
    loadBase deps st h cp w =
      (.error (.wrap "failed to fetch compact range nodes: %w" reason), w') := by
  exact Eff.bind_of_error (Eff.wrap_of_error stored)

theorem loadBase_panic {reason : String} {w' : W}
    (stored : storedRange deps st cp w = (.panic reason, w')) :
    loadBase deps st h cp w = (.panic reason, w') := by
  exact Eff.bind_of_panic (Eff.wrap_of_panic stored)

theorem scanEntries_ok {r : Compact.Range} {m : TileMap} {n : Nat} {w' : W}
    (scanned : scanEntries deps st h cp w = (.ok (r, m, n), w')) :
    let entries := (st.scanSequenced cp.size w).1.1
    let appended := appendedRange deps h (deps.compact.newEmptyRange cp.size) entries
    r = appended.1 ∧ n = entries.length ∧
      visitAll (fun l i => st.getTile l i cp.size) ∅ appended.2 (st.scanSequenced cp.size w).2 =
        (.ok m, w') := by
  simp only [scanEntries, appendEntries_eq] at scanned
  rw [Eff.bind_assoc] at scanned
  obtain ⟨m', w1, visited, rest⟩ := Eff.bind_eq_ok.mp scanned
  rw [Eff.pure_bind] at rest
  dsimp only at rest
  cases failure : (st.scanSequenced cp.size w).1.2 with
  | some reason => simp [failure] at rest
  | none =>
    simp only [failure, Eff.pure_run, Prod.mk.injEq, Outcome.ok.injEq] at rest
    obtain ⟨⟨rfl, rfl, rfl⟩, rfl⟩ := rest
    exact ⟨rfl, rfl, visited⟩

theorem publish_run {extension : Compact.Extension} {root : Bytes} (err : extension.err = none)
    (hashed : (deps.compact.getRootHash h.hashChildren extension.range).1 = .ok root) (m : TileMap) :
    publish deps st h order extension m = do
      storeTiles st (order m.entries)
      return some ⟨"", extension.range.stop, root⟩ := by
  funext w
  unfold publish
  rw [err, hashed]
  exact Eff.bind_of_ok (Eff.wrap_eq_ok.mpr (Eff.ofExcept_ok root w))

theorem publish_ok {extension : Compact.Extension} {m : TileMap} {result : Option Checkpoint} {w' : W}
    (published : publish deps st h order extension m w = (.ok result, w')) :
    ∃ root, extension.err = none ∧
      (deps.compact.getRootHash h.hashChildren extension.range).1 = .ok root ∧
      result = some ⟨"", extension.range.stop, root⟩ := by
  unfold publish at published
  cases err : extension.err with
  | some reason => simp [err] at published
  | none =>
    rw [err] at published
    obtain ⟨root, w1, hashed, rest⟩ := Eff.bind_eq_ok.mp published
    obtain ⟨_, w2, _, rest⟩ := Eff.bind_eq_ok.mp rest
    refine ⟨root, rfl, ?_, (Outcome.ok.inj (Prod.mk.inj rest).1).symm⟩
    rw [Eff.wrap_eq_ok] at hashed
    cases computed : (deps.compact.getRootHash h.hashChildren extension.range).1 with
    | error reason => simp [computed] at hashed
    | ok value =>
      rw [computed] at hashed
      obtain rfl := Outcome.ok.inj (Prod.mk.inj hashed).1
      rfl

-- What Integrate does before it merges does not involve StoreTile.
theorem integrate_run (storeTile : Nat → Nat → Tile → Eff W Unit) {base r : Compact.Range}
    {m : TileMap} {n : Nat} {w1 w2 : W} (loaded : loadBase deps st h cp w = (.ok base, w1))
    (scanned : scanEntries deps st h cp w1 = (.ok (r, m, n), w2)) :
    integrate deps { st with storeTile } h order cp w =
      mergeScanned deps { st with storeTile } h order cp base r m n w2 := by
  have loaded' : loadBase deps { st with storeTile } h cp w = (.ok base, w1) := loaded
  have scanned' : scanEntries deps { st with storeTile } h cp w1 = (.ok (r, m, n), w2) := scanned
  rw [integrate, Eff.bind_of_ok loaded', Eff.bind_of_ok scanned']

theorem integrate_returned {base : Compact.Range} {w1 : W} {new : Checkpoint} {w' : W}
    (loaded : loadBase deps st h cp w = (.ok base, w1))
    (returned : integrate deps st h order cp w = (.ok (some new), w')) :
    let entries := (st.scanSequenced cp.size w1).1.1
    let appended := appendedRange deps h (deps.compact.newEmptyRange cp.size) entries
    let extension := deps.compact.appendRange h.hashChildren base appended.1
    new.size = extension.range.stop ∧
      (deps.compact.getRootHash h.hashChildren extension.range).1 = .ok new.hash := by
  rw [integrate, Eff.bind_of_ok loaded] at returned
  obtain ⟨⟨r, m, n⟩, w2, scanned, merged⟩ := Eff.bind_eq_ok.mp returned
  obtain ⟨rfl, rfl, _⟩ := scanEntries_ok scanned
  dsimp only [mergeScanned] at merged ⊢
  by_cases none : (st.scanSequenced cp.size w1).1.1.length = 0
  · rw [if_pos none] at merged
    simp at merged
  rw [if_neg none] at merged
  obtain ⟨m', w3, _, published⟩ := Eff.bind_eq_ok.mp merged
  obtain ⟨root, _, hashed, same⟩ := publish_ok published
  obtain rfl := Option.some.inj same
  exact ⟨rfl, hashed⟩

theorem returned_root (lawful : Compact.Lawful deps.compact) {hashes : List Bytes} {w1 : W}
    {new : Checkpoint} {w' : W} (stored : storedRange deps st cp w = (.ok hashes, w1))
    (returned : integrate deps st h order cp w = (.ok (some new), w')) :
    new.size = cp.size + (st.scanSequenced cp.size w1).1.1.length ∧
      new.hash = rangeRoot h.hashChildren [] (appendLeaves h cp.size hashes
        ((st.scanSequenced cp.size w1).1.1.map h.hashLeaf)) := by
  have length := storedRange_length lawful stored
  obtain ⟨size, root⟩ := integrate_returned (loadBase_ok lawful stored) returned
  obtain ⟨_, range, _⟩ := merge_correct lawful
    (grafted_extends h cp.size hashes (st.scanSequenced cp.size w1).1.1)
  rw [cover_grafted h _ length] at range
  rw [range] at size root
  rw [lawful.getRootHash _ _ rfl] at root
  refine ⟨size, ?_⟩
  rw [appendLeaves_eq h _ length, List.length_map]
  exact (Except.ok.inj root).symm

-- Once there are entries and no error, Integrate calls StoreTile.
theorem integrate_stores (lawful : Compact.Lawful deps.compact)
    (permutes : ∀ entries, (order entries).Perm entries) {hashes : List Bytes} {w1 w2 : W}
    (stored : storedRange deps st cp w = (.ok hashes, w1)) {r : Compact.Range} {m : TileMap} {n : Nat}
    (scanned : scanEntries deps st h cp w1 = (.ok (r, m, n), w2)) (some' : n ≠ 0) :
    ∃ storeTile, ∀ reason w',
      integrate deps { st with storeTile } h order cp w ≠ (.error reason, w') := by
  refine ⟨fun _ _ _ => Eff.lift (.panic "stored"), fun reason w' failed => ?_⟩
  have length := storedRange_length lawful stored
  obtain ⟨rfl, rfl, visited⟩ := scanEntries_ok scanned
  obtain ⟨err, range, _⟩ := merge_correct lawful
    (grafted_extends h cp.size hashes (st.scanSequenced cp.size w1).1.1)
  rw [cover_grafted h _ length] at err range
  obtain ⟨_, appended⟩ := appendedRange_correct lawful
    (show (⟨cp.size, cp.size, []⟩ : Compact.Range).Holds _ from ⟨Nat.le_refl _, by simp⟩)
    (grafted_extends h cp.size hashes (st.scanSequenced cp.size w1).1.1)
  rw [← lawful.newEmptyRange] at appended
  have leaf := (appended.mem_ids ⟨0, cp.size⟩).mpr ⟨by simp [lawful.newEmptyRange], by
    simp [Gained, lawful.newEmptyRange]; omega⟩
  obtain ⟨node, member, _⟩ := List.mem_map.mp leaf
  have dirty := (visitAll_mem _ visited).1 node member
  rw [integrate_run _ (loadBase_ok lawful stored) scanned, mergeScanned, if_neg some'] at failed
  rcases merged : visitAll (fun l i => st.getTile l i cp.size) m
      (deps.compact.appendRange h.hashChildren ⟨0, cp.size, hashes⟩ (appendedRange deps h
        (deps.compact.newEmptyRange cp.size) (st.scanSequenced cp.size w1).1.1).1).visits w2
    with ⟨m' | other | _, w3⟩
  · rw [Eff.bind_of_ok merged, publish_run err (by rw [range, lawful.getRootHash _ _ rfl])] at failed
    have kept := (visitAll_mem _ merged).2 _ dirty
    cases ordered : order m'.entries with
    | nil =>
      have empty := (permutes m'.entries).length_eq
      rw [ordered] at empty
      rw [AList.mem_keys, AList.keys, List.keys, List.length_eq_zero_iff.mp empty.symm] at kept
      simp at kept
    | cons entry rest =>
      rw [ordered, storeTiles] at failed
      simp [Eff.bind_run, Outcome.wrap] at failed
  · exact absurd (congrArg Prod.fst merged) (visitAll_not_error _ m _ w2 other)
  · rw [Eff.bind_of_panic merged] at failed
    simp at failed

/-- Integrate keeps to the tree it was given exactly when the stored range nodes cannot be read,
recompute to the given hash, or the scan of the new entries fails: it never compares the two. -/
theorem integrate_extends_iff (lawful : Compact.Lawful deps.compact)
    (permutes : ∀ entries, (order entries).Perm entries) :
    ExtendsGivenTree deps st h order cp w ↔ ChecksState deps st h cp w := by
  constructor
  · rintro ⟨_, mismatch⟩
    rcases stored : storedRange deps st cp w with ⟨hashes | reason | reason, w1⟩
    · by_cases recomputes : RecomputesToHash deps st h cp w
      · exact Or.inr (Or.inl recomputes)
      obtain ⟨reason, w', failed⟩ := mismatch recomputes
      rcases scanned : scanEntries deps st h cp w1 with ⟨⟨r, m, n⟩ | other | other, w2⟩
      · by_cases none : n = 0
        · have returned := failed st.storeTile
          rw [integrate_run _ (loadBase_ok lawful stored) scanned, mergeScanned, if_pos none] at returned
          simp at returned
        · obtain ⟨storeTile, stores⟩ := integrate_stores lawful permutes stored scanned none
          exact absurd (failed storeTile) (stores reason w')
      · exact Or.inr (Or.inr ⟨hashes, w1, other, w2, stored, scanned⟩)
      · have returned := failed st.storeTile
        rw [integrate, Eff.bind_of_ok (loadBase_ok lawful stored), Eff.bind_of_panic scanned] at returned
        simp at returned
    · exact Or.inl ⟨reason, w1, stored⟩
    · obtain ⟨other, w', failed⟩ := mismatch fun ⟨hashes, w', ok, _⟩ => by simp [stored] at ok
      have returned := failed st.storeTile
      rw [integrate, Eff.bind_of_panic (loadBase_panic stored)] at returned
      simp at returned
  · rintro (⟨reason, w1, stored⟩ | recomputes | ⟨hashes, w1, reason, w2, stored, scanned⟩)
    · have failed (storeTile : Nat → Nat → Tile → Eff W Unit) :
          integrate deps { st with storeTile } h order cp w = _ :=
        Eff.bind_of_error (loadBase_error stored)
      refine ⟨fun new w' returned => ?_, fun _ => ⟨_, _, failed⟩⟩
      rw [show integrate deps st h order cp w = _ from failed st.storeTile] at returned
      simp at returned
    · obtain ⟨hashes, w1, stored, root⟩ := recomputes
      refine ⟨fun new w' returned => ?_, fun bad => absurd ⟨hashes, w1, stored, root⟩ bad⟩
      exact ⟨hashes, w1, stored, root, returned_root lawful stored returned⟩
    · have failed (storeTile : Nat → Nat → Tile → Eff W Unit) :
          integrate deps { st with storeTile } h order cp w = (.error reason, w2) := by
        have loaded : loadBase deps { st with storeTile } h cp w = (.ok ⟨0, cp.size, hashes⟩, w1) :=
          loadBase_ok lawful stored
        rw [integrate, Eff.bind_of_ok loaded]
        exact Eff.bind_of_error scanned
      refine ⟨fun new w' returned => ?_, fun _ => ⟨_, _, failed⟩⟩
      rw [show integrate deps st h order cp w = _ from failed st.storeTile] at returned
      simp at returned

end Check

section Mismatch

-- A log of the one entry [1] with [2] sequenced after it.
def oneLeafStorage : Storage Unit where
  getTile level index logSize w :=
    if level = 0 ∧ index = 0 ∧ logSize = 1 then (.ok ⟨1, [some hashOne]⟩, w) else (.error .notExist, w)
  storeTile _ _ _ w := (.ok (), w)
  scanSequenced first w := ((if first = 1 then [[2]] else [], none), w)

theorem integrate_extends_iff_honest :
    integrate referenceDeps oneLeafStorage LogHasher.padded id ⟨"example log", 1, hashOne⟩ () =
        (.ok (some ⟨"", 2, hashPair⟩), ()) ∧
      ExtendsGivenTree referenceDeps oneLeafStorage LogHasher.padded id ⟨"example log", 1, hashOne⟩ () := by
  have stored : storedRange referenceDeps oneLeafStorage ⟨"example log", 1, hashOne⟩ () =
      (.ok [hashOne], ()) := by decide +kernel
  refine ⟨by decide +kernel, ?_⟩
  exact (integrate_extends_iff Compact.reference_lawful fun _ => List.Perm.refl _).mpr
    (Or.inr (Or.inl ⟨[hashOne], (), stored, rfl⟩))

theorem integrate_extends_other_tree :
    ¬ RecomputesToHash referenceDeps oneLeafStorage LogHasher.padded ⟨"example log", 1, hashTwo⟩ () ∧
      integrate referenceDeps oneLeafStorage LogHasher.padded id ⟨"example log", 1, hashTwo⟩ () =
        (.ok (some ⟨"", 2, hashPair⟩), ()) ∧
      ¬ ExtendsGivenTree referenceDeps oneLeafStorage LogHasher.padded id
        ⟨"example log", 1, hashTwo⟩ () := by
  have stored : storedRange referenceDeps oneLeafStorage ⟨"example log", 1, hashTwo⟩ () =
      (.ok [hashOne], ()) := by decide +kernel
  have returned : integrate referenceDeps oneLeafStorage LogHasher.padded id
      ⟨"example log", 1, hashTwo⟩ () = (.ok (some ⟨"", 2, hashPair⟩), ()) := by decide +kernel
  have other : ¬ RecomputesToHash referenceDeps oneLeafStorage LogHasher.padded
      ⟨"example log", 1, hashTwo⟩ () := by
    rintro ⟨hashes, w', found, root⟩
    rw [stored] at found
    obtain rfl := Outcome.ok.inj (Prod.mk.inj found).1
    exact absurd root (by decide +kernel)
  refine ⟨other, returned, fun extends' => ?_⟩
  obtain ⟨hashes, w1, found, root, _⟩ := extends'.1 _ _ returned
  exact other ⟨hashes, w1, found, root⟩

end Mismatch

end Serverless
