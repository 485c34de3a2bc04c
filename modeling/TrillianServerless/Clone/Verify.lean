import TrillianServerless.Clone.LogDb
import TrillianServerless.Packages.Compact
import TrillianServerless.Packages.Merkle

set_option autoImplicit false

namespace Verify

open Go Sql Merkle

/-- A log verifier: its leaf hash knows the index of the leaf. -/
structure LogVerifier where
  pkg : Compact.Package
  lh : Nat → Bytes → Bytes
  ih : Compact.HashFn

namespace LogVerifier

variable (v : LogVerifier)

-- Where the computation starts: at the latest checkpoint unless that is larger.
def resume (fault : Option GoError) (d : LogDb.Database) (size : Nat) : Except GoError (Nat × Compact.Range) :=
  match d.getLatestCheckpoint fault with
  | .error reason =>
    if reason = LogDb.errNoDataFound then .ok (0, v.pkg.newEmptyRange 0) else .error reason
  | .ok (cpSize, _, crBs) =>
    if cpSize ≤ size then
      match v.pkg.newRange 0 cpSize crBs with
      | .error reason => .error reason
      | .ok cr => .ok (cpSize, cr)
    else .ok (0, v.pkg.newEmptyRange 0)

-- The error of Append is not looked at.
def add (index : Nat) (cr : Compact.Range) (leaf : Bytes) : Compact.Range :=
  (v.pkg.append v.ih cr (v.lh index leaf)).range

def addAll (index : Nat) (cr : Compact.Range) : List Bytes → Compact.Range
  | [] => cr
  | leaf :: rest => addAll (index + 1) (v.add index cr leaf) rest

def conclude (size index : Nat) (cr : Compact.Range) : Except GoError (Bytes × List Bytes) :=
  if index ≠ size then .error (.text "expected to receive %d leaves but got %d")
  else
    match (v.pkg.getRootHash v.ih cr).1 with
    | .error reason => .error reason
    | .ok root => .ok (root, cr.hashes)

/-- MerkleRoot when every leaf can be read. -/
def merkleRoot (fault : Option GoError) (d : LogDb.Database) (size : Nat) : Except GoError (Bytes × List Bytes) :=
  match v.resume fault d size with
  | .error reason => .error reason
  | .ok (start, cr) =>
    let leaves := d.leaves.select start size
    v.conclude size (start + leaves.length) (v.addAll start cr leaves)

end LogVerifier

section Ranges

variable (v : LogVerifier)

-- The leaf hashes of a log, and the nodes over them.
def leafAt (leaves : List Bytes) (i : Nat) : Bytes := v.lh i (leaves.getD i [])

def node (leaves : List Bytes) (id : NodeID) : Bytes := nodeHash v.ih (leafAt v leaves) id

def rangeOf (leaves : List Bytes) (size : Nat) : List Bytes := (cover 0 size).map (node v leaves)

variable {v} (lawful : Compact.Lawful v.pkg)
include lawful

theorem addAll_eq {leaves more : List Bytes} {index : Nat}
    (next : ∀ j (bound : j < more.length), leaves.getD (index + j) [] = more[j]) :
    v.addAll index ⟨0, index, rangeOf v leaves index⟩ more =
      ⟨0, index + more.length, rangeOf v leaves (index + more.length)⟩ := by
  induction more generalizing index with
  | nil => rfl
  | cons leaf rest ih =>
    have first : leaves.getD index [] = leaf := next 0 (by simp)
    have step := (lawful.append v.ih ⟨0, index, rangeOf v leaves index⟩ (v.lh index leaf) (node v leaves)
      ⟨Nat.zero_le _, rfl⟩ (by rw [← first]; rfl) fun l i _ => nodeHash_parent _ _ l i).2.1
    have later := @ih (index + 1) fun j bound => by
      have value := next (j + 1) (by simp; omega)
      rw [show index + 1 + j = index + (j + 1) by omega, value]
      rfl
    rw [LogVerifier.addAll, LogVerifier.add, step]
    rw [List.length_cons, show index + (rest.length + 1) = index + 1 + rest.length by omega]
    exact later

end Ranges

section Histories

variable (v : LogVerifier)

/-- Every stored range is that of the first leaves. -/
structure Recorded (leaves : List Bytes) (d : LogDb.Database) : Prop where
  table : d.leaves.Holds leaves
  ranges : ∀ size cp, d.checkpoints.row size = some cp →
    size ≤ leaves.length ∧ cp.compactRange = rangeOf v leaves size

/-- Leaves are appended, and a root that was computed is written with its range. -/
inductive VerifyStep : LogDb.Database → LogDb.Database → Prop
  | append {d : LogDb.Database} {leaves : List Bytes} (more : List Bytes) (holds : d.leaves.Holds leaves)
      (inside : leaves.length + more.length ≤ 2 ^ 64) :
      VerifyStep d (d.writeLeaves .clean leaves.length more).2
  | record {d : LogDb.Database} {fault : Option GoError} {size : Nat} {root : Bytes} {compactRange : List Bytes}
      (computed : v.merkleRoot fault d size = .ok (root, compactRange)) (faults : Faults)
      (scan : Option GoError) (cp : Bytes) :
      VerifyStep d (d.writeCheckpoint faults scan size cp compactRange).2

variable {v} {d d' : LogDb.Database} {leaves : List Bytes}

-- A range does not change when leaves are appended behind it.
theorem rangeOf_append {size : Nat} (inside : size ≤ leaves.length) (more : List Bytes) :
    rangeOf v (leaves ++ more) size = rangeOf v leaves size := by
  refine List.map_congr_left fun id member => ?_
  have within := ((mem_cover_iff 0 size id).mp member).1.2
  refine nodeHash_congr _ within fun j below => ?_
  unfold leafAt
  simp only [List.getD_eq_getElem?_getD, List.getElem?_append_left (show j < leaves.length by omega)]

theorem rangeOf_take {size : Nat} (inside : size ≤ leaves.length) :
    rangeOf v (leaves.take size) size = rangeOf v leaves size := by
  conv_rhs => rw [← List.take_append_drop size leaves]
  exact (rangeOf_append (by simpa using inside) _).symm

theorem getLatest_eq (recorded : Recorded v leaves d) :
    d.getLatestCheckpoint none = .error LogDb.errNoDataFound ∨
      ∃ size cp, d.getLatestCheckpoint none = .ok (size, cp, rangeOf v leaves size) ∧ size ≤ leaves.length := by
  unfold LogDb.Database.getLatestCheckpoint
  cases max : d.checkpoints.max? with
  | none => exact .inl rfl
  | some size =>
    dsimp only
    cases row : d.checkpoints.row size with
    | none => exact .inl rfl
    | some cp =>
      obtain ⟨inside, same⟩ := recorded.ranges size cp row
      exact .inr ⟨size, cp.data, by rw [← same], inside⟩

/-- The computation starts with the range of the leaves before it. -/
theorem resume_eq (lawful : Compact.Lawful v.pkg) (recorded : Recorded v leaves d) (size : Nat) :
    ∃ start, start ≤ size ∧ start ≤ leaves.length ∧
      v.resume none d size = .ok (start, ⟨0, start, rangeOf v leaves start⟩) := by
  have scratch : v.pkg.newEmptyRange 0 = ⟨0, 0, rangeOf v leaves 0⟩ := by
    rw [lawful.newEmptyRange, rangeOf, cover_self, List.map_nil]
  unfold LogVerifier.resume
  rcases getLatest_eq recorded with missing | ⟨cpSize, cp, found, inside⟩
  · exact ⟨0, Nat.zero_le _, Nat.zero_le _, by rw [missing, scratch]; rfl⟩
  · rw [found]
    dsimp only
    by_cases usable : cpSize ≤ size
    · refine ⟨cpSize, usable, inside, ?_⟩
      rw [if_pos usable, lawful.newRange_ok 0 cpSize _ (Nat.zero_le _) (by simp [rangeOf])]
    · exact ⟨0, Nat.zero_le _, Nat.zero_le _, by rw [if_neg usable, scratch]⟩

/-- Resumed or not, the root and the range are those of the first leaves. -/
theorem merkleRoot_eq (lawful : Compact.Lawful v.pkg) (recorded : Recorded v leaves d) {size : Nat}
    (inside : size ≤ leaves.length) :
    v.merkleRoot none d size = .ok (rangeRoot v.ih [] (rangeOf v leaves size), rangeOf v leaves size) := by
  obtain ⟨start, before, within, resumed⟩ := resume_eq lawful recorded size
  have selected : d.leaves.select start size = (leaves.drop start).take (size - start) :=
    recorded.table.select start size
  have length : ((leaves.drop start).take (size - start)).length = size - start := by
    rw [List.length_take, List.length_drop]
    omega
  have added := @addAll_eq v lawful leaves ((leaves.drop start).take (size - start)) start fun j bound => by
    rw [length] at bound
    simp [show start + j < leaves.length by omega]
  rw [length, Nat.add_sub_cancel' before] at added
  unfold LogVerifier.merkleRoot
  rw [resumed]
  dsimp only
  rw [selected, length, Nat.add_sub_cancel' before, added]
  unfold LogVerifier.conclude
  rw [if_neg (by simp), lawful.getRootHash _ _ rfl]

theorem merkleRoot_short (lawful : Compact.Lawful v.pkg) (recorded : Recorded v leaves d) {size : Nat}
    (beyond : leaves.length < size) :
    v.merkleRoot none d size = .error (.text "expected to receive %d leaves but got %d") := by
  obtain ⟨start, before, within, resumed⟩ := resume_eq lawful recorded size
  have short : (d.leaves.select start size).length = leaves.length - start := by
    rw [recorded.table.select start size, List.length_take, List.length_drop]
    omega
  unfold LogVerifier.merkleRoot
  rw [resumed]
  dsimp only
  rw [short]
  exact if_pos (by omega)

-- A root is only computed of leaves that are stored.
theorem computed_inside (lawful : Compact.Lawful v.pkg) (recorded : Recorded v leaves d) {fault : Option GoError}
    {size : Nat} {root : Bytes} {compactRange : List Bytes}
    (computed : v.merkleRoot fault d size = .ok (root, compactRange)) :
    size ≤ leaves.length ∧ compactRange = rangeOf v leaves size := by
  cases fault with
  | some reason =>
    simp [LogVerifier.merkleRoot, LogVerifier.resume, LogDb.Database.getLatestCheckpoint,
      LogDb.errNoDataFound] at computed
  | none =>
    rcases Nat.lt_or_ge leaves.length size with beyond | inside
    · rw [merkleRoot_short lawful recorded beyond] at computed
      cases computed
    · rw [merkleRoot_eq lawful recorded inside] at computed
      simp only [Except.ok.injEq, Prod.mk.injEq] at computed
      exact ⟨inside, computed.2.symm⟩

theorem Recorded.step (lawful : Compact.Lawful v.pkg) (recorded : Recorded v leaves d) (step : VerifyStep v d d') :
    (∃ leaves', Recorded v leaves' d') ∧ d.checkpoints.max?.getD 0 ≤ d'.checkpoints.max?.getD 0 := by
  cases step with
  | append more holds inside =>
    obtain rfl := recorded.table.unique holds
    refine ⟨⟨leaves ++ more, ?_, fun size cp row => ?_⟩, Nat.le_refl _⟩
    · have stored := recorded.table.insertAll 0 more
      rw [← Table.counted_eq inside] at stored
      exact stored
    · obtain ⟨within, same⟩ := recorded.ranges size cp row
      rw [List.length_append, rangeOf_append within]
      exact ⟨by omega, same⟩
  | record computed faults scan cp =>
    obtain ⟨table, rows⟩ := @LogDb.writeCheckpoint_row faults d scan _ cp _
    obtain ⟨inside, range⟩ := computed_inside lawful recorded computed
    refine ⟨⟨leaves, table ▸ recorded.table, fun size stored row => ?_⟩, Table.max?_mono fun id present => ?_⟩
    · rcases rows size with before | ⟨rfl, -, now⟩
      · exact recorded.ranges size stored (before ▸ row)
      · rw [row] at now
        cases now
        exact ⟨inside, range⟩
    · rcases rows id with before | ⟨-, free, -⟩
      · rw [before]
        exact present
      · exact absurd free present

theorem Recorded.of_history (lawful : Compact.Lawful v.pkg)
    (history : Relation.ReflTransGen (VerifyStep v) .empty d) : ∃ leaves, Recorded v leaves d := by
  induction history with
  | refl => exact ⟨[], fun _ => rfl, nofun⟩
  | tail _ step ih =>
    obtain ⟨leaves, recorded⟩ := ih
    exact (recorded.step lawful step).1

-- The root of a range over hashes of leaves with their index.
theorem rangeRoot_eq (emptyRoot : Bytes) {size : Nat} (some' : 0 < size) (inside : size ≤ leaves.length) :
    rangeRoot v.ih [] (rangeOf v leaves size) = treeHash v.ih emptyRoot ((leaves.take size).mapIdx v.lh) := by
  have length : ((leaves.take size).mapIdx v.lh).length = size := by simpa using inside
  rw [← rangeOf_take inside, treeHash_empty v.ih emptyRoot [] (by omega)]
  have root := rangeRoot_cover v.ih (leafAt v (leaves.take size)) [] ((leaves.take size).mapIdx v.lh)
    fun i bound => by
      rw [length] at bound
      simp [leafAt, bound, show i < leaves.length by omega]
  rwa [length] at root

/-- Every root that is computed for a size above 0 is that of the tree over the first leaves, at whichever
checkpoint the computation starts. -/
theorem verified_root (v : LogVerifier) (lawful : Compact.Lawful v.pkg) (emptyRoot : Bytes)
    (d : LogDb.Database) (history : Relation.ReflTransGen (VerifyStep v) .empty d) :
    ∃ leaves, d.leaves.Holds leaves ∧
      (∀ size, 0 < size → size ≤ leaves.length →
        v.merkleRoot none d size =
          .ok (treeHash v.ih emptyRoot ((leaves.take size).mapIdx v.lh), rangeOf v (leaves.take size) size)) ∧
      v.merkleRoot none d 0 = .ok ([], []) ∧
      (∀ size, leaves.length < size → ∃ reason, v.merkleRoot none d size = .error reason) ∧
      ∀ d', Relation.ReflTransGen (VerifyStep v) d d' →
        d.checkpoints.max?.getD 0 ≤ d'.checkpoints.max?.getD 0 := by
  obtain ⟨leaves, recorded⟩ := Recorded.of_history lawful history
  refine ⟨leaves, recorded.table, fun size some' inside => ?_, ?_, fun size beyond => ?_, fun d' later => ?_⟩
  · rw [merkleRoot_eq lawful recorded inside, rangeRoot_eq emptyRoot some' inside, rangeOf_take inside]
  · rw [merkleRoot_eq lawful recorded (Nat.zero_le _)]
    simp [rangeOf, rangeRoot]
  · exact ⟨_, merkleRoot_short lawful recorded beyond⟩
  · induction later with
    | refl => exact Nat.le_refl _
    | tail before step ih =>
      obtain ⟨other, still⟩ := Recorded.of_history lawful (history.trans before)
      exact Nat.le_trans ih (still.step lawful step).2

def padding : LogVerifier := ⟨Compact.reference, fun _ => LogHasher.padded.hashLeaf, LogHasher.padded.hashChildren⟩

def twoLeaves : LogDb.Database := (LogDb.Database.empty.writeLeaves .clean 0 [[1], [2]]).2

-- The range over them is stored with a checkpoint, and a third leaf comes.
def rangeStored : LogDb.Database :=
  (twoLeaves.writeCheckpoint .clean none 2 [9] (rangeOf padding [[1], [2]] 2)).2

def thirdLeaf : LogDb.Database := (rangeStored.writeLeaves .clean 2 [[3]]).2

theorem thirdLeaf_reached : Relation.ReflTransGen (VerifyStep padding) .empty thirdLeaf := by
  have appended : VerifyStep padding .empty twoLeaves :=
    @VerifyStep.append padding .empty [] [[1], [2]] (fun _ => rfl) (by decide)
  have computed : ∃ root, padding.merkleRoot none twoLeaves 2 = .ok (root, rangeOf padding [[1], [2]] 2) :=
    ⟨padding.ih (padding.lh 0 [1]) (padding.lh 1 [2]), by decide +kernel⟩
  obtain ⟨root, computed⟩ := computed
  have recorded : VerifyStep padding twoLeaves rangeStored := .record computed .clean none [9]
  have stored : rangeStored.leaves.Holds [[1], [2]] :=
    @Table.Holds.insertAll _ .empty [] (fun _ => rfl) 0 [[1], [2]]
  exact .tail (.tail (.single appended) recorded) (.append [[3]] stored (by decide))

theorem verified_root_resumed :
    padding.resume none thirdLeaf 3 = .ok (2, ⟨0, 2, rangeOf padding [[1], [2]] 2⟩) ∧
      padding.merkleRoot none thirdLeaf 3 =
        .ok (treeHash padding.ih [] ([[1], [2], [3]].mapIdx padding.lh), rangeOf padding [[1], [2], [3]] 3) := by
  have stored : thirdLeaf.leaves.Holds [[1], [2], [3]] :=
    (@Table.Holds.insertAll _ .empty [] (fun _ => rfl) 0 [[1], [2]]).insertAll 0 [[3]]
  obtain ⟨leaves, holds, root, -⟩ :=
    verified_root padding Compact.reference_lawful [] thirdLeaf thirdLeaf_reached
  obtain rfl := holds.unique stored
  exact ⟨by decide +kernel, root 3 (by decide) (by decide)⟩

/-- Without leaves the root is nil, not the hash of the empty string. -/
theorem merkleRoot_without_leaves :
    ¬ ∃ compactRange, padding.merkleRoot none .empty 0 =
      .ok (treeHash padding.ih LogHasher.padded.emptyRoot [], compactRange) := by
  rintro ⟨compactRange, computed⟩
  have root : padding.merkleRoot none .empty 0 = .ok ([], []) := by decide
  rw [root] at computed
  revert computed
  simp [LogHasher.padded, LogHasher.fit]

end Histories

end Verify
