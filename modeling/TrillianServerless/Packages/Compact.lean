import TrillianServerless.Shared.Go
import TrillianServerless.Shared.CoverMerge
import TrillianServerless.Shared.TreeHash

set_option autoImplicit false

/-!
# Package compact of transparency-dev/merkle

The package is not part of the repository. `Package` lists the functions that the repository calls,
and `Lawful` what their documentation promises; `reference` is one lawful implementation.
-/

namespace Compact

open Go Merkle

abbrev HashFn := Bytes → Bytes → Bytes

abbrev Visit := NodeID × Bytes

/-- A compact range over the leaves [start, stop). -/
structure Range where
  start : Nat
  stop : Nat
  hashes : List Bytes
  deriving DecidableEq, Repr

-- What Append and AppendRange leave behind: the receiver, the calls made to the visitor in order,
-- and the returned error.
structure Extension where
  range : Range
  visits : List Visit
  err : Option GoError

structure Package where
  rangeNodes : Nat → Nat → List NodeID
  newRange : Nat → Nat → List Bytes → Except GoError Range
  newEmptyRange : Nat → Range
  append : HashFn → Range → Bytes → Extension
  appendRange : HashFn → Range → Range → Extension
  getRootHash : HashFn → Range → Except GoError Bytes × List Visit

def Range.Holds (r : Range) (v : NodeID → Bytes) : Prop :=
  r.start ≤ r.stop ∧ r.hashes = (cover r.start r.stop).map v

structure Lawful (pkg : Package) : Prop where
  rangeNodes : ∀ b e, b ≤ e → pkg.rangeNodes b e = cover b e
  newRange_ok : ∀ b e hashes, b ≤ e → hashes.length = (cover b e).length →
    pkg.newRange b e hashes = .ok ⟨b, e, hashes⟩
  newRange_error : ∀ b e hashes, ¬ (b ≤ e ∧ hashes.length = (cover b e).length) →
    ∃ reason, pkg.newRange b e hashes = .error reason
  newEmptyRange : ∀ b, pkg.newEmptyRange b = ⟨b, b, []⟩
  append : ∀ (hash : HashFn) (r : Range) (leaf : Bytes) (v : NodeID → Bytes), r.Holds v →
    v ⟨0, r.stop⟩ = leaf → ParentsHash hash v (NodeID.Straddles r.start r.stop (r.stop + 1)) →
    (pkg.append hash r leaf).err = none ∧
      (pkg.append hash r leaf).range =
        ⟨r.start, r.stop + 1, (cover r.start (r.stop + 1)).map v⟩ ∧
      Visited (pkg.append hash r leaf).visits
        (fun id => id = ⟨0, r.stop⟩ ∨ id.Straddles r.start r.stop (r.stop + 1)) v
  appendRange : ∀ (hash : HashFn) (r other : Range) (v : NodeID → Bytes), r.Holds v →
    other.Holds v → other.start = r.stop →
    ParentsHash hash v (NodeID.Straddles r.start r.stop other.stop) →
    (pkg.appendRange hash r other).err = none ∧
      (pkg.appendRange hash r other).range =
        ⟨r.start, other.stop, (cover r.start other.stop).map v⟩ ∧
      Visited (pkg.appendRange hash r other).visits
        (NodeID.Straddles r.start r.stop other.stop) v
  getRootHash : ∀ (hash : HashFn) (r : Range), r.start = 0 →
    (pkg.getRootHash hash r).1 = .ok (rangeRoot hash [] r.hashes)
  ephemeral : ∀ (hash : HashFn) (r : Range), r.start = 0 →
    r.hashes.length = (cover 0 r.stop).length →
    ∀ visit ∈ (pkg.getRootHash hash r).2, ¬ visit.1.Within 0 r.stop

theorem Lawful.newRange_eq_ok {pkg : Package} (lawful : Lawful pkg) {b e : Nat} {hashes : List Bytes}
    {rng : Range} :
    pkg.newRange b e hashes = .ok rng ↔
      b ≤ e ∧ hashes.length = (cover b e).length ∧ rng = ⟨b, e, hashes⟩ := by
  by_cases fits : b ≤ e ∧ hashes.length = (cover b e).length
  · rw [lawful.newRange_ok b e hashes fits.1 fits.2]
    constructor
    · intro same
      exact ⟨fits.1, fits.2, (Except.ok.inj same).symm⟩
    · rintro ⟨_, _, rfl⟩
      rfl
  · obtain ⟨reason, failed⟩ := lawful.newRange_error b e hashes fits
    rw [failed]
    constructor
    · intro wrong
      cases wrong
    · rintro ⟨order, length, _⟩
      exact absurd ⟨order, length⟩ fits

-- Append for one hash after another; its errors are not looked at.
def Package.appendAll (pkg : Package) (hash : HashFn) (r : Range) : List Bytes → Range
  | [] => r
  | l :: rest => pkg.appendAll hash (pkg.append hash r l).range rest

theorem Lawful.appendAll {pkg : Package} (lawful : Lawful pkg) {hash : HashFn} {v : NodeID → Bytes}
    (parents : ∀ l i, v ⟨l + 1, i⟩ = hash (v ⟨l, 2 * i⟩) (v ⟨l, 2 * i + 1⟩)) {b k : Nat} (order : b ≤ k)
    (leaves : List Bytes) (values : ∀ j (bound : j < leaves.length), v ⟨0, k + j⟩ = leaves[j]) :
    pkg.appendAll hash ⟨b, k, (cover b k).map v⟩ leaves =
      ⟨b, k + leaves.length, (cover b (k + leaves.length)).map v⟩ := by
  induction leaves generalizing k with
  | nil => rfl
  | cons leaf rest ih =>
    have first := values 0 (by simp)
    have step := (lawful.append hash ⟨b, k, (cover b k).map v⟩ leaf v ⟨order, rfl⟩ first
      fun l i _ => parents l i).2.1
    have later := ih (k := k + 1) (by omega) fun j bound => by
      have value := values (j + 1) (by simp; omega)
      rw [show k + 1 + j = k + (j + 1) by omega, value]
      rfl
    rw [Package.appendAll, step, later, List.length_cons,
      show k + (rest.length + 1) = k + 1 + rest.length by omega]

def WellFormed (b e : Nat) (hashes : List Bytes) : Prop :=
  b ≤ e ∧ hashes.length = (cover b e).length

instance (b e : Nat) (hashes : List Bytes) : Decidable (WellFormed b e hashes) :=
  inferInstanceAs (Decidable (_ ∧ _))

def Range.stack (r : Range) : List Visit := ((cover r.start r.stop).zip r.hashes).reverse

def extend (hash : HashFn) (r : Range) (stop : Nat) (nodes : List Visit) : Range × List Visit :=
  let result := pushNodes hash r.stack nodes
  (⟨r.start, stop, result.1.reverse.map Prod.snd⟩, result.2)

-- The parents of all range nodes but the lowest one root the imperfect subtrees on the right border.
def ephemeralNodes (hash : HashFn) : List Visit → List Visit
  | [] => []
  | [_] => []
  | (id, value) :: rest =>
    (id.parent, rangeRoot hash [] (value :: rest.map Prod.snd)) :: ephemeralNodes hash rest

def reference : Package where
  rangeNodes := cover
  newRange b e hashes :=
    if WellFormed b e hashes then .ok ⟨b, e, hashes⟩ else .error (.text "invalid range or hashes")
  newEmptyRange b := ⟨b, b, []⟩
  append hash r leaf :=
    let leafVisit : Visit := (⟨0, r.stop⟩, leaf)
    let result := extend hash r (r.stop + 1) [leafVisit]
    ⟨result.1, leafVisit :: result.2, none⟩
  appendRange hash r other :=
    if other.start = r.stop then
      let result := extend hash r other.stop ((cover other.start other.stop).zip other.hashes)
      ⟨result.1, result.2, none⟩
    else ⟨r, [], some (.text "ranges are disjoint")⟩
  getRootHash hash r :=
    if r.start = 0 then
      (.ok (rangeRoot hash [] r.hashes),
        (ephemeralNodes hash ((cover r.start r.stop).zip r.hashes)).reverse)
    else (.error (.text "begin must be 0"), [])

theorem zip_labelled (v : NodeID → Bytes) (nodes : List NodeID) :
    nodes.zip (nodes.map v) = labelled v nodes := by
  induction nodes with
  | nil => rfl
  | cons id rest ih => simp [labelled] at ih ⊢; exact ih

theorem extend_correct (hash : HashFn) (r : Range) (stop : Nat) (v : NodeID → Bytes)
    (held : r.Holds v) (order : r.stop ≤ stop)
    (parents : ParentsHash hash v (NodeID.Straddles r.start r.stop stop)) :
    (extend hash r stop (labelled v (cover r.stop stop))).1 =
        ⟨r.start, stop, (cover r.start stop).map v⟩ ∧
      Visited (extend hash r stop (labelled v (cover r.stop stop))).2
        (NodeID.Straddles r.start r.stop stop) v := by
  have stack : r.stack.reverse = labelled v (cover r.start r.stop) := by
    rw [Range.stack, List.reverse_reverse, held.2, zip_labelled]
  have pushed := pushNodes_correct hash v r.stack stack held.1 order parents
  refine ⟨?_, pushed.2⟩
  simp only [extend, pushed.1, Range.mk.injEq, true_and]
  simp only [labelled, List.map_map, Function.comp_def]

theorem cover_leaf (i : Nat) : cover i (i + 1) = [⟨0, i⟩] := by
  simpa using cover_singleton ⟨0, i⟩

theorem ephemeralNodes_outside (hash : HashFn) (b e : Nat) (nodes : List Visit)
    (members : ∀ visit ∈ nodes, visit.1 ∈ cover b e) :
    ∀ visit ∈ ephemeralNodes hash nodes, ¬ visit.1.Within b e := by
  induction nodes with
  | nil => simp [ephemeralNodes]
  | cons node rest ih =>
    obtain ⟨id, value⟩ := node
    cases rest with
    | nil => simp [ephemeralNodes]
    | cons next rest =>
      simp only [ephemeralNodes, List.mem_cons]
      rintro visit (rfl | later)
      · exact ((mem_cover_iff b e id).mp (members (id, value) (by simp))).2
      · exact ih (fun visit member => members visit (by simp [member])) visit later

theorem reference_lawful : Lawful reference where
  rangeNodes _ _ _ := rfl
  newRange_ok b e hashes order length := if_pos ⟨order, length⟩
  newRange_error b e hashes bad := ⟨_, if_neg bad⟩
  newEmptyRange _ := rfl
  append hash r leaf v held value parents := by
    have extended := extend_correct hash r (r.stop + 1) v held (Nat.le_succ _) parents
    rw [cover_leaf, labelled, List.map_singleton, value] at extended
    refine ⟨rfl, extended.1, ?_⟩
    have visited := extended.2.cons
      (Q := fun id => id = ⟨0, r.stop⟩ ∨ id.Straddles r.start r.stop (r.stop + 1))
      (fun straddles => by have := straddles.bounds; simp at this) (fun _ => Iff.rfl)
    rwa [value] at visited
  appendRange hash r other v held otherHeld joined parents := by
    obtain ⟨b, e, hashes⟩ := other
    dsimp only at joined parents ⊢
    subst joined
    have order : r.stop ≤ e := otherHeld.1
    have same : hashes = (cover r.stop e).map v := otherHeld.2
    have extended := extend_correct hash r e v held order parents
    simp only [reference, if_true, same, zip_labelled]
    exact ⟨trivial, extended⟩
  getRootHash hash r zero := by simp [reference, zero]
  ephemeral hash r zero _ := by
    simp only [reference, zero, if_true, List.mem_reverse]
    exact ephemeralNodes_outside hash 0 r.stop _ fun visit member => (List.of_mem_zip member).1

end Compact
