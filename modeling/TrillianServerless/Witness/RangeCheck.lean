import TrillianServerless.Witness.Update

set_option autoImplicit false

namespace WitnessServer

open Go Merkle Checkpoints

section Range

variable {pkg : Compact.Package} {h : LogHasher}

theorem verifyRangeHash_ok (lawful : Compact.Lawful pkg) {root : Bytes} {rng : Compact.Range}
    (start : rng.start = 0) :
    verifyRangeHash pkg h root rng = .ok () ↔ root = rangeRoot h.hashChildren [] rng.hashes := by
  rw [verifyRangeHash, lawful.getRootHash _ _ start]
  show (if root = rangeRoot h.hashChildren [] rng.hashes then Except.ok () else _) = _ ↔ _
  by_cases same : root = rangeRoot h.hashChildren [] rng.hashes
  · simp [same]
  · simp [same]

-- The nodes that verifyRange works with.
def rangeNodes (h : LogHasher) (p n : Nat) (rng delta : List Bytes) : NodeID → Bytes :=
  joined h.hashChildren [] 0 p n rng delta

theorem appendRange_eq (lawful : Compact.Lawful pkg) {p n : Nat} {rng delta : List Bytes}
    (order : p ≤ n) (length : rng.length = (cover 0 p).length)
    (length' : delta.length = (cover p n).length) :
    (pkg.appendRange h.hashChildren ⟨0, p, rng⟩ ⟨p, n, delta⟩).range =
      ⟨0, n, (cover 0 n).map (rangeNodes h p n rng delta)⟩ :=
  (lawful.appendRange h.hashChildren ⟨0, p, rng⟩ ⟨p, n, delta⟩ (rangeNodes h p n rng delta)
    ⟨Nat.zero_le _, (joined_left _ _ n delta length).symm⟩
    ⟨order, (joined_right _ _ 0 rng length').symm⟩ rfl
    (merged_parents _ _ 0 p n)).2.1

/-- verifyRange accepts what fits the two sizes and gives both roots. -/
theorem verifyRange_eq_ok (lawful : Compact.Lawful pkg) {next prev : Checkpoint}
    {rng delta result : List Bytes} :
    verifyRange pkg next prev h rng delta = .ok result ↔
      rng.length = (cover 0 prev.size).length ∧ prev.hash = rangeRoot h.hashChildren [] rng ∧
      prev.size ≤ next.size ∧ delta.length = (cover prev.size next.size).length ∧
      result = (cover 0 next.size).map (rangeNodes h prev.size next.size rng delta) ∧
      next.hash = rangeRoot h.hashChildren [] result := by
  unfold verifyRange
  constructor
  · intro accepted
    obtain ⟨r, formed, accepted⟩ := except_bind_eq_ok.mp accepted
    obtain ⟨_, length, rfl⟩ := lawful.newRange_eq_ok.mp (hideErr_eq_ok.mp formed)
    obtain ⟨_, old, accepted⟩ := except_bind_eq_ok.mp accepted
    have oldRoot := (verifyRangeHash_ok lawful rfl).mp (hideErr_eq_ok.mp old)
    obtain ⟨d, formed', accepted⟩ := except_bind_eq_ok.mp accepted
    obtain ⟨order, length', rfl⟩ := lawful.newRange_eq_ok.mp (hideErr_eq_ok.mp formed')
    rw [appendRange_eq lawful order length length'] at accepted
    obtain ⟨_, new, returned⟩ := except_bind_eq_ok.mp accepted
    have newRoot := (verifyRangeHash_ok lawful rfl).mp (hideErr_eq_ok.mp new)
    obtain rfl := Except.ok.inj returned
    exact ⟨length, oldRoot, order, length', rfl, newRoot⟩
  · rintro ⟨length, oldRoot, order, length', rfl, newRoot⟩
    refine except_bind_eq_ok.mpr ⟨⟨0, prev.size, rng⟩, ?_, ?_⟩
    · exact hideErr_eq_ok.mpr (lawful.newRange_eq_ok.mpr ⟨Nat.zero_le _, length, rfl⟩)
    refine except_bind_eq_ok.mpr ⟨(), ?_, ?_⟩
    · exact hideErr_eq_ok.mpr ((verifyRangeHash_ok lawful rfl).mpr oldRoot)
    refine except_bind_eq_ok.mpr ⟨⟨prev.size, next.size, delta⟩, ?_, ?_⟩
    · exact hideErr_eq_ok.mpr (lawful.newRange_eq_ok.mpr ⟨order, length', rfl⟩)
    rw [appendRange_eq lawful order length length']
    refine except_bind_eq_ok.mpr ⟨(), ?_, rfl⟩
    exact hideErr_eq_ok.mpr ((verifyRangeHash_ok lawful rfl).mpr newRoot)

theorem rangeNodes_true (lawful : Compact.Lawful pkg) (entries : List Bytes) {p n : Nat}
    (order : p ≤ n) :
    (cover 0 n).map (rangeNodes h p n ((cover 0 p).map (h.logNode entries))
      ((cover p n).map (h.logNode entries))) = (cover 0 n).map (h.logNode entries) := by
  have own : (pkg.appendRange h.hashChildren ⟨0, p, (cover 0 p).map (h.logNode entries)⟩
      ⟨p, n, (cover p n).map (h.logNode entries)⟩).range = ⟨0, n, (cover 0 n).map (rangeNodes h p n
        ((cover 0 p).map (h.logNode entries)) ((cover p n).map (h.logNode entries)))⟩ :=
    appendRange_eq lawful order (by simp) (by simp)
  have true' := (lawful.appendRange h.hashChildren ⟨0, p, (cover 0 p).map (h.logNode entries)⟩
    ⟨p, n, (cover p n).map (h.logNode entries)⟩ (h.logNode entries) ⟨Nat.zero_le _, rfl⟩ ⟨order, rfl⟩
    rfl fun l i _ => nodeHash_parent _ _ l i).2.1
  exact (Compact.Range.mk.inj (own.symm.trans true')).2.2

/-- verifyRange accepts the compact ranges of a log, -/
theorem verifyRange_true (lawful : Compact.Lawful pkg) (entries : List Bytes) {p n : Nat}
    {prev next : Checkpoint} (positive : 0 < p) (order : p ≤ n) (bound : n ≤ entries.length)
    (prevSize : prev.size = p) (prevHash : prev.hash = h.logRoot (entries.take p))
    (nextSize : next.size = n) (nextHash : next.hash = h.logRoot (entries.take n)) :
    verifyRange pkg next prev h ((cover 0 p).map (h.logNode entries))
      ((cover p n).map (h.logNode entries)) = .ok ((cover 0 n).map (h.logNode entries)) := by
  subst prevSize nextSize
  refine (verifyRange_eq_ok lawful).mpr ⟨by simp, ?_, order, by simp, ?_, ?_⟩
  · rw [prevHash, h.rangeRoot_take entries positive (by omega)]
  · rw [rangeNodes_true lawful entries order]
  · rw [nextHash, h.rangeRoot_take entries (by omega) bound]

/-- and whatever else it accepts, the old log is a prefix of the new one. -/
theorem verifyRange_prefix (lawful : Compact.Lawful pkg) {old new : List Bytes} {prev next : Checkpoint}
    {rng delta result : List Bytes} (bindsOld : h.Binds old) (bindsNew : h.Binds new)
    (positive : 0 < old.length) (less : old.length < new.length) (prevSize : prev.size = old.length)
    (prevHash : prev.hash = h.logRoot old) (nextSize : next.size = new.length)
    (nextHash : next.hash = h.logRoot new)
    (accepted : verifyRange pkg next prev h rng delta = .ok result) : old <+: new := by
  obtain ⟨length, oldRoot, _, _, rfl, newRoot⟩ := (verifyRange_eq_ok lawful).mp accepted
  rw [prevSize, nextSize] at *
  have oldTake := h.logRoot_take old positive (Nat.le_refl _)
  have newTake := h.logRoot_take new (Nat.lt_trans positive less) (Nat.le_refl _)
  rw [List.take_length] at oldTake newTake
  have below : coverRoot h.hashChildren [] (rangeNodes h old.length new.length rng delta) 0 new.length =
      spanHash h.hashChildren (h.leafOf new) [] ⟨0, new.length⟩ := by
    rw [coverRoot, Nat.zero_add, ← newTake, ← nextHash, newRoot]
  have agrees := coverRoot_pins (h.sized new) bindsNew.nodes (merged_parents _ _ 0 old.length new.length)
    (Nat.dvd_zero _) (Nat.le_of_lt Nat.lt_two_pow_self) (Nat.le_refl 0) positive (by omega) (by omega)
    (by omega) below
  have own : coverRoot h.hashChildren [] (rangeNodes h old.length new.length rng delta) 0 old.length =
      spanHash h.hashChildren (h.leafOf old) [] ⟨0, old.length⟩ := by
    rw [coverRoot, Nat.zero_add, rangeNodes, joined_left _ _ _ _ length, ← oldTake, ← prevHash, oldRoot]
  have nodes := coverRoot_agrees (h.sized old) bindsOld.nodes (h.logNode_length new) (Nat.dvd_zero _)
    positive (Nat.le_of_lt Nat.lt_two_pow_self) (by omega) (by rw [Nat.zero_add]; exact agrees) own
  refine bindsNew.isPrefix (Nat.le_of_lt less) positive ?_
  rw [Nat.zero_add] at nodes
  rw [← h.rangeRoot_take new positive (Nat.le_of_lt less), nodes]
  have root := h.rangeRoot_take old positive (Nat.le_refl _)
  rw [List.take_length] at root
  exact root.symm

/-- The check of compact ranges is sound for ranges of any lengths, and complete. -/
theorem verifyRange_correct (lawful : Compact.Lawful pkg) (h : LogHasher) :
    (∀ (old new : List Bytes) (prev next : Checkpoint) (rng delta result : List Bytes),
      h.Binds old → h.Binds new → 0 < old.length → old.length < new.length →
      prev.size = old.length → prev.hash = h.logRoot old →
      next.size = new.length → next.hash = h.logRoot new →
      verifyRange pkg next prev h rng delta = .ok result → old <+: new) ∧
    ∀ (new : List Bytes) (p : Nat) (prev next : Checkpoint), 0 < p → p < new.length →
      prev.size = p → prev.hash = h.logRoot (new.take p) →
      next.size = new.length → next.hash = h.logRoot new →
      verifyRange pkg next prev h ((cover 0 p).map (h.logNode new))
        ((cover p new.length).map (h.logNode new)) = .ok ((cover 0 new.length).map (h.logNode new)) := by
  constructor
  · intro old new prev next rng delta result bindsOld bindsNew positive less prevSize prevHash nextSize
      nextHash accepted
    exact verifyRange_prefix lawful bindsOld bindsNew positive less prevSize prevHash nextSize nextHash
      accepted
  · intro new p prev next positive less prevSize prevHash nextSize nextHash
    exact verifyRange_true lawful new positive (Nat.le_of_lt less) (Nat.le_refl _) prevSize prevHash
      nextSize (by rw [nextHash, List.take_length])

def pairHasher : LogHasher :=
  .listing [[1], [2]] [LogHasher.numbered 1 [[1], [2]] [1] ++ LogHasher.numbered 1 [[1], [2]] [2]]

theorem pairHasher_binds {entries : List Bytes} (front : entries <+: [[1], [2]]) : pairHasher.Binds entries :=
  LogHasher.listing_binds (by decide) (by decide) (by simp) (by simp) (by simp) front

theorem verifyRange_correct_pair :
    ([[1]] : List Bytes) <+: [[1], [2]] ∧
      verifyRange Compact.reference ⟨"", 2, pairHasher.logRoot [[1], [2]]⟩
        ⟨"", 1, pairHasher.logRoot [[1]]⟩ pairHasher ((cover 0 1).map (pairHasher.logNode [[1], [2]]))
        ((cover 1 2).map (pairHasher.logNode [[1], [2]])) =
          .ok ((cover 0 2).map (pairHasher.logNode [[1], [2]])) := by
  have complete := (verifyRange_correct Compact.reference_lawful pairHasher).2 [[1], [2]] 1
    ⟨"", 1, pairHasher.logRoot [[1]]⟩ ⟨"", 2, pairHasher.logRoot [[1], [2]]⟩ (by decide) (by decide)
    rfl rfl rfl rfl
  refine ⟨?_, complete⟩
  exact (verifyRange_correct Compact.reference_lawful pairHasher).1 [[1]] [[1], [2]] _ _ _ _ _
    (pairHasher_binds ⟨[[2]], rfl⟩) (pairHasher_binds (List.prefix_refl _)) (by decide) (by decide)
    rfl rfl rfl rfl complete

end Range

end WitnessServer
