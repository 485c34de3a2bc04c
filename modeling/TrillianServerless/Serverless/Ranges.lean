import TrillianServerless.Serverless.Integrate

set_option autoImplicit false

namespace Serverless

open Go Merkle Checkpoints

-- Complete in a tree of `e` leaves but not in one of `n`.
def Gained (n e : Nat) (id : NodeID) : Prop := n < id.stop ∧ id.stop ≤ e

section Visits

variable {W : Type} (getTile : GetTileFunc W)

theorem visitAll_append (m : TileMap) (first later : List Compact.Visit) :
    visitAll getTile m (first ++ later) = visitAll getTile m first >>= fun m' =>
      visitAll getTile m' later := by
  induction first generalizing m with
  | nil => rfl
  | cons node rest ih =>
    rw [List.cons_append, visitAll, visitAll, Eff.bind_assoc]
    congr 1
    funext m'
    exact ih m'

theorem visit_not_error (m : TileMap) (node : Compact.Visit) (w w' : W) (reason : GoError) :
    visit getTile m node w ≠ (.error reason, w') := by
  simp only [visit]
  split
  · simp
  · split
    · simp
    · split <;> simp
    · simp

theorem visitAll_not_error (m : TileMap) (visits : List Compact.Visit) (w : W) (reason : GoError) :
    (visitAll getTile m visits w).1 ≠ .error reason := by
  induction visits generalizing m w with
  | nil => simp [visitAll]
  | cons node rest ih =>
    rw [visitAll, Eff.bind_run]
    rcases ran : visit getTile m node w with ⟨_ | other | _, w'⟩
    · exact ih _ w'
    · exact absurd ran (visit_not_error getTile m node w w' other)
    · simp

theorem visit_mem {m m' : TileMap} {node : Compact.Visit} {w w' : W}
    (ran : visit getTile m node w = (.ok m', w')) :
    tileOf node.1 ∈ m' ∧ ∀ key ∈ m, key ∈ m' := by
  have inserted : ∃ tile, m' = m.insert (tileOf node.1) tile := by
    simp only [visit] at ran
    split at ran
    · exact ⟨_, (Outcome.ok.inj (Prod.mk.inj ran).1).symm⟩
    · split at ran
      · exact ⟨_, (Outcome.ok.inj (Prod.mk.inj ran).1).symm⟩
      · split at ran
        · exact ⟨_, (Outcome.ok.inj (Prod.mk.inj ran).1).symm⟩
        · simp at ran
      · simp at ran
  obtain ⟨tile, rfl⟩ := inserted
  exact ⟨AList.mem_insert _ |>.mpr (Or.inl rfl), fun key member => AList.mem_insert _ |>.mpr
    (Or.inr member)⟩

theorem visitAll_mem {m m' : TileMap} {visits : List Compact.Visit} {w w' : W}
    (ran : visitAll getTile m visits w = (.ok m', w')) :
    (∀ node ∈ visits, tileOf node.1 ∈ m') ∧ ∀ key ∈ m, key ∈ m' := by
  induction visits generalizing m w with
  | nil =>
    obtain rfl := Outcome.ok.inj (Prod.mk.inj ran).1
    simp
  | cons node rest ih =>
    obtain ⟨m1, w1, first, ran⟩ := Eff.bind_eq_ok.mp ran
    obtain ⟨here, kept⟩ := visit_mem getTile first
    obtain ⟨later, keptLater⟩ := ih ran
    refine ⟨fun other member => ?_, fun key member => keptLater key (kept key member)⟩
    rcases List.mem_cons.mp member with rfl | member
    · exact keptLater _ here
    · exact later other member

end Visits

section Appended

variable (deps : Deps) (h : LogHasher)

def appendedRange : Compact.Range → List Bytes → Compact.Range × List Compact.Visit
  | r, [] => (r, [])
  | r, entry :: rest =>
    let extension := deps.compact.append h.hashChildren r (h.hashLeaf entry)
    let later := appendedRange extension.range rest
    (later.1, extension.visits ++ later.2)

theorem appendEntries_eq {W : Type} (getTile : GetTileFunc W) (r : Compact.Range) (m : TileMap)
    (entries : List Bytes) :
    appendEntries deps h getTile r m entries =
      visitAll getTile m (appendedRange deps h r entries).2 >>= fun m' =>
        pure ((appendedRange deps h r entries).1, m') := by
  induction entries generalizing r m with
  | nil => rfl
  | cons entry rest ih =>
    rw [appendEntries, appendedRange]
    dsimp only
    rw [visitAll_append, Eff.bind_assoc]
    congr 1
    funext m'
    exact ih _ m'

-- What the tree over the old and the new leaves asks of the values of its nodes.
structure Extends (v : NodeID → Bytes) (n : Nat) (entries : List Bytes) : Prop where
  leaves : ∀ i (bound : i < entries.length), v ⟨0, n + i⟩ = h.hashLeaf entries[i]
  parents : ParentsHash h.hashChildren v (Gained n (n + entries.length))

variable {deps h} {v : NodeID → Bytes}

theorem Extends.tail {n : Nat} {entry : Bytes} {rest : List Bytes}
    (extends' : Extends h v n (entry :: rest)) : Extends h v (n + 1) rest where
  leaves i bound := by
    have := extends'.leaves (i + 1) (by simp; omega)
    rw [show n + 1 + i = n + (i + 1) by omega, this]
    rfl
  parents l i gained := extends'.parents l i ⟨by have := gained.1; omega, by
    have := gained.2
    rw [List.length_cons]
    omega⟩

theorem leaf_of_bounds {id : NodeID} {n : Nat} (lower : n ≤ id.first) (upper : id.stop ≤ n + 1) :
    id = ⟨0, n⟩ := by
  have width := id.stop_eq
  have positive := Nat.two_pow_pos id.level
  have level : id.level = 0 := by
    by_contra high
    have : 2 ^ 1 ≤ 2 ^ id.level := Nat.pow_le_pow_right (by omega) (by omega)
    omega
  exact NodeID.ext_first level (by rw [NodeID.leaf_first]; rw [level] at width; omega)

theorem appendedRange_correct (lawful : Compact.Lawful deps.compact) {r : Compact.Range}
    {entries : List Bytes} (held : r.Holds v) (extends' : Extends h v r.stop entries) :
    (appendedRange deps h r entries).1 = ⟨r.start, r.stop + entries.length,
        (cover r.start (r.stop + entries.length)).map v⟩ ∧
      Visited (appendedRange deps h r entries).2
        (fun id => r.start ≤ id.first ∧ Gained r.stop (r.stop + entries.length) id) v := by
  induction entries generalizing r with
  | nil =>
    refine ⟨?_, Visited.nil fun id gained => ?_⟩
    · obtain ⟨start, stop, hashes⟩ := r
      simpa [appendedRange] using held.2
    · have := gained.2.1
      have := gained.2.2
      simp at this
      omega
  | cons entry rest ih =>
    have leaf := extends'.leaves 0 (by simp)
    have parents : ParentsHash h.hashChildren v (NodeID.Straddles r.start r.stop (r.stop + 1)) :=
      fun l i straddles => extends'.parents l i ⟨straddles.bounds.2.2.1, by
        have := straddles.bounds.2.2.2
        rw [List.length_cons]
        omega⟩
    obtain ⟨_, range, visited⟩ :=
      lawful.append h.hashChildren r (h.hashLeaf entry) v held (by simpa using leaf) parents
    have ordered := held.1
    rw [appendedRange]
    dsimp only
    rw [range]
    obtain ⟨later, laterVisited⟩ := @ih ⟨r.start, r.stop + 1, (cover r.start (r.stop + 1)).map v⟩
      ⟨by dsimp only; omega, rfl⟩ extends'.tail
    dsimp only at later laterVisited
    rw [List.length_cons, show r.stop + (rest.length + 1) = r.stop + 1 + rest.length by omega]
    refine ⟨later, visited.append laterVisited ?_ ?_⟩
    · rintro id near ⟨_, far, _⟩
      rcases near with rfl | straddles
      · simp at far
      · have := straddles.bounds
        omega
    · intro id
      simp only [Gained]
      constructor
      · rintro ⟨lower, gained, bound⟩
        rcases Nat.lt_or_ge (r.stop + 1) id.stop with far | near
        · exact Or.inr ⟨lower, far, bound⟩
        · left
          rcases Nat.lt_or_ge id.first r.stop with before | after
          · exact Or.inr (NodeID.straddles_of_bounds lower before gained near)
          · exact Or.inl (leaf_of_bounds after near)
      · rintro ((rfl | straddles) | ⟨lower, far, bound⟩)
        · simp only [NodeID.leaf_first, NodeID.leaf_stop]
          omega
        · have := straddles.bounds
          omega
        · exact ⟨lower, by omega, bound⟩

variable (deps h) in
-- All calls of Visit that Integrate makes, in order.
def allVisits (base : Compact.Range) (entries : List Bytes) : List Compact.Visit :=
  let new := appendedRange deps h (deps.compact.newEmptyRange base.stop) entries
  new.2 ++ (deps.compact.appendRange h.hashChildren base new.1).visits

theorem merge_correct (lawful : Compact.Lawful deps.compact) {n : Nat} {entries : List Bytes}
    (extends' : Extends h v n entries) :
    let base : Compact.Range := ⟨0, n, (cover 0 n).map v⟩
    let new := appendedRange deps h (deps.compact.newEmptyRange n) entries
    (deps.compact.appendRange h.hashChildren base new.1).err = none ∧
      (deps.compact.appendRange h.hashChildren base new.1).range =
        ⟨0, n + entries.length, (cover 0 (n + entries.length)).map v⟩ ∧
      Visited (allVisits deps h base entries) (Gained n (n + entries.length)) v := by
  have empty : (⟨n, n, []⟩ : Compact.Range).Holds v := ⟨Nat.le_refl _, by simp⟩
  obtain ⟨new, newVisited⟩ := appendedRange_correct lawful empty extends'
  dsimp only [allVisits]
  rw [lawful.newEmptyRange, new]
  obtain ⟨err, range, visited⟩ := lawful.appendRange h.hashChildren ⟨0, n, (cover 0 n).map v⟩
    ⟨n, n + entries.length, (cover n (n + entries.length)).map v⟩ v ⟨Nat.zero_le _, rfl⟩
    ⟨Nat.le_add_right _ _, rfl⟩ rfl fun l i straddles => extends'.parents l i
      ⟨straddles.bounds.2.2.1, straddles.bounds.2.2.2⟩
  refine ⟨err, range, newVisited.append visited ?_ ?_⟩
  · rintro id ⟨lower, _⟩ straddles
    have := straddles.bounds
    dsimp only at this lower
    omega
  · intro id
    dsimp only [Gained]
    constructor
    · rintro ⟨gained, bound⟩
      rcases Nat.lt_or_ge id.first n with before | after
      · exact Or.inr (NodeID.straddles_of_bounds (Nat.zero_le _) before gained bound)
      · exact Or.inl ⟨after, gained, bound⟩
    · rintro (⟨_, gained⟩ | straddles)
      · exact gained
      · exact ⟨straddles.bounds.2.2.1, straddles.bounds.2.2.2⟩

end Appended

end Serverless
