import TrillianServerless.Shared.PerfectNodes

set_option autoImplicit false

namespace Merkle

def NodeID.Straddles (b m e : Nat) (id : NodeID) : Prop :=
  id.Within b e ∧ ¬ id.Within b m ∧ ¬ id.Within m e

theorem NodeID.Straddles.bounds {b m e : Nat} {id : NodeID} (h : id.Straddles b m e) :
    b ≤ id.first ∧ id.first < m ∧ m < id.stop ∧ id.stop ≤ e := by
  obtain ⟨⟨lower, upper⟩, notLeft, notRight⟩ := h
  have left : ¬ id.stop ≤ m := fun inside => notLeft ⟨lower, inside⟩
  have right : ¬ m ≤ id.first := fun inside => notRight ⟨inside, upper⟩
  omega

theorem NodeID.straddles_of_bounds {b m e : Nat} {id : NodeID} (lower : b ≤ id.first)
    (left : id.first < m) (right : m < id.stop) (upper : id.stop ≤ e) : id.Straddles b m e :=
  ⟨⟨lower, upper⟩, fun inside => by have := inside.2; omega, fun inside => by have := inside.1; omega⟩

-- `right` is the right sibling of `left`.
def NodeID.Sibling (left right : NodeID) : Prop :=
  left.level = right.level ∧ left.index % 2 = 0 ∧ right.index = left.index + 1

instance (left right : NodeID) : Decidable (left.Sibling right) :=
  inferInstanceAs (Decidable (_ ∧ _ ∧ _))

theorem NodeID.Sibling.parent {left right : NodeID} (h : left.Sibling right) :
    right.parent = ⟨left.level + 1, left.index / 2⟩ ∧ left.index = 2 * (left.index / 2) ∧
      right = ⟨left.level, 2 * (left.index / 2) + 1⟩ := by
  obtain ⟨l, i⟩ := left
  obtain ⟨l', i'⟩ := right
  obtain ⟨level, even, next⟩ := h
  dsimp only at level even next ⊢
  subst level
  subst next
  refine ⟨?_, by omega, ?_⟩
  · simp only [NodeID.parent, NodeID.mk.injEq, true_and]
    omega
  · simp only [NodeID.mk.injEq, true_and]
    omega

theorem NodeID.Sibling.bounds {left right : NodeID} (h : left.Sibling right) :
    right.parent.first = left.first ∧ left.stop = right.first ∧ right.parent.stop = right.stop := by
  obtain ⟨parent, even, next⟩ := h.parent
  obtain ⟨l, i⟩ := left
  dsimp only at parent even next
  rw [parent, next]
  refine ⟨?_, ?_, (NodeID.right_stop _ _).symm⟩
  · rw [← NodeID.left_first, ← even]
  · rw [← NodeID.left_stop, ← even]

theorem cover_singleton (id : NodeID) : cover id.first id.stop = [id] := by
  have nonempty := id.first_lt_stop
  have start := headNode_first nonempty
  have finish := headNode_stop nonempty
  have fits := (fitLevel_spec nonempty).2
  have high := level_le_headNode (b := id.first) rfl (Nat.le_refl id.stop)
  have low := NodeID.level_le_of_first (headNode id.first id.stop) id start (by omega)
  have equal : headNode id.first id.stop = id := NodeID.ext_first (by omega) start
  rw [cover_cons nonempty, ← finish, equal, cover_self]

-- Dropping the last node of a cover leaves the cover of the leaves before it.
theorem cover_dropLast {b m : Nat} {init : List NodeID} {last : NodeID}
    (h : cover b m = init ++ [last]) : init = cover b last.first := by
  have ordered := cover_ordered b m
  rw [h, List.pairwise_append] at ordered
  have lastMem : last.Within b m ∧ ¬ last.parent.Within b m :=
    (mem_cover_iff b m last).mp (by simp [h])
  apply eq_cover_of_mem ordered.1
  intro id
  have grows := id.first_lt_stop
  have lastGrows := last.first_lt_stop
  constructor
  · intro member
    have inside := (mem_cover_iff b m id).mp (by simp [h, member])
    have before := ordered.2.2 id member last (by simp)
    exact ⟨⟨inside.1.1, before⟩, fun parent => inside.2
      ⟨parent.1, by have := parent.2; have := lastMem.1.2; omega⟩⟩
  · rintro ⟨⟨lower, upper⟩, outside⟩
    have up := lastMem.1.2
    have maximal : ¬ id.parent.Within b m := by
      intro parent
      have parentStart := id.parent_first_le
      have reach : ¬ id.parent.stop ≤ last.first := fun le => outside ⟨parent.1, le⟩
      -- A node inside [b, m) that starts before the last node and reaches into it contains its parent.
      have larger : last.level < id.parent.level := by
        by_contra small
        have := NodeID.disjoint_or_nested id.parent last (by omega)
        omega
      have outer := NodeID.disjoint_or_nested last.parent id.parent larger
      have := last.parent_first_le
      have := last.stop_le_parent_stop
      have := parent.2
      have := parent.1
      exact lastMem.2 ⟨by omega, by omega⟩
    have member : id ∈ cover b m := (mem_cover_iff b m id).mpr ⟨⟨lower, by omega⟩, maximal⟩
    rw [h, List.mem_append, List.mem_singleton] at member
    rcases member with member | rfl
    · exact member
    · omega

theorem cover_last_stop {b m : Nat} {init : List NodeID} {last : NodeID}
    (h : cover b m = init ++ [last]) : last.stop = m := by
  induction b using cover_induction (e := m) generalizing init with
  | nil b empty =>
    rw [cover_nil_of_le empty] at h
    simp at h
  | cons b nonempty ih =>
    rw [cover_cons nonempty] at h
    have stop := headNode_stop nonempty
    rcases List.eq_nil_or_concat (cover (b + 2 ^ fitLevel b m) m) with none | ⟨rest, final, some_⟩
    · rw [none] at h
      have same : headNode b m = last := by
        have := congrArg (fun l => l.getLast?) h
        simpa using this
      have full : ¬ b + 2 ^ fitLevel b m < m := by
        intro more
        rw [cover_cons more] at none
        simp at none
      have := (fitLevel_spec nonempty).2
      rw [← same]
      omega
    · rw [some_] at h
      have same : final = last := by
        rw [List.concat_eq_append, ← List.cons_append] at h
        exact (List.append_inj' h rfl).2 |> List.singleton_inj.mp
      subst same
      exact ih (by simpa using some_)

theorem sibling_of_straddles {b e : Nat} {node : NodeID} (stop : node.stop = e) {id : NodeID}
    (h : id.Straddles b node.first e) :
    ∃ init left, cover b node.first = init ++ [left] ∧ left.Sibling node := by
  obtain ⟨lower, start, reach, upper⟩ := h.bounds
  have grows := node.first_lt_stop
  have larger : node.level < id.level := by
    by_contra small
    have := NodeID.disjoint_or_nested id node (by omega)
    omega
  have outer := NodeID.disjoint_or_nested node.parent id larger
  have parentStart := node.parent_first_le
  have parentStop := node.stop_le_parent_stop
  -- The parent ends where the node ends, so the node is a right child.
  have finish : node.parent.stop = node.stop := by omega
  have odd : node.index % 2 = 1 := by
    have width : (node.index / 2 + 1) * 2 * 2 ^ node.level = (node.index + 1) * 2 ^ node.level := by
      rw [NodeID.stop, NodeID.stop, NodeID.parent, pow_succ] at finish
      rw [← finish]; ring
    have := Nat.eq_of_mul_eq_mul_right (Nat.two_pow_pos _) width
    omega
  have sibling : NodeID.Sibling ⟨node.level, node.index - 1⟩ node :=
    ⟨rfl, by dsimp only; omega, by dsimp only; omega⟩
  obtain ⟨first, joint, _⟩ := sibling.bounds
  have leftParent : (⟨node.level, node.index - 1⟩ : NodeID).parent = node.parent := by
    simp only [NodeID.parent, NodeID.mk.injEq, true_and]
    omega
  have member : (⟨node.level, node.index - 1⟩ : NodeID) ∈ cover b node.first := by
    rw [mem_cover_iff, leftParent]
    refine ⟨⟨by omega, by omega⟩, fun inside => ?_⟩
    have := inside.2
    omega
  rcases List.eq_nil_or_concat (cover b node.first) with none | ⟨init, last, some_⟩
  · simp [none] at member
  · refine ⟨init, last, by simpa using some_, ?_⟩
    have ends := cover_last_stop (by simpa using some_)
    have ordered := cover_ordered b node.first
    rw [some_, List.concat_eq_append, List.pairwise_append] at ordered
    rw [some_, List.concat_eq_append, List.mem_append, List.mem_singleton] at member
    rcases member with member | equal
    · have := ordered.2.2 _ member last (by simp)
      have := last.first_lt_stop
      omega
    · rw [← equal]
      exact sibling

section Push

variable {A : Type} (combine : A → A → A)

-- `pushNode` adds a node to the right end of a cover, held as a stack with the last node on top, and
-- reports the parents it completes.
def pushNode : List (NodeID × A) → NodeID × A → List (NodeID × A) × List (NodeID × A)
  | [], node => ([node], [])
  | top :: rest, node =>
    if top.1.Sibling node.1 then
      let joined := (node.1.parent, combine top.2 node.2)
      let result := pushNode rest joined
      (result.1, joined :: result.2)
    else (node :: top :: rest, [])

def pushNodes : List (NodeID × A) → List (NodeID × A) → List (NodeID × A) × List (NodeID × A)
  | stack, [] => (stack, [])
  | stack, node :: rest =>
    let first := pushNode combine stack node
    let later := pushNodes first.1 rest
    (later.1, first.2 ++ later.2)

def labelled (v : NodeID → A) (nodes : List NodeID) : List (NodeID × A) :=
  nodes.map fun id => (id, v id)

/-- `visits` reports each node with property `P` once, with its value under `v`. -/
structure Visited (visits : List (NodeID × A)) (P : NodeID → Prop) (v : NodeID → A) : Prop where
  once : (visits.map Prod.fst).Nodup
  complete : ∀ id value, (id, value) ∈ visits ↔ P id ∧ value = v id

theorem Visited.nil {P : NodeID → Prop} {v : NodeID → A} (none : ∀ id, ¬ P id) :
    Visited [] P v := ⟨by simp, fun id value => by simp [none id]⟩

theorem Visited.mem_ids {visits : List (NodeID × A)} {P : NodeID → Prop} {v : NodeID → A}
    (h : Visited visits P v) (id : NodeID) : id ∈ visits.map Prod.fst ↔ P id := by
  constructor
  · intro member
    obtain ⟨⟨_, value⟩, found, rfl⟩ := List.mem_map.mp member
    exact ((h.complete _ _).mp found).1
  · intro holds
    exact List.mem_map.mpr ⟨(id, v id), (h.complete _ _).mpr ⟨holds, rfl⟩, rfl⟩

theorem Visited.append {first later : List (NodeID × A)} {P Q R : NodeID → Prop} {v : NodeID → A}
    (hP : Visited first P v) (hQ : Visited later Q v) (apart : ∀ id, P id → ¬ Q id)
    (all : ∀ id, R id ↔ P id ∨ Q id) : Visited (first ++ later) R v := by
  constructor
  · rw [List.map_append, List.nodup_append]
    refine ⟨hP.once, hQ.once, ?_⟩
    rintro id left _ right rfl
    exact apart id ((hP.mem_ids id).mp left) ((hQ.mem_ids id).mp right)
  · intro id value
    rw [List.mem_append, hP.complete, hQ.complete, all]
    tauto

theorem Visited.cons {visits : List (NodeID × A)} {P Q : NodeID → Prop} {v : NodeID → A}
    {id : NodeID} (h : Visited visits P v) (fresh : ¬ P id)
    (all : ∀ other, Q other ↔ other = id ∨ P other) : Visited ((id, v id) :: visits) Q v := by
  have single : Visited [(id, v id)] (fun other => other = id) v :=
    ⟨by simp, fun other value => by
      simp only [List.mem_singleton, Prod.mk.injEq]
      constructor <;> (rintro ⟨rfl, rfl⟩; exact ⟨rfl, rfl⟩)⟩
  exact single.append h (fun other same => by rw [same]; exact fresh) all

def ParentsHash (v : NodeID → A) (P : NodeID → Prop) : Prop :=
  ∀ l i, P ⟨l + 1, i⟩ → v ⟨l + 1, i⟩ = combine (v ⟨l, 2 * i⟩) (v ⟨l, 2 * i + 1⟩)

-- Joining two siblings, the other new nodes are exactly the ones that reach across the pair.
theorem straddles_sibling {b : Nat} {last node : NodeID} (sibling : last.Sibling node) (inside : b ≤ last.first)
    (id : NodeID) : id.Straddles b node.first node.stop ↔
      id = node.parent ∨ id.Straddles b node.parent.first node.parent.stop := by
  obtain ⟨first, joint, finish⟩ := sibling.bounds
  have lastGrows := last.first_lt_stop
  have nodeGrows := node.first_lt_stop
  rw [first, finish]
  constructor
  · intro h
    have bounds := h.bounds
    rcases Nat.lt_or_ge id.level node.parent.level with small | large
    · simp only [NodeID.parent] at small
      have level := sibling.1
      have apart := NodeID.disjoint_or_nested id node (by omega)
      have apart' := NodeID.disjoint_or_nested id last (by omega)
      omega
    · have nested := NodeID.disjoint_or_nested node.parent id large
      rcases Nat.lt_or_ge id.first last.first with before | after
      · exact Or.inr (NodeID.straddles_of_bounds (by omega) before (by omega) (by omega))
      · left
        have low := NodeID.level_le_of_first id node.parent (by omega) (by omega)
        exact NodeID.ext_first (by omega) (by omega)
  · rintro (rfl | h)
    · exact NodeID.straddles_of_bounds (by omega) (by omega) (by omega) (by omega)
    · have bounds := h.bounds
      rcases Nat.le_total id.level node.parent.level with small | large
      · have apart := NodeID.disjoint_or_nested id node.parent small
        omega
      · have nested := NodeID.disjoint_or_nested node.parent id large
        exact NodeID.straddles_of_bounds (by omega) (by omega) (by omega) (by omega)

-- A node that nothing reaches across is the next one of the cover.
theorem cover_concat {b : Nat} {node : NodeID} (start : b ≤ node.first)
    (none : ∀ id : NodeID, ¬ id.Straddles b node.first node.stop) :
    cover b node.first ++ [node] = cover b node.stop := by
  have grows := node.first_lt_stop
  apply eq_cover_of_mem
  · rw [List.pairwise_append]
    refine ⟨cover_ordered b node.first, by simp, ?_⟩
    intro id member other same
    rw [List.mem_singleton.mp same]
    exact ((mem_cover_iff _ _ id).mp member).1.2
  · intro id
    have parentStart := id.parent_first_le
    have parentStop := id.stop_le_parent_stop
    have idGrows := id.first_lt_stop
    rw [List.mem_append, List.mem_singleton, mem_cover_iff]
    constructor
    · rintro (⟨⟨lower, upper⟩, outside⟩ | rfl)
      · refine ⟨⟨lower, by omega⟩, fun inside => none id.parent ⟨inside, outside, ?_⟩⟩
        intro within
        have := within.1
        omega
      · refine ⟨⟨start, Nat.le_refl _⟩, fun inside => ?_⟩
        have := inside.1
        have := inside.2
        have up : id.level < id.parent.level := by simp [NodeID.parent]
        rcases Nat.lt_or_ge id.parent.first id.first with before | same
        · exact none id.parent (NodeID.straddles_of_bounds (by omega) before (by omega) (by omega))
        · have := NodeID.level_le_of_first id.parent id (by omega) (by omega)
          omega
    · rintro ⟨⟨lower, upper⟩, outside⟩
      by_cases left : id.stop ≤ node.first
      · exact Or.inl ⟨⟨lower, left⟩, fun inside => outside ⟨inside.1, by have := inside.2; omega⟩⟩
      · right
        by_cases right : node.first ≤ id.first
        · by_contra different
          have strict : id.level < node.level := by
            by_contra high
            have := NodeID.disjoint_or_nested node id (by omega)
            have low := NodeID.level_le_of_first id node (by omega) upper
            exact different (NodeID.ext_first (by omega) (by omega))
          have := NodeID.disjoint_or_nested id.parent node strict
          exact outside ⟨by omega, by omega⟩
        · exact absurd (NodeID.straddles_of_bounds lower (by omega) (by omega) upper) (none id)

theorem pushNode_correct (v : NodeID → A) {b : Nat} (node : NodeID) (stack : List (NodeID × A))
    (held : stack.reverse = labelled v (cover b node.first)) (start : b ≤ node.first)
    (parents : ParentsHash combine v (NodeID.Straddles b node.first node.stop)) :
    (pushNode combine stack (node, v node)).1.reverse = labelled v (cover b node.stop) ∧
      Visited (pushNode combine stack (node, v node)).2
        (NodeID.Straddles b node.first node.stop) v := by
  induction stack generalizing node with
  | nil =>
    have none : cover b node.first = [] := by simpa [labelled] using held.symm
    have equal : node.first = b := by
      by_contra different
      exact absurd none (by rw [cover_cons (by omega)]; simp)
    subst equal
    refine ⟨by simp [pushNode, cover_singleton, labelled], Visited.nil fun id straddles => ?_⟩
    have := straddles.bounds
    omega
  | cons top rest ih =>
    rw [List.reverse_cons, labelled] at held
    obtain ⟨init, tail, split, initEq, topEq⟩ := List.append_eq_map_iff.mp held
    obtain ⟨last, rfl, lastEq⟩ : ∃ last, tail = [last] ∧ (last, v last) = top := by
      match tail, topEq with
      | [last], topEq => exact ⟨last, rfl, by simpa using topEq⟩
    have initial := cover_dropLast split
    have stop := cover_last_stop split
    subst lastEq
    simp only [pushNode]
    by_cases sibling : last.Sibling node
    · rw [if_pos sibling]
      obtain ⟨parent, even, right⟩ := sibling.parent
      obtain ⟨first, joint, finish⟩ := sibling.bounds
      have nodeGrows := node.first_lt_stop
      have lastInside : b ≤ last.first := ((mem_cover_iff b node.first last).mp (by simp [split])).1.1
      have others := straddles_sibling sibling lastInside
      have joined : node.parent.Straddles b node.first node.stop := (others _).mpr (Or.inl rfl)
      have value : combine (v last) (v node) = v node.parent := by
        have leftEq : last = ⟨last.level, 2 * (last.index / 2)⟩ := by rw [← even]
        rw [parent, parents _ _ (by rw [← parent]; exact joined), ← right, ← leftEq]
      rw [value]
      have recurse := ih node.parent (by rw [first, ← initial]; simpa [labelled] using initEq.symm) (by omega)
        (fun l i straddles => parents l i ((others _).mpr (Or.inr straddles)))
      rw [finish] at recurse
      rw [finish] at others
      refine ⟨recurse.1, recurse.2.cons (fun h => ?_) others⟩
      have := h.bounds
      omega
    · rw [if_neg sibling]
      have none (id : NodeID) : ¬ id.Straddles b node.first node.stop := by
        intro straddles
        obtain ⟨init', left, split', found⟩ := sibling_of_straddles rfl straddles
        rw [split] at split'
        have equal : last = left := by
          have := congrArg (fun l => l.getLast?) split'
          simpa using this
        exact sibling (equal ▸ found)
      refine ⟨?_, Visited.nil none⟩
      have next := cover_concat start none
      rw [List.reverse_cons, List.reverse_cons, initEq.symm.trans rfl, ← next, split]
      simp [labelled]

theorem pushNodes_correct (v : NodeID → A) {b m e : Nat} (stack : List (NodeID × A))
    (held : stack.reverse = labelled v (cover b m)) (start : b ≤ m) (order : m ≤ e)
    (parents : ParentsHash combine v (NodeID.Straddles b m e)) :
    (pushNodes combine stack (labelled v (cover m e))).1.reverse = labelled v (cover b e) ∧
      Visited (pushNodes combine stack (labelled v (cover m e))).2 (NodeID.Straddles b m e) v := by
  induction m using cover_induction (e := e) generalizing stack with
  | nil m empty =>
    obtain rfl : m = e := by omega
    simp only [cover_self, labelled, List.map_nil, pushNodes]
    refine ⟨held, Visited.nil fun id straddles => ?_⟩
    have := straddles.bounds
    omega
  | cons m nonempty ih =>
    have first := headNode_first nonempty
    have stop := headNode_stop nonempty
    have fits := (fitLevel_spec nonempty).2
    have positive := Nat.two_pow_pos (fitLevel m e)
    have all (id : NodeID) : id.Straddles b m e ↔
        id.Straddles b m (m + 2 ^ fitLevel m e) ∨ id.Straddles b (m + 2 ^ fitLevel m e) e := by
      constructor
      · intro h
        have bounds := h.bounds
        rcases Nat.lt_or_ge (m + 2 ^ fitLevel m e) id.stop with far | near
        · exact Or.inr (NodeID.straddles_of_bounds (by omega) (by omega) (by omega) (by omega))
        · exact Or.inl (NodeID.straddles_of_bounds (by omega) (by omega) (by omega) (by omega))
      · rintro (h | h) <;> have bounds := h.bounds
        · exact NodeID.straddles_of_bounds (by omega) (by omega) (by omega) (by omega)
        · rcases Nat.lt_or_ge id.first m with before | after
          · exact NodeID.straddles_of_bounds (by omega) (by omega) (by omega) (by omega)
          · have := headNode_splits nonempty (show NodeID.Within _ _ id from ⟨after, bounds.2.2.2⟩)
            omega
    rw [cover_cons nonempty, labelled, List.map_cons]
    simp only [pushNodes]
    have one := pushNode_correct combine v (b := b) (headNode m e) stack (by rw [first]; exact held)
      (by omega) (by
        rw [first, stop]
        exact fun l i straddles => parents l i ((all _).mpr (Or.inl straddles)))
    rw [first, stop] at one
    have rest := ih (pushNode combine stack (headNode m e, v (headNode m e))).1 one.1 (by omega) (by omega)
      (fun l i straddles => parents l i ((all _).mpr (Or.inr straddles)))
    refine ⟨rest.1, one.2.append rest.2 (fun id near far => ?_) all⟩
    have := near.bounds
    have := far.bounds
    omega

end Push

end Merkle
