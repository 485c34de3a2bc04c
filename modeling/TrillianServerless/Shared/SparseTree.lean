import Mathlib.Data.List.Basic

set_option autoImplicit false

namespace Sparse

section Hashing

variable {A : Type} (combine : A → A → A) (empty : List Bool → A)

-- The hash of the parent of `x`, which is the right child where `bit` is set.
def above (bit : Bool) (x sibling : A) : A := if bit then combine sibling x else combine x sibling

/-- The hash of the node `id` over those nodes that are given `h` levels below it, or none if there are no such nodes. -/
def nodeAt (given : List Bool → Option A) : Nat → List Bool → Option A
  | 0, id => given id
  | h + 1, id =>
    match nodeAt given h (id ++ [false]), nodeAt given h (id ++ [true]) with
    | none, none => none
    | left, right => some (combine (left.getD (empty (id ++ [false]))) (right.getD (empty (id ++ [true]))))

-- An empty subtree has a hash as well.
def hashAt (given : List Bool → Option A) (h : Nat) (id : List Bool) : A :=
  (nodeAt combine empty given h id).getD (empty id)

-- The hash `bits.length` levels above `x`, with the siblings on the way from the top.
def pathRoot : List Bool → List A → A → A
  | bit :: bits, sibling :: siblings, x => above combine bit (pathRoot bits siblings x) sibling
  | _, _, x => x

variable {combine empty} {given : List Bool → Option A}

theorem nodeAt_some {h : Nat} {id : List Bool} {x : A} (there : nodeAt combine empty given (h + 1) id = some x) :
    x = combine (hashAt combine empty given h (id ++ [false])) (hashAt combine empty given h (id ++ [true])) := by
  simp only [nodeAt] at there
  split at there
  next => cases there
  next => exact (Option.some.inj there).symm

theorem nodeAt_eq_none {h : Nat} {id : List Bool} : nodeAt combine empty given (h + 1) id = none ↔
    nodeAt combine empty given h (id ++ [false]) = none ∧ nodeAt combine empty given h (id ++ [true]) = none := by
  simp only [nodeAt]
  split
  next left right => simp [left, right]
  next other => simpa using other

theorem nodeAt_child {h : Nat} {id : List Bool} {bit : Bool} {x : A}
    (there : nodeAt combine empty given h (id ++ [bit]) = some x) :
    nodeAt combine empty given (h + 1) id =
      some (above combine bit x (hashAt combine empty given h (id ++ [!bit]))) := by
  cases parent : nodeAt combine empty given (h + 1) id with
  | none =>
    obtain ⟨left, right⟩ := nodeAt_eq_none.mp parent
    cases bit
    · rw [left] at there
      cases there
    · rw [right] at there
      cases there
  | some y =>
    rw [nodeAt_some parent]
    cases bit <;> simp [above, hashAt, there]

-- The nodes at any level below may be given instead of the lowest.
theorem nodeAt_strata (upper lower : Nat) (id : List Bool) : nodeAt combine empty given (upper + lower) id =
    nodeAt combine empty (nodeAt combine empty given lower) upper id := by
  induction upper generalizing id with
  | zero => rw [Nat.zero_add, nodeAt]
  | succ upper ih =>
    rw [Nat.succ_add]
    simp only [nodeAt, ih]

theorem nodeAt_congr {other : List Bool → Option A} {h : Nat} {id : List Bool}
    (same : ∀ bits, bits.length = h → given (id ++ bits) = other (id ++ bits)) :
    nodeAt combine empty given h id = nodeAt combine empty other h id := by
  induction h generalizing id with
  | zero =>
    have here := same [] rfl
    rwa [List.append_nil] at here
  | succ h ih =>
    have child (bit : Bool) : nodeAt combine empty given h (id ++ [bit]) =
        nodeAt combine empty other h (id ++ [bit]) := by
      apply ih
      intro bits length
      have here := same (bit :: bits) (by simp [length])
      simpa using here
    simp only [nodeAt, child]

theorem nodeAt_below {h : Nat} {id : List Bool} {x : A} (there : nodeAt combine empty given h id = some x) :
    ∃ bits y, bits.length = h ∧ given (id ++ bits) = some y := by
  induction h generalizing id x with
  | zero => exact ⟨[], x, rfl, by simpa [nodeAt] using there⟩
  | succ h ih =>
    have child : ∃ bit y, nodeAt combine empty given h (id ++ [bit]) = some y := by
      by_contra none
      simp only [not_exists, ← Option.eq_none_iff_forall_ne_some] at none
      rw [nodeAt_eq_none.mpr ⟨none false, none true⟩] at there
      cases there
    obtain ⟨bit, y, child⟩ := child
    obtain ⟨bits, z, length, below⟩ := ih child
    exact ⟨bit :: bits, z, by simp [length], by simpa using below⟩

theorem pathRoot_append {bits : List Bool} {siblings : List A} (length : siblings.length = bits.length)
    (more : List Bool) (others : List A) (x : A) :
    pathRoot combine (bits ++ more) (siblings ++ others) x =
      pathRoot combine bits siblings (pathRoot combine more others x) := by
  induction bits generalizing siblings with
  | nil =>
    obtain rfl := List.length_eq_zero_iff.mp length
    simp [pathRoot]
  | cons bit bits ih =>
    cases siblings with
    | nil => cases length
    | cons sibling siblings => simp [pathRoot, ih (Nat.succ.inj length)]

variable (combine empty given)

def siblingsOf : List Bool → List Bool → List A
  | _, [] => []
  | id, bit :: bits => hashAt combine empty given bits.length (id ++ [!bit]) :: siblingsOf (id ++ [bit]) bits

variable {combine empty given}

theorem siblingsOf_length (id bits : List Bool) : (siblingsOf combine empty given id bits).length = bits.length := by
  induction bits generalizing id with
  | nil => rfl
  | cons bit bits ih => simp [siblingsOf, ih]

-- A given node leads up to the node above it.
theorem nodeAt_path {id bits : List Bool} {x : A} (there : given (id ++ bits) = some x) :
    nodeAt combine empty given bits.length id =
      some (pathRoot combine bits (siblingsOf combine empty given id bits) x) := by
  induction bits generalizing id with
  | nil => simpa [nodeAt, pathRoot] using there
  | cons bit bits ih =>
    have below : given ((id ++ [bit]) ++ bits) = some x := by simpa using there
    have child := ih below
    rw [List.length_cons, nodeAt_child child, siblingsOf, pathRoot]

end Hashing

section Binding

variable {A : Type}

/-- No other hashes lead to a node of the tree over `given`; a parent that is compared with one has a child that is a
hash, which `proper` tells. -/
structure Binding (combine : A → A → A) (empty : List Bool → A) (given : List Bool → Option A) (depth : Nat)
    (proper : A → Prop) : Prop where
  nodes : ∀ h id x, id.length + h + 1 = depth → nodeAt combine empty given (h + 1) id = some x →
    ∀ left right, proper left ∨ proper right → combine left right = x →
      left = hashAt combine empty given h (id ++ [false]) ∧ right = hashAt combine empty given h (id ++ [true])
  empties : ∀ id, id.length < depth → ∀ left right, proper left ∨ proper right → combine left right ≠ empty id

variable {combine : A → A → A} {empty : List Bool → A} {given : List Bool → Option A} {depth : Nat}
  {proper : A → Prop}

theorem pathRoot_proper (parents : ∀ left right, proper (combine left right)) {x : A} (leaf : proper x)
    (bits : List Bool) (siblings : List A) : proper (pathRoot combine bits siblings x) := by
  cases bits with
  | nil => simpa [pathRoot] using leaf
  | cons bit bits =>
    cases siblings with
    | nil => simpa [pathRoot] using leaf
    | cons sibling siblings =>
      rw [pathRoot, above]
      split
      · exact parents _ _
      · exact parents _ _

theorem Binding.child (binding : Binding combine empty given depth proper) {h : Nat} {id : List Bool}
    (bound : id.length + h + 1 = depth) {bit : Bool} {x sibling : A} (leaf : proper x)
    (same : above combine bit x sibling = hashAt combine empty given (h + 1) id) :
    x = hashAt combine empty given h (id ++ [bit]) := by
  have proper : proper (if bit then sibling else x) ∨ proper (if bit then x else sibling) := by
    cases bit
    · exact .inl leaf
    · exact .inr leaf
  have parent : above combine bit x sibling = combine (if bit then sibling else x) (if bit then x else sibling) := by
    cases bit <;> rfl
  rw [parent] at same
  cases there : nodeAt combine empty given (h + 1) id with
  | none =>
    rw [hashAt, there, Option.getD_none] at same
    exact absurd same (binding.empties id (by omega) _ _ proper)
  | some y =>
    rw [hashAt, there, Option.getD_some] at same
    obtain ⟨left, right⟩ := binding.nodes h id y bound there _ _ proper same
    cases bit
    · exact left
    · exact right

-- A path to the root of the tree ends in a node of the tree.
theorem Binding.path (binding : Binding combine empty given depth proper)
    (parents : ∀ left right, proper (combine left right)) {x : A} (leaf : proper x) {id bits : List Bool} {h : Nat}
    {siblings : List A} (length : siblings.length = bits.length) (bound : id.length + bits.length + h = depth)
    (same : pathRoot combine bits siblings x = hashAt combine empty given (bits.length + h) id) :
    x = hashAt combine empty given h (id ++ bits) := by
  induction bits generalizing id siblings with
  | nil => simpa [pathRoot] using same
  | cons bit bits ih =>
    cases siblings with
    | nil => cases length
    | cons sibling siblings =>
      rw [List.length_cons, Nat.add_right_comm, pathRoot] at same
      rw [List.length_cons] at bound
      have child := binding.child (by omega) (pathRoot_proper parents leaf bits siblings) same
      have below := ih (Nat.succ.inj length) (by simp; omega) child
      simpa using below

end Binding

end Sparse
