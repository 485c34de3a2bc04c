import TrillianServerless.Shared.TreeHash

set_option autoImplicit false

namespace Merkle

-- The leaves [start, start + count) under one subtree of an RFC 6962 tree.
structure Span where
  start : Nat
  count : Nat
  deriving DecidableEq, Repr

namespace Span

def Aligned (s : Span) : Prop := ∃ k, 2 ^ k ∣ s.start ∧ 0 < s.count ∧ s.count ≤ 2 ^ k

def nodes (s : Span) : List NodeID := cover s.start (s.start + s.count)

end Span

section Paths

variable {A : Type} (combine : A → A → A) (leaf : Nat → A) (empty : A)

def spanHash (s : Span) : A := treeHash combine empty (segment leaf s.start s.count)

theorem Span.Aligned.rangeRoot {s : Span} (aligned : s.Aligned) :
    rangeRoot combine empty (s.nodes.map (nodeHash combine leaf)) = spanHash combine leaf empty s := by
  obtain ⟨k, divides, positive, bound⟩ := aligned
  exact rangeRoot_cover_aligned combine leaf empty k s.start s.count divides positive bound

-- The subtrees beside the path from the root to leaf `i`, from the root down.
def inclusionSpans : Nat → Nat → Nat → Nat → List Span
  | 0, _, _, _ => []
  | k + 1, start, n, i =>
    if n ≤ 2 ^ k then inclusionSpans k start n i
    else if i < 2 ^ k then ⟨start + 2 ^ k, n - 2 ^ k⟩ :: inclusionSpans k start (2 ^ k) i
    else ⟨start, 2 ^ k⟩ :: inclusionSpans k (start + 2 ^ k) (n - 2 ^ k) (i - 2 ^ k)

def inclusionRoot : Nat → Nat → Nat → A → List A → Option A
  | 0, _, _, hash, path => if path.isEmpty then some hash else none
  | k + 1, n, i, hash, path =>
    if n ≤ 2 ^ k then inclusionRoot k n i hash path
    else
      match path with
      | [] => none
      | sibling :: rest =>
        if i < 2 ^ k then (inclusionRoot k (2 ^ k) i hash rest).map fun root => combine root sibling
        else (inclusionRoot k (n - 2 ^ k) (i - 2 ^ k) hash rest).map fun root => combine sibling root

theorem inclusionRoot_spans (k start n i : Nat) (bound : n ≤ 2 ^ k) (inside : i < n) :
    inclusionRoot combine k n i (leaf (start + i))
        ((inclusionSpans k start n i).map (spanHash combine leaf empty)) =
      some (spanHash combine leaf empty ⟨start, n⟩) := by
  induction k generalizing start n i with
  | zero =>
    obtain rfl : n = 1 := by simp at bound; omega
    obtain rfl : i = 0 := by omega
    simp [inclusionRoot, inclusionSpans, spanHash, segment]
  | succ k ih =>
    simp only [inclusionSpans, inclusionRoot]
    by_cases small : n ≤ 2 ^ k
    · simpa only [if_pos small] using ih start n i small inside
    · have width : 2 ^ (k + 1) = 2 ^ k * 2 := pow_succ 2 k
      have split := treeHash_segment combine leaf empty start (Nat.lt_of_not_le small) bound
      simp only [if_neg small]
      by_cases left : i < 2 ^ k
      · simp only [if_pos left, List.map_cons, ih start (2 ^ k) i (Nat.le_refl _) left,
          Option.map_some, spanHash, split]
      · have right := ih (start + 2 ^ k) (n - 2 ^ k) (i - 2 ^ k) (by omega) (by omega)
        rw [show start + 2 ^ k + (i - 2 ^ k) = start + i by omega] at right
        simp only [if_neg left, List.map_cons, right, Option.map_some, spanHash, split]

section Halves

variable {k start n : Nat} (aligned : 2 ^ (k + 1) ∣ start) (bound : n ≤ 2 ^ (k + 1)) (large : ¬ n ≤ 2 ^ k)

include aligned

theorem half_dvd : 2 ^ k ∣ start := dvd_trans (pow_dvd_pow 2 (Nat.le_succ k)) aligned

theorem next_dvd : 2 ^ k ∣ start + 2 ^ k := Nat.dvd_add (half_dvd aligned) dvd_rfl

include large

theorem leftHalf_inside : (⟨start, 2 ^ k⟩ : Span).Aligned ∧ start ≤ start ∧ start + 2 ^ k ≤ start + n :=
  ⟨⟨k, half_dvd aligned, Nat.two_pow_pos k, Nat.le_refl _⟩, Nat.le_refl _, by omega⟩

include bound

theorem rightHalf_inside : (⟨start + 2 ^ k, n - 2 ^ k⟩ : Span).Aligned ∧ start ≤ start + 2 ^ k ∧
    start + 2 ^ k + (n - 2 ^ k) ≤ start + n := by
  have width : 2 ^ (k + 1) = 2 ^ k * 2 := pow_succ 2 k
  exact ⟨⟨k, next_dvd aligned, by dsimp only; omega, by dsimp only; omega⟩, by omega, by omega⟩

end Halves

theorem inclusionSpans_inside (k start n i : Nat) (bound : n ≤ 2 ^ k) (inside : i < n)
    (aligned : 2 ^ k ∣ start) :
    ∀ s ∈ inclusionSpans k start n i,
      s.Aligned ∧ start ≤ s.start ∧ s.start + s.count ≤ start + n := by
  induction k generalizing start n i with
  | zero => simp [inclusionSpans]
  | succ k ih =>
    have width : 2 ^ (k + 1) = 2 ^ k * 2 := pow_succ 2 k
    have half := half_dvd aligned
    have next := next_dvd aligned
    simp only [inclusionSpans]
    intro s member
    split at member
    next small => exact ih start n i small inside half s member
    next large =>
      split at member
      next left =>
        rcases List.mem_cons.mp member with rfl | member
        · exact rightHalf_inside aligned bound large
        · obtain ⟨shape, lower, upper⟩ := ih start (2 ^ k) i (Nat.le_refl _) left half s member
          exact ⟨shape, lower, by omega⟩
      next right =>
        rcases List.mem_cons.mp member with rfl | member
        · exact leftHalf_inside aligned large
        · obtain ⟨shape, lower, upper⟩ := ih (start + 2 ^ k) (n - 2 ^ k) (i - 2 ^ k) (by omega)
            (by omega) next s member
          exact ⟨shape, by omega, by omega⟩

-- `anchored` is the flag b of RFC 6962, section 2.1.2: the old root itself is the node reached.
def consistencySpans : Nat → Nat → Nat → Nat → Bool → List Span
  | 0, start, n, _, anchored => if anchored then [] else [⟨start, n⟩]
  | k + 1, start, n, m, anchored =>
    if m = n then (if anchored then [] else [⟨start, n⟩])
    else if n ≤ 2 ^ k then consistencySpans k start n m anchored
    else if m ≤ 2 ^ k then
      ⟨start + 2 ^ k, n - 2 ^ k⟩ :: consistencySpans k start (2 ^ k) m anchored
    else ⟨start, 2 ^ k⟩ :: consistencySpans k (start + 2 ^ k) (n - 2 ^ k) (m - 2 ^ k) false

def anchorRoots (old : A) (anchored : Bool) : List A → Option (A × A)
  | [] => if anchored then some (old, old) else none
  | [hash] => if anchored then none else some (hash, hash)
  | _ => none

-- The old and the new root that a consistency proof leads to.
def consistencyRoots (old : A) : Nat → Nat → Nat → Bool → List A → Option (A × A)
  | 0, _, _, anchored, path => anchorRoots old anchored path
  | k + 1, n, m, anchored, path =>
    if m = n then anchorRoots old anchored path
    else if n ≤ 2 ^ k then consistencyRoots old k n m anchored path
    else
      match path with
      | [] => none
      | sibling :: rest =>
        if m ≤ 2 ^ k then
          (consistencyRoots old k (2 ^ k) m anchored rest).map fun roots =>
            (roots.1, combine roots.2 sibling)
        else
          (consistencyRoots old k (n - 2 ^ k) (m - 2 ^ k) false rest).map fun roots =>
            (combine sibling roots.1, combine sibling roots.2)

theorem consistencyRoots_spans (old : A) (k start n m : Nat) (anchored : Bool) (bound : n ≤ 2 ^ k)
    (positive : 0 < m) (order : m ≤ n)
    (anchor : anchored = true → old = spanHash combine leaf empty ⟨start, m⟩) :
    consistencyRoots combine old k n m anchored
        ((consistencySpans k start n m anchored).map (spanHash combine leaf empty)) =
      some (spanHash combine leaf empty ⟨start, m⟩, spanHash combine leaf empty ⟨start, n⟩) := by
  induction k generalizing start n m anchored with
  | zero =>
    obtain rfl : m = n := by simp at bound; omega
    cases anchored <;> simp [consistencyRoots, consistencySpans, anchorRoots, ← anchor]
  | succ k ih =>
    simp only [consistencySpans, consistencyRoots]
    by_cases same : m = n
    · subst same
      cases anchored <;> simp [anchorRoots, ← anchor]
    simp only [if_neg same]
    by_cases small : n ≤ 2 ^ k
    · simpa only [if_pos small] using ih start n m anchored small positive order anchor
    have width : 2 ^ (k + 1) = 2 ^ k * 2 := pow_succ 2 k
    have split := treeHash_segment combine leaf empty start (Nat.lt_of_not_le small) bound
    simp only [if_neg small]
    by_cases left : m ≤ 2 ^ k
    · simp only [if_pos left, List.map_cons,
        ih start (2 ^ k) m anchored (Nat.le_refl _) positive left anchor, Option.map_some, spanHash,
        split]
    · have oldSplit := treeHash_segment combine leaf empty start (Nat.lt_of_not_le left)
        (Nat.le_trans order bound)
      simp only [if_neg left, List.map_cons, ih (start + 2 ^ k) (n - 2 ^ k) (m - 2 ^ k) false
        (by omega) (by omega) (by omega) (by simp), Option.map_some, spanHash, split, oldSplit]

theorem consistencySpans_inside (k start n m : Nat) (anchored : Bool) (bound : n ≤ 2 ^ k)
    (positive : 0 < m) (order : m ≤ n) (aligned : 2 ^ k ∣ start) :
    ∀ s ∈ consistencySpans k start n m anchored,
      s.Aligned ∧ start ≤ s.start ∧ s.start + s.count ≤ start + n := by
  induction k generalizing start n m anchored with
  | zero =>
    cases anchored with
    | true => simp [consistencySpans]
    | false =>
      simp only [consistencySpans, Bool.false_eq_true, if_false, List.mem_singleton]
      intro s same
      subst same
      exact ⟨⟨0, by simp, Nat.lt_of_lt_of_le positive order, bound⟩, Nat.le_refl _, Nat.le_refl _⟩
  | succ k ih =>
    have width : 2 ^ (k + 1) = 2 ^ k * 2 := pow_succ 2 k
    have half := half_dvd aligned
    have next := next_dvd aligned
    simp only [consistencySpans]
    intro s member
    split at member
    · split at member
      · simp at member
      · obtain rfl := List.mem_singleton.mp member
        exact ⟨⟨k + 1, aligned, Nat.lt_of_lt_of_le positive order, bound⟩, Nat.le_refl _,
          Nat.le_refl _⟩
    split at member
    next small => exact ih start n m anchored small positive order half s member
    next large =>
      split at member
      next left =>
        rcases List.mem_cons.mp member with rfl | member
        · exact rightHalf_inside aligned bound large
        · obtain ⟨shape, lower, upper⟩ :=
            ih start (2 ^ k) m anchored (Nat.le_refl _) positive left half s member
          exact ⟨shape, lower, by omega⟩
      next right =>
        rcases List.mem_cons.mp member with rfl | member
        · exact leftHalf_inside aligned large
        · obtain ⟨shape, lower, upper⟩ := ih (start + 2 ^ k) (n - 2 ^ k) (m - 2 ^ k) false (by omega)
            (by omega) (by omega) next s member
          exact ⟨shape, by omega, by omega⟩

end Paths

end Merkle
