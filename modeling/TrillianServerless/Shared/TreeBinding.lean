import TrillianServerless.Shared.CoverMerge
import TrillianServerless.Shared.TreeProof

set_option autoImplicit false

namespace Merkle

section Cover

theorem cover_nodup (b e : Nat) : (cover b e).Nodup := by
  refine (cover_ordered b e).imp ?_
  rintro id other ordered rfl
  exact absurd (Nat.lt_of_lt_of_le id.first_lt_stop ordered) (Nat.lt_irrefl _)

-- The value that a list of hashes for the nodes of a cover gives to one of them.
def coverValue {A : Type} (missing : A) (b e : Nat) (hashes : List A) (id : NodeID) : A :=
  hashes.getD ((cover b e).idxOf id) missing

theorem map_coverValue {A : Type} (missing : A) {b e : Nat} {hashes : List A}
    (length : hashes.length = (cover b e).length) :
    (cover b e).map (coverValue missing b e hashes) = hashes := by
  apply List.ext_getElem
  · simp [length]
  · intro i lower upper
    have inside : i < (cover b e).length := by simpa using lower
    simp [coverValue, (cover_nodup b e).idxOf_getElem i inside, upper]

theorem cover_perfect {l s : Nat} (aligned : 2 ^ l ∣ s) : cover s (s + 2 ^ l) = [⟨l, s / 2 ^ l⟩] := by
  have first : (⟨l, s / 2 ^ l⟩ : NodeID).first = s := Nat.div_mul_cancel aligned
  have single := cover_singleton ⟨l, s / 2 ^ l⟩
  rwa [NodeID.stop_eq, first] at single

theorem cover_aligned {l k s c : Nat} (aligned : 2 ^ k ∣ s) (level : l ≤ k) (lower : 2 ^ l ≤ c)
    (upper : c < 2 ^ (l + 1)) : cover s (s + c) = ⟨l, s / 2 ^ l⟩ :: cover (s + 2 ^ l) (s + c) := by
  have positive := Nat.two_pow_pos l
  rw [cover_cons (by omega), headNode, fitLevel_aligned aligned lower upper level]

end Cover

section Merged

variable {A : Type} (combine : A → A → A)

-- The nodes of two adjacent ranges that meet at `m`, and above them the nodes that they give.
def mergedAt (base : NodeID → A) (m : Nat) : Nat → Nat → A
  | 0, i => base ⟨0, i⟩
  | l + 1, i =>
    if i * 2 ^ (l + 1) < m ∧ m < (i + 1) * 2 ^ (l + 1) then
      combine (mergedAt base m l (2 * i)) (mergedAt base m l (2 * i + 1))
    else base ⟨l + 1, i⟩

def merged (base : NodeID → A) (m : Nat) (id : NodeID) : A := mergedAt combine base m id.level id.index

theorem merged_base (base : NodeID → A) {m : Nat} {id : NodeID}
    (apart : ¬ (id.first < m ∧ m < id.stop)) : merged combine base m id = base id := by
  obtain ⟨level, index⟩ := id
  cases level with
  | zero => rfl
  | succ level => exact if_neg apart

theorem merged_parents (base : NodeID → A) (b m e : Nat) :
    ParentsHash combine (merged combine base m) (NodeID.Straddles b m e) := by
  intro l i straddles
  have bounds := straddles.bounds
  exact if_pos ⟨bounds.2.1, bounds.2.2.1⟩

variable (empty : A)

def joined (b m e : Nat) (left right : List A) : NodeID → A :=
  merged combine (fun id => if id.stop ≤ m then coverValue empty b m left id
    else coverValue empty m e right id) m

theorem joined_left {b m : Nat} (e : Nat) {left : List A} (right : List A)
    (length : left.length = (cover b m).length) :
    (cover b m).map (joined combine empty b m e left right) = left := by
  conv_rhs => rw [← map_coverValue empty length]
  apply List.map_congr_left
  intro id member
  have inside := ((mem_cover_iff b m id).mp member).1.2
  rw [joined, merged_base _ _ (by omega), if_pos inside]

theorem joined_right (b : Nat) {m e : Nat} (left : List A) {right : List A}
    (length : right.length = (cover m e).length) :
    (cover m e).map (joined combine empty b m e left right) = right := by
  conv_rhs => rw [← map_coverValue empty length]
  apply List.map_congr_left
  intro id member
  have inside := ((mem_cover_iff m e id).mp member).1.1
  have grows := id.first_lt_stop
  rw [joined, merged_base _ _ (by omega), if_neg (by omega)]

end Merged

section Roots

variable {A : Type} (combine : A → A → A) (empty : A) (v : NodeID → A)

def coverRoot (s c : Nat) : A := rangeRoot combine empty ((cover s (s + c)).map v)

theorem coverRoot_perfect {l s : Nat} (aligned : 2 ^ l ∣ s) :
    coverRoot combine empty v s (2 ^ l) = v ⟨l, s / 2 ^ l⟩ := by
  rw [coverRoot, cover_perfect aligned]
  rfl

variable {v}

/-- A range that starts at a multiple of its width has its root from its two halves. -/
theorem coverRoot_split {b m e : Nat} (parents : ParentsHash combine v (NodeID.Straddles b m e))
    {k s c : Nat} (aligned : 2 ^ (k + 1) ∣ s) (lower : 2 ^ k < c) (upper : c ≤ 2 ^ (k + 1))
    (start : b ≤ s) (left : s < m) (right : m < s + c) (stop : s + c ≤ e) :
    coverRoot combine empty v s c =
      combine (coverRoot combine empty v s (2 ^ k)) (coverRoot combine empty v (s + 2 ^ k) (c - 2 ^ k)) := by
  have width : 2 ^ (k + 1) = 2 ^ k * 2 := pow_succ 2 k
  have half : 2 ^ k ∣ s := dvd_trans (pow_dvd_pow 2 (Nat.le_succ k)) aligned
  have next : 2 ^ k ∣ s + 2 ^ k := Nat.dvd_add half dvd_rfl
  have positive := Nat.two_pow_pos k
  rw [coverRoot_perfect combine empty v half]
  rcases Nat.lt_or_ge c (2 ^ (k + 1)) with partly | full
  · have rest : s + c = s + 2 ^ k + (c - 2 ^ k) := by omega
    have nonempty := cover_ne_nil (b := s + 2 ^ k) (e := s + c) (by omega)
    rw [coverRoot, cover_aligned half (Nat.le_refl k) (Nat.le_of_lt lower) partly, List.map_cons,
      rangeRoot_cons _ _ _ (by simpa using nonempty), rest, coverRoot]
  · obtain rfl : c = 2 ^ (k + 1) := by omega
    obtain ⟨q, rfl⟩ := aligned
    have quotient : 2 ^ (k + 1) * q / 2 ^ k = 2 * q := by
      rw [width, Nat.mul_assoc, Nat.mul_div_cancel_left _ positive]
    have quotient' : (2 ^ (k + 1) * q + 2 ^ k) / 2 ^ k = 2 * q + 1 := by
      rw [Nat.add_div_right _ positive, quotient]
    have top : 2 ^ (k + 1) * q / 2 ^ (k + 1) = q := Nat.mul_div_cancel_left _ (Nat.two_pow_pos _)
    have first : (⟨k + 1, q⟩ : NodeID).first = 2 ^ (k + 1) * q := Nat.mul_comm _ _
    have stops : (⟨k + 1, q⟩ : NodeID).stop = 2 ^ (k + 1) * q + 2 ^ (k + 1) := by
      rw [NodeID.stop_eq, first]
    rw [coverRoot_perfect combine empty v (Nat.dvd_mul_right _ q), top,
      show 2 ^ (k + 1) - 2 ^ k = 2 ^ k by omega, coverRoot_perfect combine empty v next,
      quotient, quotient']
    exact parents k q (NodeID.straddles_of_bounds (by omega) (by omega) (by omega) (by omega))

/-- The root of a range that two others make up is the hash of two children. -/
theorem coverRoot_combined {b m e : Nat} (parents : ParentsHash combine v (NodeID.Straddles b m e))
    {k s c : Nat} (aligned : 2 ^ k ∣ s) (bound : c ≤ 2 ^ k) (start : b ≤ s) (left : s < m)
    (right : m < s + c) (stop : s + c ≤ e) :
    ∃ x y, coverRoot combine empty v s c = combine x y := by
  induction k with
  | zero =>
    simp only [pow_zero] at bound
    omega
  | succ k ih =>
    rcases Nat.lt_or_ge (2 ^ k) c with large | small
    · exact ⟨_, _, coverRoot_split combine empty parents aligned large bound start left right stop⟩
    · exact ih (dvd_trans (pow_dvd_pow 2 (Nat.le_succ k)) aligned) small

end Roots

section Binding

variable {α : Type} (combine : List α → List α → List α) (leaf : Nat → List α)

/-- No other string hashes to the root over some consecutive leaves: a node determines the
concatenation of its children, though not where the one ends and the other starts. -/
def Binding (n : Nat) : Prop :=
  ∀ s c, 1 < c → s + c ≤ n → ∀ x y, combine x y = spanHash combine leaf [] ⟨s, c⟩ →
    x ++ y = spanHash combine leaf [] ⟨s, splitPoint c⟩ ++
      spanHash combine leaf [] ⟨s + splitPoint c, c - splitPoint c⟩

variable {combine leaf}

theorem Binding.split {n : Nat} (binding : Binding combine leaf n) {s k c : Nat} (lower : 2 ^ k < c)
    (upper : c ≤ 2 ^ (k + 1)) (inside : s + c ≤ n) {x y : List α}
    (same : combine x y = spanHash combine leaf [] ⟨s, c⟩) :
    x ++ y = spanHash combine leaf [] ⟨s, 2 ^ k⟩ ++
      spanHash combine leaf [] ⟨s + 2 ^ k, c - 2 ^ k⟩ := by
  have positive := Nat.two_pow_pos k
  have pinned := binding s c (by omega) inside x y same
  rwa [splitPoint_eq lower upper] at pinned

structure Sized (combine : List α → List α → List α) (leaf : Nat → List α) (size : Nat) : Prop where
  leaves : ∀ i, (leaf i).length = size
  nodes : ∀ x y, (combine x y).length = size

variable {size : Nat} (sized : Sized combine leaf size)
include sized

theorem spanHash_length {s c : Nat} (positive : 0 < c) :
    (spanHash combine leaf [] ⟨s, c⟩).length = size := by
  have length : (segment leaf s c).length = c := by simp [segment]
  rcases Nat.lt_or_ge 1 c with several | few
  · rw [spanHash, treeHash_split _ _ (by dsimp only; omega)]
    exact sized.nodes _ _
  · obtain rfl : c = 1 := by omega
    simpa [spanHash, segment] using sized.leaves s

-- The values of a range below a root that is known: only the last of them may be cut elsewhere.
def AgreesUpTo : List (List α) → List (List α) → Prop
  | [x], [t] => ∃ y z, x ++ y = t ++ z
  | x :: xs, t :: ts => x = t ∧ AgreesUpTo xs ts
  | _, _ => False

omit sized in
theorem agreesUpTo_cons {x t : List α} {xs ts : List (List α)} (same : x = t)
    (rest : AgreesUpTo xs ts) : AgreesUpTo (x :: xs) (t :: ts) := by
  cases xs with
  | nil => cases ts <;> exact absurd rest (by simp [AgreesUpTo])
  | cons => exact ⟨same, rest⟩

/-- The root of the larger tree pins the nodes that it has in common with the smaller one. -/
theorem coverRoot_pins {n m e : Nat} (binding : Binding combine leaf n) {v : NodeID → List α}
    {b : Nat} (parents : ParentsHash combine v (NodeID.Straddles b m e)) {k s c : Nat}
    (aligned : 2 ^ k ∣ s) (bound : c ≤ 2 ^ k) (start : b ≤ s) (left : s < m) (right : m < s + c)
    (stop : s + c ≤ e) (inside : s + c ≤ n)
    (same : coverRoot combine [] v s c = spanHash combine leaf [] ⟨s, c⟩) :
    AgreesUpTo ((cover s m).map v) ((cover s m).map (nodeHash combine leaf)) := by
  induction k generalizing s c with
  | zero =>
    simp only [pow_zero] at bound
    omega
  | succ k ih =>
    have width : 2 ^ (k + 1) = 2 ^ k * 2 := pow_succ 2 k
    have half : 2 ^ k ∣ s := dvd_trans (pow_dvd_pow 2 (Nat.le_succ k)) aligned
    have next : 2 ^ k ∣ s + 2 ^ k := Nat.dvd_add half dvd_rfl
    have positive := Nat.two_pow_pos k
    rcases Nat.lt_or_ge (2 ^ k) c with large | small
    swap
    · exact ih half small start left right stop inside same
    have split := coverRoot_split combine [] parents aligned large bound start left right stop
    have pinned := binding.split large bound inside (split.symm.trans same)
    have node : nodeHash combine leaf ⟨k, s / 2 ^ k⟩ = spanHash combine leaf [] ⟨s, 2 ^ k⟩ := by
      rw [nodeHash, nodeAt_eq_treeHash combine leaf [], Nat.div_mul_cancel half, spanHash]
    have own := coverRoot_perfect combine [] v half
    rcases Nat.lt_trichotomy m (s + 2 ^ k) with before | border | after
    · -- The left half is made up of both ranges, so that it is a hash and has its size.
      obtain ⟨x, y, combined⟩ := coverRoot_combined combine [] parents half (Nat.le_refl _) start left
        before (by omega)
      have length := spanHash_length sized (s := s) positive
      have equal := (List.append_inj pinned (by rw [combined, sized.nodes, length])).1
      exact ih half (Nat.le_refl _) start left before (by omega) (by omega) equal
    · subst border
      rw [own, ← node] at pinned
      rw [cover_perfect half]
      exact ⟨_, _, pinned⟩
    · obtain ⟨x, y, combined⟩ := coverRoot_combined combine [] parents next (c := c - 2 ^ k)
        (by omega) (by omega) after (by omega) (by omega)
      have length := spanHash_length sized (s := s + 2 ^ k) (c := c - 2 ^ k) (by omega)
      obtain ⟨equal, equal'⟩ := List.append_inj' pinned (by rw [combined, sized.nodes, length])
      have rest := ih next (c := c - 2 ^ k) (by omega) (by omega) after (by omega) (by omega)
        (by omega) equal'
      obtain ⟨d, rfl⟩ : ∃ d, m = s + d := ⟨m - s, by omega⟩
      rw [cover_aligned half (Nat.le_refl k) (by omega) (by omega), List.map_cons, List.map_cons]
      exact agreesUpTo_cons (by rw [node, ← own, equal]) rest

/-- The head of a range below a known root is pinned as soon as it has its size. -/
theorem coverRoot_head {n : Nat} (binding : Binding combine leaf n) {v : NodeID → List α}
    {k l s c : Nat} (aligned : 2 ^ k ∣ s) (level : l ≤ k) (lower : 2 ^ l < c) (upper : c < 2 ^ (l + 1))
    (inside : s + c ≤ n) (length : (v ⟨l, s / 2 ^ l⟩).length = size)
    (same : coverRoot combine [] v s c = spanHash combine leaf [] ⟨s, c⟩) :
    v ⟨l, s / 2 ^ l⟩ = nodeHash combine leaf ⟨l, s / 2 ^ l⟩ ∧
      coverRoot combine [] v (s + 2 ^ l) (c - 2 ^ l) =
        spanHash combine leaf [] ⟨s + 2 ^ l, c - 2 ^ l⟩ := by
  have divides : 2 ^ l ∣ s := dvd_trans (pow_dvd_pow 2 level) aligned
  have positive := Nat.two_pow_pos l
  have rest : s + c = s + 2 ^ l + (c - 2 ^ l) := by omega
  have nonempty := cover_ne_nil (b := s + 2 ^ l) (e := s + c) (by omega)
  have root : coverRoot combine [] v s c =
      combine (v ⟨l, s / 2 ^ l⟩) (coverRoot combine [] v (s + 2 ^ l) (c - 2 ^ l)) := by
    rw [coverRoot, cover_aligned aligned level (Nat.le_of_lt lower) upper, List.map_cons,
      rangeRoot_cons _ _ _ (by simpa using nonempty), coverRoot, ← rest]
  have pinned := binding.split lower (Nat.le_of_lt upper) inside (root.symm.trans same)
  have width := spanHash_length sized (s := s) positive
  obtain ⟨head, tail⟩ := List.append_inj pinned (by rw [length, width])
  refine ⟨?_, tail⟩
  rw [head, nodeHash, nodeAt_eq_treeHash combine leaf [], Nat.div_mul_cancel divides, spanHash]

-- The size of the largest perfect subtree at the front of `c` leaves.
omit sized in
theorem frontLevel {k c : Nat} (positive : 0 < c) (bound : c ≤ 2 ^ k) :
    ∃ l ≤ k, 2 ^ l ≤ c ∧ c < 2 ^ (l + 1) := by
  have lower := Nat.pow_log_le_self 2 (x := c) (by omega)
  exact ⟨Nat.log 2 c, (Nat.pow_le_pow_iff_right (a := 2) (by omega)).mp (by omega), lower,
    Nat.lt_pow_succ_log_self (by omega) c⟩

/-- Ranges of hashes that have the hashes' size are determined by their root. -/
theorem coverRoot_sized {n : Nat} (binding : Binding combine leaf n) {v : NodeID → List α}
    {k s c : Nat} (aligned : 2 ^ k ∣ s) (positive : 0 < c) (bound : c ≤ 2 ^ k) (inside : s + c ≤ n)
    (lengths : ∀ id ∈ cover s (s + c), (v id).length = size)
    (same : coverRoot combine [] v s c = spanHash combine leaf [] ⟨s, c⟩) :
    (cover s (s + c)).map v = (cover s (s + c)).map (nodeHash combine leaf) := by
  induction c using Nat.strong_induction_on generalizing k s with
  | _ c ih =>
    obtain ⟨l, level, lower, upper⟩ := frontLevel positive bound
    have divides : 2 ^ l ∣ s := dvd_trans (pow_dvd_pow 2 level) aligned
    have front := cover_aligned aligned level lower upper
    rcases Nat.eq_or_lt_of_le lower with exact_ | several
    · subst exact_
      rw [coverRoot_perfect combine [] v divides] at same
      rw [cover_perfect divides, List.map_singleton, List.map_singleton, same, nodeHash,
        nodeAt_eq_treeHash combine leaf [], Nat.div_mul_cancel divides, spanHash]
    · have power := Nat.two_pow_pos l
      have rest : s + c = s + 2 ^ l + (c - 2 ^ l) := by omega
      rw [front] at lengths ⊢
      obtain ⟨head, tail⟩ := coverRoot_head sized binding aligned level several upper inside
        (lengths _ (by simp)) same
      rw [List.map_cons, List.map_cons, head, rest]
      congr 1
      refine ih (c - 2 ^ l) (by omega) (Nat.dvd_add divides dvd_rfl) (by omega)
        (by rw [pow_succ] at upper; omega) (by omega) (fun id member => ?_) tail
      exact lengths id (by rw [rest]; simp [member])

/-- A range that has the root of one tree and lies below the root of another has the nodes of both. -/
theorem coverRoot_agrees {n : Nat} (binding : Binding combine leaf n) {v t : NodeID → List α}
    (lengths : ∀ id, (t id).length = size) {k s c : Nat} (aligned : 2 ^ k ∣ s) (positive : 0 < c)
    (bound : c ≤ 2 ^ k) (inside : s + c ≤ n)
    (agrees : AgreesUpTo ((cover s (s + c)).map v) ((cover s (s + c)).map t))
    (same : coverRoot combine [] v s c = spanHash combine leaf [] ⟨s, c⟩) :
    (cover s (s + c)).map t = (cover s (s + c)).map (nodeHash combine leaf) := by
  induction c using Nat.strong_induction_on generalizing k s with
  | _ c ih =>
    obtain ⟨l, level, lower, upper⟩ := frontLevel positive bound
    have divides : 2 ^ l ∣ s := dvd_trans (pow_dvd_pow 2 level) aligned
    have front := cover_aligned aligned level lower upper
    have power := Nat.two_pow_pos l
    rcases Nat.eq_or_lt_of_le lower with exact_ | several
    · subst exact_
      have width := spanHash_length sized (s := s) power
      rw [coverRoot_perfect combine [] v divides] at same
      rw [cover_perfect divides] at agrees ⊢
      obtain ⟨y, z, joined⟩ := agrees
      have head := (List.append_inj joined (by rw [same, width, lengths])).1
      rw [List.map_singleton, List.map_singleton, ← head, same, nodeHash,
        nodeAt_eq_treeHash combine leaf [], Nat.div_mul_cancel divides, spanHash]
    · have rest : s + c = s + 2 ^ l + (c - 2 ^ l) := by omega
      rw [front, List.map_cons, List.map_cons, rest] at agrees
      obtain ⟨other, others, more⟩ := List.exists_cons_of_ne_nil
        (cover_ne_nil (b := s + 2 ^ l) (e := s + 2 ^ l + (c - 2 ^ l)) (by omega))
      have agreed : v ⟨l, s / 2 ^ l⟩ = t ⟨l, s / 2 ^ l⟩ ∧
          AgreesUpTo ((cover (s + 2 ^ l) (s + 2 ^ l + (c - 2 ^ l))).map v)
            ((cover (s + 2 ^ l) (s + 2 ^ l + (c - 2 ^ l))).map t) := by
        rw [more] at agrees ⊢
        exact agrees
      obtain ⟨head, tail⟩ := coverRoot_head sized binding aligned level several upper inside
        (by rw [agreed.1, lengths]) same
      rw [front, List.map_cons, List.map_cons, ← agreed.1, head, rest]
      congr 1
      exact ih (c - 2 ^ l) (by omega) (Nat.dvd_add divides dvd_rfl) (by omega)
        (by rw [pow_succ] at upper; omega) (by omega) agreed.2 tail

/-- Trees of one size with the same root have the same leaves. -/
theorem spanHash_injective {n : Nat} (binding : Binding combine leaf n) {other : Nat → List α}
    (otherSized : Sized combine other size) {s c : Nat} (inside : s + c ≤ n)
    (same : spanHash combine other [] ⟨s, c⟩ = spanHash combine leaf [] ⟨s, c⟩) :
    ∀ i, s ≤ i → i < s + c → other i = leaf i := by
  induction c using Nat.strong_induction_on generalizing s with
  | _ c ih =>
    intro i lower upper
    rcases Nat.lt_or_ge 1 c with several | few
    · obtain ⟨l, front, back⟩ : ∃ l, 2 ^ l < c ∧ c ≤ 2 ^ (l + 1) := by
        have front := Nat.pow_log_le_self 2 (x := c - 1) (by omega)
        have back := Nat.lt_pow_succ_log_self (b := 2) (by omega) (c - 1)
        exact ⟨Nat.log 2 (c - 1), by omega, by omega⟩
      have positive := Nat.two_pow_pos l
      have split : spanHash combine other [] ⟨s, c⟩ = combine (spanHash combine other [] ⟨s, 2 ^ l⟩)
          (spanHash combine other [] ⟨s + 2 ^ l, c - 2 ^ l⟩) :=
        treeHash_segment combine other [] s front back
      have pinned := binding.split front back inside (split.symm.trans same)
      have width := spanHash_length sized (s := s) positive
      have width' := spanHash_length otherSized (s := s) positive
      obtain ⟨left, right⟩ := List.append_inj pinned (by rw [width, width'])
      rcases Nat.lt_or_ge i (s + 2 ^ l) with before | behind
      · exact ih (2 ^ l) front (by omega) left i lower before
      · exact ih (c - 2 ^ l) (by omega) (by omega) right i behind (by omega)
    · obtain rfl : c = 1 := by omega
      obtain rfl : i = s := by omega
      simpa [spanHash, segment] using same

/-- A path that leads to the root of a tree starts at the leaf whose place it is for. -/
theorem inclusionRoot_binds {n : Nat} (binding : Binding combine leaf n) {hash : List α} (length : hash.length = size)
    {k s c i : Nat} {path : List (List α)} (bound : c ≤ 2 ^ k) (inside : i < c) (within : s + c ≤ n)
    (same : inclusionRoot combine k c i hash path = some (spanHash combine leaf [] ⟨s, c⟩)) :
    hash = leaf (s + i) := by
  -- Whatever a path gives is as long as a hash.
  have widths : ∀ k c i path root, inclusionRoot combine k c i hash path = some root → root.length = size := by
    intro k
    induction k with
    | zero =>
      intro c i path root found
      simp only [inclusionRoot] at found
      split at found
      · rwa [← Option.some.inj found]
      · cases found
    | succ k ih =>
      intro c i path root found
      simp only [inclusionRoot] at found
      split at found
      · exact ih _ _ _ _ found
      · split at found
        · cases found
        · split at found
          · obtain ⟨below, -, rfl⟩ := Option.map_eq_some_iff.mp found
            exact sized.nodes _ _
          · obtain ⟨below, -, rfl⟩ := Option.map_eq_some_iff.mp found
            exact sized.nodes _ _
  induction k generalizing s c i path with
  | zero =>
    obtain rfl : c = 1 := by simp at bound; omega
    obtain rfl : i = 0 := by omega
    simp only [inclusionRoot] at same
    split at same
    · simpa [spanHash, segment] using Option.some.inj same
    · cases same
  | succ k ih =>
    simp only [inclusionRoot] at same
    by_cases small : c ≤ 2 ^ k
    · rw [if_pos small] at same
      exact ih small inside within same
    · rw [if_neg small] at same
      have wide := Nat.lt_of_not_le small
      have positive := Nat.two_pow_pos k
      have power : 2 ^ (k + 1) = 2 ^ k * 2 := pow_succ 2 k
      have left := spanHash_length sized (s := s) positive
      split at same
      next => cases same
      next sibling rest =>
        split at same
        next before =>
          obtain ⟨below, found, joined⟩ := Option.map_eq_some_iff.mp same
          have pinned := binding.split wide bound within joined
          obtain ⟨rfl, -⟩ := List.append_inj pinned (by rw [widths _ _ _ _ _ found, left])
          exact ih (Nat.le_refl _) before (by omega) found
        next behind =>
          obtain ⟨below, found, joined⟩ := Option.map_eq_some_iff.mp same
          have pinned := binding.split wide bound within joined
          have right := spanHash_length sized (s := s + 2 ^ k) (c := c - 2 ^ k) (by omega)
          obtain ⟨-, rfl⟩ := List.append_inj' pinned (by rw [widths _ _ _ _ _ found, right])
          have leafAt := ih (by omega) (by omega) (by omega) found
          rwa [show s + 2 ^ k + (i - 2 ^ k) = s + i by omega] at leafAt

-- The new root that a proof leads to from a smaller tree is made of two children.
theorem consistencyRoots_length {old : List α} {k n m : Nat} {anchored : Bool} {path : List (List α)}
    {roots : List α × List α} (bound : n ≤ 2 ^ k) (positive : 0 < m) (less : m < n)
    (found : consistencyRoots combine old k n m anchored path = some roots) : roots.2.length = size := by
  induction k generalizing n m anchored path roots with
  | zero => simp at bound; omega
  | succ k ih =>
    simp only [consistencyRoots, if_neg (Nat.ne_of_lt less)] at found
    split at found
    next small => exact ih small positive less found
    next large =>
      split at found
      next => cases found
      next sibling rest =>
        split at found
        · obtain ⟨below, -, rfl⟩ := Option.map_eq_some_iff.mp found
          exact sized.nodes _ _
        · obtain ⟨below, -, rfl⟩ := Option.map_eq_some_iff.mp found
          exact sized.nodes _ _

omit sized in
theorem anchorRoots_eq {old : List α} {anchored : Bool} {path : List (List α)} {r r' : List α}
    (found : anchorRoots old anchored path = some (r, r')) : r = r' := by
  unfold anchorRoots at found
  split at found
  · split at found
    · obtain ⟨rfl, rfl⟩ := Prod.mk.inj (Option.some.inj found)
      rfl
    · cases found
  · split at found
    · cases found
    · obtain ⟨rfl, rfl⟩ := Prod.mk.inj (Option.some.inj found)
      rfl
  · cases found

/-- A proof that leads to the roots of two trees shows that the leaves of the smaller one are in the larger one. -/
theorem consistencyRoots_binds {n : Nat} (binding : Binding combine leaf n) {m : Nat} {other : Nat → List α}
    (otherBinding : Binding combine other m) (otherSized : Sized combine other size) {old : List α}
    {k s c d : Nat} {anchored : Bool} {path : List (List α)} (bound : c ≤ 2 ^ k) (positive : 0 < d) (order : d ≤ c)
    (within : s + c ≤ n) (within' : s + d ≤ m)
    (found : consistencyRoots combine old k c d anchored path =
      some (spanHash combine other [] ⟨s, d⟩, spanHash combine leaf [] ⟨s, c⟩)) :
    ∀ i, s ≤ i → i < s + d → other i = leaf i := by
  induction k generalizing s c d anchored path with
  | zero =>
    obtain rfl : d = c := by simp at bound; omega
    exact spanHash_injective sized binding otherSized within (anchorRoots_eq found)
  | succ k ih =>
    simp only [consistencyRoots] at found
    by_cases same : d = c
    · subst same
      rw [if_pos rfl] at found
      exact spanHash_injective sized binding otherSized within (anchorRoots_eq found)
    rw [if_neg same] at found
    by_cases small : c ≤ 2 ^ k
    · rw [if_pos small] at found
      exact ih small positive order within within' found
    rw [if_neg small] at found
    have wide := Nat.lt_of_not_le small
    have power : 2 ^ (k + 1) = 2 ^ k * 2 := pow_succ 2 k
    have half := Nat.two_pow_pos k
    have left := spanHash_length sized (s := s) half
    split at found
    next => cases found
    next sibling rest =>
      split at found
      next before =>
        obtain ⟨⟨r, r'⟩, below, joined⟩ := Option.map_eq_some_iff.mp found
        obtain ⟨rfl, joined⟩ := Prod.mk.inj joined
        have width : r'.length = size := by
          rcases Nat.lt_or_ge d (2 ^ k) with less | full
          · exact consistencyRoots_length sized (Nat.le_refl _) positive less below
          · obtain rfl : d = 2 ^ k := by omega
            have ends : spanHash combine other [] ⟨s, 2 ^ k⟩ = r' := by
              cases k with
              | zero => exact anchorRoots_eq below
              | succ k =>
                simp only [consistencyRoots, if_true] at below
                exact anchorRoots_eq below
            rw [← ends]
            exact spanHash_length otherSized half
        have pinned := binding.split wide bound within joined
        obtain ⟨rfl, -⟩ := List.append_inj pinned (by rw [width, left])
        exact ih (Nat.le_refl _) positive before (by omega) within' below
      next behind =>
        obtain ⟨⟨r, r'⟩, below, joined⟩ := Option.map_eq_some_iff.mp found
        obtain ⟨joinedOld, joinedNew⟩ := Prod.mk.inj joined
        have width := consistencyRoots_length sized (by omega) (by omega) (by omega) below
        have right := spanHash_length sized (s := s + 2 ^ k) (c := c - 2 ^ k) (by omega)
        have pinned := binding.split wide bound within joinedNew
        obtain ⟨sibling', rfl⟩ := List.append_inj' pinned (by rw [width, right])
        have pinnedOld := otherBinding.split (Nat.lt_of_not_le behind) (by omega) within' joinedOld
        have leftOld := spanHash_length otherSized (s := s) half
        obtain ⟨front, rfl⟩ := List.append_inj pinnedOld (by rw [sibling', left, leftOld])
        intro i lower upper
        rcases Nat.lt_or_ge i (s + 2 ^ k) with first | second
        · exact spanHash_injective sized binding otherSized (by omega) (front.symm.trans sibling') i lower first
        · exact ih (by omega) (by omega) (by omega) (by omega) (by omega) below i second (by omega)

end Binding

end Merkle
