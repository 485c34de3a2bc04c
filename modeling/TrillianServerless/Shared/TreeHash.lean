import TrillianServerless.Shared.PerfectNodes

set_option autoImplicit false

namespace Merkle

variable {A : Type} (combine : A → A → A) (leaf : Nat → A)

def nodeAt : Nat → Nat → A
  | 0, index => leaf index
  | level + 1, index => combine (nodeAt level (2 * index)) (nodeAt level (2 * index + 1))

def nodeHash (id : NodeID) : A := nodeAt combine leaf id.level id.index

theorem nodeHash_parent (l i : Nat) :
    nodeHash combine leaf ⟨l + 1, i⟩ =
      combine (nodeHash combine leaf ⟨l, 2 * i⟩) (nodeHash combine leaf ⟨l, 2 * i + 1⟩) := rfl

theorem nodeAt_congr {leaf other : Nat → A} {l i : Nat}
    (same : ∀ j, i * 2 ^ l ≤ j → j < (i + 1) * 2 ^ l → leaf j = other j) :
    nodeAt combine leaf l i = nodeAt combine other l i := by
  induction l generalizing i with
  | zero => exact same i (by simp) (by simp)
  | succ l ih =>
    have width : 2 ^ (l + 1) = 2 ^ l * 2 := pow_succ 2 l
    simp only [nodeAt]
    rw [ih fun j lower upper => same j (by rw [width]; nlinarith) (by rw [width]; nlinarith),
      ih fun j lower upper => same j (by rw [width]; nlinarith) (by rw [width]; nlinarith)]

theorem nodeHash_congr {leaf other : Nat → A} {n : Nat} {id : NodeID} (inside : id.stop ≤ n)
    (same : ∀ j, j < n → leaf j = other j) :
    nodeHash combine leaf id = nodeHash combine other id :=
  nodeAt_congr combine fun j _ upper => same j (Nat.lt_of_lt_of_le upper inside)

-- A subtree over the nodes of one row is a node of a higher row.
theorem nodeAt_rows (a : Nat) {r c : Nat} (k : Nat)
    (aligned : 2 ^ r ∣ c) :
    nodeAt combine (fun j => nodeAt combine leaf a (c + j)) r k =
      nodeAt combine leaf (a + r) (c / 2 ^ r + k) := by
  induction r generalizing k with
  | zero => simp [nodeAt]
  | succ r ih =>
    obtain ⟨q, rfl⟩ := aligned
    have width : 2 ^ (r + 1) = 2 ^ r * 2 := pow_succ 2 r
    have half : 2 ^ (r + 1) * q / 2 ^ r = 2 * q := by
      rw [width, Nat.mul_assoc, Nat.mul_div_cancel_left _ (Nat.two_pow_pos r)]
    have whole : 2 ^ (r + 1) * q / 2 ^ (r + 1) = q := Nat.mul_div_cancel_left _ (Nat.two_pow_pos _)
    have divides : 2 ^ r ∣ 2 ^ (r + 1) * q := ⟨2 * q, by rw [width]; ring⟩
    rw [nodeAt, ih _ divides, ih _ divides, half, whole]
    show _ = combine (nodeAt combine leaf (a + r) (2 * (q + k))) (nodeAt combine leaf (a + r) (2 * (q + k) + 1))
    rw [Nat.mul_add, Nat.add_assoc]

-- RFC 6962 splits n > 1 leaves at the largest power of two smaller than n.
def splitPoint (n : Nat) : Nat := 2 ^ Nat.log 2 (n - 1)

theorem splitPoint_lt {n : Nat} (several : 1 < n) : splitPoint n < n := by
  have := Nat.pow_log_le_self 2 (x := n - 1) (by omega)
  simp only [splitPoint]
  omega

theorem splitPoint_eq {n l : Nat} (lower : 2 ^ l < n) (upper : n ≤ 2 ^ (l + 1)) :
    splitPoint n = 2 ^ l := by
  have log : Nat.log 2 (n - 1) = l := by
    apply Nat.log_eq_of_pow_le_of_lt_pow <;> omega
  rw [splitPoint, log]

/-- The Merkle tree hash of RFC 6962, section 2.1, over a list of leaf hashes. -/
def treeHash (empty : A) : List A → A
  | [] => empty
  | [hash] => hash
  | first :: second :: rest =>
    let leaves := first :: second :: rest
    combine (treeHash empty (leaves.take (splitPoint leaves.length)))
      (treeHash empty (leaves.drop (splitPoint leaves.length)))
  termination_by leaves => leaves.length
  decreasing_by
    all_goals
      have less := splitPoint_lt (n := (first :: second :: rest).length) (by simp)
      have positive : 0 < splitPoint (first :: second :: rest).length := Nat.two_pow_pos _
      simp only [List.length_take, List.length_drop]
      omega

theorem treeHash_split (empty : A) {leaves : List A} (several : 1 < leaves.length) :
    treeHash combine empty leaves =
      combine (treeHash combine empty (leaves.take (splitPoint leaves.length)))
        (treeHash combine empty (leaves.drop (splitPoint leaves.length))) := by
  match leaves, several with
  | first :: second :: rest, _ => rw [treeHash]

@[simp] theorem treeHash_nil (empty : A) : treeHash combine empty [] = empty := by rw [treeHash]

@[simp] theorem treeHash_single (empty hash : A) : treeHash combine empty [hash] = hash := by
  rw [treeHash]

theorem treeHash_empty (e e' : A) {leaves : List A} (nonempty : 0 < leaves.length) :
    treeHash combine e leaves = treeHash combine e' leaves := by
  induction length : leaves.length using Nat.strong_induction_on generalizing leaves with
  | _ n ih =>
    rcases Nat.lt_or_ge 1 leaves.length with several | few
    · have less := splitPoint_lt several
      have positive : 0 < splitPoint leaves.length := Nat.two_pow_pos _
      rw [treeHash_split combine e several, treeHash_split combine e' several,
        ih _ (by rw [List.length_take]; omega) (by rw [List.length_take]; omega) rfl,
        ih _ (by rw [List.length_drop]; omega) (by rw [List.length_drop]; omega) rfl]
    · match leaves, nonempty, few with
      | [hash], _, _ => simp

def segment (start n : Nat) : List A := (List.range' start n).map leaf

theorem treeHash_segment (empty : A) (start : Nat) {n l : Nat} (lower : 2 ^ l < n)
    (upper : n ≤ 2 ^ (l + 1)) :
    treeHash combine empty (segment leaf start n) =
      combine (treeHash combine empty (segment leaf start (2 ^ l)))
        (treeHash combine empty (segment leaf (start + 2 ^ l) (n - 2 ^ l))) := by
  have positive := Nat.two_pow_pos l
  have length : (segment leaf start n).length = n := by simp [segment]
  rw [treeHash_split _ _ (by omega), length, splitPoint_eq lower upper]
  have cut : n = 2 ^ l + (n - 2 ^ l) := by omega
  have append : segment leaf start n =
      segment leaf start (2 ^ l) ++ segment leaf (start + 2 ^ l) (n - 2 ^ l) := by
    rw [segment, segment, segment, ← List.map_append]
    congr 1
    conv_lhs => rw [cut]
    rw [← List.range'_append]
    simp
  have left : (segment leaf start (2 ^ l)).length = 2 ^ l := by simp [segment]
  rw [append, List.take_left' left, List.drop_left' left]

theorem nodeAt_eq_treeHash (empty : A) (l i : Nat) :
    nodeAt combine leaf l i = treeHash combine empty (segment leaf (i * 2 ^ l) (2 ^ l)) := by
  induction l generalizing i with
  | zero => simp [nodeAt, segment]
  | succ l ih =>
    have width : 2 ^ (l + 1) = 2 ^ l * 2 := pow_succ 2 l
    have positive := Nat.two_pow_pos l
    rw [nodeAt, ih, ih, treeHash_segment combine leaf empty _ (l := l) (by omega) (Nat.le_refl _)]
    congr 3
    · rw [width]; ring
    · rw [width]; ring
    · omega

def rangeRoot (empty : A) : List A → A
  | [] => empty
  | [hash] => hash
  | hash :: rest => combine hash (rangeRoot empty rest)

theorem rangeRoot_cons (empty hash : A) {rest : List A} (nonempty : rest ≠ []) :
    rangeRoot combine empty (hash :: rest) = combine hash (rangeRoot combine empty rest) := by
  cases rest with
  | nil => exact absurd rfl nonempty
  | cons => rfl

theorem cover_ne_nil {b e : Nat} (nonempty : b < e) : cover b e ≠ [] := by
  rw [cover_cons nonempty]
  exact List.cons_ne_nil _ _

theorem fitLevel_aligned {start n k l : Nat} (aligned : 2 ^ k ∣ start) (lower : 2 ^ l ≤ n)
    (upper : n < 2 ^ (l + 1)) (level : l ≤ k) : fitLevel start (start + n) = l := by
  have positive := Nat.two_pow_pos l
  apply le_antisymm
  · have fits := (fitLevel_spec (b := start) (e := start + n) (by omega)).2
    exact Nat.lt_succ_iff.mp ((Nat.pow_lt_pow_iff_right (a := 2) (by omega)).mp (by omega))
  · exact le_fitLevel (dvd_trans (pow_dvd_pow 2 level) aligned) (by omega)

theorem rangeRoot_cover_aligned (empty : A) (k start n : Nat) (aligned : 2 ^ k ∣ start)
    (positive : 0 < n) (bound : n ≤ 2 ^ k) :
    rangeRoot combine empty ((cover start (start + n)).map (nodeHash combine leaf)) =
      treeHash combine empty (segment leaf start n) := by
  induction n using Nat.strong_induction_on generalizing k start with
  | _ n ih =>
    -- 2 ^ l is the largest power of two that is at most n.
    obtain ⟨l, lower, upper⟩ : ∃ l, 2 ^ l ≤ n ∧ n < 2 ^ (l + 1) :=
      ⟨Nat.log 2 n, Nat.pow_log_le_self 2 (by omega), Nat.lt_pow_succ_log_self (by omega) n⟩
    have level : l ≤ k := (Nat.pow_le_pow_iff_right (a := 2) (by omega)).mp (by omega)
    have fit := fitLevel_aligned aligned lower upper level
    have power := Nat.two_pow_pos l
    have alignedLevel : 2 ^ l ∣ start := dvd_trans (pow_dvd_pow 2 level) aligned
    have head : nodeHash combine leaf (headNode start (start + n)) =
        treeHash combine empty (segment leaf start (2 ^ l)) := by
      rw [headNode, fit, nodeHash, nodeAt_eq_treeHash combine leaf empty,
        Nat.div_mul_cancel alignedLevel]
    rw [cover_cons (by omega), List.map_cons, head, fit]
    rcases Nat.eq_or_lt_of_le lower with exact_ | several
    · rw [exact_, cover_self, List.map_nil, rangeRoot]
    · have rest : start + n = start + 2 ^ l + (n - 2 ^ l) := by omega
      have nonempty := cover_ne_nil (b := start + 2 ^ l) (e := start + n) (by omega)
      rw [rangeRoot_cons _ _ _ (by simpa using nonempty), rest,
        ih (n - 2 ^ l) (by omega) l (start + 2 ^ l) (Nat.dvd_add alignedLevel dvd_rfl) (by omega)
          (by rw [pow_succ] at upper; omega),
        treeHash_segment combine leaf empty _ several (Nat.le_of_lt upper)]

theorem rangeRoot_cover (empty : A) (leaves : List A)
    (values : ∀ i (bound : i < leaves.length), leaf i = leaves[i]) :
    rangeRoot combine empty ((cover 0 leaves.length).map (nodeHash combine leaf)) =
      treeHash combine empty leaves := by
  rcases Nat.eq_zero_or_pos leaves.length with none | positive
  · obtain rfl := List.length_eq_zero_iff.mp none
    simp [rangeRoot]
  · have all : segment leaf 0 leaves.length = leaves := by
      apply List.ext_getElem
      · simp [segment]
      · intro i _ bound
        simp [segment, values i bound]
    have root := rangeRoot_cover_aligned combine leaf empty leaves.length 0 leaves.length
      (Nat.dvd_zero _) positive (Nat.le_of_lt Nat.lt_two_pow_self)
    rwa [all, Nat.zero_add] at root

end Merkle
