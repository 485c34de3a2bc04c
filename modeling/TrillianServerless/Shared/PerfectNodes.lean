import Mathlib.Data.Nat.Log
import Mathlib.Tactic.Ring
import Mathlib.Tactic.Linarith

set_option autoImplicit false

namespace Merkle

/-- Node `index` of row `level` of an infinite perfect binary tree; row 0 holds the leaves. -/
structure NodeID where
  level : Nat
  index : Nat
  deriving DecidableEq, Repr

namespace NodeID

def first (id : NodeID) : Nat := id.index * 2 ^ id.level

def stop (id : NodeID) : Nat := (id.index + 1) * 2 ^ id.level

def parent (id : NodeID) : NodeID := ⟨id.level + 1, id.index / 2⟩

def Within (b e : Nat) (id : NodeID) : Prop := b ≤ id.first ∧ id.stop ≤ e

instance (b e : Nat) (id : NodeID) : Decidable (id.Within b e) :=
  inferInstanceAs (Decidable (_ ∧ _))

theorem stop_eq (id : NodeID) : id.stop = id.first + 2 ^ id.level := by
  simp only [stop, first]; ring

theorem first_lt_stop (id : NodeID) : id.first < id.stop := by
  rw [stop_eq]
  exact Nat.lt_add_of_pos_right (Nat.two_pow_pos _)

@[simp] theorem leaf_first (i : Nat) : (⟨0, i⟩ : NodeID).first = i := by simp [first]
@[simp] theorem leaf_stop (i : Nat) : (⟨0, i⟩ : NodeID).stop = i + 1 := by simp [stop]

theorem left_first (l i : Nat) : (⟨l, 2 * i⟩ : NodeID).first = (⟨l + 1, i⟩ : NodeID).first := by
  simp only [first, pow_succ]; ring

theorem left_stop (l i : Nat) :
    (⟨l, 2 * i⟩ : NodeID).stop = (⟨l, 2 * i + 1⟩ : NodeID).first := by
  simp only [first, stop]

theorem right_stop (l i : Nat) :
    (⟨l, 2 * i + 1⟩ : NodeID).stop = (⟨l + 1, i⟩ : NodeID).stop := by
  simp only [stop, pow_succ]; ring

theorem parent_first_le (id : NodeID) : id.parent.first ≤ id.first := by
  have half : id.index / 2 * 2 ≤ id.index := Nat.div_mul_le_self _ _
  calc id.parent.first = id.index / 2 * 2 * 2 ^ id.level := by
        simp only [parent, first, pow_succ]; ring
    _ ≤ id.index * 2 ^ id.level := Nat.mul_le_mul_right _ half

theorem stop_le_parent_stop (id : NodeID) : id.stop ≤ id.parent.stop := by
  have half : id.index + 1 ≤ (id.index / 2 + 1) * 2 := by omega
  calc id.stop ≤ (id.index / 2 + 1) * 2 * 2 ^ id.level := Nat.mul_le_mul_right _ half
    _ = id.parent.stop := by simp only [parent, stop, pow_succ]; ring

theorem ext_first {id other : NodeID} (level : id.level = other.level)
    (same : id.first = other.first) : id = other := by
  obtain ⟨l, i⟩ := id
  obtain ⟨l', i'⟩ := other
  obtain rfl : l = l' := level
  have equal : i = i' := Nat.eq_of_mul_eq_mul_right (Nat.two_pow_pos l) same
  rw [equal]

theorem disjoint_or_nested (id outer : NodeID) (level : id.level ≤ outer.level) :
    id.stop ≤ outer.first ∨ outer.stop ≤ id.first ∨
      (outer.first ≤ id.first ∧ id.stop ≤ outer.stop) := by
  obtain ⟨d, split⟩ := Nat.exists_eq_add_of_le level
  have power : 2 ^ outer.level = 2 ^ d * 2 ^ id.level := by rw [split, pow_add, Nat.mul_comm]
  have start : outer.first = outer.index * 2 ^ d * 2 ^ id.level := by rw [first, power]; ring
  have finish : outer.stop = (outer.index + 1) * 2 ^ d * 2 ^ id.level := by rw [stop, power]; ring
  rw [start, finish]
  rcases Nat.lt_or_ge id.index (outer.index * 2 ^ d) with before | after
  · exact Or.inl (Nat.mul_le_mul_right _ before)
  rcases Nat.lt_or_ge id.index ((outer.index + 1) * 2 ^ d) with inside | beyond
  · exact Or.inr (Or.inr ⟨Nat.mul_le_mul_right _ after, Nat.mul_le_mul_right _ inside⟩)
  · exact Or.inr (Or.inl (Nat.mul_le_mul_right _ beyond))

theorem level_le_of_first (id outer : NodeID) (start : id.first = outer.first)
    (finish : id.stop ≤ outer.stop) : id.level ≤ outer.level := by
  rw [stop_eq, stop_eq, start] at finish
  exact (Nat.pow_le_pow_iff_right (by omega)).mp (Nat.le_of_add_le_add_left finish)

end NodeID

def fitLevel (b e : Nat) : Nat := Nat.findGreatest (fun l => 2 ^ l ∣ b ∧ b + 2 ^ l ≤ e) e

theorem fitLevel_spec {b e : Nat} (nonempty : b < e) :
    2 ^ fitLevel b e ∣ b ∧ b + 2 ^ fitLevel b e ≤ e :=
  Nat.findGreatest_spec (P := fun l => 2 ^ l ∣ b ∧ b + 2 ^ l ≤ e) (m := 0) (Nat.zero_le e)
    ⟨by simp, by simp only [pow_zero]; omega⟩

theorem le_fitLevel {b e l : Nat} (aligned : 2 ^ l ∣ b) (fits : b + 2 ^ l ≤ e) :
    l ≤ fitLevel b e := by
  apply Nat.le_findGreatest _ ⟨aligned, fits⟩
  have := @Nat.lt_two_pow_self l
  omega

def coverFrom : Nat → Nat → Nat → List NodeID
  | 0, _, _ => []
  | fuel + 1, b, e =>
    if b < e then
      ⟨fitLevel b e, b / 2 ^ fitLevel b e⟩ :: coverFrom fuel (b + 2 ^ fitLevel b e) e
    else []

/-- The minimal set of perfect subtrees that covers the leaves [b, e), left to right. -/
def cover (b e : Nat) : List NodeID := coverFrom (e - b) b e

theorem coverFrom_enough (fuel more b e : Nat) (enough : e - b ≤ fuel) :
    coverFrom (fuel + more) b e = coverFrom fuel b e := by
  induction fuel generalizing b with
  | zero =>
    have empty : ¬ b < e := by omega
    cases more <;> simp [coverFrom, empty]
  | succ fuel ih =>
    rw [show fuel + 1 + more = (fuel + more) + 1 by omega]
    simp only [coverFrom]
    split
    next nonempty =>
      have := Nat.two_pow_pos (fitLevel b e)
      rw [ih _ (by omega)]
    next => rfl

@[simp] theorem cover_self (b : Nat) : cover b b = [] := by simp [cover, coverFrom]

theorem cover_nil_of_le {b e : Nat} (empty : e ≤ b) : cover b e = [] := by
  rw [cover, Nat.sub_eq_zero_of_le empty, coverFrom]

def headNode (b e : Nat) : NodeID := ⟨fitLevel b e, b / 2 ^ fitLevel b e⟩

theorem cover_cons {b e : Nat} (nonempty : b < e) :
    cover b e = headNode b e :: cover (b + 2 ^ fitLevel b e) e := by
  have fits := (fitLevel_spec nonempty).2
  have positive := Nat.two_pow_pos (fitLevel b e)
  have split : e - b = (e - (b + 2 ^ fitLevel b e) + (2 ^ fitLevel b e - 1)) + 1 := by omega
  rw [cover, split, coverFrom, if_pos nonempty, coverFrom_enough _ _ _ _ (Nat.le_refl _)]
  rfl

theorem headNode_first {b e : Nat} (nonempty : b < e) : (headNode b e).first = b :=
  Nat.div_mul_cancel (fitLevel_spec nonempty).1

theorem headNode_stop {b e : Nat} (nonempty : b < e) :
    (headNode b e).stop = b + 2 ^ fitLevel b e := by
  rw [NodeID.stop_eq, headNode_first nonempty]; rfl

theorem cover_induction {e : Nat} {motive : Nat → Prop}
    (nil : ∀ b, e ≤ b → motive b)
    (cons : ∀ b, b < e → motive (b + 2 ^ fitLevel b e) → motive b) (b : Nat) : motive b := by
  induction h : e - b using Nat.strong_induction_on generalizing b with
  | _ n ih =>
    by_cases nonempty : b < e
    next =>
      have positive := Nat.two_pow_pos (fitLevel b e)
      exact cons b nonempty (ih _ (by omega) _ rfl)
    next => exact nil b (by omega)

theorem level_le_headNode {b e : Nat} {id : NodeID} (start : id.first = b) (inside : id.stop ≤ e) :
    id.level ≤ (headNode b e).level := by
  apply le_fitLevel
  · exact ⟨id.index, by rw [← start, NodeID.first, Nat.mul_comm]⟩
  · rw [← start, ← NodeID.stop_eq]; exact inside

theorem headNode_splits {b e : Nat} (nonempty : b < e) {id : NodeID} (inside : id.Within b e) :
    (headNode b e).stop ≤ id.first ∨ id.stop ≤ (headNode b e).stop := by
  obtain ⟨lower, upper⟩ := inside
  have start := headNode_first nonempty
  have grows := id.first_lt_stop
  rcases Nat.le_total id.level (headNode b e).level with below | above
  · have := NodeID.disjoint_or_nested _ _ below
    omega
  · rcases NodeID.disjoint_or_nested _ _ above with apart | apart | ⟨first, stop⟩
    · exact Or.inl apart
    · have := (headNode b e).first_lt_stop
      omega
    · have top := level_le_headNode (b := b) (by omega) upper
      have equal : id = headNode b e := NodeID.ext_first (by omega) (by omega)
      exact Or.inr (by rw [equal])

theorem mem_cover_iff (b e : Nat) (id : NodeID) :
    id ∈ cover b e ↔ id.Within b e ∧ ¬ id.parent.Within b e := by
  induction b using cover_induction (e := e) with
  | nil b empty =>
    rw [cover_nil_of_le empty]
    simp only [List.not_mem_nil, false_iff, not_and]
    rintro ⟨lower, upper⟩
    have := id.first_lt_stop
    omega
  | cons b nonempty ih =>
    have start := headNode_first nonempty
    have finish := headNode_stop nonempty
    have fits := (fitLevel_spec nonempty).2
    have positive := Nat.two_pow_pos (fitLevel b e)
    have grows := id.first_lt_stop
    have parentStart := id.parent_first_le
    have parentStop := id.stop_le_parent_stop
    rw [cover_cons nonempty, List.mem_cons, ih]
    constructor
    · rintro (rfl | ⟨⟨lower, upper⟩, outside⟩)
      · refine ⟨⟨by omega, by omega⟩, fun inside => ?_⟩
        have := level_le_headNode (b := b) (by have := inside.1; omega) inside.2
        simp only [NodeID.parent] at this
        omega
      · refine ⟨⟨by omega, upper⟩, fun inside => outside ⟨?_, inside.2⟩⟩
        have := headNode_splits nonempty inside
        omega
    · rintro ⟨inside, outside⟩
      rcases headNode_splits nonempty inside with behind | within
      · exact Or.inr ⟨⟨by omega, inside.2⟩, fun parent => outside ⟨by have := parent.1; omega, parent.2⟩⟩
      · left
        by_contra different
        have lower := inside.1
        -- A node properly inside the head node has its parent inside the head node too.
        have strict : id.level < (headNode b e).level := by
          by_contra high
          have := NodeID.disjoint_or_nested (headNode b e) id (by omega)
          have small := NodeID.level_le_of_first id (headNode b e) (by omega) within
          exact different (NodeID.ext_first (by omega) (by omega))
        have := NodeID.disjoint_or_nested id.parent (headNode b e) strict
        exact outside ⟨by omega, by omega⟩

theorem cover_ordered (b e : Nat) :
    (cover b e).Pairwise fun left right => left.stop ≤ right.first := by
  induction b using cover_induction (e := e) with
  | nil b empty => simp [cover_nil_of_le empty]
  | cons b nonempty ih =>
    rw [cover_cons nonempty, List.pairwise_cons]
    refine ⟨fun id member => ?_, ih⟩
    rw [headNode_stop nonempty]
    exact ((mem_cover_iff _ _ id).mp member).1.1

theorem exists_cover_stop {b e : Nat} (nonempty : b < e) : ∃ id ∈ cover b e, id.stop = e := by
  induction b using cover_induction (e := e) with
  | nil b empty => omega
  | cons b more ih =>
    have fits := (fitLevel_spec more).2
    rw [cover_cons more]
    by_cases later : b + 2 ^ fitLevel b e < e
    · obtain ⟨id, member, stop⟩ := ih later
      exact ⟨id, List.mem_cons_of_mem _ member, stop⟩
    · exact ⟨headNode b e, List.mem_cons_self, by rw [headNode_stop more]; omega⟩

-- Above every node inside there is one of the cover.
theorem exists_cover_above {b e : Nat} {id : NodeID} (inside : id.Within b e) :
    ∃ top ∈ cover b e, id.level ≤ top.level := by
  induction left : e - id.level generalizing id with
  | zero =>
    have width : 2 ^ id.level ≤ e := by
      have := inside.2
      rw [NodeID.stop_eq] at this
      omega
    have := @Nat.lt_two_pow_self id.level
    omega
  | succ left' ih =>
    by_cases parent : id.parent.Within b e
    · obtain ⟨top, member, above⟩ := ih parent (by simp only [NodeID.parent]; omega)
      exact ⟨top, member, Nat.le_trans (Nat.le_succ _) above⟩
    · exact ⟨id, (mem_cover_iff b e id).mpr ⟨inside, parent⟩, Nat.le_refl _⟩

theorem eq_cover_of_mem {nodes : List NodeID} {b e : Nat}
    (ordered : nodes.Pairwise fun left right => left.stop ≤ right.first)
    (members : ∀ id, id ∈ nodes ↔ id.Within b e ∧ ¬ id.parent.Within b e) :
    nodes = cover b e := by
  have same : ∀ id, id ∈ nodes ↔ id ∈ cover b e := fun id => by rw [members, mem_cover_iff]
  have strict {l : List NodeID} (h : l.Pairwise fun left right => left.stop ≤ right.first) :
      l.Pairwise fun left right => left.first < right.first :=
    h.imp fun {left} {_} le => Nat.lt_of_lt_of_le left.first_lt_stop le
  have distinct {l : List NodeID} (h : l.Pairwise fun left right => left.stop ≤ right.first) :
      l.Nodup := (strict h).imp fun less => by rintro rfl; omega
  have perm : nodes.Perm (cover b e) :=
    (List.perm_ext_iff_of_nodup (distinct ordered) (distinct (cover_ordered b e))).mpr same
  exact perm.eq_of_pairwise (fun left right _ _ h h' => by omega) (strict ordered)
    (strict (cover_ordered b e))

end Merkle
