import Mathlib.Data.List.Forall2
import Mathlib.Data.List.Nodup

set_option autoImplicit false

namespace Go

-- The allocator gives no slice more than 2^48 bytes.
def maxAlloc : Nat := 281474976710656

/-- An order in which a range over a map visits its entries. -/
structure MapOrder (A : Type) where
  walk : List A → List A
  perm : ∀ entries, (walk entries).Perm entries

def MapOrder.listed (A : Type) : MapOrder A := ⟨id, fun _ => .refl _⟩

def MapOrder.reversed (A : Type) : MapOrder A := ⟨List.reverse, List.reverse_perm⟩

/-- What sort.Slice asks of `less`: a strict weak order between the elements at different indices. -/
structure Orders {A : Type} (less : A → A → Bool) (slice : List A) : Prop where
  asymm : slice.Pairwise fun a b => ¬ (less a b = true ∧ less b a = true)
  negTrans : ∀ a ∈ slice, ∀ b ∈ slice, ∀ c ∈ slice,
    less a b = false → less b c = false → less a c = false

theorem Orders.of_map {A B : Type} {less : B → B → Bool} {f : A → B} {slice : List A}
    (orders : Orders less (slice.map f)) : Orders (fun a b => less (f a) (f b)) slice where
  asymm := List.pairwise_map.mp orders.asymm
  negTrans a ma b mb c mc := orders.negTrans (f a) (List.mem_map_of_mem ma) (f b) (List.mem_map_of_mem mb)
    (f c) (List.mem_map_of_mem mc)

def Sorted {A : Type} (less : A → A → Bool) (slice : List A) : Prop :=
  slice.Pairwise fun a b => less b a = false

/-- The functions of package sort. -/
structure Sorter where
  slice : {A : Type} → (A → A → Bool) → List A → List A

-- sort.Slice only swaps elements, and is not stable.
structure Sorter.Lawful (sort : Sorter) : Prop where
  perm : ∀ {A : Type} (less : A → A → Bool) (slice : List A), (sort.slice less slice).Perm slice
  sorted : ∀ {A : Type} (less : A → A → Bool) (slice : List A), Orders less slice →
    Sorted less (sort.slice less slice)

section Insertion

variable {A : Type} (less : A → A → Bool)

def insertBy (a : A) : List A → List A
  | [] => [a]
  | b :: rest => if less b a then b :: insertBy a rest else a :: b :: rest

def sortBy : List A → List A
  | [] => []
  | a :: rest => insertBy less a (sortBy rest)

theorem insertBy_perm (a : A) (slice : List A) : (insertBy less a slice).Perm (a :: slice) := by
  induction slice with
  | nil => exact .refl _
  | cons b rest ih =>
    rw [insertBy]
    split
    · exact (ih.cons b).trans (.swap a b rest)
    · exact .refl _

theorem sortBy_perm (slice : List A) : (sortBy less slice).Perm slice := by
  induction slice with
  | nil => exact .refl _
  | cons a rest ih => exact (insertBy_perm less a _).trans (ih.cons a)

variable {less}

theorem insertBy_sorted {a : A} {slice : List A} (sorted : Sorted less slice)
    (asymm : ∀ b ∈ slice, ¬ (less a b = true ∧ less b a = true))
    (negTrans : ∀ b ∈ slice, ∀ c ∈ slice, less c b = false → less b a = false → less c a = false) :
    Sorted less (insertBy less a slice) := by
  induction slice with
  | nil => exact List.pairwise_singleton _ _
  | cons b rest ih =>
    obtain ⟨first, rest'⟩ := List.pairwise_cons.mp sorted
    rw [insertBy]
    split
    next before =>
      refine List.pairwise_cons.mpr ⟨fun c member => ?_, ih rest' (fun c later => asymm c (by simp [later]))
        fun c later d last => negTrans c (by simp [later]) d (by simp [last])⟩
      rcases List.mem_cons.mp ((insertBy_perm less a rest).mem_iff.mp member) with rfl | later
      · have one := asymm b (by simp)
        simpa [before] using one
      · exact first c later
    next after =>
      have after' : less b a = false := by simpa using after
      refine List.pairwise_cons.mpr ⟨fun c member => ?_, sorted⟩
      rcases List.mem_cons.mp member with rfl | later
      · exact after'
      · exact negTrans b (by simp) c (by simp [later]) (first c later) after'

theorem sortBy_sorted {slice : List A} (orders : Orders less slice) : Sorted less (sortBy less slice) := by
  induction slice with
  | nil => exact .nil
  | cons a rest ih =>
    obtain ⟨first, asymm⟩ := List.pairwise_cons.mp orders.asymm
    have same := fun b => (sortBy_perm less rest).mem_iff (a := b)
    refine insertBy_sorted (ih ⟨asymm, fun b mb c mc d md =>
      orders.negTrans b (by simp [mb]) c (by simp [mc]) d (by simp [md])⟩) ?_ ?_
    · exact fun b member => first b ((same b).mp member)
    · intro b member c later
      exact orders.negTrans c (by simp [(same c).mp later]) b (by simp [(same b).mp member]) a (by simp)

def Sorter.insertion : Sorter := ⟨sortBy⟩

theorem Sorter.insertion_lawful : Sorter.insertion.Lawful where
  perm less slice := sortBy_perm less slice
  sorted _ _ orders := sortBy_sorted orders

end Insertion

section Sorted

variable {A : Type} {less : A → A → Bool}

-- A slice with a strict order on it has one sorted arrangement.
theorem Sorted.eq_of_perm {slice other : List A} (sorted : Sorted less slice) (sorted' : Sorted less other)
    (perm : slice.Perm other)
    (total : ∀ a ∈ slice, ∀ b ∈ slice, less a b = false → less b a = false → a = b) : slice = other := by
  refine perm.eq_of_pairwise (fun a b member member' before after => ?_) sorted sorted'
  exact total a member b (perm.mem_iff.mpr member') after before

end Sorted

section Matched

variable {A B C : Type} {R : A → B → Prop} {as : List A} {bs : List B}

theorem matched_mem (matched : List.Forall₂ R as bs) : ∀ b ∈ bs, ∃ a ∈ as, R a b := by
  induction matched with
  | nil => simp
  | cons own _ ih =>
    intro b member
    rcases List.mem_cons.mp member with rfl | later
    · exact ⟨_, by simp, own⟩
    · obtain ⟨a, listed, related⟩ := ih b later
      exact ⟨a, by simp [listed], related⟩

theorem matched_map {f : A → C} {g : B → C} (matched : List.Forall₂ R as bs)
    (same : ∀ a ∈ as, ∀ b, R a b → g b = f a) : bs.map g = as.map f := by
  induction matched with
  | nil => rfl
  | cons own _ ih =>
    rw [List.map_cons, List.map_cons, same _ (by simp) _ own, ih fun a member => same a (by simp [member])]

end Matched

section Groups

variable {K A : Type} [DecidableEq K]

-- m[k] = append(m[k], a).
def appendAt (k : K) (a : A) : List (K × List A) → List (K × List A)
  | [] => [(k, [a])]
  | (l, as) :: rest => if l = k then (l, as ++ [a]) :: rest else (l, as) :: appendAt k a rest

theorem appendAt_keys (k : K) (a : A) (groups : List (K × List A)) :
    (appendAt k a groups).map Prod.fst =
      if k ∈ groups.map Prod.fst then groups.map Prod.fst else groups.map Prod.fst ++ [k] := by
  induction groups with
  | nil => rfl
  | cons g rest ih =>
    obtain ⟨l, as⟩ := g
    rw [appendAt]
    by_cases own : l = k
    · simp [own]
    · simp only [if_neg own, List.map_cons, ih, List.mem_cons, Ne.symm own, false_or]
      split <;> simp

theorem mem_appendAt {k : K} {a : A} {groups : List (K × List A)} {g : K × List A}
    (distinct : (groups.map Prod.fst).Nodup) (member : g ∈ appendAt k a groups) :
    g.1 ≠ k ∧ g ∈ groups ∨ g.1 = k ∧ ((∃ as, (k, as) ∈ groups ∧ g.2 = as ++ [a]) ∨
      k ∉ groups.map Prod.fst ∧ g.2 = [a]) := by
  induction groups with
  | nil =>
    rw [appendAt, List.mem_singleton] at member
    subst member
    exact .inr ⟨rfl, .inr ⟨by simp, rfl⟩⟩
  | cons h rest ih =>
    obtain ⟨l, as⟩ := h
    rw [List.map_cons, List.nodup_cons] at distinct
    rw [appendAt] at member
    split at member
    next own =>
      subst own
      rcases List.mem_cons.mp member with rfl | later
      · exact .inr ⟨rfl, .inl ⟨as, by simp, rfl⟩⟩
      · refine .inl ⟨fun same => distinct.1 (List.mem_map.mpr ⟨g, later, same⟩), by simp [later]⟩
    next other =>
      rcases List.mem_cons.mp member with rfl | later
      · exact .inl ⟨other, by simp⟩
      · rcases ih distinct.2 later with ⟨apart, kept⟩ | ⟨same, ⟨bs, kept, shape⟩ | ⟨fresh, shape⟩⟩
        · exact .inl ⟨apart, by simp [kept]⟩
        · exact .inr ⟨same, .inl ⟨bs, by simp [kept], shape⟩⟩
        · refine .inr ⟨same, .inr ⟨?_, shape⟩⟩
          simp only [List.map_cons, List.mem_cons, not_or]
          exact ⟨Ne.symm other, fresh⟩

/-- Each key of an item has the list of its items, in their order. -/
structure Groups (f : A → Option K) (items : List A) (groups : List (K × List A)) : Prop where
  distinct : (groups.map Prod.fst).Nodup
  lists : ∀ g ∈ groups, g.2 = items.filter (fun a => f a = some g.1) ∧ g.2 ≠ []
  complete : ∀ a ∈ items, ∀ k, f a = some k → k ∈ groups.map Prod.fst

variable {f : A → Option K} {items : List A} {groups : List (K × List A)}

theorem Groups.nil : Groups f [] [] := ⟨List.nodup_nil, by simp, by simp⟩

theorem Groups.skip (held : Groups f items groups) {a : A} (other : f a = none) :
    Groups f (items ++ [a]) groups where
  distinct := held.distinct
  lists g member := by
    obtain ⟨list, some'⟩ := held.lists g member
    refine ⟨?_, some'⟩
    rw [List.filter_append, ← list]
    simp [other]
  complete b member k own := by
    rcases List.mem_append.mp member with old | new
    · exact held.complete b old k own
    · rw [List.mem_singleton.mp new, other] at own
      cases own

theorem Groups.append (held : Groups f items groups) {a : A} {k : K} (own : f a = some k) :
    Groups f (items ++ [a]) (appendAt k a groups) where
  distinct := by
    rw [appendAt_keys]
    split
    · exact held.distinct
    next fresh =>
      refine List.nodup_append.mpr ⟨held.distinct, List.nodup_singleton k, fun l member m single same => ?_⟩
      rw [same, List.mem_singleton.mp single] at member
      exact fresh member
  lists g member := by
    rcases mem_appendAt held.distinct member with ⟨apart, kept⟩ | ⟨same, ⟨as, kept, shape⟩ | ⟨fresh, shape⟩⟩
    · obtain ⟨list, some'⟩ := held.lists g kept
      refine ⟨?_, some'⟩
      have out : ¬ f a = some g.1 := fun wrong => apart (Option.some.inj (wrong.symm.trans own))
      rw [List.filter_append, List.filter_singleton, decide_eq_false out, list]
      simp
    · obtain ⟨list, _⟩ := held.lists (k, as) kept
      have list' : as = items.filter fun a => decide (f a = some k) := list
      rw [shape, same, List.filter_append, ← list']
      simp [own]
    · have none' : items.filter (fun a => decide (f a = some k)) = [] := by
        refine List.filter_eq_nil_iff.mpr fun b listed => ?_
        simp only [decide_eq_true_eq]
        exact fun wrong => fresh (held.complete b listed k wrong)
      rw [shape, same, List.filter_append, none']
      simp [own]
  complete b member l other := by
    rw [appendAt_keys]
    rcases List.mem_append.mp member with old | new
    · have known := held.complete b old l other
      split
      · exact known
      · exact List.mem_append_left _ known
    · rw [List.mem_singleton.mp new, own] at other
      obtain rfl := Option.some.inj other
      split
      · assumption
      · simp

end Groups

end Go
