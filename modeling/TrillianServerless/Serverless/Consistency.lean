import Mathlib.Data.List.Sort
import TrillianServerless.Serverless.Tracker

set_option autoImplicit false

namespace Serverless

open Go Merkle Checkpoints

-- sort.Slice promises no order among checkpoints of one size.
structure SortsBySize (sortSlice : List Checkpoint → List Checkpoint) : Prop where
  perm : ∀ cps, (sortSlice cps).Perm cps
  sorted : ∀ cps, (sortSlice cps).Pairwise fun a b => a.size ≤ b.size

def adjacent (cp : List Checkpoint) : List (Checkpoint × Checkpoint) := cp.zip cp.tail

def NeedsProof (p : Checkpoint × Checkpoint) : Prop := p.1.size ≠ p.2.size ∧ 0 < p.1.size

instance : DecidablePred NeedsProof := fun _ => inferInstanceAs (Decidable (_ ∧ _))

def callFor (p : Checkpoint × Checkpoint) : VerifyCall := ⟨p.1.size, p.2.size, p.1.hash, p.2.hash⟩

def callsFor (pairs : List (Checkpoint × Checkpoint)) : List VerifyCall :=
  (pairs.filter fun p => decide (NeedsProof p)).map callFor

def PairConsistent (accepted : List VerifyCall) (p : Checkpoint × Checkpoint) : Prop :=
  (p.1.size = p.2.size → p.1.hash = p.2.hash) ∧
    (0 < p.1.size → p.1.size < p.2.size → callFor p ∈ accepted)

section Scanning

variable {W : Type} (deps : Deps) (h : LogHasher) (pb : ProofBuilder W)

theorem checkPair_ok {a b : Checkpoint} {s s' : Scan W}
    (checked : checkPair deps h pb a b s = (.ok (), s')) :
    (a.size = b.size → a.hash = b.hash) ∧ s'.accepted = s.accepted ++ callsFor [(a, b)] := by
  unfold checkPair at checked
  split at checked
  next same =>
    split at checked
    next sameHash =>
      obtain rfl := (Prod.mk.inj checked).2
      exact ⟨fun _ => sameHash, by simp [callsFor, NeedsProof, same]⟩
    · simp at checked
  next different =>
    refine ⟨fun same => absurd same different, ?_⟩
    split at checked
    next positive =>
      split at checked
      · split at checked
        · obtain rfl := (Prod.mk.inj checked).2
          simp [callsFor, NeedsProof, callFor, different, positive]
        · simp at checked
      · simp at checked
      · simp at checked
    next zero =>
      obtain rfl := (Prod.mk.inj checked).2
      simp [callsFor, NeedsProof, zero]

-- The pairs that the loop looks at.
def visitedPairs (cp : List Checkpoint) (left i : Nat) (a b : Checkpoint) :
    List (Checkpoint × Checkpoint) :=
  (a, b) :: ((adjacent cp).drop i).take left

theorem adjacent_getElem? {cp : List Checkpoint} {i : Nat} {a b : Checkpoint}
    (first : cp[i]? = some a) (second : cp[i + 1]? = some b) : (adjacent cp)[i]? = some (a, b) := by
  simp [adjacent, List.getElem?_zip_eq_some, first, second]

theorem callsFor_append (xs ys : List (Checkpoint × Checkpoint)) :
    callsFor (xs ++ ys) = callsFor xs ++ callsFor ys := by
  simp [callsFor]

theorem scanPairs_step {check : Checkpoint → Checkpoint → Eff (Scan W) Unit}
    {cp : List Checkpoint} {left i : Nat} {a b : Checkpoint} {s s' : Scan W}
    (scanned : scanPairs check cp (left + 1) i a b s = (.ok (), s')) :
    ∃ s1 a' b', check a b s = (.ok (), s1) ∧ cp[i]? = some a' ∧ cp[i + 1]? = some b' ∧
      scanPairs check cp left (i + 1) a' b' s1 = (.ok (), s') := by
  obtain ⟨_, s1, checked, rest⟩ := Eff.bind_eq_ok.mp scanned
  cases first : cp[i]? with
  | none => simp [first] at rest
  | some a' =>
    cases second : cp[i + 1]? with
    | none => simp [first, second] at rest
    | some b' => exact ⟨s1, a', b', checked, rfl, rfl, by simpa [first, second] using rest⟩

theorem scanPairs_ok {cp : List Checkpoint} {left i : Nat} {a b : Checkpoint} {s s' : Scan W}
    (scanned : scanPairs (checkPair deps h pb) cp (left + 1) i a b s = (.ok (), s')) :
    (∀ p ∈ visitedPairs cp left i a b, p.1.size = p.2.size → p.1.hash = p.2.hash) ∧
      s'.accepted = s.accepted ++ callsFor (visitedPairs cp left i a b) := by
  induction left generalizing i a b s with
  | zero =>
    obtain ⟨s1, a', b', checked, _, _, rest⟩ := scanPairs_step scanned
    obtain ⟨same, accepted⟩ := checkPair_ok deps h pb checked
    obtain rfl : s1 = s' := (Prod.mk.inj rest).2
    simpa [visitedPairs] using And.intro same accepted
  | succ left ih =>
    obtain ⟨s1, a', b', checked, first, second, rest⟩ := scanPairs_step scanned
    obtain ⟨same, accepted⟩ := checkPair_ok deps h pb checked
    obtain ⟨laterSame, laterAccepted⟩ := ih rest
    have split : ((adjacent cp).drop i).take (left + 1) = visitedPairs cp left (i + 1) a' b' := by
      have bound := (List.getElem?_eq_some_iff.mp (adjacent_getElem? first second)).1
      have head := (List.getElem?_eq_some_iff.mp (adjacent_getElem? first second)).2
      rw [List.drop_eq_getElem_cons bound, List.take_succ_cons, head, visitedPairs]
    rw [visitedPairs, split, ← List.singleton_append, callsFor_append, ← List.append_assoc,
      ← accepted]
    refine ⟨?_, laterAccepted⟩
    intro p member
    rcases List.mem_append.mp member with here | later
    · obtain rfl := List.mem_singleton.mp here
      exact same
    · exact laterSame p later

end Scanning

-- What keeps the pair that the loop leaves out from mattering.
def LastPairHarmless (cp : List Checkpoint) : Prop :=
  cp.length = 2 ∨ ∀ a b, (adjacent cp).getLast? = some (a, b) →
    (a.size = b.size ∧ a.hash = b.hash) ∨ (a.size = 0 ∧ 0 < b.size)

theorem adjacent_cons (first second : Checkpoint) (rest : List Checkpoint) :
    adjacent (first :: second :: rest) = (first, second) :: adjacent (second :: rest) := rfl

theorem adjacent_length (cp : List Checkpoint) : (adjacent cp).length = cp.length - 1 := by
  simp [adjacent]

-- In a sorted list no pair before the last one ends in a larger checkpoint than the last one starts.
theorem adjacent_sorted {cp : List Checkpoint} (sorted : cp.Pairwise fun a b => a.size ≤ b.size)
    {i j : Nat} {p q : Checkpoint × Checkpoint} (order : i < j) (first : (adjacent cp)[i]? = some p)
    (second : (adjacent cp)[j]? = some q) : p.2.size ≤ q.1.size := by
  simp only [adjacent, List.getElem?_zip_eq_some, List.getElem?_tail] at first second
  obtain ⟨lower, low⟩ := List.getElem?_eq_some_iff.mp first.2
  obtain ⟨upper, high⟩ := List.getElem?_eq_some_iff.mp second.1
  rw [← low, ← high]
  rcases Nat.lt_or_eq_of_le (Nat.succ_le_of_lt order) with less | same
  · exact List.pairwise_iff_getElem.mp sorted (i + 1) j lower upper less
  · subst same
    exact Nat.le_refl _

theorem mem_callsFor {pairs : List (Checkpoint × Checkpoint)} {call : VerifyCall} :
    call ∈ callsFor pairs ↔ ∃ p ∈ pairs, NeedsProof p ∧ callFor p = call := by
  simp [callsFor, and_assoc]

theorem consistent_of_visited {pairs : List (Checkpoint × Checkpoint)}
    (same : ∀ p ∈ pairs, p.1.size = p.2.size → p.1.hash = p.2.hash) {p : Checkpoint × Checkpoint}
    (member : p ∈ pairs) : PairConsistent (callsFor pairs) p := by
  refine ⟨same p member, fun positive less => ?_⟩
  exact mem_callsFor.mpr ⟨p, member, ⟨Nat.ne_of_lt less, positive⟩, rfl⟩

section Sound

variable {W : Type} (deps : Deps) {sortSlice : List Checkpoint → List Checkpoint} (h : LogHasher)
  (f : Fetcher W) (cps : List Checkpoint) (w : W)

theorem checkConsistency_ok (returned : (checkConsistency deps sortSlice h f cps w).1 = .ok ()) :
    ∃ first second rest, sortSlice cps = first :: second :: rest ∧
      (∀ p ∈ visitedPairs (sortSlice cps) rest.length 0 first second,
        p.1.size = p.2.size → p.1.hash = p.2.hash) ∧
      (checkConsistency deps sortSlice h f cps w).2.2 =
        callsFor (visitedPairs (sortSlice cps) rest.length 0 first second) := by
  unfold checkConsistency at returned ⊢
  split at returned
  · simp at returned
  next several =>
    rw [if_neg several]
    split at returned
    next first second rest sorted =>
      dsimp only at returned ⊢
      split at returned
      next pb w' built =>
        obtain ⟨same, accepted⟩ := scanPairs_ok deps h pb (Prod.ext returned rfl)
        exact ⟨first, second, rest, sorted, by rwa [sorted], by rw [sorted]; simpa using accepted⟩
      · simp at returned
      · simp at returned
    · simp at returned

section Visited

variable {first second : Checkpoint} {rest : List Checkpoint}

theorem adjacent_count : (adjacent (first :: second :: rest)).length = rest.length + 1 := by
  simp [adjacent_length]

-- The loop comes to the pair of the first two and to every pair but the last.
theorem visitedPairs_eq : visitedPairs (first :: second :: rest) rest.length 0 first second =
    (first, second) :: (adjacent (first :: second :: rest)).dropLast := by
  rw [visitedPairs, List.drop_zero, List.dropLast_eq_take, adjacent_count, Nat.add_sub_cancel]

theorem visited_index {p : Checkpoint × Checkpoint} (several : rest.length ≠ 0)
    (visited : p ∈ visitedPairs (first :: second :: rest) rest.length 0 first second) :
    ∃ i < rest.length, (adjacent (first :: second :: rest))[i]? = some p := by
  rw [visitedPairs_eq] at visited
  rcases List.mem_cons.mp visited with rfl | earlier
  · exact ⟨0, by omega, by simp [adjacent_cons]⟩
  · obtain ⟨i, bound, rfl⟩ := List.mem_iff_getElem.mp earlier
    rw [List.length_dropLast, adjacent_count] at bound
    exact ⟨i, by omega, by rw [List.getElem_dropLast, List.getElem?_eq_getElem]⟩

theorem visited_or_last {p : Checkpoint × Checkpoint} (member : p ∈ adjacent (first :: second :: rest)) :
    p ∈ visitedPairs (first :: second :: rest) rest.length 0 first second ∨
      (adjacent (first :: second :: rest))[rest.length]? = some p := by
  obtain ⟨i, bound, rfl⟩ := List.mem_iff_getElem.mp member
  by_cases before : i < rest.length
  · refine .inl ?_
    rw [visitedPairs_eq]
    refine List.mem_cons_of_mem _ (List.mem_iff_getElem.mpr ⟨i, ?_, ?_⟩)
    · rw [List.length_dropLast, adjacent_count]
      omega
    · rw [List.getElem_dropLast]
  · rw [adjacent_count] at bound
    obtain rfl : i = rest.length := by omega
    exact .inr (List.getElem?_eq_getElem _)

theorem adjacent_ordered {cps : List Checkpoint} {i : Nat} {a b : Checkpoint}
    (sorted : cps.Pairwise fun a b => a.size ≤ b.size) (pair : (adjacent cps)[i]? = some (a, b)) :
    a.size ≤ b.size := by
  simp only [adjacent, List.getElem?_zip_eq_some, List.getElem?_tail] at pair
  obtain ⟨lower, low⟩ := List.getElem?_eq_some_iff.mp pair.1
  obtain ⟨upper, high⟩ := List.getElem?_eq_some_iff.mp pair.2
  have sizes := List.pairwise_iff_getElem.mp sorted _ _ lower upper (Nat.lt_succ_self _)
  rwa [low, high] at sizes

end Visited

/-- When CheckConsistency returns nil, what it leaves unchecked is the pair of the two largest
checkpoints, unless they are the only two. -/
theorem checkConsistency_iff (sorts : SortsBySize sortSlice)
    (returned : (checkConsistency deps sortSlice h f cps w).1 = .ok ()) :
    (∀ p ∈ adjacent (sortSlice cps),
      PairConsistent (checkConsistency deps sortSlice h f cps w).2.2 p) ↔
      LastPairHarmless (sortSlice cps) := by
  obtain ⟨first, second, rest, split, same, accepted⟩ := checkConsistency_ok deps h f cps w returned
  have sorted := sorts.sorted cps
  rw [accepted]
  rw [split] at sorted same ⊢
  have lastAt : (adjacent (first :: second :: rest))[rest.length]? =
      (adjacent (first :: second :: rest)).getLast? := by
    rw [List.getLast?_eq_getElem?, adjacent_count, Nat.add_sub_cancel]
  constructor
  · intro consistent
    by_cases two : rest.length = 0
    · exact Or.inl (by simp [two])
    refine Or.inr fun a b final => ?_
    rw [← lastAt] at final
    obtain ⟨sameHash, checked⟩ := consistent (a, b) (List.mem_of_getElem? final)
    by_cases equal : a.size = b.size
    · exact Or.inl ⟨equal, sameHash equal⟩
    have ordered := adjacent_ordered sorted final
    rcases Nat.eq_zero_or_pos a.size with zero | positive
    · exact Or.inr ⟨zero, by omega⟩
    -- A pair checked before has the sizes of the last one, which sorting rules out.
    obtain ⟨p, member, _, call⟩ := mem_callsFor.mp (checked positive (by dsimp only; omega))
    obtain ⟨i, before, atIndex⟩ := visited_index two member
    have smaller := adjacent_sorted sorted before atIndex final
    have sizes : p.2.size = b.size := congrArg VerifyCall.size2 call
    dsimp only at smaller
    omega
  · intro harmless p member
    rcases visited_or_last member with here | final
    · exact consistent_of_visited same here
    rcases harmless with two | harmless
    · have none : rest = [] := List.length_eq_zero_iff.mp (by simpa using two)
      subst none
      refine consistent_of_visited same ?_
      simpa [adjacent, visitedPairs] using member
    · obtain ⟨a, b⟩ := p
      rcases harmless a b (lastAt ▸ final) with ⟨sizes, hashes⟩ | ⟨zero, _⟩
      · exact ⟨fun _ => hashes, fun _ less => absurd sizes (Nat.ne_of_lt less)⟩
      · exact ⟨fun equal => by dsimp only at equal; omega,
          fun positive => absurd zero (Nat.pos_iff_ne_zero.mp positive)⟩

end Sound

section Skipped

def sortBySize : List Checkpoint → List Checkpoint := List.insertionSort fun a b => a.size ≤ b.size

theorem sortBySize_sorts : SortsBySize sortBySize where
  perm cps := List.perm_insertionSort _ cps
  sorted cps := by
    have : Std.Total fun a b : Checkpoint => a.size ≤ b.size := ⟨fun a b => Nat.le_total _ _⟩
    have : IsTrans Checkpoint fun a b => a.size ≤ b.size := ⟨fun _ _ _ => Nat.le_trans⟩
    exact List.pairwise_insertionSort _ cps

def honestPair : List Checkpoint := [⟨"example log", 2, hashPair⟩, ⟨"example log", 1, hashOne⟩]

theorem checkConsistency_iff_honest :
    (checkConsistency referenceDeps sortBySize LogHasher.padded pairLog honestPair ()).1 = .ok () ∧
      ∀ p ∈ adjacent (sortBySize honestPair), PairConsistent
        (checkConsistency referenceDeps sortBySize LogHasher.padded pairLog honestPair ()).2.2 p := by
  have returned : (checkConsistency referenceDeps sortBySize LogHasher.padded pairLog honestPair
      ()).1 = .ok () := by decide +kernel
  exact ⟨returned, (checkConsistency_iff referenceDeps LogHasher.padded pairLog honestPair ()
    sortBySize_sorts returned).mpr (Or.inl (by decide +kernel))⟩

-- The checkpoint of size 1 does not belong to the log of size 2.
def forkedTriple : List Checkpoint :=
  [⟨"example log", 0, []⟩, ⟨"example log", 1, hashTwo⟩, ⟨"example log", 2, hashPair⟩]

theorem checkConsistency_skips_last :
    (checkConsistency referenceDeps sortBySize LogHasher.padded pairLog forkedTriple ()).1 = .ok () ∧
      ¬ ∀ p ∈ adjacent (sortBySize forkedTriple), PairConsistent
        (checkConsistency referenceDeps sortBySize LogHasher.padded pairLog forkedTriple ()).2.2 p := by
  have returned : (checkConsistency referenceDeps sortBySize LogHasher.padded pairLog forkedTriple
      ()).1 = .ok () := by decide +kernel
  have unchecked : (checkConsistency referenceDeps sortBySize LogHasher.padded pairLog forkedTriple
      ()).2.2 = [] := by decide +kernel
  refine ⟨returned, fun consistent => ?_⟩
  have last := (consistent (⟨"example log", 1, hashTwo⟩, ⟨"example log", 2, hashPair⟩)
    (by decide +kernel)).2 (by decide) (by decide)
  rw [unchecked] at last
  simp at last

end Skipped

end Serverless
