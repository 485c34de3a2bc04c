import Mathlib.Algebra.Order.Ring.Int
import TrillianServerless.Shared.Go
import TrillianServerless.Shared.Slices

set_option autoImplicit false

namespace CtMap

open Go

section Model

-- An int64 that has run over.
def wrap (n : Int) : Int := (n + 2 ^ 63) % 2 ^ 64 - 2 ^ 63

-- Counts of entries are int64 values.
abbrev Count := { n : Nat // n < 2 ^ 63 }

-- What Head answers: a checkpoint, and how many entries there are.
abbrev Head := Except GoError (Bytes × Count)

structure Result (PCollection : Type) where
  mapTiles : PCollection
  domainCertIndexLogs : PCollection
  checkpoint : Bytes
  entries : Int

/-- What Create builds its pipeline from. `width` is the size of a PCollection in memory. -/
structure Pipeline (PCollection : Type) where
  width : Nat
  entries : Int → Int → PCollection
  flatten : List PCollection → Outcome PCollection
  keyByDomain : PCollection → PCollection
  makeDomainLogs : PCollection → PCollection × PCollection
  createTiles : PCollection → Except GoError PCollection

-- Flatten merges collections, if there are any; whether it takes none at all is left open.
structure Pipeline.Lawful {PCollection : Type} (p : Pipeline PCollection) : Prop where
  small : 9 * p.width ≤ maxAlloc
  flatten : ∀ cols, cols ≠ [] → ∀ reason, p.flatten cols ≠ .panic reason

variable {PCollection : Type} (p : Pipeline PCollection)

def getLogEnd (head : Head) (requiredEntries : Int) : Except GoError (Int × Bytes) :=
  match head with
  | .error _ => .error (.text "failed to get Head of input log: %v")
  | .ok (golden, totalLeaves) =>
    if requiredEntries < 0 then .ok ((totalLeaves : Nat), golden)
    else if (totalLeaves : Nat) < requiredEntries then .error (.text "wanted %d leaves but only %d available")
    else .ok (requiredEntries, golden)

-- The loop of Create over its ranges; `none` where it has not come to its end after so many rounds.
def readRanges (endID batchSize : Int) : Nat → Int → Option (List (Int × Int))
  | 0, _ => none
  | fuel + 1, i =>
    if i < endID then
      let stop := wrap (i + batchSize)
      (readRanges endID batchSize fuel (wrap (i + batchSize))).map
        ((i, if endID < stop then endID else stop) :: ·)
    else some []

def build (golden : Bytes) (endID : Int) (rawLeaves : List PCollection) : Outcome (Result PCollection) := do
  let leaves ← p.flatten rawLeaves
  let (entries, logs) := p.makeDomainLogs (p.keyByDomain leaves)
  let tiles ← .ofExcept (p.createTiles entries)
  return ⟨tiles, logs, golden, endID⟩

-- What Create ends in, with the ranges that it has asked the log for.
def create (head : Head) (size : Int64) (fuel : Nat) : Option (Outcome (Result PCollection) × List (Int × Int)) :=
  match getLogEnd head size.toInt with
  | .error reason => some (.error reason, [])
  | .ok (endID, golden) =>
    let batchSize := wrap (size.toInt.tdiv 10 + 1)
    if batchSize = 0 then some (.panic "integer divide by zero", [])
    else
      let capacity := wrap (endID.tdiv batchSize)
      if capacity < 0 ∨ maxAlloc < p.width * capacity then some (.panic "makeslice: cap out of range", [])
      else
        (readRanges endID batchSize fuel 0).map fun ranges =>
          (build p golden endID (ranges.map fun r => p.entries r.1 r.2), ranges)

end Model

section Ranges

/-- Ranges that are not empty, each of which begins where the one before it ends. -/
def Consecutive : Int → List (Int × Int) → Int → Prop
  | start, [], stop => start = stop
  | start, r :: rest, stop => r.1 = start ∧ r.1 < r.2 ∧ Consecutive r.2 rest stop

/-- Consecutive ranges from 0 on; they are disjoint, and what they hold is `[0, stop)`. -/
structure Partitions (stop : Int) (ranges : List (Int × Int)) : Prop where
  consecutive : Consecutive 0 ranges stop
  disjoint : ranges.Pairwise fun r q => r.2 ≤ q.1
  union : ∀ n, (∃ r ∈ ranges, r.1 ≤ n ∧ n < r.2) ↔ 0 ≤ n ∧ n < stop

theorem Consecutive.le {start stop : Int} {ranges : List (Int × Int)} (run : Consecutive start ranges stop) :
    start ≤ stop := by
  induction ranges generalizing start with
  | nil => exact le_of_eq run
  | cons r rest ih =>
    obtain ⟨rfl, some', later⟩ := run
    exact le_trans (le_of_lt some') (ih later)

theorem Consecutive.union {start stop : Int} {ranges : List (Int × Int)} (run : Consecutive start ranges stop)
    (n : Int) : (∃ r ∈ ranges, r.1 ≤ n ∧ n < r.2) ↔ start ≤ n ∧ n < stop := by
  induction ranges generalizing start with
  | nil =>
    obtain rfl : start = stop := run
    simp
  | cons r rest ih =>
    obtain ⟨rfl, some', later⟩ := run
    have after := later.le
    rw [List.exists_mem_cons_iff, ih later]
    omega

theorem Consecutive.disjoint {start stop : Int} {ranges : List (Int × Int)} (run : Consecutive start ranges stop) :
    (∀ q ∈ ranges, start ≤ q.1) ∧ ranges.Pairwise fun r q => r.2 ≤ q.1 := by
  induction ranges generalizing start with
  | nil => simp
  | cons r rest ih =>
    obtain ⟨rfl, some', later⟩ := run
    obtain ⟨above, pairs⟩ := ih later
    refine ⟨?_, List.pairwise_cons.mpr ⟨above, pairs⟩⟩
    rw [List.forall_mem_cons]
    exact ⟨le_refl _, fun q member => le_trans (le_of_lt some') (above q member)⟩

theorem partitions_iff {stop : Int} {ranges : List (Int × Int)} :
    Partitions stop ranges ↔ Consecutive 0 ranges stop :=
  ⟨fun partition => partition.consecutive, fun run => ⟨run, run.disjoint.2, run.union⟩⟩

end Ranges

section Loop

theorem wrap_eq {n : Int} (low : -2 ^ 63 ≤ n) (high : n < 2 ^ 63) : wrap n = n := by
  unfold wrap
  omega

theorem succ_stride (k : Nat) (batchSize : Int) :
    ((k + 1 : Nat) * batchSize : Int) = k * batchSize + batchSize := by
  rw [Nat.cast_succ, Int.add_mul, Int.one_mul]

/-- The loop ends and covers what is left, where no step runs over. -/
theorem readRanges_consecutive {endID batchSize : Int} (positive : 0 < batchSize)
    (fits : ∀ k : Nat, k * batchSize < endID → k * batchSize + batchSize < 2 ^ 63) (fuel k : Nat)
    (enough : endID ≤ k * batchSize + fuel * batchSize) :
    ∃ ranges, readRanges endID batchSize (fuel + 1) (k * batchSize) = some ranges ∧
      Consecutive (min (k * batchSize) endID) ranges endID := by
  induction fuel generalizing k with
  | zero =>
    have past : ¬ (k * batchSize : Int) < endID := by omega
    exact ⟨[], by rw [readRanges, if_neg past], by rw [min_eq_right (by omega)]; rfl⟩
  | succ fuel ih =>
    by_cases inside : (k * batchSize : Int) < endID
    · have zero : 0 ≤ (k * batchSize : Int) := Int.mul_nonneg (Int.natCast_nonneg k) (le_of_lt positive)
      have next := succ_stride k batchSize
      have rest := succ_stride fuel batchSize
      obtain ⟨ranges, ran, run⟩ := ih (k + 1) (by omega)
      rw [next] at ran run
      have step := wrap_eq (n := k * batchSize + batchSize) (by omega) (fits k inside)
      refine ⟨_, by rw [readRanges, if_pos inside, step, ran]; rfl, ?_⟩
      rw [min_eq_left (le_of_lt inside)]
      by_cases last : endID < k * batchSize + batchSize
      · rw [if_pos last]
        rw [min_eq_right (le_of_lt last)] at run
        exact ⟨rfl, inside, run⟩
      · rw [if_neg last]
        rw [min_eq_left (not_lt.mp last)] at run
        exact ⟨rfl, by simpa using positive, run⟩
    · exact ⟨[], by rw [readRanges, if_neg inside], by rw [min_eq_right (not_lt.mp inside)]; rfl⟩

theorem readRanges_whole {endID batchSize : Int} (positive : 0 < batchSize) (some' : 0 ≤ endID)
    (fits : ∀ k : Nat, k * batchSize < endID → k * batchSize + batchSize < 2 ^ 63) :
    ∃ fuel ranges, readRanges endID batchSize fuel 0 = some ranges ∧ Consecutive 0 ranges endID := by
  have enough : endID ≤ endID.toNat * batchSize := by
    rw [Int.toNat_of_nonneg some']
    exact le_mul_of_one_le_right some' positive
  obtain ⟨ranges, ran, run⟩ := readRanges_consecutive positive fits endID.toNat 0 (by simpa using enough)
  simp only [Int.natCast_zero, Int.zero_mul, min_eq_left some'] at ran run
  exact ⟨_, ranges, ran, run⟩

/-- A run of the loop over consecutive ranges goes forward in each step. -/
theorem readRanges_next {endID batchSize i : Int} {fuel : Nat} {ranges : List (Int × Int)} (inside : i < endID)
    (ran : readRanges endID batchSize fuel i = some ranges) (run : Consecutive i ranges endID) :
    i < wrap (i + batchSize) ∧ (wrap (i + batchSize) < endID → ∃ fuel' ranges',
      readRanges endID batchSize fuel' (wrap (i + batchSize)) = some ranges' ∧
        Consecutive (wrap (i + batchSize)) ranges' endID) := by
  cases fuel with
  | zero => cases ran
  | succ fuel =>
    rw [readRanges, if_pos inside, Option.map_eq_some_iff] at ran
    obtain ⟨rest, ranRest, rfl⟩ := ran
    obtain ⟨-, forward, later⟩ := run
    simp only at forward later
    split at forward
    next last => exact ⟨lt_trans inside last, fun before => absurd before (not_lt.mpr (le_of_lt last))⟩
    next more =>
      rw [if_neg more] at later
      exact ⟨forward, fun _ => ⟨fuel, rest, ranRest, later⟩⟩

end Loop

section Create

-- Go's division rounds towards zero.
theorem tdiv_ten (s : Int) : s.tdiv 10 = if 0 ≤ s then s / 10 else -(-s / 10) := by
  split
  next positive => exact Int.tdiv_eq_ediv_of_nonneg positive
  next negative =>
    have turned := Int.neg_tdiv (a := -s) (b := 10)
    rw [Int.neg_neg] at turned
    rw [turned, Int.tdiv_eq_ediv_of_nonneg (by omega)]

/-- The stride for each kind of size. -/
theorem batchSize_eq (size : Int64) : wrap (size.toInt.tdiv 10 + 1) =
    if 0 ≤ size.toInt then size.toInt / 10 + 1 else 1 - -size.toInt / 10 := by
  have low := size.le_toInt
  have high := size.toInt_lt
  rw [tdiv_ten, wrap]
  split <;> omega

variable {PCollection : Type} (p : Pipeline PCollection)

/-- The slice for the collections can be made, and the loop ends with ranges that partition the log. -/
def Reads (endID batchSize : Int) : Prop :=
  batchSize ≠ 0 ∧ ¬ (wrap (endID.tdiv batchSize) < 0 ∨ maxAlloc < p.width * wrap (endID.tdiv batchSize)) ∧
    ∃ fuel ranges, readRanges endID batchSize fuel 0 = some ranges ∧ Consecutive 0 ranges endID

theorem Reads.of_positive {endID batchSize : Int} (positive : 0 < batchSize) (some' : 0 ≤ endID)
    (high : endID < 2 ^ 63) (room : p.width * (endID / batchSize) ≤ maxAlloc)
    (fits : ∀ k : Nat, k * batchSize < endID → k * batchSize + batchSize < 2 ^ 63) : Reads p endID batchSize := by
  have less : endID / batchSize ≤ endID := Int.ediv_le_self _ some'
  have capacity : wrap (endID.tdiv batchSize) = endID / batchSize := by
    rw [Int.tdiv_eq_ediv_of_nonneg some']
    have := Int.ediv_nonneg some' (le_of_lt positive)
    exact wrap_eq (by omega) (by omega)
  refine ⟨by omega, ?_, readRanges_whole positive some' fits⟩
  rw [capacity]
  have := Int.ediv_nonneg some' (le_of_lt positive)
  omega

-- A requested number of entries is read in at most ten steps, the last of which may run over.
theorem reads_size (lawful : p.Lawful) {size : Int} (some' : 0 ≤ size) (high : size < 2 ^ 63) :
    Reads p size (size / 10 + 1) ↔ size < 9223372036854775800 := by
  constructor
  · rintro ⟨_, _, fuel, ranges, ran, run⟩
    by_contra large
    have stride : size / 10 + 1 = 922337203685477581 := by omega
    rw [stride] at ran
    -- The tenth step starts at nine strides and would end beyond the last int64.
    have reach : ∀ k : Nat, k ≤ 9 → ∃ fuel ranges,
        readRanges size 922337203685477581 fuel (k * 922337203685477581) = some ranges ∧
          Consecutive (k * 922337203685477581) ranges size := by
      intro k few
      induction k with
      | zero => exact ⟨fuel, ranges, by simpa using ran, by simpa using run⟩
      | succ k ih =>
        obtain ⟨fuel, ranges, ran, run⟩ := ih (by omega)
        have step : wrap (k * 922337203685477581 + 922337203685477581) = (k + 1 : Nat) * 922337203685477581 := by
          rw [succ_stride]
          exact wrap_eq (by omega) (by omega)
        have next := (readRanges_next (by omega) ran run).2
        rw [step] at next
        exact next (by omega)
    obtain ⟨fuel, ranges, ran, run⟩ := reach 9 (le_refl _)
    have forward := (readRanges_next (by omega) ran run).1
    unfold wrap at forward
    omega
  · intro small
    have ninth : size / (size / 10 + 1) ≤ 9 := by
      have : size / (size / 10 + 1) < 10 := Int.ediv_lt_of_lt_mul (by omega) (by omega)
      omega
    have room : p.width * (size / (size / 10 + 1)) ≤ maxAlloc := by
      have product : (p.width : Int) * (size / (size / 10 + 1)) ≤ p.width * 9 :=
        Int.mul_le_mul_of_nonneg_left ninth (Int.natCast_nonneg _)
      have := lawful.small
      omega
    refine Reads.of_positive p (by omega) some' high room fun k inside => ?_
    have few : k < 10 := by
      by_contra many
      have : (10 : Int) * (size / 10 + 1) ≤ k * (size / 10 + 1) :=
        Int.mul_le_mul_of_nonneg_right (by omega) (by omega)
      omega
    have last : (k : Int) * (size / 10 + 1) ≤ 9 * (size / 10 + 1) :=
      Int.mul_le_mul_of_nonneg_right (by omega) (by omega)
    omega

theorem reads_single {endID : Int} (some' : 0 ≤ endID) (high : endID < 2 ^ 63) :
    Reads p endID 1 ↔ p.width * endID ≤ maxAlloc := by
  constructor
  · rintro ⟨_, room, _⟩
    rw [Int.tdiv_one, wrap_eq (by omega) high] at room
    omega
  · intro room
    refine Reads.of_positive p (by decide) some' high (by rwa [Int.ediv_one]) fun k inside => ?_
    omega

-- A negative stride fails on the first entry.
theorem reads_negative {endID batchSize : Int} (negative : batchSize < 0) (low : -2 ^ 63 ≤ batchSize)
    (some' : 0 ≤ endID) : Reads p endID batchSize ↔ endID = 0 := by
  constructor
  · rintro ⟨_, _, fuel, ranges, ran, run⟩
    by_contra more
    have forward := (readRanges_next (by omega) ran run).1
    rw [Int.zero_add, wrap_eq low (by omega)] at forward
    omega
  · rintro rfl
    refine ⟨by omega, ?_, 1, [], rfl, rfl⟩
    rw [Int.zero_tdiv, show wrap 0 = 0 from rfl]
    simp

/-- Create returns an error where the log has too few entries or does not answer, and else it ends, without a
panic, after it has asked for the entries of a partition of what was requested. -/
def Sound (head : Head) (size : Int64) : Prop :=
  ∃ fuel outcome ranges, create p head size fuel = some (outcome, ranges) ∧
    (∀ reason, outcome ≠ .panic reason) ∧
    match head with
    | .error _ => ∃ reason, outcome = .error reason
    | .ok (_, count) =>
      if (count.val : Int) < size.toInt then ∃ reason, outcome = .error reason
      else Partitions (if size.toInt < 0 then count.val else size.toInt) ranges

/-- The sizes with which Create works, for a log with enough entries: a number of entries whose strides do not run
over, a number from -9 to -1 for a log whose entries can be counted one by one, and a lower one for a log without
entries. Without entries, Flatten also has to take no collections. -/
def Fits (head : Head) (size : Int64) : Prop :=
  ∀ golden count, head = .ok (golden, count) → ¬ (count.val : Int) < size.toInt →
    ((0 ≤ size.toInt ∧ size.toInt < 9223372036854775800) ∨
      (-10 < size.toInt ∧ size.toInt < 0 ∧ p.width * count.val ≤ maxAlloc) ∨
      (size.toInt ≤ -20 ∧ count.val = 0)) ∧
    (size.toInt = 0 ∨ (size.toInt < 0 ∧ count.val = 0) → ∀ reason, p.flatten [] ≠ .panic reason)

theorem build_ne_panic (golden : Bytes) (endID : Int) (rawLeaves : List PCollection) :
    (∀ reason, build p golden endID rawLeaves ≠ .panic reason) ↔ ∀ reason, p.flatten rawLeaves ≠ .panic reason := by
  unfold build
  cases p.flatten rawLeaves with
  | panic reason => simp
  | error reason => simp
  | ok leaves =>
    simp only [Outcome.bind_ok]
    cases p.createTiles (p.makeDomainLogs (p.keyByDomain leaves)).1 <;> simp [Outcome.ofExcept]

-- No ranges are read exactly where there is nothing to read.
theorem Consecutive.eq_nil_iff {ranges : List (Int × Int)} {endID : Int} (run : Consecutive 0 ranges endID) :
    ranges = [] ↔ endID = 0 := by
  cases ranges with
  | nil => simpa [Consecutive, eq_comm] using run
  | cons r rest =>
    obtain ⟨first, forward, later⟩ := run
    have := later.le
    simp only [reduceCtorEq, false_iff]
    omega

/-- Once the end of the log is known, the ranges and the collections decide. -/
theorem create_resolved (lawful : p.Lawful) {head : Head} {size : Int64} {endID : Int} {golden : Bytes}
    (ended : getLogEnd head size.toInt = .ok (endID, golden)) :
    (∃ fuel outcome ranges, create p head size fuel = some (outcome, ranges) ∧
        (∀ reason, outcome ≠ .panic reason) ∧ Partitions endID ranges) ↔
      Reads p endID (wrap (size.toInt.tdiv 10 + 1)) ∧ (endID = 0 → ∀ reason, p.flatten [] ≠ .panic reason) := by
  simp only [create, ended]
  generalize wrap (size.toInt.tdiv 10 + 1) = batchSize
  constructor
  · rintro ⟨fuel, outcome, ranges, ran, calm, partition⟩
    split at ran
    · obtain ⟨rfl, _⟩ := Prod.mk.inj (Option.some.inj ran)
      exact absurd rfl (calm _)
    next some' =>
      split at ran
      · obtain ⟨rfl, _⟩ := Prod.mk.inj (Option.some.inj ran)
        exact absurd rfl (calm _)
      next room =>
        obtain ⟨read, looped, same⟩ := Option.map_eq_some_iff.mp ran
        obtain ⟨rfl, rfl⟩ := Prod.mk.inj same
        have run := partitions_iff.mp partition
        refine ⟨⟨some', room, fuel, read, looped, run⟩, fun none => ?_⟩
        have empty := run.eq_nil_iff.mpr none
        rw [build_ne_panic, empty] at calm
        exact calm
  · rintro ⟨⟨some', room, fuel, ranges, looped, run⟩, empty⟩
    refine ⟨fuel, _, ranges, by rw [if_neg some', if_neg room, looped]; rfl, ?_, partitions_iff.mpr run⟩
    rw [build_ne_panic]
    by_cases none : endID = 0
    · rw [run.eq_nil_iff.mpr none]
      exact empty none
    · exact lawful.flatten _ (by simpa [run.eq_nil_iff] using none)

/-- The strides of all sizes together. -/
theorem reads_iff (lawful : p.Lawful) (size : Int64) (count : Count) :
    Reads p (if size.toInt < 0 then (count.val : Int) else size.toInt) (wrap (size.toInt.tdiv 10 + 1)) ↔
      (0 ≤ size.toInt ∧ size.toInt < 9223372036854775800) ∨
        (-10 < size.toInt ∧ size.toInt < 0 ∧ p.width * count.val ≤ maxAlloc) ∨
        (size.toInt ≤ -20 ∧ count.val = 0) := by
  have low := size.le_toInt
  have high := size.toInt_lt
  have few := count.property
  rw [batchSize_eq]
  generalize size.toInt = s at low high
  by_cases requested : 0 ≤ s
  · rw [if_pos requested, if_neg (by omega), reads_size p lawful requested high]
    omega
  · rw [if_neg requested, if_pos (by omega)]
    by_cases single : -10 < s
    · rw [show 1 - -s / 10 = 1 by omega, reads_single p (by omega) (by omega)]
      norm_cast
      omega
    · by_cases zero : -20 < s
      · rw [show 1 - -s / 10 = 0 by omega]
        exact iff_of_false (fun reads => reads.1 rfl) (by omega)
      · rw [reads_negative p (by omega) (by omega) (by omega)]
        omega

/-- Create does what it should exactly for the sizes that fit. -/
theorem create_sound_iff (lawful : p.Lawful) (head : Head) (size : Int64) : Sound p head size ↔ Fits p head size := by
  rcases head with reason | ⟨golden, count⟩
  · refine iff_of_true ⟨0, _, [], rfl, fun _ => by simp, _, rfl⟩ ?_
    intro golden count answered
    cases answered
  · by_cases few : (count.val : Int) < size.toInt
    · have ended : getLogEnd (.ok (golden, count)) size.toInt =
          .error (.text "wanted %d leaves but only %d available") := by
        rw [getLogEnd, if_neg (by omega), if_pos few]
      refine iff_of_true ⟨0, _, [], by rw [create, ended], fun _ => by simp, ?_⟩ ?_
      · simp only [if_pos few]
        exact ⟨_, rfl⟩
      · intro golden' count' answered enough
        obtain ⟨-, rfl⟩ := Prod.mk.inj (Except.ok.inj answered)
        exact absurd few enough
    · have ended : getLogEnd (.ok (golden, count)) size.toInt =
          .ok (if size.toInt < 0 then (count.val : Int) else size.toInt, golden) := by
        rw [getLogEnd, if_neg few]
        split <;> rfl
      have resolved := create_resolved p lawful ended
      rw [reads_iff p lawful] at resolved
      have end' : (if size.toInt < 0 then (count.val : Int) else size.toInt) = 0 ↔
          size.toInt = 0 ∨ (size.toInt < 0 ∧ count.val = 0) := by
        split <;> omega
      rw [end'] at resolved
      simp only [Sound, if_neg few]
      rw [resolved]
      constructor
      · rintro fits golden' count' answered -
        obtain ⟨-, rfl⟩ := Prod.mk.inj (Except.ok.inj answered)
        exact fits
      · intro fits
        exact fits golden count rfl few

-- Collections that are the ranges they were read from.
def rangePipeline : Pipeline (List (Int × Int)) where
  width := 8
  entries start stop := [(start, stop)]
  flatten cols := if cols = [] then .panic "no input PCollections" else .ok cols.flatten
  keyByDomain col := col
  makeDomainLogs col := (col, col)
  createTiles col := .ok col

theorem rangePipeline_lawful : rangePipeline.Lawful :=
  ⟨by decide, fun cols some' reason => by simp [rangePipeline, some']⟩

theorem create_sound_at_25 : rangePipeline.Lawful ∧ Sound rangePipeline (.ok ([7], ⟨30, by decide⟩)) 25 := by
  refine ⟨rangePipeline_lawful, (create_sound_iff rangePipeline rangePipeline_lawful _ _).mpr ?_⟩
  rintro golden count - -
  refine ⟨.inl (by decide), ?_⟩
  rintro (zero | ⟨negative, -⟩)
  · exact absurd zero (by decide)
  · exact absurd negative (by decide)

-- The whole of a log with one entry, asked for as -10 entries.
theorem whole_log_panics :
    (∀ fuel, create rangePipeline (.ok ([7], ⟨1, by decide⟩)) (-10) fuel =
        some (.panic "integer divide by zero", [])) ∧
      ¬ Sound rangePipeline (.ok ([7], ⟨1, by decide⟩)) (-10) := by
  have divided (fuel : Nat) : create rangePipeline (.ok ([7], ⟨1, by decide⟩)) (-10) fuel =
      some (.panic "integer divide by zero", []) := rfl
  refine ⟨divided, ?_⟩
  rintro ⟨fuel, outcome, ranges, ran, calm, -⟩
  rw [divided] at ran
  obtain ⟨rfl, -⟩ := Prod.mk.inj (Option.some.inj ran)
  exact calm _ rfl

end Create

end CtMap
