import TrillianServerless.Serverless.GcsSequence

set_option autoImplicit false

namespace Serverless

namespace Gcs

open Go Merkle

section Index

variable {h : LogHasher} {σ : System} {c : SequenceCall} {n : Nat} {b : Objects} {pc : Pc} {after : Stepped}

def IndexKept (b b' : Objects) : Prop := ∀ g raw, b.lookup (.leaf g) = some raw → b'.lookup (.leaf g) = some raw

-- A call writes no index but that of its own leaf,
theorem Does.others (does : Does c n b pc after) {g : Bytes} (other : g ≠ c.leafhash) :
    after.bucket.lookup (.leaf g) = b.lookup (.leaf g) := by
  cases does with
  | looks | skips | fails => rfl
  | takes | forgets | takesAndFails => exact AList.lookup_insert_ne (by simp)
  | names | namesAndFails => exact AList.lookup_insert_ne (by simpa using other)

-- and writes it last, if there was none when it began.
theorem Does.goes (does : Does c n b pc after) {next : Pc} (goes : after.next = .goto next) :
    after.bucket.lookup (.leaf c.leafhash) = b.lookup (.leaf c.leafhash) ∧
      (pc = .readLeaf → b.lookup (.leaf c.leafhash) = none) := by
  cases does with
  | looks _ _ missing => exact ⟨rfl, missing⟩
  | skips later => exact ⟨rfl, fun first => absurd first later⟩
  | fails => cases goes
  | takes | forgets => exact ⟨AList.lookup_insert_ne (by simp), fun first => by cases first⟩
  | takesAndFails | names | namesAndFails => cases goes

theorem Does.kept (does : Does c n b pc after) (unnamed : pc ≠ .readLeaf → b.lookup (.leaf c.leafhash) = none) :
    IndexKept b after.bucket := by
  intro g raw found
  by_cases own : g = c.leafhash
  · subst own
    cases does with
    | looks | skips | fails => exact found
    | takes | forgets | takesAndFails => rw [AList.lookup_insert_ne (by simp), found]
    | names | namesAndFails =>
      rw [unnamed (by simp)] at found
      cases found
  · rw [does.others own, found]

/-- The calls that have found no index are for leaves of different hashes, which have none yet. -/
structure Apart (σ : System) : Prop where
  hashes : ∀ i j n r n' r', σ.instances i = some ⟨n, some r⟩ → σ.instances j = some ⟨n', some r'⟩ →
    r.pc ≠ .readLeaf → r'.pc ≠ .readLeaf → r.call.leafhash = r'.call.leafhash → i = j
  unnamed : ∀ i n r, σ.instances i = some ⟨n, some r⟩ → r.pc ≠ .readLeaf →
    σ.bucket.lookup (.leaf r.call.leafhash) = none

/-- No other call for a leaf of the same hash has found that there is no index, and is still running. -/
def Clear (σ : System) (i : Nat) : Prop :=
  ∀ n r, σ.instances i = some ⟨n, some r⟩ → r.pc = .readLeaf → ∀ j n' r', j ≠ i →
    σ.instances j = some ⟨n', some r'⟩ → r'.pc ≠ .readLeaf → r'.call.leafhash ≠ r.call.leafhash

def Exclusive (h : LogHasher) : System → List Event → Prop
  | _, [] => True
  | σ, event :: rest => (∀ i fault, event = .step i fault → Clear σ i) ∧ Exclusive h (σ.step h event) rest

/-- Another instance is past its look for the index of this hash. -/
def Rival (σ : System) (i : Nat) (g : Bytes) : Prop :=
  ∃ j n r, j ≠ i ∧ σ.instances j = some ⟨n, some r⟩ ∧ r.pc ≠ .readLeaf ∧ r.call.leafhash = g

theorem Apart.update (apart : Apart σ) {i : Nat} {one : Option Instance} {b : Objects}
    {returned : List (SequenceCall × SequenceResult)}
    (others : ∀ g, Rival σ i g → b.lookup (.leaf g) = σ.bucket.lookup (.leaf g))
    (own : ∀ n r, one = some ⟨n, some r⟩ → r.pc ≠ .readLeaf →
      b.lookup (.leaf r.call.leafhash) = none ∧ ¬ Rival σ i r.call.leafhash) :
    Apart (σ.update i one b returned) where
  hashes j k n r n' r' found found' past past' same := by
    rcases update_cases found with ⟨rfl, new⟩ | ⟨other, old⟩ <;>
      rcases update_cases found' with ⟨rfl, new'⟩ | ⟨other', old'⟩
    · rfl
    · exact absurd ⟨k, n', r', other', old', past', same.symm⟩ (own n r new past).2
    · exact absurd ⟨j, n, r, other, old, past, same⟩ (own n' r' new' past').2
    · exact apart.hashes j k n r n' r' old old' past past' same
  unnamed j n r found past := by
    rcases update_cases found with ⟨rfl, new⟩ | ⟨other, old⟩
    · exact (own n r new past).1
    · exact (others _ ⟨j, n, r, other, old, past, rfl⟩).trans (apart.unnamed j n r old past)

theorem Apart.initial : Apart .initial where
  hashes i j n r n' r' found := by cases found
  unnamed i n r found := by cases found

theorem Apart.no_rival (apart : Apart σ) {i : Nat} (clear : Clear σ i) {n : Nat} {r : Running}
    (found : σ.instances i = some ⟨n, some r⟩) : ¬ Rival σ i r.call.leafhash := by
  rintro ⟨j, n', r', other, found', past, same⟩
  by_cases first : r.pc = .readLeaf
  · exact clear n r found first j n' r' other found' past same
  · exact other (apart.hashes j i n' r' n r found' found past first same)

theorem Apart.stepInstance (apart : Apart σ) {i : Nat} (clear : Clear σ i) {n : Nat} {r : Running}
    (found : σ.instances i = some ⟨n, some r⟩) (fault : Fault) :
    Apart (σ.stepInstance i n r fault) ∧ IndexKept σ.bucket (σ.stepInstance i n r fault).bucket := by
  have does := @sequenceStep_does r.call n σ.bucket fault r.pc
  have alone := apart.no_rival clear found
  have unnamed := apart.unnamed i n r found
  have others : ∀ g, Rival σ i g → (sequenceStep r.call n σ.bucket fault r.pc).bucket.lookup (.leaf g) =
      σ.bucket.lookup (.leaf g) := by
    intro g rival
    refine does.others ?_
    rintro rfl
    exact alone rival
  unfold System.stepInstance
  dsimp only
  split
  next next goes =>
    refine ⟨apart.update others fun m r' same past => ?_, does.kept unnamed⟩
    cases same
    obtain ⟨kept, missing⟩ := does.goes goes
    refine ⟨kept.trans ?_, alone⟩
    by_cases first : r.pc = .readLeaf
    · exact missing first
    · exact unnamed first
  next result ends => exact ⟨apart.update others fun m r' same => by simp at same, does.kept unnamed⟩

theorem Apart.quiet (apart : Apart σ) {i : Nat} {one : Option Instance}
    (first : ∀ n r, one = some ⟨n, some r⟩ → r.pc = .readLeaf) : Apart (σ.update i one σ.bucket []) :=
  apart.update (fun _ _ => rfl) fun n r same past => absurd (first n r same) past

theorem Apart.step (apart : Apart σ) (event : Event) (clear : ∀ i fault, event = .step i fault → Clear σ i) :
    Apart (σ.step h event) ∧ IndexKept σ.bucket (σ.step h event).bucket := by
  have unchanged : Apart σ ∧ IndexKept σ.bucket σ.bucket := ⟨apart, fun _ _ found => found⟩
  cases event with
  | setNextSeq i size =>
    simp only [System.step]
    split
    · split
      · exact ⟨apart.quiet (by simp), fun _ _ found => found⟩
      · exact unchanged
    · exact unchanged
  | call i leaf =>
    simp only [System.step]
    split
    · refine ⟨apart.quiet fun m r same => ?_, fun _ _ found => found⟩
      cases same
      rfl
    · exact unchanged
  | step i fault =>
    simp only [System.step]
    split
    next n r found => exact apart.stepInstance (clear i fault rfl) found fault
    · exact unchanged
  | stop i => exact ⟨apart.quiet (by simp), fun _ _ found => found⟩

theorem Apart.run (apart : Apart σ) {events : List Event} (exclusive : Exclusive h σ events) :
    Apart (events.foldl (System.step h) σ) ∧ IndexKept σ.bucket (events.foldl (System.step h) σ).bucket := by
  induction events generalizing σ with
  | nil => exact ⟨apart, fun _ _ found => found⟩
  | cons event rest ih =>
    obtain ⟨clear, later⟩ := exclusive
    obtain ⟨after, kept⟩ := apart.step (h := h) event clear
    obtain ⟨final, kept'⟩ := ih after later
    exact ⟨final, fun g raw found => kept' g raw (kept g raw found)⟩

theorem Exclusive.append {events more : List Event} (exclusive : Exclusive h σ (events ++ more)) :
    Exclusive h σ events ∧ Exclusive h (events.foldl (System.step h) σ) more := by
  induction events generalizing σ with
  | nil => exact ⟨trivial, exclusive⟩
  | cons event rest ih =>
    obtain ⟨first, later⟩ := ih exclusive.2
    exact ⟨⟨exclusive.1, first⟩, later⟩

end Index

section Results

variable (h : LogHasher)

structure WellFormed (σ : System) : Prop where
  contiguous : ∃ m, ∀ k, σ.bucket.lookup (.seq k) ≠ none ↔ k < m
  distinct : (numbers σ.returned).Nodup
  holds : ∀ c s, (c, (s, none)) ∈ σ.returned → σ.bucket.lookup (.seq s) = some c.leaf
  index : IndexOk h σ.bucket

/-- Whatever the instances do, numbers are given once and in order, and an index leads to its leaf. -/
theorem run_wellFormed (events more : List Event) :
    WellFormed h (.run h (events ++ more)) ∧
      SeqKept (System.run h events).bucket (System.run h (events ++ more)).bucket := by
  obtain ⟨first, safe, -⟩ := (Safe.initial h).run events
  obtain ⟨entries, safe', kept⟩ := safe.run more
  rw [← List.foldl_append] at safe' kept
  exact ⟨⟨⟨_, safe'.sequences.lt_iff⟩, safe'.once, safe'.returned, safe'.index⟩, kept⟩

/-- ScanSequenced finds every entry from the given number on, whatever the instances have done. -/
theorem run_scanned (events : List Event) : ∃ entries : List Bytes,
    (∀ k, (System.run h events).bucket.lookup (.seq k) = entries[k]?) ∧
      ∀ first, (System.run h events).bucket.scan first = entries.drop first := by
  obtain ⟨entries, safe, -⟩ := (Safe.initial h).run events
  refine ⟨entries, fun k => ?_, safe.sequences.scan⟩
  by_cases bound : k < entries.length
  · exact (safe.sequences.seqs k bound).trans (List.getElem?_eq_getElem bound).symm
  · exact (safe.sequences.free k (by omega)).trans (List.getElem?_eq_none (by omega)).symm

/-- In every run in which no call looks for the index of its leaf while another one of the same hash has found none
and is still running, the log stays well formed, and neither a sequence object nor an index ever changes. -/
theorem sequencers_keep_log (events more : List Event) (exclusive : Exclusive h .initial (events ++ more)) :
    WellFormed h (.run h (events ++ more)) ∧
      SeqKept (System.run h events).bucket (System.run h (events ++ more)).bucket ∧
      IndexKept (System.run h events).bucket (System.run h (events ++ more)).bucket := by
  obtain ⟨wellFormed, kept⟩ := run_wellFormed h events more
  obtain ⟨first, second⟩ := exclusive.append
  have later := (((Apart.initial).run first).1.run second).2
  rw [← List.foldl_append] at later
  exact ⟨wellFormed, kept, later⟩

-- Each hash has an instance that alone is given the leaves that have it.
def Divided (owner : Bytes → Nat) (σ : System) : Prop :=
  ∀ i n r, σ.instances i = some ⟨n, some r⟩ → owner r.call.leafhash = i

theorem Divided.update {owner : Bytes → Nat} {σ : System} (divided : Divided owner σ) {i : Nat}
    {one : Option Instance} {b : Objects} {returned : List (SequenceCall × SequenceResult)}
    (own : ∀ n r, one = some ⟨n, some r⟩ → owner r.call.leafhash = i) : Divided owner (σ.update i one b returned) := by
  intro j n r found
  rcases update_cases found with ⟨rfl, new⟩ | ⟨-, old⟩
  · exact own n r new
  · exact divided j n r old

theorem Divided.step {owner : Bytes → Nat} {σ : System} (divided : Divided owner σ) (event : Event)
    (owned : ∀ i leaf, event = .call i leaf → owner (h.hashLeaf leaf) = i) : Divided owner (σ.step h event) := by
  cases event with
  | setNextSeq i size =>
    simp only [System.step]
    split
    · split
      · exact divided.update (by simp)
      · exact divided
    · exact divided
  | call i leaf =>
    simp only [System.step]
    split
    · refine divided.update fun n r same => ?_
      cases same
      exact owned i leaf rfl
    · exact divided
  | step i fault =>
    simp only [System.step]
    split
    next n r found =>
      unfold System.stepInstance
      dsimp only
      split
      · refine divided.update fun m r' same => ?_
        cases same
        exact divided i n r found
      · exact divided.update (by simp)
    · exact divided
  | stop i => exact divided.update (by simp)

/-- Instances that divide the hashes among them look for no index that another one is about to write. -/
theorem Divided.exclusive {owner : Bytes → Nat} {σ : System} (divided : Divided owner σ) {events : List Event}
    (owned : ∀ i leaf, .call i leaf ∈ events → owner (h.hashLeaf leaf) = i) : Exclusive h σ events := by
  induction events generalizing σ with
  | nil => trivial
  | cons event rest ih =>
    refine ⟨?_, ih (divided.step h event ?_) fun i leaf member => owned i leaf (by simp [member])⟩
    · rintro i fault - n r found - j n' r' other found' - same
      have ours := divided i n r found
      rw [← same, divided j n' r' found'] at ours
      exact other ours
    · rintro i leaf rfl
      exact owned i leaf (by simp)

-- Two instances start at the same number and take turns, and the second one has to go on to the next number.
def turns : List Event :=
  [.setNextSeq 0 0, .setNextSeq 1 0, .call 0 [1], .call 1 [2]] ++
    (List.replicate 7 [.step 0 .none, .step 1 .none]).flatten

-- The first one is given its leaf again, and the second one a new leaf.
def moreTurns : List Event :=
  [.call 0 [1], .call 1 [3]] ++ (List.replicate 5 [.step 1 .none, .step 0 .none]).flatten

def turnOf (leafhash : Bytes) : Nat := if leafhash = LogHasher.padded.hashLeaf [1] then 0 else 1

theorem sequencers_keep_log_interleaved :
    Exclusive LogHasher.padded .initial (turns ++ moreTurns) ∧
      WellFormed LogHasher.padded (.run LogHasher.padded (turns ++ moreTurns)) ∧
      numbers (System.run LogHasher.padded turns).returned = [0, 1] ∧
      numbers (System.run LogHasher.padded (turns ++ moreTurns)).returned = [0, 1, 2] ∧
      (System.run LogHasher.padded (turns ++ moreTurns)).bucket.lookup (.leaf (LogHasher.padded.hashLeaf [2])) =
        some (formatUint 16 1) := by
  have divided : Divided turnOf .initial := fun i n r found => by cases found
  have exclusive : Exclusive LogHasher.padded .initial (turns ++ moreTurns) := by
    refine divided.exclusive LogHasher.padded fun i leaf member => ?_
    simp [turns, moreTurns] at member
    obtain ⟨rfl, rfl⟩ | ⟨rfl, rfl⟩ | ⟨rfl, rfl⟩ | ⟨rfl, rfl⟩ := member <;> decide
  obtain ⟨wellFormed, -, kept⟩ := sequencers_keep_log LogHasher.padded turns moreTurns exclusive
  exact ⟨exclusive, wellFormed, by decide +kernel, by decide +kernel, kept _ _ (by decide +kernel)⟩

-- Two instances look for the index of the same leaf before one of them writes it.
def race : List Event :=
  [.setNextSeq 0 0, .setNextSeq 1 0, .call 0 [1], .call 1 [1], .step 0 .none, .step 1 .none, .step 0 .none,
    .step 0 .none, .step 0 .none]

/-- The second instance numbers the leaf again and overwrites its index. -/
theorem raced_index_changes :
    (System.run LogHasher.padded race).bucket.lookup (.leaf (LogHasher.padded.hashLeaf [1])) =
        some (formatUint 16 0) ∧
      (System.run LogHasher.padded (race ++ List.replicate 4 (.step 1 .none))).bucket.lookup
        (.leaf (LogHasher.padded.hashLeaf [1])) = some (formatUint 16 1) ∧
      ¬ IndexKept (System.run LogHasher.padded race).bucket
        (System.run LogHasher.padded (race ++ List.replicate 4 (.step 1 .none))).bucket := by
  have first : (System.run LogHasher.padded race).bucket.lookup (.leaf (LogHasher.padded.hashLeaf [1])) =
      some (formatUint 16 0) := by
    decide +kernel
  have second : (System.run LogHasher.padded (race ++ List.replicate 4 (.step 1 .none))).bucket.lookup
      (.leaf (LogHasher.padded.hashLeaf [1])) = some (formatUint 16 1) := by
    decide +kernel
  refine ⟨first, second, fun kept => ?_⟩
  have same := kept _ _ first
  rw [second] at same
  exact absurd same (by decide)

end Results

end Gcs

end Serverless
