import TrillianServerless.Serverless.Objects
import TrillianServerless.Serverless.Sequence

set_option autoImplicit false

namespace Serverless

namespace Gcs

open Go Merkle

-- What may come of a request: an answer; an error, of a request that was not done or whose answer was lost; or the
-- answer to a second try of the client library's, after one whose answer was lost.
inductive Fault where
  | none
  | failed
  | lost
  | repeated
  deriving DecidableEq, Repr

def Fault.isError : Fault → Bool
  | .failed | .lost => true
  | .none | .repeated => false

def Fault.isDone : Fault → Bool
  | .failed => false
  | .none | .lost | .repeated => true

-- The next request of a call of Sequence.
inductive Pc where
  | readLeaf
  | attrs
  | writeSeq
  | writeLeaf (seq : Nat)
  deriving DecidableEq, Repr

inductive Next where
  | goto (pc : Pc)
  | finish (result : SequenceResult)
  deriving DecidableEq, Repr

structure Stepped where
  bucket : Objects
  nextSeq : Nat
  next : Next

section Steps

variable (c : SequenceCall) (n : Nat) (b : Objects) (fault : Fault)

def readLeaf : Stepped :=
  if fault.isError then ⟨b, n, .finish (0, some (.text "googleapi: Error"))⟩
  else
    match b.lookup (.leaf c.leafhash) with
    | none => ⟨b, n, .goto .attrs⟩
    | some seqString =>
      match parseUint 16 64 seqString with
      | none => ⟨b, n, .finish (0, some (.text "strconv.ParseUint"))⟩
      | some origSeq => ⟨b, n, .finish (origSeq, some errDupeLeaf)⟩

def attrs : Stepped :=
  if fault.isError then ⟨b, n, .finish (0, some (.text "couldn't get attr of object %s: %q"))⟩
  else if (b.lookup (.seq n)).isSome then ⟨b, (n + 1) % 2 ^ 64, .goto .attrs⟩
  else ⟨b, n, .goto .writeSeq⟩

-- Only a number that is not in use is written. A second try finds what the first has written.
def writeSeq : Stepped :=
  let used := (b.lookup (.seq n)).isSome
  let b' := if fault.isDone && !used then b.insert (.seq n) c.leaf else b
  if fault.isError then ⟨b', n, .finish (0, some (.text "couldn't close writer for object %q: %v"))⟩
  else if used || fault = .repeated then ⟨b', (n + 1) % 2 ^ 64, .goto .attrs⟩
  else ⟨b', n, .goto (.writeLeaf n)⟩

def writeLeaf (seq : Nat) : Stepped :=
  let b' := if fault.isDone then b.insert (.leaf c.leafhash) (formatUint 16 seq) else b
  if fault.isError then ⟨b', n, .finish (0, some (.text "couldn't close writer for object %q"))⟩
  else ⟨b', n, .finish (seq, none)⟩

def sequenceStep : Pc → Stepped
  | .readLeaf => readLeaf c n b fault
  | .attrs => attrs n b fault
  | .writeSeq => writeSeq c n b fault
  | .writeLeaf seq => writeLeaf c n b fault seq

end Steps

section System

variable (h : LogHasher)

structure Running where
  call : SequenceCall
  pc : Pc
  deriving DecidableEq, Repr

-- A Client of its own, whose functions are called one at a time.
structure Instance where
  nextSeq : Nat
  running : Option Running
  deriving DecidableEq, Repr

/-- The sequencers of one bucket, and the calls that have returned, in order. -/
structure System where
  bucket : Objects
  instances : Nat → Option Instance
  returned : List (SequenceCall × SequenceResult)

inductive Event where
  | setNextSeq (i size : Nat)
  | call (i : Nat) (leaf : Bytes)
  | step (i : Nat) (fault : Fault)
  | stop (i : Nat)

-- SetNextSeq is given the size of a checkpoint, whose entries are all sequenced.
def Loadable (b : Objects) (size : Nat) : Prop := ∀ k < size, (b.lookup (.seq k)).isSome = true

instance (b : Objects) (size : Nat) : Decidable (Loadable b size) := inferInstanceAs (Decidable (∀ k < size, _))

namespace System

def initial : System := ⟨∅, fun _ => none, []⟩

-- An instance, the bucket and the returned calls change together.
def update (σ : System) (i : Nat) (one : Option Instance) (b : Objects)
    (returned : List (SequenceCall × SequenceResult)) : System :=
  ⟨b, Function.update σ.instances i one, σ.returned ++ returned⟩

def stepInstance (σ : System) (i n : Nat) (r : Running) (fault : Fault) : System :=
  let after := sequenceStep r.call n σ.bucket fault r.pc
  match after.next with
  | .goto pc => σ.update i (some ⟨after.nextSeq, some { r with pc := pc }⟩) after.bucket []
  | .finish result => σ.update i (some ⟨after.nextSeq, none⟩) after.bucket [(r.call, result)]

def step (σ : System) : Event → System
  | .setNextSeq i size =>
    match σ.instances i with
    | none => if Loadable σ.bucket size then σ.update i (some ⟨size, none⟩) σ.bucket [] else σ
    | some _ => σ
  | .call i leaf =>
    match σ.instances i with
    | some ⟨n, none⟩ => σ.update i (some ⟨n, some ⟨⟨h.hashLeaf leaf, leaf⟩, .readLeaf⟩⟩) σ.bucket []
    | _ => σ
  | .step i fault =>
    match σ.instances i with
    | some ⟨n, some r⟩ => σ.stepInstance i n r fault
    | _ => σ
  | .stop i => σ.update i none σ.bucket []

def run (events : List Event) : System := events.foldl (step h) initial

end System

end System

section Inversion

variable {c : SequenceCall} {n : Nat} {b : Objects} {fault : Fault}

/-- What a request can do: nothing to the bucket; give the leaf a number that is not in use; or name the number. -/
inductive Does (c : SequenceCall) (n : Nat) (b : Objects) : Pc → Stepped → Prop
  | looks {pc : Pc} (next : Pc) (numberless : ∀ s, next ≠ .writeLeaf s)
      (missing : pc = .readLeaf → b.lookup (.leaf c.leafhash) = none) : Does c n b pc ⟨b, n, .goto next⟩
  | skips {pc : Pc} (later : pc ≠ .readLeaf) (used : b.lookup (.seq n) ≠ none) :
      Does c n b pc ⟨b, (n + 1) % 2 ^ 64, .goto .attrs⟩
  | fails {pc : Pc} (s : Nat) (reason : GoError) : Does c n b pc ⟨b, n, .finish (s, some reason)⟩
  | takes (free : b.lookup (.seq n) = none) :
      Does c n b .writeSeq ⟨b.insert (.seq n) c.leaf, n, .goto (.writeLeaf n)⟩
  | forgets (free : b.lookup (.seq n) = none) :
      Does c n b .writeSeq ⟨b.insert (.seq n) c.leaf, (n + 1) % 2 ^ 64, .goto .attrs⟩
  | takesAndFails (free : b.lookup (.seq n) = none) (reason : GoError) :
      Does c n b .writeSeq ⟨b.insert (.seq n) c.leaf, n, .finish (0, some reason)⟩
  | names (s : Nat) : Does c n b (.writeLeaf s)
      ⟨b.insert (.leaf c.leafhash) (formatUint 16 s), n, .finish (s, none)⟩
  | namesAndFails (s : Nat) (reason : GoError) : Does c n b (.writeLeaf s)
      ⟨b.insert (.leaf c.leafhash) (formatUint 16 s), n, .finish (0, some reason)⟩

theorem readLeaf_does : Does c n b .readLeaf (readLeaf c n b fault) := by
  unfold readLeaf
  split
  · exact .fails _ _
  · split
    next missing => exact .looks _ (by simp) fun _ => missing
    · split
      · exact .fails _ _
      · exact .fails _ _

theorem attrs_does : Does c n b .attrs (attrs n b fault) := by
  unfold attrs
  split
  · exact .fails _ _
  · split
    next used => exact .skips (by simp) (Option.isSome_iff_ne_none.mp used)
    next => exact .looks _ (by simp) (by simp)

theorem writeSeq_does : Does c n b .writeSeq (writeSeq c n b fault) := by
  unfold writeSeq
  by_cases used : b.lookup (.seq n) = none
  · cases fault with
    | none => simpa [used, Fault.isDone, Fault.isError] using Does.takes used
    | failed => simpa [used, Fault.isDone, Fault.isError] using Does.fails 0 _
    | lost => simpa [used, Fault.isDone, Fault.isError] using Does.takesAndFails used _
    | repeated => simpa [used, Fault.isDone, Fault.isError] using Does.forgets used
  · have some' : (b.lookup (.seq n)).isSome = true := Option.isSome_iff_ne_none.mpr used
    cases fault with
    | none | repeated => simpa [some', Fault.isDone, Fault.isError] using Does.skips (by simp) used
    | failed | lost => simpa [some', Fault.isDone, Fault.isError] using Does.fails 0 _

theorem writeLeaf_does {s : Nat} : Does c n b (.writeLeaf s) (writeLeaf c n b fault s) := by
  unfold writeLeaf
  cases fault with
  | none | repeated => exact .names s
  | failed => exact .fails 0 _
  | lost => exact .namesAndFails s _

theorem sequenceStep_does (pc : Pc) : Does c n b pc (sequenceStep c n b fault pc) := by
  cases pc with
  | readLeaf => exact readLeaf_does
  | attrs => exact attrs_does
  | writeSeq => exact writeSeq_does
  | writeLeaf s => exact writeLeaf_does

end Inversion

section Safety

variable {h : LogHasher} {σ : System} {entries : List Bytes}

-- The numbers of the calls that returned no error.
def numbers (returned : List (SequenceCall × SequenceResult)) : List Nat :=
  returned.filterMap fun call => if call.2.2 = none then some call.2.1 else none

theorem mem_numbers {returned : List (SequenceCall × SequenceResult)} {s : Nat} :
    s ∈ numbers returned ↔ ∃ c, (c, (s, none)) ∈ returned := by
  simp only [numbers, List.mem_filterMap, Prod.exists]
  constructor
  · rintro ⟨c, k, err, member, same⟩
    split at same
    next fine =>
      obtain rfl := Option.some.inj same
      obtain rfl : err = none := fine
      exact ⟨c, member⟩
    · cases same
  · rintro ⟨c, member⟩
    exact ⟨c, s, none, member, rfl⟩

/-- The instance has written the number and not named it yet. -/
def Holds (σ : System) (i s : Nat) : Prop :=
  ∃ n r, σ.instances i = some ⟨n, some r⟩ ∧ r.pc = .writeLeaf s

/-- No call but one of the instance itself can return the number. -/
def Own (σ : System) (i s : Nat) : Prop := (∀ j, Holds σ j s → j = i) ∧ s ∉ numbers σ.returned

def IndexOk (h : LogHasher) (b : Objects) : Prop :=
  ∀ g raw, b.lookup (.leaf g) = some raw →
    ∃ k x, raw = formatUint 16 k ∧ b.lookup (.seq k) = some x ∧ h.hashLeaf x = g

structure Safe (h : LogHasher) (σ : System) (entries : List Bytes) : Prop where
  sequences : σ.bucket.Sequences entries
  index : IndexOk h σ.bucket
  hints : ∀ i one, σ.instances i = some one → one.nextSeq ≤ entries.length
  hashes : ∀ i n r, σ.instances i = some ⟨n, some r⟩ → r.call.leafhash = h.hashLeaf r.call.leaf
  holds : ∀ i n r s, σ.instances i = some ⟨n, some r⟩ → r.pc = .writeLeaf s →
    σ.bucket.lookup (.seq s) = some r.call.leaf ∧ Own σ i s
  once : (numbers σ.returned).Nodup
  returned : ∀ c s, (c, (s, none)) ∈ σ.returned → σ.bucket.lookup (.seq s) = some c.leaf

-- A number that is not in use yet is nobody's.
theorem Safe.own_new (safe : Safe h σ entries) (i : Nat) : Own σ i entries.length := by
  have unused := safe.sequences.free entries.length (Nat.le_refl _)
  constructor
  · rintro j ⟨n, r, found, pc⟩
    rw [(safe.holds j n r _ found pc).1] at unused
    cases unused
  · intro member
    obtain ⟨c, there⟩ := mem_numbers.mp member
    rw [safe.returned c _ there] at unused
    cases unused

-- No sequence object is lost or changed.
def SeqKept (b b' : Objects) : Prop := ∀ k x, b.lookup (.seq k) = some x → b'.lookup (.seq k) = some x

/-- What one instance may do, all else being as it was. -/
structure Change (h : LogHasher) (σ : System) (i : Nat) (one : Option Instance) (b : Objects)
    (returned : List (SequenceCall × SequenceResult)) (entries : List Bytes) : Prop where
  sequences : b.Sequences entries
  kept : SeqKept σ.bucket b
  index : IndexOk h b
  hint : ∀ new, one = some new → new.nextSeq ≤ entries.length
  hash : ∀ n r, one = some ⟨n, some r⟩ → r.call.leafhash = h.hashLeaf r.call.leaf
  holds : ∀ n r s, one = some ⟨n, some r⟩ → r.pc = .writeLeaf s →
    b.lookup (.seq s) = some r.call.leaf ∧ Own σ i s ∧ returned = []
  once : (numbers returned).Nodup
  returned : ∀ c s, (c, (s, none)) ∈ returned → b.lookup (.seq s) = some c.leaf ∧ Own σ i s

variable {i : Nat} {one : Option Instance} {b : Objects} {returned : List (SequenceCall × SequenceResult)}
  {entries' : List Bytes}

theorem update_cases {j : Nat} {new : Instance} (found : (σ.update i one b returned).instances j = some new) :
    j = i ∧ one = some new ∨ j ≠ i ∧ σ.instances j = some new := by
  by_cases own : j = i
  · subst own
    exact .inl ⟨rfl, by simpa [System.update] using found⟩
  · exact .inr ⟨own, by simpa [System.update, own] using found⟩

theorem numbers_append (left right : List (SequenceCall × SequenceResult)) :
    numbers (left ++ right) = numbers left ++ numbers right :=
  List.filterMap_append

theorem Change.own_other (change : Change h σ i one b returned entries') {j s : Nat} (other : j ≠ i)
    (holding : Holds σ j s) (own : Own σ j s) : Own (σ.update i one b returned) j s := by
  constructor
  · rintro k ⟨n, r, found, pc⟩
    rcases update_cases found with ⟨rfl, new⟩ | ⟨-, old⟩
    · exact absurd ((change.holds n r s new pc).2.1.1 j holding) other
    · exact own.1 k ⟨n, r, old, pc⟩
  · intro member
    rw [System.update, numbers_append, List.mem_append] at member
    rcases member with old | new
    · exact own.2 old
    · obtain ⟨c, there⟩ := mem_numbers.mp new
      exact other ((change.returned c s there).2.1 j holding)

theorem Change.safe (safe : Safe h σ entries) (change : Change h σ i one b returned entries')
    (grows : entries.length ≤ entries'.length) : Safe h (σ.update i one b returned) entries' where
  sequences := change.sequences
  index := change.index
  hints j new found := by
    rcases update_cases found with ⟨-, new⟩ | ⟨-, old⟩
    · exact change.hint _ new
    · exact Nat.le_trans (safe.hints j _ old) grows
  hashes j n r found := by
    rcases update_cases found with ⟨-, new⟩ | ⟨-, old⟩
    · exact change.hash n r new
    · exact safe.hashes j n r old
  holds j n r s found pc := by
    rcases update_cases found with ⟨rfl, new⟩ | ⟨other, old⟩
    · obtain ⟨there, own, rfl⟩ := change.holds n r s new pc
      refine ⟨there, fun k holding => ?_, by simpa [System.update] using own.2⟩
      obtain ⟨n', r', found', pc'⟩ := holding
      rcases update_cases found' with ⟨same, -⟩ | ⟨-, old⟩
      · exact same
      · exact own.1 k ⟨n', r', old, pc'⟩
    · obtain ⟨there, own⟩ := safe.holds j n r s old pc
      exact ⟨change.kept s _ there, change.own_other other ⟨n, r, old, pc⟩ own⟩
  once := by
    rw [System.update, numbers_append]
    refine List.Nodup.append safe.once change.once fun s old new => ?_
    obtain ⟨c, there⟩ := mem_numbers.mp new
    exact (change.returned c s there).2.2 old
  returned c s member := by
    rcases List.mem_append.mp member with old | new
    · exact change.kept s _ (safe.returned c s old)
    · exact (change.returned c s new).1

end Safety

section Run

variable {h : LogHasher} {σ : System} {entries : List Bytes} {i : Nat}

theorem IndexOk.insert_seq {b : Objects} (index : IndexOk h b) {n : Nat} (free : b.lookup (.seq n) = none)
    (x : Bytes) : IndexOk h (b.insert (.seq n) x) := by
  intro g raw found
  rw [AList.lookup_insert_ne (by simp)] at found
  obtain ⟨k, y, text, there, hashed⟩ := index g raw found
  refine ⟨k, y, text, ?_, hashed⟩
  rw [AList.lookup_insert_ne ?_, there]
  rintro same
  rw [Path.seq.injEq] at same
  rw [same, free] at there
  cases there

theorem IndexOk.insert_leaf {b : Objects} (index : IndexOk h b) {c : SequenceCall} {s : Nat}
    (there : b.lookup (.seq s) = some c.leaf) (hashed : c.leafhash = h.hashLeaf c.leaf) :
    IndexOk h (b.insert (.leaf c.leafhash) (formatUint 16 s)) := by
  intro g raw found
  by_cases own : g = c.leafhash
  · subst own
    rw [AList.lookup_insert] at found
    exact ⟨s, c.leaf, (Option.some.inj found).symm, by rw [AList.lookup_insert_ne (by simp), there], hashed.symm⟩
  · rw [AList.lookup_insert_ne (by simpa using own)] at found
    obtain ⟨k, y, text, there, hashed⟩ := index g raw found
    exact ⟨k, y, text, by rw [AList.lookup_insert_ne (by simp), there], hashed⟩

theorem seqKept_insert_seq {b : Objects} {n : Nat} (free : b.lookup (.seq n) = none) (x : Bytes) :
    SeqKept b (b.insert (.seq n) x) := by
  intro k y found
  rw [AList.lookup_insert_ne ?_, found]
  intro same
  rw [Path.seq.injEq] at same
  rw [same, free] at found
  cases found

theorem seqKept_insert_leaf (b : Objects) (g raw : Bytes) : SeqKept b (b.insert (.leaf g) raw) := by
  intro k y found
  rw [AList.lookup_insert_ne (by simp), found]

variable {one : Option Instance} {returned : List (SequenceCall × SequenceResult)}

theorem not_numbered (errors : numbers returned = []) {c : SequenceCall} {s : Nat} : (c, (s, none)) ∉ returned := by
  intro member
  have found : s ∈ numbers returned := mem_numbers.mpr ⟨c, member⟩
  rw [errors] at found
  cases found

-- The bucket is left alone,
theorem Safe.quiet (safe : Safe h σ entries) (hint : ∀ new, one = some new → new.nextSeq ≤ entries.length)
    (hash : ∀ n r, one = some ⟨n, some r⟩ → r.call.leafhash = h.hashLeaf r.call.leaf)
    (numberless : ∀ n r s, one = some ⟨n, some r⟩ → r.pc ≠ .writeLeaf s) (errors : numbers returned = []) :
    Change h σ i one σ.bucket returned entries where
  sequences := safe.sequences
  kept _ _ found := found
  index := safe.index
  hint := hint
  hash := hash
  holds n r s same pc := absurd pc (numberless n r s same)
  once := by simp [errors]
  returned _ _ member := absurd member (not_numbered errors)

-- or gets the next entry,
theorem Safe.takes (safe : Safe h σ entries) {leaf : Bytes} {n : Nat} (free : σ.bucket.lookup (.seq n) = none)
    (low : n ≤ entries.length) (hint : ∀ new, one = some new → new.nextSeq ≤ n + 1)
    (hash : ∀ n r, one = some ⟨n, some r⟩ → r.call.leafhash = h.hashLeaf r.call.leaf)
    (holds : ∀ m r s, one = some ⟨m, some r⟩ → r.pc = .writeLeaf s → s = n ∧ r.call.leaf = leaf ∧ returned = [])
    (errors : numbers returned = []) :
    Change h σ i one (σ.bucket.insert (.seq n) leaf) returned (entries ++ [leaf]) := by
  obtain rfl : n = entries.length := by
    have unused := mt (safe.sequences.lt_iff n).mpr (not_not.mpr free)
    omega
  refine ⟨safe.sequences.append (AList.lookup_insert _) fun k other => AList.lookup_insert_ne (by simpa using other),
    seqKept_insert_seq free leaf, safe.index.insert_seq free leaf, fun new same => ?_, hash, fun m r s same pc => ?_,
    by simp [errors], fun _ _ member => absurd member (not_numbered errors)⟩
  · rw [List.length_append]
    exact hint new same
  · obtain ⟨rfl, content, rfl⟩ := holds m r s same pc
    exact ⟨by rw [AList.lookup_insert, content], safe.own_new i, rfl⟩

-- or the name of an entry that is there.
theorem Safe.names (safe : Safe h σ entries) {n : Nat} {r : Running} {s : Nat}
    (found : σ.instances i = some ⟨n, some r⟩) (pc : r.pc = .writeLeaf s) {result : SequenceResult}
    (number : result = (s, none) ∨ ∃ reason, result = (0, some reason)) :
    Change h σ i (some ⟨n, none⟩) (σ.bucket.insert (.leaf r.call.leafhash) (formatUint 16 s)) [(r.call, result)]
      entries := by
  obtain ⟨there, own⟩ := safe.holds i n r s found pc
  refine ⟨safe.sequences.same fun k => AList.lookup_insert_ne (by simp), seqKept_insert_leaf _ _ _,
    safe.index.insert_leaf there (safe.hashes i n r found), fun new same => ?_, fun m r' same => by simp at same,
    fun m r' k same => by simp at same, ?_, fun c k member => ?_⟩
  · obtain rfl := Option.some.inj same
    exact safe.hints i ⟨n, some r⟩ found
  · rcases number with rfl | ⟨reason, rfl⟩
    · simp [numbers]
    · simp [numbers]
  · rcases number with rfl | ⟨reason, rfl⟩
    · obtain ⟨rfl, rfl⟩ : c = r.call ∧ k = s := by simpa using member
      exact ⟨by rw [AList.lookup_insert_ne (by simp), there], own⟩
    · simp at member

theorem Change.steps {b : Objects} {entries' : List Bytes} (safe : Safe h σ entries)
    (change : Change h σ i one b returned entries') (grows : entries.length ≤ entries'.length) :
    ∃ later, Safe h (σ.update i one b returned) later ∧ SeqKept σ.bucket (σ.update i one b returned).bucket :=
  ⟨entries', change.safe safe grows, change.kept⟩

theorem Safe.stepInstance (safe : Safe h σ entries) {n : Nat} {r : Running}
    (found : σ.instances i = some ⟨n, some r⟩) (fault : Fault) :
    ∃ entries', Safe h (σ.stepInstance i n r fault) entries' ∧
      SeqKept σ.bucket (σ.stepInstance i n r fault).bucket := by
  have low : n ≤ entries.length := safe.hints i ⟨n, some r⟩ found
  have hashed := safe.hashes i n r found
  have does := @sequenceStep_does r.call n σ.bucket fault r.pc
  have skip := Nat.mod_le (n + 1) (2 ^ 64)
  unfold System.stepInstance
  generalize sequenceStep r.call n σ.bucket fault r.pc = after at does
  generalize at_ : r.pc = pc at does
  cases does with
  | looks next numberless missing =>
    refine Change.steps safe (safe.quiet (fun new same => ?_) (fun m r' same => ?_)
      (fun m r' s same => ?_) rfl) le_rfl
    · cases same
      exact low
    · cases same
      exact hashed
    · cases same
      exact numberless s
  | skips later used =>
    refine Change.steps safe (safe.quiet (fun new same => ?_) (fun m r' same => ?_)
      (fun m r' s same => ?_) rfl) le_rfl
    · cases same
      have inside := (safe.sequences.lt_iff n).mp used
      exact Nat.le_trans skip inside
    · cases same
      exact hashed
    · cases same
      simp
  | fails s reason =>
    refine Change.steps safe (safe.quiet (fun new same => ?_) (by simp) (by simp) rfl) le_rfl
    cases same
    exact low
  | takes free =>
    refine Change.steps safe (safe.takes free low (fun new same => ?_) (fun m r' same => ?_)
      (fun m r' s same pc => ?_) rfl) (by simp)
    · cases same
      exact Nat.le_succ n
    · cases same
      exact hashed
    · cases same
      exact ⟨(Pc.writeLeaf.inj pc).symm, rfl, rfl⟩
  | forgets free =>
    refine Change.steps safe (safe.takes free low (fun new same => ?_) (fun m r' same => ?_)
      (fun m r' s same pc => ?_) rfl) (by simp)
    · cases same
      exact skip
    · cases same
      exact hashed
    · cases same
      cases pc
  | takesAndFails free reason =>
    refine Change.steps safe (safe.takes free low (fun new same => ?_) (by simp) (by simp) rfl) (by simp)
    cases same
    exact Nat.le_succ n
  | names s => exact Change.steps safe (safe.names found at_ (.inl rfl)) le_rfl
  | namesAndFails s reason => exact Change.steps safe (safe.names found at_ (.inr ⟨reason, rfl⟩)) le_rfl

theorem Safe.initial (h : LogHasher) : Safe h .initial [] where
  sequences := Objects.sequences_empty
  index g raw found := by cases found
  hints j new found := by cases found
  hashes j n r found := by cases found
  holds j n r s found := by cases found
  once := List.nodup_nil
  returned c s member := by cases member

/-- Every event keeps the invariant, and no sequence object is overwritten. -/
theorem Safe.step (safe : Safe h σ entries) (event : Event) :
    ∃ entries', Safe h (σ.step h event) entries' ∧ SeqKept σ.bucket (σ.step h event).bucket := by
  have unchanged : ∃ entries', Safe h σ entries' ∧ SeqKept σ.bucket σ.bucket :=
    ⟨entries, safe, fun _ _ found => found⟩
  cases event with
  | setNextSeq i size =>
    simp only [System.step]
    split
    · split
      next loadable =>
        refine Change.steps safe (safe.quiet (fun new same => ?_) (by simp) (by simp) rfl) le_rfl
        cases same
        by_contra large
        have used := loadable entries.length (by simpa using large)
        rw [safe.sequences.free _ le_rfl] at used
        cases used
      · exact unchanged
    · exact unchanged
  | call i leaf =>
    simp only [System.step]
    split
    next n found =>
      refine Change.steps safe (safe.quiet (fun new same => ?_) (fun m r same => ?_)
        (fun m r s same => ?_) rfl) le_rfl
      · cases same
        exact safe.hints i ⟨n, none⟩ found
      · cases same
        rfl
      · cases same
        simp
    · exact unchanged
  | step i fault =>
    simp only [System.step]
    split
    next n r found => exact safe.stepInstance found fault
    · exact unchanged
  | stop i => exact Change.steps safe (safe.quiet (by simp) (by simp) (by simp) rfl) le_rfl

theorem Safe.run (safe : Safe h σ entries) (events : List Event) :
    ∃ entries', Safe h (events.foldl (System.step h) σ) entries' ∧
      SeqKept σ.bucket (events.foldl (System.step h) σ).bucket := by
  induction events generalizing σ entries with
  | nil => exact ⟨entries, safe, fun _ _ found => found⟩
  | cons event rest ih =>
    obtain ⟨_, first, kept⟩ := safe.step event
    obtain ⟨entries', later, kept'⟩ := ih first
    exact ⟨entries', later, fun k x found => kept' k x (kept k x found)⟩

end Run

end Gcs

end Serverless
