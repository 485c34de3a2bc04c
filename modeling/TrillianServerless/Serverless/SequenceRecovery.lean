import TrillianServerless.Serverless.SequenceSolo

set_option autoImplicit false

namespace Serverless

open Go Merkle FileSystem

section Call

variable {h : LogHasher} {used : Bytes → Prop} {c : SequenceCall}

/-- A call that has run for a while from a directory `d` with `m` entries. -/
structure CallOk (h : LogHasher) (used : Bytes → Prop) (c : SequenceCall) (d : LogDisk) (m : Nat)
    (s : CallState) (m' : Nat) (added : Option Nat) : Prop where
  directory : DirectoryOk h used s.disk m'
  nextSeq : s.nextSeq ≤ m' ∧ s.nextSeq < 2 ^ 64
  kept : ∀ k x, SeqHolds d k x → SeqHolds s.disk k x
  count : added = none → m' = m
  goes : ∀ pc, s.next = .goto pc → RunOk s.disk ⟨c, pc, added⟩
  ends : ∀ result, s.next = .finish result → ReturnedOk h s.disk ⟨c, result, added⟩

theorem CallOk.advance {d : LogDisk} {m m' : Nat} {s : CallState} {added : Option Nat}
    (ok : CallOk h used c d m s m' added) (member : used c.leaf)
    (hashed : h.hashLeaf c.leaf = c.leafhash) :
    ∃ m'' added', CallOk h used c d m (s.advance c) m'' added' := by
  unfold CallState.advance
  cases next : s.next with
  | finish result => exact ⟨m', added, ok⟩
  | goto pc =>
    obtain ⟨low, small⟩ := ok.nextSeq
    obtain ⟨m'', stepOk⟩ := sequenceStep_ok (r := ⟨c, pc, added⟩) ok.directory low small member hashed
      (ok.goes pc next)
    cases after : (sequenceStep c s.nextSeq s.disk pc).next with
    | goto pc' =>
      obtain ⟨runs, _, number⟩ := stepOk.goes pc' after
      refine ⟨m'', ((⟨c, pc, added⟩ : Running).after s.nextSeq pc').added, stepOk.ok, stepOk.nextSeq,
        fun k x holds => (ok.kept k x holds).kept stepOk.frame, fun none => ?_, fun one same => ?_,
        fun result wrong => ?_⟩
      · rcases number with ⟨same, count⟩ | ⟨new, _⟩
        · rw [count]
          exact ok.count (by rw [← none, same])
        · rw [new] at none
          cases none
      · obtain rfl := Continuation.goto.inj (after.symm.trans same)
        exact runs
      · cases after.symm.trans wrong
    | finish result =>
      obtain ⟨count, returned⟩ := stepOk.ends result after
      refine ⟨m'', added, stepOk.ok, stepOk.nextSeq,
        fun k x holds => (ok.kept k x holds).kept stepOk.frame, fun none => ?_, fun one wrong => ?_,
        fun one same => ?_⟩
      · rw [count, ok.count none]
      · cases after.symm.trans wrong
      · obtain rfl := Continuation.finish.inj (after.symm.trans same)
        exact returned

theorem callAfter_ok {d : LogDisk} {m n : Nat} (ok : DirectoryOk h used d m) (low : n ≤ m)
    (small : n < 2 ^ 64) (member : used c.leaf) (hashed : h.hashLeaf c.leaf = c.leafhash) (k : Nat) :
    ∃ m' added, CallOk h used c d m (callAfter c n d k) m' added := by
  induction k with
  | zero =>
    refine ⟨m, none, ok, ⟨low, small⟩, fun _ _ holds => holds, fun _ => rfl, fun pc same => ?_,
      fun _ wrong => by cases wrong⟩
    obtain rfl := Continuation.goto.inj same
    exact rfl
  | succ k ih =>
    obtain ⟨m', added, run⟩ := ih
    exact run.advance member hashed

-- The call ends with a number of its own.
def Finishes (c : SequenceCall) (s : CallState) : Prop :=
  ∃ k t, ((CallState.advance c)^[k] s).next = .finish (t, none) ∧
    ((CallState.advance c)^[k] s).disk.readFile (.seq t) = some c.leaf

theorem Finishes.step {s : CallState} (later : Finishes c (s.advance c)) : Finishes c s := by
  obtain ⟨k, t, next, read⟩ := later
  exact ⟨k + 1, t, by rwa [Function.iterate_succ_apply], by rwa [Function.iterate_succ_apply]⟩

variable {d : LogDisk} {m n : Nat} {added : Option Nat}

-- A step of a call that holds its pending file leads on to its next one.
theorem Finishes.goes {pc pc' : SequencePc} (ok : DirectoryOk h used d m) (low : n ≤ m)
    (small : n < 2 ^ 64) (member : used c.leaf) (hashed : h.hashLeaf c.leaf = c.leafhash)
    (runs : RunOk d ⟨c, pc, added⟩) (next : (sequenceStep c n d pc).next = .goto pc')
    (later : ∀ d' n' m' added', DirectoryOk h used d' m' → n' ≤ m' → n' < 2 ^ 64 →
      RunOk d' ⟨c, pc', added'⟩ → (added' = none → m' = m) → Finishes c ⟨d', n', .goto pc'⟩) :
    Finishes c ⟨d, n, .goto pc⟩ := by
  obtain ⟨m', stepOk⟩ := sequenceStep_ok (r := ⟨c, pc, added⟩) ok low small member hashed runs
  obtain ⟨runs', _, number⟩ := stepOk.goes pc' next
  have count : ((⟨c, pc, added⟩ : Running).after n pc').added = none → m' = m := fun none => by
    rcases number with ⟨_, same⟩ | ⟨new, _⟩
    · exact same
    · cases none.symm.trans new
  have finishes := later _ _ m' _ stepOk.ok stepOk.nextSeq.1 stepOk.nextSeq.2 runs' count
  rw [← next] at finishes
  exact finishes.step

theorem finishes_removeTmp {result : SequenceResult} (ok : DirectoryOk h used d m) (low : n ≤ m)
    (small : n < 2 ^ 64) (member : used c.leaf) (hashed : h.hashLeaf c.leaf = c.leafhash)
    (runs : RunOk d ⟨c, .removeTmp result, added⟩) : Finishes c ⟨d, n, .goto (.removeTmp result)⟩ := by
  obtain ⟨m', stepOk⟩ := sequenceStep_ok (r := ⟨c, .removeTmp result, added⟩) ok low small member
    hashed runs
  obtain ⟨_, _, s, rfl, _⟩ := runs
  rcases (stepOk.ends (s, none) rfl).2 with ⟨t, same, _, holds⟩ | ⟨_, _, wrong, _⟩ | ⟨_, wrong, _⟩
  · refine ⟨1, t, ?_, holds.readFile⟩
    exact congrArg Continuation.finish same
  · cases wrong
  · cases wrong

theorem linkLeaf_next {s : Nat} (runs : RunOk d ⟨c, .linkLeaf s, added⟩) :
    (linkLeaf c n d s).next = .goto (.removeLeafTmp (s, none)) := by
  obtain ⟨_, ⟨j, found, _⟩, _⟩ := runs
  cases present : d.lookup (.leaf c.leafhash) with
  | some node => rw [linkLeaf_taken found present]
  | none =>
    obtain ⟨d', links, _⟩ := Disk.link_ok found present
    rw [linkLeaf, links]

/-- Once the leaf has its number the call returns it. -/
theorem finishes_createLeafTmp {s : Nat} (ok : DirectoryOk h used d m) (low : n ≤ m)
    (small : n < 2 ^ 64) (member : used c.leaf) (hashed : h.hashLeaf c.leaf = c.leafhash)
    (runs : RunOk d ⟨c, .createLeafTmp s, added⟩) : Finishes c ⟨d, n, .goto (.createLeafTmp s)⟩ := by
  have created : (sequenceStep c n d (.createLeafTmp s)).next = .goto (.writeLeafTmp s d.next) := by
    obtain ⟨_, free, _⟩ := runs
    show (createLeafTmp c n d s).next = _
    rw [createLeafTmp_free free]
  refine Finishes.goes ok low small member hashed runs created fun _ _ _ _ ok low small runs _ => ?_
  refine Finishes.goes ok low small member hashed runs rfl fun _ _ _ _ ok low small runs _ => ?_
  refine Finishes.goes ok low small member hashed runs (linkLeaf_next runs)
    fun _ _ _ _ ok low small runs _ => ?_
  refine Finishes.goes ok low small member hashed runs rfl fun _ _ _ _ ok low small runs _ => ?_
  exact finishes_removeTmp ok low small member hashed runs

/-- The search for a free number ends. -/
theorem finishes_linkSeq (ok : DirectoryOk h used d m) (room : m < 2 ^ 64) (low : n ≤ m)
    (member : used c.leaf) (hashed : h.hashLeaf c.leaf = c.leafhash)
    (runs : RunOk d ⟨c, .linkSeq, added⟩) : Finishes c ⟨d, n, .goto .linkSeq⟩ := by
  obtain ⟨⟨i, found, _⟩, _⟩ := id runs
  induction distance : m - n generalizing n with
  | zero =>
    obtain rfl : n = m := by omega
    obtain ⟨d', linked, _⟩ := Disk.link_ok found (ok.free n (Nat.le_refl _))
    have next : (sequenceStep c n d .linkSeq).next = .goto (.createLeafTmp n) := by
      show (linkSeq c n d).next = _
      rw [linkSeq, linked]
    exact Finishes.goes ok low (by omega) member hashed runs next
      fun _ _ _ _ ok low small runs _ => finishes_createLeafTmp ok low small member hashed runs
  | succ distance ih =>
    obtain ⟨x, ⟨j, taken, _⟩, _⟩ := ok.seqs n (by omega)
    have skipped : CallState.advance c ⟨d, n, .goto .linkSeq⟩ = ⟨d, n + 1, .goto .linkSeq⟩ := by
      show linkSeq c n d = _
      rw [linkSeq_taken found taken, Nat.mod_eq_of_lt (by omega)]
    refine Finishes.step ?_
    rw [skipped]
    exact ih (by omega) (by omega)

/-- Without leftovers of the leaf a call gets through. -/
theorem finishes_start (ok : DirectoryOk h used d m) (room : m < 2 ^ 64) (low : n ≤ m)
    (member : used c.leaf) (hashed : h.hashLeaf c.leaf = c.leafhash)
    (missing : d.lookup (.leaf c.leafhash) = none) (free : d.lookup (.pending c.leafhash) = none) :
    Finishes c (.start n d) := by
  have small : n < 2 ^ 64 := by omega
  have absent : CallState.advance c (.start n d) = ⟨d, n, .goto .createTmp⟩ := readLeaf_missing missing
  have created : (sequenceStep c n d .createTmp).next = .goto (.writeTmp d.next) :=
    congrArg CallState.next (createTmp_free free)
  refine Finishes.step ?_
  rw [absent]
  have starts : RunOk d ⟨c, .createTmp, none⟩ := rfl
  refine Finishes.goes ok low small member hashed starts created
    fun _ _ _ _ ok low small runs first => ?_
  refine Finishes.goes ok low small member hashed runs rfl fun _ _ _ _ ok' low small runs' second => ?_
  have count := (second runs'.2.2).trans (first runs.2.2)
  exact finishes_linkSeq ok' (by omega) low member hashed runs'

theorem callAfter_iterate (k : Nat) :
    callAfter c n d k = (CallState.advance c)^[k] (.start n d) := by
  induction k with
  | zero => rfl
  | succ k ih => rw [callAfter, ih, Function.iterate_succ_apply']

/-- A pending file that is left over stops every later call for its leaf. -/
theorem callAfter_blocked (missing : d.lookup (.leaf c.leafhash) = none)
    {node : Node Path} (taken : d.lookup (.pending c.leafhash) = some node) (k : Nat) :
    callAfter c n d (k + 2) = ⟨d, n, .finish (0, some (.wrap "unable to write temporary file: %w"
      (.wrap "unable to create temporary file: %w" .exist)))⟩ := by
  induction k with
  | zero =>
    have first : callAfter c n d 1 = ⟨d, n, .goto .createTmp⟩ := readLeaf_missing missing
    rw [callAfter, first]
    exact createTmp_taken taken
  | succ k ih =>
    rw [callAfter, ih]
    rfl

/-- A call while all numbers are taken. -/
structure Searching (c : SequenceCall) (s : CallState) : Prop where
  small : s.nextSeq < 2 ^ 64
  taken : ∀ k < 2 ^ 64, s.disk.lookup (.seq k) ≠ none
  missing : s.disk.lookup (.leaf c.leafhash) = none
  at' : (s.disk.lookup (.pending c.leafhash) = none ∧
      (s.next = .goto .readLeaf ∨ s.next = .goto .createTmp)) ∨
    (s.disk.lookup (.pending c.leafhash) ≠ none ∧
      ((∃ fd, s.next = .goto (.writeTmp fd)) ∨ s.next = .goto .linkSeq))

theorem Searching.advance {s : CallState} (searching : Searching c s) : Searching c (s.advance c) := by
  obtain ⟨d, n, next⟩ := s
  obtain ⟨small, taken, missing, ⟨free, rfl | rfl⟩ | ⟨held, ⟨fd, rfl⟩ | rfl⟩⟩ := searching
  · have step : CallState.advance c ⟨d, n, .goto .readLeaf⟩ = ⟨d, n, .goto .createTmp⟩ :=
      readLeaf_missing missing
    rw [step]
    exact ⟨small, taken, missing, Or.inl ⟨free, Or.inr rfl⟩⟩
  · have step : CallState.advance c ⟨d, n, .goto .createTmp⟩ =
        ⟨d.create (.pending c.leafhash), n, .goto (.writeTmp d.next)⟩ := createTmp_free free
    rw [step]
    refine ⟨small, fun k less => ?_, ?_, Or.inr ⟨?_, Or.inl ⟨_, rfl⟩⟩⟩
    · rw [Disk.lookup_create, if_neg (by simp)]
      exact taken k less
    · rw [Disk.lookup_create, if_neg (by simp)]
      exact missing
    · simp [Disk.lookup_create]
  · exact ⟨small, taken, missing, Or.inr ⟨held, Or.inr rfl⟩⟩
  · obtain ⟨node, found⟩ := Option.ne_none_iff_exists'.mp held
    obtain ⟨other, number⟩ := Option.ne_none_iff_exists'.mp (taken n small)
    have step : CallState.advance c ⟨d, n, .goto .linkSeq⟩ =
        ⟨d, (n + 1) % 2 ^ 64, .goto .linkSeq⟩ := linkSeq_taken found number
    rw [step]
    exact ⟨Nat.mod_lt _ (by decide), taken, missing, Or.inr ⟨held, Or.inr rfl⟩⟩

theorem callAfter_searching (small : n < 2 ^ 64) (taken : ∀ k < 2 ^ 64, d.lookup (.seq k) ≠ none)
    (missing : d.lookup (.leaf c.leafhash) = none) (free : d.lookup (.pending c.leafhash) = none)
    (k : Nat) : Searching c (callAfter c n d k) := by
  induction k with
  | zero => exact ⟨small, taken, missing, Or.inl ⟨free, Or.inl rfl⟩⟩
  | succ k ih => exact ih.advance

end Call

section Recovery

variable {h : LogHasher} {used : Bytes → Prop} {d : LogDisk} {m n : Nat} {leaf : Bytes}

/-- A call for `leaf` that nothing interrupts ends with a number under which the leaf is stored. -/
def Recovers (h : LogHasher) (d : LogDisk) (n : Nat) (leaf : Bytes) : Prop :=
  ∃ k s err, (callAfter ⟨h.hashLeaf leaf, leaf⟩ n d k).next = .finish (s, err) ∧
    (err = none ∨ err = some errDupeLeaf) ∧
    (callAfter ⟨h.hashLeaf leaf, leaf⟩ n d k).disk.readFile (.seq s) = some leaf

/-- The leaf has its index file, or else no pending file, and there is a number left. -/
def Recoverable (h : LogHasher) (d : LogDisk) (leaf : Bytes) : Prop :=
  d.has (.leaf (h.hashLeaf leaf)) = true ∨
    d.has (.pending (h.hashLeaf leaf)) = false ∧ ∃ k < 2 ^ 64, d.has (.seq k) = false

theorem recovers_indexed (ok : DirectoryOk h used d m) (injective : Set.InjOn h.hashLeaf {x | used x})
    (member : used leaf) {node : Node Path} (found : d.lookup (.leaf (h.hashLeaf leaf)) = some node) :
    Recovers h d n leaf := by
  obtain ⟨s, x, ⟨j, file, content⟩, small, holds, hashed⟩ := ok.leaves _ node found
  obtain ⟨y, held, known⟩ := ok.seqs s (ok.seq_lt holds)
  obtain rfl : x = y := Option.some.inj (holds.readFile.symm.trans held.readFile)
  obtain rfl : x = leaf := injective known member hashed
  have step : callAfter ⟨h.hashLeaf x, x⟩ n d 1 = ⟨d, n, .finish (s, some errDupeLeaf)⟩ :=
    readLeaf_found file content small
  exact ⟨1, s, some errDupeLeaf, by rw [step], Or.inr rfl, by rw [step]; exact holds.readFile⟩

theorem not_recovers_pending (missing : d.lookup (.leaf (h.hashLeaf leaf)) = none)
    {node : Node Path} (taken : d.lookup (.pending (h.hashLeaf leaf)) = some node) :
    ¬ Recovers h d n leaf := by
  rintro ⟨k, s, err, ends, good, _⟩
  have first : callAfter ⟨h.hashLeaf leaf, leaf⟩ n d 1 = ⟨d, n, .goto .createTmp⟩ :=
    readLeaf_missing missing
  match k with
  | 0 => cases ends
  | 1 =>
    rw [first] at ends
    cases ends
  | k + 2 =>
    rw [callAfter_blocked missing taken] at ends
    obtain ⟨_, rfl⟩ := Prod.mk.inj (Continuation.finish.inj ends)
    rcases good with wrong | wrong <;> cases wrong

theorem not_recovers_full (small : n < 2 ^ 64) (taken : ∀ k < 2 ^ 64, d.lookup (.seq k) ≠ none)
    (missing : d.lookup (.leaf (h.hashLeaf leaf)) = none)
    (free : d.lookup (.pending (h.hashLeaf leaf)) = none) : ¬ Recovers h d n leaf := by
  rintro ⟨k, s, err, ends, _⟩
  have searching := callAfter_searching (c := ⟨h.hashLeaf leaf, leaf⟩) small taken missing free k
  rcases searching.at' with ⟨_, next | next⟩ | ⟨_, ⟨_, next⟩ | next⟩ <;> cases ends.symm.trans next

theorem recovers_iff (ok : DirectoryOk h used d m) (injective : Set.InjOn h.hashLeaf {x | used x})
    (member : used leaf) (low : n ≤ m) (small : n < 2 ^ 64) :
    Recovers h d n leaf ↔ Recoverable h d leaf := by
  cases index : d.lookup (.leaf (h.hashLeaf leaf)) with
  | some node =>
    exact iff_of_true (recovers_indexed ok injective member index) (Or.inl (by simp [Disk.has, index]))
  | none =>
    have missing : d.has (.leaf (h.hashLeaf leaf)) = false := by simp [Disk.has, index]
    cases pending : d.lookup (.pending (h.hashLeaf leaf)) with
    | some node =>
      refine iff_of_false (not_recovers_pending index pending) ?_
      simp [Recoverable, Disk.has, index, pending]
    | none =>
      have free : d.has (.pending (h.hashLeaf leaf)) = false := by simp [Disk.has, pending]
      rcases Nat.lt_or_ge m (2 ^ 64) with room | full
      · refine iff_of_true ?_ (Or.inr ⟨free, m, room, by simp [Disk.has, ok.free m (Nat.le_refl m)]⟩)
        obtain ⟨k, t, ends, read⟩ := finishes_start (c := ⟨h.hashLeaf leaf, leaf⟩) ok room low member
          rfl index pending
        rw [← callAfter_iterate] at ends read
        exact ⟨k, t, none, ends, Or.inl rfl, read⟩
      · have taken : ∀ k < 2 ^ 64, d.lookup (.seq k) ≠ none := fun k less => by
          obtain ⟨x, ⟨i, found, _⟩, _⟩ := ok.seqs k (by omega)
          simp [found]
        refine iff_of_false (not_recovers_full small taken index pending) ?_
        rintro (wrong | ⟨_, k, less, wrong⟩)
        · rw [missing] at wrong
          cases wrong
        · simp [Disk.has] at wrong
          exact taken k less wrong

/-- In every directory that the sequencing processes can leave, a call for a leaf gets through exactly
when the leaf's index file is there or no pending file is in the way, and no call that fails with
another error than ErrDupeLeaf has added an entry. -/
theorem sequence_recovers_iff (h : LogHasher) (events : List SequenceEvent) (leaf : Bytes)
    (injective : Set.InjOn h.hashLeaf {x | Submitted events x ∨ x = leaf}) :
    let σ := SequenceSystem.run h events
    (∀ n, Loadable σ.disk n → (Recovers h σ.disk n leaf ↔ Recoverable h σ.disk leaf)) ∧
    (∀ ρ ∈ σ.returned, ρ.result.2 ≠ none → ρ.result.2 ≠ some errDupeLeaf → ρ.added = none) ∧
    ∀ n k s reason, Loadable σ.disk n →
      (callAfter ⟨h.hashLeaf leaf, leaf⟩ n σ.disk k).next = .finish (s, some reason) →
      reason ≠ errDupeLeaf →
      ∀ j, (callAfter ⟨h.hashLeaf leaf, leaf⟩ n σ.disk k).disk.readFile (.seq j) =
        σ.disk.readFile (.seq j) := by
  dsimp only
  obtain ⟨m, safe, _⟩ := (initial_safe h fun x => Submitted events x ∨ x = leaf).run events
    fun _ submitted => Or.inl submitted
  have ok : DirectoryOk h _ (SequenceSystem.run h events).disk m := safe.directory
  have low : ∀ n, Loadable (SequenceSystem.run h events).disk n → n ≤ m := by
    intro n loadable
    by_contra beyond
    have present := loadable.2 m (by omega)
    simp [Disk.has, ok.free m (Nat.le_refl m)] at present
  refine ⟨fun n loadable => recovers_iff ok injective (Or.inr rfl) (low n loadable) loadable.1,
    fun ρ member failed _ => ?_, fun n k s reason loadable ends _ j => ?_⟩
  · exact (safe.returned ρ member).nil_added.trans (if_neg failed)
  · obtain ⟨m', added, run⟩ := callAfter_ok (c := ⟨h.hashLeaf leaf, leaf⟩) ok (low n loadable)
      loadable.1 (Or.inr rfl) rfl k
    have unadded : added = none := (run.ends _ ends).nil_added
    obtain rfl := run.count unadded
    ext x
    constructor
    · intro read
      have inside := run.directory.seq_lt (run.directory.readFile_seq.mp read)
      obtain ⟨y, holds, _⟩ := ok.seqs j inside
      rw [(run.kept j y holds).readFile] at read
      rw [holds.readFile, read]
    · intro read
      exact (run.kept j x (ok.readFile_seq.mp read)).readFile

-- A process is killed after so many steps of a call.
def interrupted (steps : Nat) : List SequenceEvent :=
  [.load 0 0, .call 0 [1]] ++ List.replicate steps (.step 0) ++ [.crash 0]

theorem interrupted_submitted {steps : Nat} {x : Bytes} (submitted : Submitted (interrupted steps) x) : x = [1] := by
  obtain ⟨p, listed⟩ := submitted
  simp [interrupted] at listed
  exact listed.2

/-- A call that is killed before it makes the pending file, or after it has linked the index file with the pending
file still there, is made up for by the next one. -/
theorem sequence_recovers_iff_interrupted :
    Recovers LogHasher.padded (SequenceSystem.run LogHasher.padded (interrupted 1)).disk 0 [1] ∧
    (SequenceSystem.run LogHasher.padded (interrupted 7)).disk.has (.pending (LogHasher.padded.hashLeaf [1])) = true ∧
    Recovers LogHasher.padded (SequenceSystem.run LogHasher.padded (interrupted 7)).disk 1 [1] := by
  have injective : ∀ steps,
      Set.InjOn LogHasher.padded.hashLeaf {x | Submitted (interrupted steps) x ∨ x = [1]} := by
    rintro steps x (submitted | rfl) y (submitted' | rfl) _
    · rw [interrupted_submitted submitted, interrupted_submitted submitted']
    · exact interrupted_submitted submitted
    · exact (interrupted_submitted submitted').symm
    · rfl
  have early := (sequence_recovers_iff LogHasher.padded (interrupted 1) [1] (injective 1)).1 0 ⟨by decide, by simp⟩
  have late := (sequence_recovers_iff LogHasher.padded (interrupted 7) [1] (injective 7)).1 1 (by decide +kernel)
  exact ⟨early.mpr (.inr ⟨by decide +kernel, 0, by decide, by decide +kernel⟩), by decide +kernel,
    late.mpr (.inl (by decide +kernel))⟩

/-- A call that is killed after it has made the pending file is not. -/
theorem sequence_blocked_after_crash :
    ¬ Recovers LogHasher.padded (SequenceSystem.run LogHasher.padded (interrupted 2)).disk 0 [1] :=
  not_recovers_pending (by decide +kernel) (show _ = some (Node.file 0) by decide +kernel)

end Recovery

end Serverless
