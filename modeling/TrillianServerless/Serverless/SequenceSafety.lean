import TrillianServerless.Serverless.SequenceFrame

set_option autoImplicit false

namespace Serverless

open Go Merkle FileSystem

def SeqHolds (d : LogDisk) (s : Nat) (x : Bytes) : Prop :=
  ∃ i, d.lookup (.seq s) = some (.file i) ∧ d.data i = x

def PendingHolds (d : LogDisk) (c : SequenceCall) : Prop :=
  ∃ i, d.lookup (.pending c.leafhash) = some (.file i) ∧ d.data i = c.leaf

def IndexHolds (d : LogDisk) (p : Path) (s : Nat) : Prop :=
  ∃ j, d.lookup p = some (.file j) ∧ d.data j = formatUint 16 s

/-- The files of a directory in which the numbers below `m` are in use, whatever crashed before. -/
structure DirectoryOk (h : LogHasher) (used : Bytes → Prop) (d : LogDisk) (m : Nat) : Prop where
  bound : m ≤ 2 ^ 64
  seqs : ∀ k < m, ∃ x, SeqHolds d k x ∧ used x
  free : ∀ k, m ≤ k → d.lookup (.seq k) = none
  leafTmps : ∀ g, d.lookup (.pending g) = none → d.lookup (.leafTmp g) = none
  leaves : ∀ g node, d.lookup (.leaf g) = some node →
    ∃ s x, IndexHolds d (.leaf g) s ∧ s < 2 ^ 64 ∧ SeqHolds d s x ∧ h.hashLeaf x = g

-- Between the creation and the removal of its pending file a call has it for itself.
def Holding : SequencePc → Prop
  | .readLeaf | .createTmp => False
  | _ => True

def Linked (d : LogDisk) (r : Running) (s : Nat) : Prop :=
  SeqHolds d s r.call.leaf ∧ s < 2 ^ 64 ∧ r.added = some s

def RunOk (d : LogDisk) (r : Running) : Prop :=
  match r.pc with
  | .readLeaf | .createTmp => r.added = none
  | .writeTmp fd => d.Sole (.pending r.call.leafhash) fd ∧
      d.lookup (.leafTmp r.call.leafhash) = none ∧ r.added = none
  | .linkSeq => PendingHolds d r.call ∧ d.lookup (.leafTmp r.call.leafhash) = none ∧ r.added = none
  | .createLeafTmp s => PendingHolds d r.call ∧ d.lookup (.leafTmp r.call.leafhash) = none ∧
      Linked d r s
  | .writeLeafTmp s fd => PendingHolds d r.call ∧ d.Sole (.leafTmp r.call.leafhash) fd ∧ Linked d r s
  | .linkLeaf s => PendingHolds d r.call ∧ IndexHolds d (.leafTmp r.call.leafhash) s ∧ Linked d r s
  | .removeLeafTmp result => PendingHolds d r.call ∧ ∃ s, result = (s, none) ∧ Linked d r s
  | .removeTmp result => PendingHolds d r.call ∧ d.lookup (.leafTmp r.call.leafhash) = none ∧
      ∃ s, result = (s, none) ∧ Linked d r s

/-- A call returns the number it has added, that of its duplicate, or an error before it adds any. -/
def ReturnedOk (h : LogHasher) (d : LogDisk) (ρ : Returned) : Prop :=
  (∃ s, ρ.result = (s, none) ∧ ρ.added = some s ∧ SeqHolds d s ρ.call.leaf) ∨
  (∃ s x, ρ.result = (s, some errDupeLeaf) ∧ ρ.added = none ∧ SeqHolds d s x ∧
    h.hashLeaf x = ρ.call.leafhash) ∨
  (∃ reason, ρ.result = (0, some (.wrap "unable to write temporary file: %w" reason)) ∧ ρ.added = none)

structure StepOk (h : LogHasher) (used : Bytes → Prop) (d : LogDisk) (m : Nat) (r : Running) (n : Nat)
    (after : CallState) (m' : Nat) : Prop where
  grows : m ≤ m'
  ok : DirectoryOk h used after.disk m'
  frame : CallFrame r.call.leafhash d after.disk
  nextSeq : after.nextSeq ≤ m' ∧ after.nextSeq < 2 ^ 64
  untouched : ¬ Holding r.pc → d.lookup (.pending r.call.leafhash) ≠ none → after.disk = d
  goes : ∀ pc, after.next = .goto pc → RunOk after.disk (r.after n pc) ∧
    (¬ Holding r.pc → Holding pc → d.lookup (.pending r.call.leafhash) = none) ∧
    ((r.after n pc).added = r.added ∧ m' = m ∨ (r.after n pc).added = some m ∧ m' = m + 1)
  ends : ∀ result, after.next = .finish result →
    m' = m ∧ ReturnedOk h after.disk ⟨r.call, result, r.added⟩

section Kept

variable {h : LogHasher} {used : Bytes → Prop} {hash : Bytes} {d d' : LogDisk} {m : Nat}

theorem SeqHolds.kept {s : Nat} {x : Bytes} (holds : SeqHolds d s x) (frame : CallFrame hash d d') :
    SeqHolds d' s x := by
  obtain ⟨i, found, content⟩ := holds
  have other : ¬ Private hash (.seq s) := by rintro (same | same) <;> cases same
  exact ⟨i, frame.kept other found, by rw [frame.data _ i other found, content]⟩

theorem IndexHolds.kept {p : Path} {s : Nat} (holds : IndexHolds d p s) (other : ¬ Private hash p)
    (frame : CallFrame hash d d') : IndexHolds d' p s := by
  obtain ⟨i, found, content⟩ := holds
  exact ⟨i, frame.kept other found, by rw [frame.data _ i other found, content]⟩

theorem leaf_not_private (g : Bytes) : ¬ Private hash (.leaf g) := by
  rintro (same | same) <;> cases same

theorem pending_private {g : Bytes} (other : g ≠ hash) : ¬ Private hash (.pending g) := by
  rintro (same | same)
  · exact other (Path.pending.inj same)
  · cases same

theorem leafTmp_private {g : Bytes} (other : g ≠ hash) : ¬ Private hash (.leafTmp g) := by
  rintro (same | same)
  · cases same
  · exact other (Path.leafTmp.inj same)

theorem DirectoryOk.seq_lt (ok : DirectoryOk h used d m) {s : Nat} {x : Bytes}
    (holds : SeqHolds d s x) : s < m := by
  obtain ⟨i, found, _⟩ := holds
  by_contra beyond
  rw [ok.free s (by omega)] at found
  cases found

-- A step that adds neither a sequence file nor an index file.
theorem DirectoryOk.kept (ok : DirectoryOk h used d m) (frame : CallFrame hash d d')
    (seqs : ∀ k, d'.lookup (.seq k) = d.lookup (.seq k))
    (leaf : d'.lookup (.leaf hash) = d.lookup (.leaf hash))
    (tmps : d'.lookup (.pending hash) = none → d'.lookup (.leafTmp hash) = none) :
    DirectoryOk h used d' m where
  bound := ok.bound
  seqs k less := by
    obtain ⟨x, holds, member⟩ := ok.seqs k less
    exact ⟨x, holds.kept frame, member⟩
  free k beyond := by rw [seqs, ok.free k beyond]
  leafTmps g missing := by
    by_cases same : g = hash
    · subst same
      exact tmps missing
    · rcases frame.names _ (pending_private same) with kept | ⟨_, wrong | ⟨_, wrong⟩⟩
      · rcases frame.names _ (leafTmp_private same) with kept' | ⟨_, wrong | ⟨_, wrong⟩⟩
        · rw [kept', ok.leafTmps g (by rw [← kept, missing])]
        · cases wrong
        · cases wrong
      · cases wrong
      · cases wrong
  leaves g node found := by
    have before : d.lookup (.leaf g) = some node := by
      rcases frame.names _ (leaf_not_private g) with kept | ⟨_, same | ⟨_, wrong⟩⟩
      · rw [← kept, found]
      · obtain rfl := Path.leaf.inj same
        rw [← leaf, found]
      · cases wrong
    obtain ⟨s, x, index, bound, holds, hashed⟩ := ok.leaves g node before
    exact ⟨s, x, index.kept (leaf_not_private g) frame, bound, holds.kept frame, hashed⟩

end Kept

section Step

variable {h : LogHasher} {used : Bytes → Prop} {d : LogDisk} {m n : Nat} {r : Running}

-- A step that leaves the disk and the numbers alone.
theorem StepOk.idle (ok : DirectoryOk h used d m) (low : n ≤ m) (small : n < 2 ^ 64)
    {next : Continuation}
    (goes : ∀ pc, next = .goto pc → RunOk d (r.after n pc) ∧ (¬ Holding r.pc → ¬ Holding pc) ∧
      (r.after n pc).added = r.added)
    (ends : ∀ result, next = .finish result → ReturnedOk h d ⟨r.call, result, r.added⟩) :
    StepOk h used d m r n ⟨d, n, next⟩ m where
  grows := Nat.le_refl _
  ok := ok
  frame := CallFrame.refl _ _
  nextSeq := ⟨low, small⟩
  untouched _ _ := rfl
  goes pc same := by
    obtain ⟨runs, holds, added⟩ := goes pc same
    exact ⟨runs, fun outside inside => absurd inside (holds outside), Or.inl ⟨added, rfl⟩⟩
  ends result same := ⟨rfl, ends result same⟩

theorem readLeaf_ok (ok : DirectoryOk h used d m) (low : n ≤ m) (small : n < 2 ^ 64)
    (pc : r.pc = .readLeaf) (runs : RunOk d r) :
    StepOk h used d m r n (readLeaf r.call n d) m := by
  have none : r.added = none := by simpa [RunOk, pc] using runs
  cases found : d.lookup (.leaf r.call.leafhash) with
  | none =>
    rw [readLeaf_missing found]
    refine StepOk.idle ok low small (fun next same => ?_) fun _ wrong => by cases wrong
    obtain rfl := Continuation.goto.inj same
    refine ⟨?_, fun _ inside => inside, ?_⟩ <;> simp [RunOk, Running.after, pc, none]
  | some node =>
    obtain ⟨s, x, ⟨j, file, content⟩, bound, holds, hashed⟩ := ok.leaves _ node found
    rw [readLeaf_found file content bound]
    refine StepOk.idle ok low small (fun _ wrong => by cases wrong) fun result same => ?_
    obtain rfl := Continuation.finish.inj same
    exact Or.inr (Or.inl ⟨s, x, rfl, none, holds, hashed⟩)

theorem createTmp_ok (ok : DirectoryOk h used d m) (low : n ≤ m) (small : n < 2 ^ 64)
    (pc : r.pc = .createTmp) (runs : RunOk d r) :
    StepOk h used d m r n (createTmp r.call n d) m := by
  have none : r.added = none := by simpa [RunOk, pc] using runs
  cases found : d.lookup (.pending r.call.leafhash) with
  | some node =>
    rw [createTmp_taken found]
    refine StepOk.idle ok low small (fun _ wrong => by cases wrong) fun result same => ?_
    obtain rfl := Continuation.finish.inj same
    exact Or.inr (Or.inr ⟨_, rfl, none⟩)
  | none =>
    have frame : CallFrame r.call.leafhash d (d.create (.pending r.call.leafhash)) :=
      CallFrame.create (Or.inl rfl)
    rw [createTmp_free found]
    refine ⟨Nat.le_refl _, ok.kept frame ?_ ?_ ?_, frame, ⟨low, small⟩, fun _ present =>
      absurd found present, fun next same => ?_, fun _ wrong => by cases wrong⟩
    · intro k
      simp [Disk.lookup_create]
    · simp [Disk.lookup_create]
    · simp [Disk.lookup_create]
    · obtain rfl := Continuation.goto.inj same
      refine ⟨?_, fun _ _ => found, Or.inl ⟨by simp [Running.after, pc], rfl⟩⟩
      simp only [RunOk, Running.after, pc, none]
      refine ⟨⟨by simp [Disk.lookup_create], fun q shared => ?_⟩, ?_, trivial⟩
      · rw [Disk.lookup_create] at shared
        split at shared
        next here => exact here
        · exact absurd (d.lookup_lt q shared) (Nat.lt_irrefl _)
      · simp [Disk.lookup_create, ok.leafTmps _ found]

-- A step of a call that has its pending file.
theorem StepOk.held {d' : LogDisk} {n' m' : Nat} {next : SequencePc} (held : Holding r.pc)
    (grows : m ≤ m') (ok : DirectoryOk h used d' m') (frame : CallFrame r.call.leafhash d d')
    (low : n' ≤ m') (small : n' < 2 ^ 64) (runs : RunOk d' (r.after n next))
    (added : (r.after n next).added = r.added ∧ m' = m ∨
      (r.after n next).added = some m ∧ m' = m + 1) :
    StepOk h used d m r n ⟨d', n', .goto next⟩ m' where
  grows := grows
  ok := ok
  frame := frame
  nextSeq := ⟨low, small⟩
  untouched outside _ := absurd held outside
  goes pc same := by
    obtain rfl := Continuation.goto.inj same
    exact ⟨runs, fun outside => absurd held outside, added⟩
  ends _ wrong := by cases wrong

theorem writeTmp_ok (ok : DirectoryOk h used d m) (low : n ≤ m) (small : n < 2 ^ 64) {fd : Nat}
    (pc : r.pc = .writeTmp fd) (runs : RunOk d r) :
    StepOk h used d m r n ⟨d.write fd r.call.leaf, n, .goto .linkSeq⟩ m := by
  simp only [RunOk, pc] at runs
  obtain ⟨sole, free, none⟩ := runs
  have frame : CallFrame r.call.leafhash d (d.write fd r.call.leaf) :=
    CallFrame.write (Or.inl rfl) sole _
  refine StepOk.held (by rw [pc]; trivial) (Nat.le_refl _)
    (ok.kept frame (fun _ => rfl) rfl fun _ => free) frame low small ?_
    (Or.inl ⟨by simp [Running.after, pc], rfl⟩)
  simp only [RunOk, Running.after, pc, none]
  exact ⟨⟨fd, sole.1, Function.update_self _ _ _⟩, free, trivial⟩

theorem PendingHolds.kept {d' : LogDisk} {c : SequenceCall} (holds : PendingHolds d c)
    (name : d'.lookup (.pending c.leafhash) = d.lookup (.pending c.leafhash))
    (data : ∀ i, d.lookup (.pending c.leafhash) = some (.file i) → d'.data i = d.data i) :
    PendingHolds d' c := by
  obtain ⟨i, found, content⟩ := holds
  exact ⟨i, by rw [name, found], by rw [data i found, content]⟩

theorem linkSeq_ok (ok : DirectoryOk h used d m) (low : n ≤ m) (small : n < 2 ^ 64)
    (member : used r.call.leaf) (pc : r.pc = .linkSeq) (runs : RunOk d r) :
    ∃ m', StepOk h used d m r n (linkSeq r.call n d) m' := by
  have held : Holding r.pc := by rw [pc]; trivial
  simp only [RunOk, pc] at runs
  obtain ⟨⟨i, found, content⟩, free, none⟩ := runs
  rcases Nat.lt_or_ge n m with taken | new
  · obtain ⟨x, ⟨j, present, _⟩, _⟩ := ok.seqs n taken
    have small' : (n + 1) % 2 ^ 64 < 2 ^ 64 := Nat.mod_lt _ (by decide)
    have less := Nat.mod_le (n + 1) (2 ^ 64)
    rw [linkSeq_taken found present]
    refine ⟨m, StepOk.held held (Nat.le_refl _) ok (CallFrame.refl _ _) (by omega) small' ?_
      (Or.inl ⟨by simp [Running.after, pc], rfl⟩)⟩
    simp only [RunOk, Running.after, pc, none]
    exact ⟨⟨i, found, content⟩, free, trivial⟩
  · obtain rfl : n = m := by omega
    have absent := ok.free n (Nat.le_refl _)
    obtain ⟨d', linked, data, next, names⟩ := Disk.link_ok found absent
    have frame : CallFrame r.call.leafhash d d' :=
      CallFrame.link (Or.inl rfl) found absent (Or.inr ⟨n, rfl⟩) data next names
    have holds : SeqHolds d' n r.call.leaf := ⟨i, by rw [names, if_pos rfl], by rw [data, content]⟩
    have kept : ∀ p, p ≠ .seq n → d'.lookup p = d.lookup p := fun p other => by
      rw [names, if_neg other]
    rw [linkSeq, linked]
    refine ⟨n + 1, StepOk.held held (Nat.le_succ _) ?_ frame (Nat.le_succ _) small ?_
      (Or.inr ⟨by simp [Running.after, pc], rfl⟩)⟩
    · refine ⟨by omega, fun k less => ?_, fun k beyond => ?_, fun g missing => ?_,
        fun g node present => ?_⟩
      · rcases Nat.lt_succ_iff_lt_or_eq.mp less with before | rfl
        · obtain ⟨x, old, known⟩ := ok.seqs k before
          exact ⟨x, old.kept frame, known⟩
        · exact ⟨_, holds, member⟩
      · have other : k ≠ n := by omega
        rw [kept _ (by simpa using other), ok.free k (by omega)]
      · rw [kept _ (by simp)] at missing ⊢
        exact ok.leafTmps g missing
      · rw [kept _ (by simp)] at present
        obtain ⟨s, x, index, bound, old, hashed⟩ := ok.leaves g node present
        exact ⟨s, x, index.kept (leaf_not_private g) frame, bound, old.kept frame, hashed⟩
    · simp only [RunOk, Running.after, pc]
      refine ⟨⟨i, by rw [kept _ (by simp), found], by rw [data, content]⟩,
        by rw [kept _ (by simp), free], holds, small, rfl⟩

theorem createLeafTmp_ok (ok : DirectoryOk h used d m) (low : n ≤ m) (small : n < 2 ^ 64) {s : Nat}
    (pc : r.pc = .createLeafTmp s) (runs : RunOk d r) :
    StepOk h used d m r n (createLeafTmp r.call n d s) m := by
  simp only [RunOk, pc] at runs
  obtain ⟨pending, free, linked⟩ := runs
  have frame : CallFrame r.call.leafhash d (d.create (.leafTmp r.call.leafhash)) :=
    CallFrame.create (Or.inr rfl)
  have pending' : PendingHolds (d.create (.leafTmp r.call.leafhash)) r.call :=
    pending.kept (by simp [Disk.lookup_create]) fun i found =>
      Function.update_of_ne (Nat.ne_of_lt (d.lookup_lt _ found)) _ _
  rw [createLeafTmp_free free]
  refine StepOk.held (by rw [pc]; trivial) (Nat.le_refl _) (ok.kept frame ?_ ?_ ?_) frame low small ?_
    (Or.inl ⟨by simp [Running.after, pc], rfl⟩)
  · intro k
    simp [Disk.lookup_create]
  · simp [Disk.lookup_create]
  · obtain ⟨i, found, _⟩ := pending'
    intro missing
    rw [missing] at found
    cases found
  · simp only [RunOk, Running.after, pc]
    refine ⟨pending', ⟨by simp [Disk.lookup_create], fun q shared => ?_⟩, linked.1.kept frame,
      linked.2.1, linked.2.2⟩
    rw [Disk.lookup_create] at shared
    split at shared
    next here => exact here
    · exact absurd (d.lookup_lt q shared) (Nat.lt_irrefl _)

theorem writeLeafTmp_ok (ok : DirectoryOk h used d m) (low : n ≤ m) (small : n < 2 ^ 64) {s fd : Nat}
    (pc : r.pc = .writeLeafTmp s fd) (runs : RunOk d r) :
    StepOk h used d m r n ⟨d.write fd (formatUint 16 s), n, .goto (.linkLeaf s)⟩ m := by
  simp only [RunOk, pc] at runs
  obtain ⟨pending, sole, linked⟩ := runs
  have frame : CallFrame r.call.leafhash d (d.write fd (formatUint 16 s)) :=
    CallFrame.write (Or.inr rfl) sole _
  refine StepOk.held (by rw [pc]; trivial) (Nat.le_refl _)
    (ok.kept frame (fun _ => rfl) rfl ?_) frame low small ?_ (Or.inl ⟨by simp [Running.after, pc], rfl⟩)
  · obtain ⟨i, found, _⟩ := pending
    intro missing
    rw [Disk.lookup_write, found] at missing
    cases missing
  · simp only [RunOk, Running.after, pc]
    refine ⟨pending.kept rfl fun i found => Function.update_of_ne ?_ _ _,
      ⟨fd, sole.1, Function.update_self _ _ _⟩, linked.1.kept frame, linked.2.1, linked.2.2⟩
    rintro rfl
    have wrong := sole.2 _ found
    cases wrong

theorem linkLeaf_ok (ok : DirectoryOk h used d m) (low : n ≤ m) (small : n < 2 ^ 64) {s : Nat}
    (hashed : h.hashLeaf r.call.leaf = r.call.leafhash) (pc : r.pc = .linkLeaf s)
    (runs : RunOk d r) : StepOk h used d m r n (linkLeaf r.call n d s) m := by
  have held : Holding r.pc := by rw [pc]; trivial
  simp only [RunOk, pc] at runs
  obtain ⟨pending, ⟨j, found, content⟩, linked⟩ := runs
  cases present : d.lookup (.leaf r.call.leafhash) with
  | some node =>
    rw [linkLeaf_taken found present]
    refine StepOk.held held (Nat.le_refl _) ok (CallFrame.refl _ _) low small ?_
      (Or.inl ⟨by simp [Running.after, pc], rfl⟩)
    simp only [RunOk, Running.after, pc]
    exact ⟨pending, s, rfl, linked⟩
  | none =>
    obtain ⟨d', links, data, next, names⟩ := Disk.link_ok found present
    have frame : CallFrame r.call.leafhash d d' :=
      CallFrame.link (Or.inr rfl) found present (Or.inl rfl) data next names
    have kept : ∀ p, p ≠ .leaf r.call.leafhash → d'.lookup p = d.lookup p := fun p other => by
      rw [names, if_neg other]
    rw [linkLeaf, links]
    refine StepOk.held held (Nat.le_refl _) ?_ frame low small ?_
      (Or.inl ⟨by simp [Running.after, pc], rfl⟩)
    · refine ⟨ok.bound, fun k less => ?_, fun k beyond => ?_, fun g missing => ?_,
        fun g node found' => ?_⟩
      · obtain ⟨x, old, known⟩ := ok.seqs k less
        exact ⟨x, old.kept frame, known⟩
      · rw [kept _ (by simp), ok.free k beyond]
      · rw [kept _ (by simp)] at missing ⊢
        exact ok.leafTmps g missing
      · by_cases own : g = r.call.leafhash
        · subst own
          exact ⟨s, r.call.leaf, ⟨j, by rw [names, if_pos rfl], by rw [data, content]⟩,
            linked.2.1, linked.1.kept frame, hashed⟩
        · rw [kept _ (by simpa using own)] at found'
          obtain ⟨t, x, index, bound, old, same⟩ := ok.leaves g node found'
          exact ⟨t, x, index.kept (leaf_not_private g) frame, bound, old.kept frame, same⟩
    · simp only [RunOk, Running.after, pc]
      exact ⟨pending.kept (kept _ (by simp)) fun _ _ => by rw [data], s, rfl, linked.1.kept frame,
        linked.2.1, linked.2.2⟩

theorem removeLeafTmp_ok (ok : DirectoryOk h used d m) (low : n ≤ m) (small : n < 2 ^ 64)
    {result : SequenceResult} (pc : r.pc = .removeLeafTmp result) (runs : RunOk d r) :
    StepOk h used d m r n ⟨removed d (.leafTmp r.call.leafhash), n, .goto (.removeTmp result)⟩ m := by
  simp only [RunOk, pc] at runs
  obtain ⟨pending, s, rfl, linked⟩ := runs
  have frame : CallFrame r.call.leafhash d (removed d (.leafTmp r.call.leafhash)) :=
    CallFrame.removed (Or.inr rfl)
  have free : (removed d (.leafTmp r.call.leafhash)).lookup (.leafTmp r.call.leafhash) = none := by
    rw [removed_lookup, if_pos rfl]
  refine StepOk.held (by rw [pc]; trivial) (Nat.le_refl _)
    (ok.kept frame ?_ ?_ fun _ => free) frame low small ?_ (Or.inl ⟨by simp [Running.after, pc], rfl⟩)
  · intro k
    simp [removed_lookup]
  · simp [removed_lookup]
  · simp only [RunOk, Running.after, pc]
    exact ⟨pending.kept (by simp [removed_lookup]) fun _ _ => by rw [removed_data], free, s, rfl,
      linked.1.kept frame, linked.2.1, linked.2.2⟩

theorem removeTmp_ok (ok : DirectoryOk h used d m) (low : n ≤ m) (small : n < 2 ^ 64)
    {result : SequenceResult} (pc : r.pc = .removeTmp result) (runs : RunOk d r) :
    StepOk h used d m r n ⟨removed d (.pending r.call.leafhash), n, .finish result⟩ m := by
  have held : Holding r.pc := by rw [pc]; trivial
  simp only [RunOk, pc] at runs
  obtain ⟨pending, free, s, rfl, linked⟩ := runs
  have frame : CallFrame r.call.leafhash d (removed d (.pending r.call.leafhash)) :=
    CallFrame.removed (Or.inl rfl)
  refine ⟨Nat.le_refl _, ok.kept frame (fun k => ?_) ?_ fun _ => ?_, frame, ⟨low, small⟩,
    fun outside => absurd held outside, (fun _ wrong => by cases wrong), fun result same => ?_⟩
  · simp [removed_lookup]
  · simp [removed_lookup]
  · simp [removed_lookup, free]
  · obtain rfl := Continuation.finish.inj same
    exact ⟨rfl, Or.inl ⟨s, rfl, linked.2.2, linked.1.kept frame⟩⟩

/-- One step of a call keeps the directory in order, changes no other call's files and either goes on,
adds the next number, or returns. -/
theorem sequenceStep_ok (ok : DirectoryOk h used d m) (low : n ≤ m) (small : n < 2 ^ 64)
    (member : used r.call.leaf) (hashed : h.hashLeaf r.call.leaf = r.call.leafhash)
    (runs : RunOk d r) : ∃ m', StepOk h used d m r n (sequenceStep r.call n d r.pc) m' := by
  cases pc : r.pc with
  | readLeaf => exact ⟨m, readLeaf_ok ok low small pc runs⟩
  | createTmp => exact ⟨m, createTmp_ok ok low small pc runs⟩
  | writeTmp fd => exact ⟨m, writeTmp_ok ok low small pc runs⟩
  | linkSeq => exact linkSeq_ok ok low small member pc runs
  | createLeafTmp s => exact ⟨m, createLeafTmp_ok ok low small pc runs⟩
  | writeLeafTmp s fd => exact ⟨m, writeLeafTmp_ok ok low small pc runs⟩
  | linkLeaf s => exact ⟨m, linkLeaf_ok ok low small hashed pc runs⟩
  | removeLeafTmp result => exact ⟨m, removeLeafTmp_ok ok low small pc runs⟩
  | removeTmp result => exact ⟨m, removeTmp_ok ok low small pc runs⟩

end Step

section System

variable {h : LogHasher} {used : Bytes → Prop}

def addedBy (σ : SequenceSystem) (p s : Nat) : Prop :=
  ∃ n r, σ.processes p = some ⟨n, some r⟩ ∧ r.added = some s

/-- The invariant of the sequencing processes. -/
structure Safe (h : LogHasher) (used : Bytes → Prop) (σ : SequenceSystem) (m : Nat) : Prop where
  directory : DirectoryOk h used σ.disk m
  nextSeq : ∀ p process, σ.processes p = some process → process.nextSeq ≤ m ∧ process.nextSeq < 2 ^ 64
  calls : ∀ p n r, σ.processes p = some ⟨n, some r⟩ →
    RunOk σ.disk r ∧ h.hashLeaf r.call.leaf = r.call.leafhash ∧ used r.call.leaf
  exclusive : ∀ p n r p' n' r', σ.processes p = some ⟨n, some r⟩ →
    σ.processes p' = some ⟨n', some r'⟩ → Holding r.pc → Holding r'.pc →
    r.call.leafhash = r'.call.leafhash → p = p'
  distinct : ∀ p p' s, addedBy σ p s → addedBy σ p' s → p = p'
  notReturned : ∀ p s, addedBy σ p s → s ∉ σ.returned.filterMap Returned.added
  returnedOnce : (σ.returned.filterMap Returned.added).Nodup
  returned : ∀ ρ ∈ σ.returned, ReturnedOk h σ.disk ρ

theorem Safe.process_ok {σ : SequenceSystem} {m p n : Nat} {r : Running} (safe : Safe h used σ m)
    (found : σ.processes p = some ⟨n, some r⟩) :
    ∃ m', StepOk h used σ.disk m r n (sequenceStep r.call n σ.disk r.pc) m' := by
  obtain ⟨low, small⟩ := safe.nextSeq p _ found
  obtain ⟨runs, hashed, member⟩ := safe.calls p n r found
  exact sequenceStep_ok safe.directory low small member hashed runs

theorem ReturnedOk.kept {hash : Bytes} {d d' : LogDisk} {ρ : Returned} (ok : ReturnedOk h d ρ)
    (frame : CallFrame hash d d') : ReturnedOk h d' ρ := by
  rcases ok with ⟨s, result, added, holds⟩ | ⟨s, x, result, added, holds, hashed⟩ | other
  · exact Or.inl ⟨s, result, added, holds.kept frame⟩
  · exact Or.inr (Or.inl ⟨s, x, result, added, holds.kept frame, hashed⟩)
  · exact Or.inr (Or.inr other)

theorem Linked.kept {hash : Bytes} {d d' : LogDisk} {r : Running} {s : Nat} (linked : Linked d r s)
    (frame : CallFrame hash d d') : Linked d' r s :=
  ⟨linked.1.kept frame, linked.2⟩

-- A step of another call leaves alone what a call relies on.
theorem RunOk.kept {hash : Bytes} {d d' : LogDisk} {r : Running} (runs : RunOk d r)
    (other : Holding r.pc → r.call.leafhash ≠ hash) (frame : CallFrame hash d d') : RunOk d' r := by
  by_cases held : Holding r.pc
  · have apart := other held
    have pendingName : ∀ node, d.lookup (.pending r.call.leafhash) = some node →
        d'.lookup (.pending r.call.leafhash) = some node := fun node =>
      frame.kept (pending_private apart)
    have pending : PendingHolds d r.call → PendingHolds d' r.call := by
      rintro ⟨i, found, content⟩
      exact ⟨i, pendingName _ found, by rw [frame.data _ i (pending_private apart) found, content]⟩
    have free : d.lookup (.leafTmp r.call.leafhash) = none →
        d'.lookup (.leafTmp r.call.leafhash) = none := by
      intro missing
      rcases frame.names _ (leafTmp_private apart) with same | ⟨_, wrong | ⟨_, wrong⟩⟩
      · rw [same, missing]
      · cases wrong
      · cases wrong
    unfold RunOk at runs ⊢
    cases pc : r.pc with
    | readLeaf => rwa [pc] at runs
    | createTmp => rwa [pc] at runs
    | writeTmp fd =>
      rw [pc] at runs
      exact ⟨frame.sole _ fd (pending_private apart) runs.1, free runs.2.1, runs.2.2⟩
    | linkSeq =>
      rw [pc] at runs
      exact ⟨pending runs.1, free runs.2.1, runs.2.2⟩
    | createLeafTmp s =>
      rw [pc] at runs
      exact ⟨pending runs.1, free runs.2.1, runs.2.2.kept frame⟩
    | writeLeafTmp s fd =>
      rw [pc] at runs
      exact ⟨pending runs.1, frame.sole _ fd (leafTmp_private apart) runs.2.1, runs.2.2.kept frame⟩
    | linkLeaf s =>
      rw [pc] at runs
      exact ⟨pending runs.1, runs.2.1.kept (leafTmp_private apart) frame, runs.2.2.kept frame⟩
    | removeLeafTmp result =>
      rw [pc] at runs
      obtain ⟨holds, s, same, linked⟩ := runs
      exact ⟨pending holds, s, same, linked.kept frame⟩
    | removeTmp result =>
      rw [pc] at runs
      obtain ⟨holds, missing, s, same, linked⟩ := runs
      exact ⟨pending holds, free missing, s, same, linked.kept frame⟩
  · unfold RunOk at runs ⊢
    cases pc : r.pc <;> rw [pc] at runs held <;> first | exact runs | exact absurd trivial held

theorem RunOk.added {d : LogDisk} {r : Running} {s : Nat} (runs : RunOk d r)
    (added : r.added = some s) : SeqHolds d s r.call.leaf := by
  have linked : ∀ {t : Nat}, Linked d r t → SeqHolds d s r.call.leaf := by
    intro t linked
    obtain rfl : t = s := Option.some.inj (linked.2.2.symm.trans added)
    exact linked.1
  unfold RunOk at runs
  split at runs
  · simp [added] at runs
  · simp [added] at runs
  · simp [added] at runs
  · simp [added] at runs
  · exact linked runs.2.2
  · exact linked runs.2.2
  · exact linked runs.2.2
  · obtain ⟨_, t, _, found⟩ := runs
    exact linked found
  · obtain ⟨_, _, t, _, found⟩ := runs
    exact linked found

theorem RunOk.pending {d : LogDisk} {r : Running} (runs : RunOk d r) (held : Holding r.pc) :
    d.lookup (.pending r.call.leafhash) ≠ none := by
  have some' : ∀ {i}, d.lookup (.pending r.call.leafhash) = some (.file i) →
      d.lookup (.pending r.call.leafhash) ≠ none := fun found => by rw [found]; simp
  unfold RunOk at runs
  cases pc : r.pc <;> rw [pc] at runs held
  case readLeaf => exact absurd held id
  case createTmp => exact absurd held id
  case writeTmp => exact some' runs.1.1
  all_goals
    obtain ⟨⟨i, found, _⟩, _⟩ := runs
    exact some' found

theorem ReturnedOk.added {d : LogDisk} {ρ : Returned} {s : Nat} (ok : ReturnedOk h d ρ)
    (added : ρ.added = some s) : SeqHolds d s ρ.call.leaf := by
  rcases ok with ⟨t, _, same, holds⟩ | ⟨_, _, _, none, _⟩ | ⟨_, _, none⟩
  · obtain rfl : t = s := Option.some.inj (same.symm.trans added)
    exact holds
  · rw [none] at added
    cases added
  · rw [none] at added
    cases added

variable {σ : SequenceSystem} {m : Nat}

theorem setProcess_own (p : Nat) (process : Option Process) :
    (σ.setProcess p process).processes p = process := Function.update_self _ _ _

theorem setProcess_other {p q : Nat} (process : Option Process) (other : q ≠ p) :
    (σ.setProcess p process).processes q = σ.processes q := Function.update_of_ne other _ _

theorem setProcess_cases {p q : Nat} {process : Option Process} {one : Process}
    (found : (σ.setProcess p process).processes q = some one) :
    (q = p ∧ process = some one) ∨ (q ≠ p ∧ σ.processes q = some one) := by
  by_cases own : q = p
  · subst own
    rw [setProcess_own] at found
    exact Or.inl ⟨rfl, found⟩
  · rw [setProcess_other _ own] at found
    exact Or.inr ⟨own, found⟩

theorem Safe.seq_lt (safe : Safe h used σ m) {p s : Nat} (added : addedBy σ p s) : s < m := by
  obtain ⟨n, r, found, same⟩ := added
  exact safe.directory.seq_lt ((safe.calls p n r found).1.added same)

theorem Safe.returned_lt (safe : Safe h used σ m) {s : Nat}
    (member : s ∈ σ.returned.filterMap Returned.added) : s < m := by
  obtain ⟨ρ, inside, added⟩ := List.mem_filterMap.mp member
  exact safe.directory.seq_lt ((safe.returned ρ inside).added added)

-- A process may start, stop or begin a call at any time.
theorem Safe.set (safe : Safe h used σ m) (p : Nat) {process : Option Process}
    (nextSeq : ∀ one, process = some one → one.nextSeq ≤ m ∧ one.nextSeq < 2 ^ 64)
    (begins : ∀ n r, process = some ⟨n, some r⟩ → RunOk σ.disk r ∧
      h.hashLeaf r.call.leaf = r.call.leafhash ∧ used r.call.leaf ∧ ¬ Holding r.pc ∧
      r.added = none) : Safe h used (σ.setProcess p process) m := by
  have before : ∀ {q s}, addedBy (σ.setProcess p process) q s → addedBy σ q s := by
    rintro q s ⟨n, r, found, added⟩
    rcases setProcess_cases found with ⟨_, new⟩ | ⟨_, old⟩
    · rw [(begins n r new).2.2.2.2] at added
      cases added
    · exact ⟨n, r, old, added⟩
  refine ⟨safe.directory, fun q one found => ?_, fun q n r found => ?_, ?_,
    fun q q' s left right => safe.distinct q q' s (before left) (before right),
    fun q s added => safe.notReturned q s (before added), safe.returnedOnce, safe.returned⟩
  · rcases setProcess_cases found with ⟨_, new⟩ | ⟨_, old⟩
    · exact nextSeq one new
    · exact safe.nextSeq q one old
  · rcases setProcess_cases found with ⟨_, new⟩ | ⟨_, old⟩
    · obtain ⟨runs, hashed, known, _⟩ := begins n r new
      exact ⟨runs, hashed, known⟩
    · exact safe.calls q n r old
  · intro q n r q' n' r' left right held held' same
    rcases setProcess_cases left with ⟨_, new⟩ | ⟨_, old⟩
    · exact absurd held (begins n r new).2.2.2.1
    · rcases setProcess_cases right with ⟨_, new⟩ | ⟨_, old'⟩
      · exact absurd held' (begins n' r' new).2.2.2.1
      · exact safe.exclusive q n r q' n' r' old old' held held' same

-- What the other calls rely on is still there after a step.
theorem Safe.others (safe : Safe h used σ m) {p n : Nat} {r : Running}
    (found : σ.processes p = some ⟨n, some r⟩) {after : CallState} {m' : Nat}
    (stepOk : StepOk h used σ.disk m r n after m') {q n' : Nat} {r' : Running} (other : q ≠ p)
    (present : σ.processes q = some ⟨n', some r'⟩) : RunOk after.disk r' := by
  have runs := (safe.calls q n' r' present).1
  by_cases conflict : Holding r'.pc ∧ r'.call.leafhash = r.call.leafhash
  · obtain ⟨held', same⟩ := conflict
    have outside : ¬ Holding r.pc := fun held =>
      other (safe.exclusive q n' r' p n r present found held' held same)
    rw [stepOk.untouched outside (by rw [← same]; exact runs.pending held')]
    exact runs
  · exact runs.kept (fun held same => conflict ⟨held, same⟩) stepOk.frame

-- Whoever holds the pending file of a leaf held it before, or has just created it.
theorem Safe.pending_apart (safe : Safe h used σ m) {p n : Nat} {r : Running}
    (found : σ.processes p = some ⟨n, some r⟩) {pc : SequencePc}
    (acquires : ¬ Holding r.pc → Holding pc → σ.disk.lookup (.pending r.call.leafhash) = none)
    {q n' : Nat} {r' : Running} (other : q ≠ p) (present : σ.processes q = some ⟨n', some r'⟩)
    (held' : Holding r'.pc) (held : Holding pc) : r'.call.leafhash ≠ r.call.leafhash := by
  intro same
  by_cases before : Holding r.pc
  · exact other (safe.exclusive q n' r' p n r present found held' before same)
  · have pending := (safe.calls q n' r' present).1.pending held'
    rw [same] at pending
    exact pending (acquires before held)

theorem Safe.goes (safe : Safe h used σ m) {p n : Nat} {r : Running}
    (found : σ.processes p = some ⟨n, some r⟩) {after : CallState} {m' : Nat}
    (stepOk : StepOk h used σ.disk m r n after m') {pc : SequencePc} (next : after.next = .goto pc) :
    Safe h used { σ.setProcess p (some ⟨after.nextSeq, some (r.after n pc)⟩) with
      disk := after.disk } m' := by
  obtain ⟨runs, acquires, added⟩ := stepOk.goes pc next
  obtain ⟨_, hashed, known⟩ := safe.calls p n r found
  have split : ∀ {q one}, (σ.setProcess p (some ⟨after.nextSeq, some (r.after n pc)⟩)).processes q =
      some one → (q = p ∧ one = ⟨after.nextSeq, some (r.after n pc)⟩) ∨
        (q ≠ p ∧ σ.processes q = some one) := fun present =>
    (setProcess_cases present).imp_left fun ⟨own, new⟩ => ⟨own, (Option.some.inj new).symm⟩
  -- A number that someone has added is an old one or the one just linked.
  have before : ∀ {q s}, addedBy { σ.setProcess p (some ⟨after.nextSeq, some (r.after n pc)⟩) with
      disk := after.disk } q s → addedBy σ q s ∨ (q = p ∧ s = m) := by
    rintro q s ⟨n', r', present, same⟩
    rcases split present with ⟨rfl, new⟩ | ⟨_, old⟩
    · obtain ⟨rfl, rfl⟩ : n' = after.nextSeq ∧ r' = r.after n pc := by simpa using new
      rcases added with ⟨kept, _⟩ | ⟨linked, _⟩
      · exact Or.inl ⟨n, r, found, by rw [← kept, same]⟩
      · exact Or.inr ⟨rfl, Option.some.inj (same.symm.trans linked)⟩
    · exact Or.inl ⟨n', r', old, same⟩
  refine ⟨stepOk.ok, fun q one present => ?_, fun q n' r' present => ?_, ?_, ?_, ?_,
    safe.returnedOnce, fun ρ member => (safe.returned ρ member).kept stepOk.frame⟩
  · rcases split present with ⟨_, rfl⟩ | ⟨_, old⟩
    · exact stepOk.nextSeq
    · obtain ⟨low, small⟩ := safe.nextSeq q one old
      exact ⟨Nat.le_trans low stepOk.grows, small⟩
  · rcases split present with ⟨_, new⟩ | ⟨other, old⟩
    · obtain ⟨rfl, rfl⟩ : n' = after.nextSeq ∧ r' = r.after n pc := by simpa using new
      exact ⟨runs, hashed, known⟩
    · exact ⟨safe.others found stepOk other old, (safe.calls q n' r' old).2⟩
  · intro q n1 r1 q' n2 r2 left right held held' same
    rcases split left with ⟨rfl, new⟩ | ⟨other, old⟩
    · obtain ⟨rfl, rfl⟩ : n1 = after.nextSeq ∧ r1 = r.after n pc := by simpa using new
      rcases split right with ⟨rfl, _⟩ | ⟨other', old'⟩
      · rfl
      · exact absurd same.symm (safe.pending_apart found acquires other' old' held' held)
    · rcases split right with ⟨rfl, new⟩ | ⟨other', old'⟩
      · obtain ⟨rfl, rfl⟩ : n2 = after.nextSeq ∧ r2 = r.after n pc := by simpa using new
        exact absurd same (safe.pending_apart found acquires other old held held')
      · exact safe.exclusive q n1 r1 q' n2 r2 old old' held held' same
  · intro q q' s left right
    rcases before left with old | ⟨rfl, rfl⟩
    · rcases before right with old' | ⟨rfl, rfl⟩
      · exact safe.distinct q q' s old old'
      · exact absurd (safe.seq_lt old) (Nat.lt_irrefl _)
    · rcases before right with old' | ⟨rfl, _⟩
      · exact absurd (safe.seq_lt old') (Nat.lt_irrefl _)
      · rfl
  · intro q s now
    rcases before now with old | ⟨_, rfl⟩
    · exact safe.notReturned q s old
    · intro member
      exact absurd (safe.returned_lt member) (Nat.lt_irrefl _)

theorem Safe.ends (safe : Safe h used σ m) {p n : Nat} {r : Running}
    (found : σ.processes p = some ⟨n, some r⟩) {after : CallState} {m' : Nat}
    (stepOk : StepOk h used σ.disk m r n after m') {result : SequenceResult}
    (next : after.next = .finish result) :
    Safe h used { σ.setProcess p (some ⟨after.nextSeq, none⟩) with
      disk := after.disk
      returned := σ.returned ++ [⟨r.call, result, r.added⟩] } m' := by
  have old : ∀ {q n' r'}, (σ.setProcess p (some ⟨after.nextSeq, none⟩)).processes q =
      some ⟨n', some r'⟩ → q ≠ p ∧ σ.processes q = some ⟨n', some r'⟩ := by
    intro q n' r' present
    rcases setProcess_cases present with ⟨_, new⟩ | old
    · simp at new
    · exact old
  have before : ∀ {q s}, addedBy { σ.setProcess p (some ⟨after.nextSeq, none⟩) with
      disk := after.disk
      returned := σ.returned ++ [⟨r.call, result, r.added⟩] } q s → q ≠ p ∧ addedBy σ q s := by
    rintro q s ⟨n', r', present, same⟩
    exact ⟨(old present).1, n', r', (old present).2, same⟩
  have last : ([⟨r.call, result, r.added⟩] : List Returned).filterMap Returned.added =
      r.added.toList := by cases r.added <;> rfl
  refine ⟨stepOk.ok, fun q one present => ?_, fun q n' r' present => ?_, ?_, ?_, ?_, ?_, ?_⟩
  · rcases setProcess_cases present with ⟨_, new⟩ | ⟨_, old⟩
    · rw [← Option.some.inj new]
      exact stepOk.nextSeq
    · obtain ⟨low, small⟩ := safe.nextSeq q one old
      exact ⟨Nat.le_trans low stepOk.grows, small⟩
  · obtain ⟨other, present⟩ := old present
    exact ⟨safe.others found stepOk other present, (safe.calls q n' r' present).2⟩
  · intro q n1 r1 q' n2 r2 left right held held' same
    exact safe.exclusive q n1 r1 q' n2 r2 (old left).2 (old right).2 held held' same
  · intro q q' s left right
    exact safe.distinct q q' s (before left).2 (before right).2
  · intro q s now
    obtain ⟨other, added⟩ := before now
    rw [List.filterMap_append, last, List.mem_append]
    rintro (earlier | new)
    · exact safe.notReturned q s added earlier
    · exact other (safe.distinct q p s added ⟨n, r, found, by simpa using new⟩)
  · rw [List.filterMap_append, last]
    refine List.Nodup.append safe.returnedOnce (by cases r.added <;> simp) ?_
    intro s earlier new
    exact safe.notReturned p s ⟨n, r, found, by simpa using new⟩ earlier
  · intro ρ member
    rcases List.mem_append.mp member with earlier | new
    · exact (safe.returned ρ earlier).kept stepOk.frame
    · rw [List.mem_singleton.mp new]
      exact (stepOk.ends result next).2

/-- Every event keeps the invariant, and no sequence file changes or disappears. -/
theorem Safe.step (safe : Safe h used σ m) (event : SequenceEvent)
    (known : ∀ p leaf, event = .call p leaf → used leaf) :
    ∃ m', Safe h used (σ.step h event) m' ∧
      ∀ k x, SeqHolds σ.disk k x → SeqHolds (σ.step h event).disk k x := by
  cases event with
  | load p size =>
    simp only [SequenceSystem.step]
    split
    · split
      next loadable =>
        refine ⟨m, safe.set p (fun one same => ?_) fun n r same => by simp at same,
          fun k x holds => holds⟩
        obtain rfl := Option.some.inj same
        refine ⟨?_, loadable.1⟩
        by_contra large
        have has := loadable.2 m (by simpa using large)
        simp [Disk.has, safe.directory.free m (Nat.le_refl _)] at has
      · exact ⟨m, safe, fun k x holds => holds⟩
    · exact ⟨m, safe, fun k x holds => holds⟩
  | call p leaf =>
    simp only [SequenceSystem.step]
    split
    next n found =>
      refine ⟨m, safe.set p (fun one same => ?_) fun n' r same => ?_, fun k x holds => holds⟩
      · obtain rfl := Option.some.inj same
        exact safe.nextSeq p ⟨n, none⟩ found
      · obtain ⟨rfl, rfl⟩ : n = n' ∧ (⟨⟨h.hashLeaf leaf, leaf⟩, .readLeaf, none⟩ : Running) = r := by
          simpa using same
        exact ⟨rfl, rfl, known p leaf rfl, id, rfl⟩
    · exact ⟨m, safe, fun k x holds => holds⟩
  | step p =>
    simp only [SequenceSystem.step]
    split
    next n r found =>
      obtain ⟨m', stepOk⟩ := safe.process_ok found
      refine ⟨m', ?_⟩
      unfold SequenceSystem.stepProcess
      dsimp only
      split
      next pc next => exact ⟨safe.goes found stepOk next, fun k x holds => holds.kept stepOk.frame⟩
      next result next =>
        exact ⟨safe.ends found stepOk next, fun k x holds => holds.kept stepOk.frame⟩
    · exact ⟨m, safe, fun k x holds => holds⟩
  | crash p =>
    have stopped : Safe h used (σ.setProcess p none) m :=
      safe.set p (fun one same => by cases same) fun n r same => by cases same
    exact ⟨m, stopped, fun k x holds => holds⟩

theorem initial_safe (h : LogHasher) (used : Bytes → Prop) : Safe h used .initial 0 where
  directory := ⟨by decide, by simp, fun k _ => Disk.lookup_empty _, fun g _ => Disk.lookup_empty _,
    fun g node found => by simp [SequenceSystem.initial] at found⟩
  nextSeq p one found := by simp [SequenceSystem.initial] at found
  calls p n r found := by simp [SequenceSystem.initial] at found
  exclusive p n r p' n' r' found := by simp [SequenceSystem.initial] at found
  distinct p p' s added := by obtain ⟨n, r, found, _⟩ := added; simp [SequenceSystem.initial] at found
  notReturned p s added := by obtain ⟨n, r, found, _⟩ := added; simp [SequenceSystem.initial] at found
  returnedOnce := by simp [SequenceSystem.initial]
  returned ρ member := by simp [SequenceSystem.initial] at member

def Submitted (events : List SequenceEvent) (leaf : Bytes) : Prop :=
  ∃ p, SequenceEvent.call p leaf ∈ events

theorem Safe.run (safe : Safe h used σ m) (events : List SequenceEvent)
    (known : ∀ leaf, Submitted events leaf → used leaf) :
    ∃ m', Safe h used (events.foldl (SequenceSystem.step h) σ) m' ∧
      ∀ k x, SeqHolds σ.disk k x → SeqHolds (events.foldl (SequenceSystem.step h) σ).disk k x := by
  induction events generalizing σ m with
  | nil => exact ⟨m, safe, fun k x holds => holds⟩
  | cons event rest ih =>
    obtain ⟨m1, first, kept⟩ := safe.step event fun p leaf same => known leaf ⟨p, by simp [same]⟩
    obtain ⟨m2, later, kept'⟩ := ih first fun leaf ⟨p, member⟩ => known leaf ⟨p, by simp [member]⟩
    exact ⟨m2, later, fun k x holds => kept' k x (kept k x holds)⟩

end System

end Serverless
