import TrillianServerless.Serverless.SequenceSafety

set_option autoImplicit false

namespace Serverless

open Go Merkle FileSystem

section Touched

variable (c : SequenceCall) (n : Nat) (d : LogDisk)

-- The name that a step creates or removes.
def Touches : SequencePc → Path → Prop
  | .createTmp, p | .removeTmp _, p => p = .pending c.leafhash
  | .linkSeq, p => p = .seq n
  | .createLeafTmp _, p | .removeLeafTmp _, p => p = .leafTmp c.leafhash
  | .linkLeaf _, p => p = .leaf c.leafhash
  | _, _ => False

variable {c n d}

theorem sequenceStep_lookup {pc : SequencePc} {p : Path} (other : ¬ Touches c n pc p) :
    (sequenceStep c n d pc).disk.lookup p = d.lookup p := by
  cases pc with
  | readLeaf =>
    simp only [sequenceStep, readLeaf]
    split
    · rfl
    · split <;> rfl
  | createTmp =>
    simp only [sequenceStep, createTmp]
    split
    · rfl
    next d' opened =>
      rw [(Disk.openExclusive_ok opened).2, Disk.lookup_create]
      exact if_neg other
  | writeTmp fd => rfl
  | linkSeq =>
    simp only [sequenceStep, linkSeq]
    split
    · split <;> rfl
    next d' linked =>
      obtain ⟨node, _, _, _, _, names⟩ := Disk.link_inv linked
      rw [names]
      exact if_neg other
  | createLeafTmp s =>
    simp only [sequenceStep, createLeafTmp]
    split
    · rfl
    next d' opened =>
      rw [(Disk.openExclusive_ok opened).2, Disk.lookup_create]
      exact if_neg other
  | writeLeafTmp s fd => rfl
  | linkLeaf s =>
    simp only [sequenceStep, linkLeaf]
    split
    next d' linked =>
      obtain ⟨node, _, _, _, _, names⟩ := Disk.link_inv linked
      rw [names]
      exact if_neg other
    · split <;> rfl
  | removeLeafTmp result => exact (removed_lookup d _ p).trans (if_neg other)
  | removeTmp result => exact (removed_lookup d _ p).trans (if_neg other)

end Touched

-- The index file of the leaf is still to be linked.
def BeforeIndex : SequencePc → Prop
  | .readLeaf | .removeLeafTmp _ | .removeTmp _ => False
  | _ => True

def Deferred (pc : SequencePc) (result : SequenceResult) : Prop :=
  pc = .removeLeafTmp result ∨ pc = .removeTmp result

/-- With one process and no crash every leaf is indexed before its call returns. -/
structure Solo (h : LogHasher) (d : LogDisk) (running : Option Running) (returned : List Returned) :
    Prop where
  pendings : ∀ g, d.lookup (.pending g) ≠ none →
    ∃ r, running = some r ∧ Holding r.pc ∧ r.call.leafhash = g
  indexed : ∀ k x, SeqHolds d k x → IndexHolds d (.leaf (h.hashLeaf x)) k ∨
    ∃ r, running = some r ∧ BeforeIndex r.pc ∧ r.added = some k
  fresh : ∀ r, running = some r → r.pc ≠ .readLeaf → ∀ ρ ∈ returned, ρ.call.leafhash ≠ r.call.leafhash
  absent : ∀ r, running = some r → BeforeIndex r.pc → d.lookup (.leaf r.call.leafhash) = none
  present : ∀ r result, running = some r → Deferred r.pc result →
    IndexHolds d (.leaf r.call.leafhash) result.1
  results : ∀ ρ ∈ returned, (ρ.result.2 = none ∨ ρ.result.2 = some errDupeLeaf) ∧
    IndexHolds d (.leaf ρ.call.leafhash) ρ.result.1
  ordered : returned.Pairwise fun earlier later => earlier.call.leafhash = later.call.leafhash →
    later.result = (earlier.result.1, some errDupeLeaf)

section Step

variable {h : LogHasher} {used : Bytes → Prop} {d : LogDisk} {m n : Nat} {r : Running}
  {returned : List Returned}

theorem IndexHolds.unique {p : Path} {s t : Nat} (left : IndexHolds d p s)
    (right : IndexHolds d p t) : s = t := by
  obtain ⟨i, found, content⟩ := left
  obtain ⟨j, found', content'⟩ := right
  obtain rfl : i = j := by simpa [found] using found'
  have bound : s + t < 2 ^ (s + t) := Nat.lt_two_pow_self
  have parsed := parseUint_formatUint 16 (by decide) (by decide) (show s < 2 ^ (s + t) by omega)
  rw [← content, content',
    parseUint_formatUint 16 (by decide) (by decide) (show t < 2 ^ (s + t) by omega)] at parsed
  exact (Option.some.inj parsed).symm

theorem IndexHolds.present {p : Path} {s : Nat} (holds : IndexHolds d p s) : d.lookup p ≠ none := by
  obtain ⟨i, found, _⟩ := holds
  rw [found]
  simp

-- No two sequence numbers have leaves of one hash.
theorem Solo.unique {running : Option Running} (solo : Solo h d running returned)
    (runs : ∀ r, running = some r → RunOk d r ∧
      h.hashLeaf r.call.leaf = r.call.leafhash)
    {k k' : Nat} {x x' : Bytes} (left : SeqHolds d k x) (right : SeqHolds d k' x')
    (same : h.hashLeaf x = h.hashLeaf x') : k = k' := by
  -- The leaf that is not indexed yet has no index file of its hash.
  have clash : ∀ {s t y z}, SeqHolds d s y → IndexHolds d (.leaf (h.hashLeaf z)) t →
      h.hashLeaf y = h.hashLeaf z → ∀ r, running = some r → BeforeIndex r.pc → r.added = some s →
      False := by
    intro s t y z holds index hashes r isRunning before added
    obtain ⟨i, found, content⟩ := holds
    obtain ⟨j, found', content'⟩ := (runs r isRunning).1.added added
    obtain rfl : i = j := by simpa [found] using found'
    have missing := solo.absent r isRunning before
    rw [← (runs r isRunning).2, ← content', content, hashes] at missing
    exact index.present missing
  rcases solo.indexed k x left with index | ⟨r, isRunning, before, added⟩
  · rcases solo.indexed k' x' right with index' | ⟨r, isRunning, before, added⟩
    · rw [same] at index
      exact index.unique index'
    · exact (clash right index same.symm r isRunning before added).elim
  · rcases solo.indexed k' x' right with index' | ⟨r', isRunning', _, added'⟩
    · exact (clash left index' same r isRunning before added).elim
    · obtain rfl : r = r' := by simpa [isRunning] using isRunning'
      exact Option.some.inj (added.symm.trans added')

theorem IndexHolds.framed {d' : LogDisk} {hash g : Bytes} {s : Nat}
    (holds : IndexHolds d (.leaf g) s) (frame : CallFrame hash d d') : IndexHolds d' (.leaf g) s :=
  holds.kept (leaf_not_private g) frame

theorem Solo.seq_kept {d' : LogDisk} (seqs : ∀ k, d'.lookup (.seq k) = d.lookup (.seq k))
    {hash : Bytes} (frame : CallFrame hash d d') {k : Nat} {x : Bytes} (holds : SeqHolds d' k x) :
    SeqHolds d k x := by
  obtain ⟨i, found, content⟩ := holds
  rw [seqs] at found
  refine ⟨i, found, ?_⟩
  rw [← content, frame.data _ i _ found]
  rintro (same | same) <;> cases same

/-- A step that goes on inside the call without linking anything. -/
theorem Solo.goes (solo : Solo h d (some r) returned) {d' : LogDisk} {r' : Running}
    (frame : CallFrame r.call.leafhash d d') (call : r'.call = r.call)
    (pendings : ∀ g, g ≠ r.call.leafhash → d'.lookup (.pending g) = d.lookup (.pending g))
    (seqs : ∀ k, d'.lookup (.seq k) = d.lookup (.seq k)) (added : r'.added = r.added)
    (before : BeforeIndex r'.pc) (began : BeforeIndex r.pc)
    (leaf : d'.lookup (.leaf r.call.leafhash) = d.lookup (.leaf r.call.leafhash))
    (held : Holding r'.pc) : Solo h d' (some r') returned where
  pendings g found := by
    by_cases own : g = r.call.leafhash
    · exact ⟨r', rfl, held, by rw [call, own]⟩
    · rw [pendings g own] at found
      obtain ⟨r1, same, _, hash⟩ := solo.pendings g found
      obtain rfl := Option.some.inj same
      exact absurd hash.symm own
  indexed k x holds := by
    rcases solo.indexed k x (Solo.seq_kept seqs frame holds) with index | ⟨r1, same, _, number⟩
    · exact Or.inl (index.framed frame)
    · obtain rfl := Option.some.inj same
      exact Or.inr ⟨r', rfl, before, by rw [added, number]⟩
  fresh r1 same _ ρ member := by
    obtain rfl := Option.some.inj same
    rw [call]
    refine solo.fresh r rfl (fun first => ?_) ρ member
    rw [first] at began
    exact began
  absent r1 same _ := by
    obtain rfl := Option.some.inj same
    rw [call, leaf, solo.absent r rfl began]
  present r1 result same deferred := by
    obtain rfl := Option.some.inj same
    rcases deferred with pc | pc <;> rw [pc] at before <;> exact absurd before id
  results ρ member := ⟨(solo.results ρ member).1, (solo.results ρ member).2.framed frame⟩
  ordered := solo.ordered

-- What the step of a lone process has to show.
def SoloStep (h : LogHasher) (r : Running) (n : Nat) (returned : List Returned) (after : CallState) :
    Prop :=
  (∀ pc, after.next = .goto pc → Solo h after.disk (some (r.after n pc)) returned) ∧
  ∀ result, after.next = .finish result →
    Solo h after.disk none (returned ++ [⟨r.call, result, r.added⟩])

theorem SoloStep.of_goto {d' : LogDisk} {n' : Nat} {pc : SequencePc}
    (solo : Solo h d' (some (r.after n pc)) returned) :
    SoloStep h r n returned ⟨d', n', .goto pc⟩ :=
  ⟨fun next same => Continuation.goto.inj same ▸ solo, fun _ wrong => by cases wrong⟩

theorem SoloStep.of_finish {d' : LogDisk} {n' : Nat} {result : SequenceResult}
    (solo : Solo h d' none (returned ++ [⟨r.call, result, r.added⟩])) :
    SoloStep h r n returned ⟨d', n', .finish result⟩ :=
  ⟨(fun _ wrong => by cases wrong), fun next same => Continuation.finish.inj same ▸ solo⟩

/-- A step that goes on after it has linked or removed a name of the call. -/
theorem Solo.moves (solo : Solo h d (some r) returned) {d' : LogDisk} {pc : SequencePc}
    (frame : CallFrame r.call.leafhash d d')
    (pendings : ∀ g, d'.lookup (.pending g) = d.lookup (.pending g)) (begun : r.pc ≠ .readLeaf)
    (held : Holding pc)
    (indexed : ∀ k x, SeqHolds d' k x → IndexHolds d' (.leaf (h.hashLeaf x)) k ∨
      BeforeIndex pc ∧ (r.after n pc).added = some k)
    (absent : BeforeIndex pc → d'.lookup (.leaf r.call.leafhash) = none)
    (present : ∀ result, Deferred pc result → IndexHolds d' (.leaf r.call.leafhash) result.1) :
    Solo h d' (some (r.after n pc)) returned where
  pendings g found := by
    rw [pendings] at found
    obtain ⟨r1, same, _, hash⟩ := solo.pendings g found
    obtain rfl := Option.some.inj same
    exact ⟨_, rfl, held, hash⟩
  indexed k x holds := (indexed k x holds).imp_right fun still => ⟨_, rfl, still⟩
  fresh r1 same _ ρ member := by
    obtain rfl := Option.some.inj same
    exact solo.fresh r rfl begun ρ member
  absent r1 same before := by
    obtain rfl := Option.some.inj same
    exact absent before
  present r1 result same deferred := by
    obtain rfl := Option.some.inj same
    exact present result deferred
  results ρ member := ⟨(solo.results ρ member).1, (solo.results ρ member).2.framed frame⟩
  ordered := solo.ordered

theorem Solo.no_pending (solo : Solo h d (some r) returned) (outside : ¬ Holding r.pc) (g : Bytes) :
    d.lookup (.pending g) = none := by
  by_contra found
  obtain ⟨r1, same, held, _⟩ := solo.pendings g found
  obtain rfl := Option.some.inj same
  exact outside held

theorem Solo.all_indexed (solo : Solo h d (some r) returned) (after : ¬ BeforeIndex r.pc) {k : Nat}
    {x : Bytes} (holds : SeqHolds d k x) : IndexHolds d (.leaf (h.hashLeaf x)) k := by
  rcases solo.indexed k x holds with index | ⟨r1, same, before, _⟩
  · exact index
  · obtain rfl := Option.some.inj same
    exact absurd before after

-- The call returns: its leaf is indexed under the number it returns.
theorem Solo.ends (solo : Solo h d (some r) returned) (after : ¬ BeforeIndex r.pc)
    {d' : LogDisk} (frame : CallFrame r.call.leafhash d d') {result : SequenceResult}
    (pendings : ∀ g, d'.lookup (.pending g) = none)
    (seqs : ∀ k, d'.lookup (.seq k) = d.lookup (.seq k))
    (good : result.2 = none ∨ result.2 = some errDupeLeaf)
    (index : IndexHolds d (.leaf r.call.leafhash) result.1)
    (order : ∀ ρ ∈ returned, ρ.call.leafhash = r.call.leafhash →
      result = (ρ.result.1, some errDupeLeaf)) :
    Solo h d' none (returned ++ [⟨r.call, result, r.added⟩]) where
  pendings g found := absurd (pendings g) found
  indexed k x holds := Or.inl ((solo.all_indexed after (Solo.seq_kept seqs frame holds)).framed frame)
  fresh r1 same := by cases same
  absent r1 same := by cases same
  present r1 result same := by cases same
  results ρ member := by
    rcases List.mem_append.mp member with earlier | new
    · exact ⟨(solo.results ρ earlier).1, (solo.results ρ earlier).2.framed frame⟩
    · rw [List.mem_singleton.mp new]
      exact ⟨good, index.framed frame⟩
  ordered := by
    rw [List.pairwise_append]
    refine ⟨solo.ordered, by simp, fun ρ earlier new member same => ?_⟩
    rw [List.mem_singleton.mp member] at same ⊢
    exact order ρ earlier same

theorem Solo.readLeaf (solo : Solo h d (some r) returned) (ok : DirectoryOk h used d m)
    (pc : r.pc = .readLeaf) : SoloStep h r n returned (readLeaf r.call n d) := by
  have outside : ¬ Holding r.pc := by rw [pc]; exact id
  have after : ¬ BeforeIndex r.pc := by rw [pc]; exact id
  cases found : d.lookup (.leaf r.call.leafhash) with
  | none =>
    rw [readLeaf_missing found]
    refine SoloStep.of_goto ⟨fun g present => absurd (solo.no_pending outside g) present,
      fun k x holds => Or.inl (solo.all_indexed after holds), fun r1 same _ ρ member hash => ?_,
      fun r1 same _ => ?_, fun r1 result same deferred => ?_, solo.results, solo.ordered⟩
    · obtain rfl := Option.some.inj same
      have index := (solo.results ρ member).2.present
      rw [hash] at index
      exact index found
    · obtain rfl := Option.some.inj same
      exact found
    · obtain rfl := Option.some.inj same
      rcases deferred with wrong | wrong <;> cases wrong
  | some node =>
    obtain ⟨s, x, index, bound, _, _⟩ := ok.leaves _ node found
    obtain ⟨j, file, content⟩ := index
    rw [readLeaf_found file content bound]
    refine SoloStep.of_finish (solo.ends after (CallFrame.refl _ _) (solo.no_pending outside)
      (fun _ => rfl) (Or.inr rfl) ⟨j, file, content⟩ fun ρ member hash => ?_)
    have same := (solo.results ρ member).2
    rw [hash] at same
    rw [same.unique ⟨j, file, content⟩]

theorem Solo.linkSeq (solo : Solo h d (some r) returned) (ok : DirectoryOk h used d m)
    (low : n ≤ m) (pc : r.pc = .linkSeq) (runs : RunOk d r) :
    SoloStep h r n returned (linkSeq r.call n d) := by
  have before : BeforeIndex r.pc := by rw [pc]; trivial
  simp only [RunOk, pc] at runs
  obtain ⟨⟨i, found, content⟩, _, none⟩ := runs
  rcases Nat.lt_or_ge n m with taken | new
  · obtain ⟨x, ⟨j, present, _⟩, _⟩ := ok.seqs n taken
    rw [linkSeq_taken found present]
    exact SoloStep.of_goto (solo.goes (CallFrame.refl _ _) rfl (fun _ _ => rfl) (fun _ => rfl)
      (by simp [Running.after, pc]) trivial before rfl trivial)
  · obtain rfl : n = m := by omega
    have absent := ok.free n (Nat.le_refl _)
    obtain ⟨d', linked, data, next, names⟩ := Disk.link_ok found absent
    have frame : CallFrame r.call.leafhash d d' :=
      CallFrame.link (Or.inl rfl) found absent (Or.inr ⟨n, rfl⟩) data next names
    have kept : ∀ p, p ≠ .seq n → d'.lookup p = d.lookup p := fun p other => by
      rw [names, if_neg other]
    rw [Serverless.linkSeq, linked]
    refine SoloStep.of_goto (solo.moves frame (fun g => kept _ (by simp)) (by simp [pc]) trivial
      (fun k x holds => ?_) (fun _ => ?_) fun result deferred => ?_)
    · by_cases here : k = n
      · exact Or.inr ⟨trivial, by simp [Running.after, pc, here]⟩
      · obtain ⟨j, file, same⟩ := holds
        rw [kept _ (by simpa using here)] at file
        rcases solo.indexed k x ⟨j, file, by rw [← data, same]⟩ with index | ⟨r1, own, _, added⟩
        · exact Or.inl (index.framed frame)
        · obtain rfl := Option.some.inj own
          rw [none] at added
          cases added
    · rw [kept _ (by simp)]
      exact solo.absent r rfl before
    · rcases deferred with wrong | wrong <;> cases wrong

theorem Solo.linkLeaf (solo : Solo h d (some r) returned) {s : Nat} (pc : r.pc = .linkLeaf s)
    (hashed : h.hashLeaf r.call.leaf = r.call.leafhash) (runs : RunOk d r) :
    SoloStep h r n returned (linkLeaf r.call n d s) := by
  have before : BeforeIndex r.pc := by rw [pc]; trivial
  simp only [RunOk, pc] at runs
  obtain ⟨_, ⟨j, found, content⟩, holds, _, added⟩ := runs
  have absent := solo.absent r rfl before
  obtain ⟨d', links, data, next, names⟩ := Disk.link_ok found absent
  have frame : CallFrame r.call.leafhash d d' :=
    CallFrame.link (Or.inr rfl) found absent (Or.inl rfl) data next names
  have kept : ∀ p, p ≠ .leaf r.call.leafhash → d'.lookup p = d.lookup p := fun p other => by
    rw [names, if_neg other]
  have index : IndexHolds d' (.leaf r.call.leafhash) s :=
    ⟨j, by rw [names, if_pos rfl], by rw [data, content]⟩
  rw [Serverless.linkLeaf, links]
  refine SoloStep.of_goto (solo.moves frame (fun g => kept _ (by simp)) (by simp [pc]) trivial
    (fun k x new => ?_) (fun wrong => absurd wrong id) fun result deferred => ?_)
  · have old := Solo.seq_kept (fun k => kept _ (by simp)) frame new
    rcases solo.indexed k x old with earlier | ⟨r1, own, _, number⟩
    · exact Or.inl (earlier.framed frame)
    · -- The one leaf without an index is that of this call.
      obtain rfl := Option.some.inj own
      obtain rfl : s = k := Option.some.inj (added.symm.trans number)
      obtain ⟨i, file, leaf⟩ := holds
      obtain ⟨i', file', leaf'⟩ := old
      obtain rfl : i = i' := by simpa [file] using file'
      rw [← leaf', leaf, hashed]
      exact Or.inl index
  · rcases deferred with here | wrong
    · obtain rfl := SequencePc.removeLeafTmp.inj here
      exact index
    · cases wrong

theorem Solo.removeLeafTmp (solo : Solo h d (some r) returned) {result : SequenceResult}
    (pc : r.pc = .removeLeafTmp result) :
    SoloStep h r n returned ⟨removed d (.leafTmp r.call.leafhash), n, .goto (.removeTmp result)⟩ := by
  have after : ¬ BeforeIndex r.pc := by rw [pc]; exact id
  have frame : CallFrame r.call.leafhash d (removed d (.leafTmp r.call.leafhash)) :=
    CallFrame.removed (Or.inr rfl)
  have kept : ∀ p, p ≠ .leafTmp r.call.leafhash →
      (removed d (.leafTmp r.call.leafhash)).lookup p = d.lookup p := fun p other => by
    rw [removed_lookup, if_neg other]
  refine SoloStep.of_goto (solo.moves frame (fun g => kept _ (by simp)) (by simp [pc]) trivial
    (fun k x holds => ?_) (fun wrong => absurd wrong id) fun result' deferred => ?_)
  · exact Or.inl ((solo.all_indexed after (Solo.seq_kept (fun k => kept _ (by simp)) frame
      holds)).framed frame)
  · rcases deferred with wrong | here
    · cases wrong
    · obtain rfl := SequencePc.removeTmp.inj here
      exact (solo.present r result rfl (Or.inl pc)).framed frame

theorem Solo.removeTmp (solo : Solo h d (some r) returned) {result : SequenceResult}
    (pc : r.pc = .removeTmp result) (runs : RunOk d r) :
    SoloStep h r n returned ⟨removed d (.pending r.call.leafhash), n, .finish result⟩ := by
  simp only [RunOk, pc] at runs
  obtain ⟨_, _, s, rfl, _⟩ := runs
  refine SoloStep.of_finish (solo.ends (by rw [pc]; exact id) (CallFrame.removed (Or.inl rfl))
    (fun g => ?_) (fun k => by simp [removed_lookup]) (Or.inl rfl)
    (solo.present r (s, none) rfl (Or.inr pc)) fun ρ member same => ?_)
  · rw [removed_lookup]
    by_cases own : g = r.call.leafhash
    · rw [if_pos (by rw [own])]
    · rw [if_neg (by simpa using own)]
      by_contra found
      obtain ⟨r1, same, _, hash⟩ := solo.pendings g found
      obtain rfl := Option.some.inj same
      exact own hash.symm
  · exact absurd same (solo.fresh r rfl (by rw [pc]; simp) ρ member)

-- A step that is neither of the two links changes no sequence file and no index file.
theorem untouched_links {p : Path} (began : BeforeIndex r.pc)
    (plain : ∀ k, r.pc ≠ .linkSeq ∧ r.pc ≠ .linkLeaf k)
    (target : (∃ k, p = .seq k) ∨ p = .leaf r.call.leafhash) :
    ¬ Touches r.call n r.pc p := by
  intro touches
  cases pc : r.pc <;> rw [pc] at touches began
  all_goals first
    | exact absurd pc (plain 0).1
    | exact absurd pc (plain _).2
    | exact began
    | (rcases target with ⟨k, rfl⟩ | rfl <;> cases touches)

theorem untouched_pending {g : Bytes} (other : g ≠ r.call.leafhash) :
    ¬ Touches r.call n r.pc (.pending g) := by
  intro touches
  cases pc : r.pc <;> rw [pc] at touches <;>
    first | exact other (Path.pending.inj touches) | cases touches

/-- The steps that link nothing and are followed by another step of the same kind. -/
theorem Solo.unlinked (solo : Solo h d (some r) returned) {d' : LogDisk} {pc : SequencePc}
    (stepped : sequenceStep r.call n d r.pc = ⟨d', n, .goto pc⟩)
    (frame : CallFrame r.call.leafhash d d') (began : BeforeIndex r.pc) (before : BeforeIndex pc)
    (held : Holding pc) (plain : ∀ k, r.pc ≠ .linkSeq ∧ r.pc ≠ .linkLeaf k) :
    SoloStep h r n returned (sequenceStep r.call n d r.pc) := by
  have same : (sequenceStep r.call n d r.pc).disk = d' := by rw [stepped]
  have untouched : ∀ p, ¬ Touches r.call n r.pc p → d'.lookup p = d.lookup p := fun p other => by
    rw [← same]
    exact sequenceStep_lookup other
  rw [stepped]
  refine SoloStep.of_goto (solo.goes frame rfl (fun g other => ?_)
    (fun k => untouched _ (untouched_links began plain (Or.inl ⟨k, rfl⟩))) ?_ before began
    (untouched _ (untouched_links began plain (Or.inr rfl))) held)
  · exact untouched _ (untouched_pending other)
  · unfold Running.after
    dsimp only
    split
    next first => exact absurd first (plain 0).1
    · rfl

theorem Solo.step (solo : Solo h d (some r) returned) (ok : DirectoryOk h used d m) (low : n ≤ m)
    (hashed : h.hashLeaf r.call.leaf = r.call.leafhash) (runs : RunOk d r) :
    SoloStep h r n returned (sequenceStep r.call n d r.pc) := by
  cases pc : r.pc with
  | readLeaf => exact solo.readLeaf ok pc
  | createTmp =>
    have free := solo.no_pending (by rw [pc]; exact id) r.call.leafhash
    have stepped : sequenceStep r.call n d r.pc =
        ⟨d.create (.pending r.call.leafhash), n, .goto (.writeTmp d.next)⟩ := by
      rw [pc]
      exact createTmp_free free
    rw [← pc]
    exact solo.unlinked stepped (CallFrame.create (Or.inl rfl)) (by rw [pc]; trivial) trivial trivial
      (by simp [pc])
  | writeTmp fd =>
    simp only [RunOk, pc] at runs
    have stepped : sequenceStep r.call n d r.pc =
        ⟨d.write fd r.call.leaf, n, .goto .linkSeq⟩ := by
      rw [pc]
      rfl
    rw [← pc]
    exact solo.unlinked stepped (CallFrame.write (Or.inl rfl) runs.1 _) (by rw [pc]; trivial) trivial trivial
      (by simp [pc])
  | linkSeq => exact solo.linkSeq ok low pc runs
  | createLeafTmp s =>
    simp only [RunOk, pc] at runs
    have stepped : sequenceStep r.call n d r.pc =
        ⟨d.create (.leafTmp r.call.leafhash), n, .goto (.writeLeafTmp s d.next)⟩ := by
      rw [pc]
      exact createLeafTmp_free runs.2.1
    rw [← pc]
    exact solo.unlinked stepped (CallFrame.create (Or.inr rfl)) (by rw [pc]; trivial) trivial trivial
      (by simp [pc])
  | writeLeafTmp s fd =>
    simp only [RunOk, pc] at runs
    have stepped : sequenceStep r.call n d r.pc =
        ⟨d.write fd (formatUint 16 s), n, .goto (.linkLeaf s)⟩ := by
      rw [pc]
      rfl
    rw [← pc]
    exact solo.unlinked stepped (CallFrame.write (Or.inr rfl) runs.2.1 _) (by rw [pc]; trivial) trivial
      trivial (by simp [pc])
  | linkLeaf s => exact solo.linkLeaf pc hashed runs
  | removeLeafTmp result => exact solo.removeLeafTmp pc
  | removeTmp result => exact solo.removeTmp pc runs

end Step

section Run

variable {h : LogHasher} {used : Bytes → Prop}

def SequenceEvent.process : SequenceEvent → Nat
  | .load p _ | .call p _ | .step p | .crash p => p

def SequenceEvent.isCrash : SequenceEvent → Bool
  | .crash _ => true
  | _ => false

-- A run in which one process does everything and is never killed.
def SingleProcess (events : List SequenceEvent) (p : Nat) : Prop :=
  ∀ event ∈ events, event.process = p ∧ event.isCrash = false

def SequenceSystem.running (σ : SequenceSystem) (p : Nat) : Option Running :=
  (σ.processes p).bind Process.running

theorem running_set (σ : SequenceSystem) (p : Nat) (process : Option Process) :
    (σ.setProcess p process).running p = process.bind Process.running := by
  rw [SequenceSystem.running, setProcess_own]

theorem running_of_found {σ : SequenceSystem} {p n : Nat} {running : Option Running}
    (found : σ.processes p = some ⟨n, running⟩) : σ.running p = running := by
  simp [SequenceSystem.running, found]

theorem Solo.run_step {σ : SequenceSystem} {m p : Nat} (safe : Safe h used σ m)
    (solo : Solo h σ.disk (σ.running p) σ.returned) {event : SequenceEvent}
    (own : event.process = p) (lives : event.isCrash = false) :
    Solo h (σ.step h event).disk ((σ.step h event).running p) (σ.step h event).returned := by
  cases event with
  | crash q => cases lives
  | load q size =>
    obtain rfl : q = p := own
    simp only [SequenceSystem.step]
    split
    next fresh =>
      split
      · have before : σ.running q = none := by simp [SequenceSystem.running, fresh]
        rw [before] at solo
        rw [running_set]
        exact solo
      · exact solo
    · exact solo
  | call q leaf =>
    obtain rfl : q = p := own
    simp only [SequenceSystem.step]
    split
    next n found =>
      rw [running_of_found found] at solo
      rw [running_set]
      refine ⟨fun g present => ?_, fun k x holds => ?_, fun r same first => ?_, fun r same before => ?_,
        fun r result same deferred => ?_, solo.results, solo.ordered⟩
      · obtain ⟨r, wrong, _⟩ := solo.pendings g present
        cases wrong
      · rcases solo.indexed k x holds with index | ⟨r, wrong, _⟩
        · exact Or.inl index
        · cases wrong
      · obtain rfl := Option.some.inj same
        exact absurd rfl first
      · obtain rfl := Option.some.inj same
        exact absurd before id
      · obtain rfl := Option.some.inj same
        rcases deferred with wrong | wrong <;> cases wrong
    · exact solo
  | step q =>
    obtain rfl : q = p := own
    simp only [SequenceSystem.step]
    split
    next n r found =>
      rw [running_of_found found] at solo
      obtain ⟨runs, hashed, _⟩ := safe.calls q n r found
      obtain ⟨goes, ends⟩ := solo.step (n := n) safe.directory (safe.nextSeq q _ found).1 hashed runs
      unfold SequenceSystem.stepProcess
      dsimp only
      split
      next pc next =>
        have solo' := goes pc next
        rw [show some (r.after n pc) = _ from (running_set σ q (some ⟨(sequenceStep r.call n σ.disk
          r.pc).nextSeq, some (r.after n pc)⟩)).symm] at solo'
        exact solo'
      next result next =>
        have solo' := ends result next
        rw [show (none : Option Running) = _ from (running_set σ q (some ⟨(sequenceStep r.call n σ.disk
          r.pc).nextSeq, none⟩)).symm] at solo'
        exact solo'
    · exact solo

theorem Solo.run {σ : SequenceSystem} {m p : Nat} (safe : Safe h used σ m)
    (solo : Solo h σ.disk (σ.running p) σ.returned) {events : List SequenceEvent}
    (known : ∀ leaf, Submitted events leaf → used leaf) (single : SingleProcess events p) :
    Solo h (events.foldl (SequenceSystem.step h) σ).disk
      ((events.foldl (SequenceSystem.step h) σ).running p)
      (events.foldl (SequenceSystem.step h) σ).returned := by
  induction events generalizing σ m with
  | nil => exact solo
  | cons event rest ih =>
    obtain ⟨own, lives⟩ := single event (by simp)
    obtain ⟨m1, first, _⟩ := safe.step event fun q leaf same => known leaf ⟨q, by simp [same]⟩
    exact ih first (solo.run_step safe own lives)
      (fun leaf ⟨q, member⟩ => known leaf ⟨q, by simp [member]⟩)
      fun other member => single other (by simp [member])

theorem initial_solo (h : LogHasher) (p : Nat) :
    Solo h SequenceSystem.initial.disk (SequenceSystem.initial.running p)
      SequenceSystem.initial.returned where
  pendings g present := absurd (Disk.lookup_empty _) present
  indexed k x holds := by
    obtain ⟨i, found, _⟩ := holds
    simp [SequenceSystem.initial] at found
  fresh r same := by simp [SequenceSystem.running, SequenceSystem.initial] at same
  absent r same := by simp [SequenceSystem.running, SequenceSystem.initial] at same
  present r result same := by simp [SequenceSystem.running, SequenceSystem.initial] at same
  results ρ member := by simp [SequenceSystem.initial] at member
  ordered := List.Pairwise.nil

theorem SeqHolds.readFile {d : LogDisk} {k : Nat} {x : Bytes} (holds : SeqHolds d k x) :
    d.readFile (.seq k) = some x := by
  obtain ⟨i, found, content⟩ := holds
  rw [d.readFile_file _ found, content]

theorem DirectoryOk.readFile_seq {d : LogDisk} {m k : Nat} (ok : DirectoryOk h used d m) {x : Bytes} :
    d.readFile (.seq k) = some x ↔ SeqHolds d k x := by
  refine ⟨fun read => ?_, SeqHolds.readFile⟩
  rcases Nat.lt_or_ge k m with inside | beyond
  · obtain ⟨y, holds, _⟩ := ok.seqs k inside
    rw [holds.readFile] at read
    rwa [← Option.some.inj read]
  · rw [d.readFile_missing _ (ok.free k beyond)] at read
    cases read

theorem ReturnedOk.nil_added {d : LogDisk} {ρ : Returned} (ok : ReturnedOk h d ρ) :
    ρ.added = if ρ.result.2 = none then some ρ.result.1 else none := by
  rcases ok with ⟨s, result, added, _⟩ | ⟨s, x, result, added, _⟩ | ⟨reason, result, added⟩ <;>
    simp [result, added]

theorem returned_numbers {d : LogDisk} {returned : List Returned}
    (ok : ∀ ρ ∈ returned, ReturnedOk h d ρ) :
    returned.filterMap Returned.added =
      (returned.filter fun ρ => ρ.result.2 = none).map fun ρ => ρ.result.1 := by
  induction returned with
  | nil => rfl
  | cons ρ rest ih =>
    have rested := ih fun other member => ok other (by simp [member])
    have first := (ok ρ (by simp)).nil_added
    by_cases nil : ρ.result.2 = none
    · rw [if_pos nil] at first
      rw [List.filterMap_cons_some first, List.filter_cons_of_pos (by simpa using nil), rested]
      rfl
    · rw [if_neg nil] at first
      rw [List.filterMap_cons_none first, List.filter_cons_of_neg (by simpa using nil), rested]

/-- What holds of the directory and of the returned calls in every run of the sequencing processes. -/
theorem sequence_safe (h : LogHasher) (events : List SequenceEvent) :
    let σ := SequenceSystem.run h events
    (∃ m, (∀ k, (∃ x, σ.disk.readFile (.seq k) = some x) ↔ k < m) ∧
      ∀ p process, σ.processes p = some process → process.nextSeq ≤ m) ∧
    (∀ later k x, σ.disk.readFile (.seq k) = some x →
      (SequenceSystem.run h (events ++ later)).disk.readFile (.seq k) = some x) ∧
    ((σ.returned.filter fun ρ => ρ.result.2 = none).map fun ρ => ρ.result.1).Nodup ∧
    (∀ ρ ∈ σ.returned, ρ.result.2 = none →
      σ.disk.readFile (.seq ρ.result.1) = some ρ.call.leaf) ∧
    (∀ g raw, σ.disk.readFile (.leaf g) = some raw → ∃ s x, raw = formatUint 16 s ∧
      σ.disk.readFile (.seq s) = some x ∧ h.hashLeaf x = g) ∧
    (∀ p, SingleProcess events p →
      (∀ k k' x x', σ.disk.readFile (.seq k) = some x → σ.disk.readFile (.seq k') = some x' →
        h.hashLeaf x = h.hashLeaf x' → k = k') ∧
      (∀ ρ ∈ σ.returned, ρ.result.2 = none ∨ ρ.result.2 = some errDupeLeaf) ∧
      σ.returned.Pairwise fun earlier later => earlier.call.leafhash = later.call.leafhash →
        later.result = (earlier.result.1, some errDupeLeaf)) := by
  have known : ∀ leaf, Submitted events leaf → (fun _ => True : Bytes → Prop) leaf :=
    fun _ _ => trivial
  obtain ⟨m, safe, _⟩ := (initial_safe h fun _ => True).run _ known
  have ok := safe.directory
  dsimp only
  refine ⟨⟨m, fun k => ⟨?_, fun inside => ?_⟩, fun p process found => (safe.nextSeq p process found).1⟩,
    fun later k x read => ?_, ?_, fun ρ member nil => ?_, fun g raw read => ?_, fun p single => ?_⟩
  · rintro ⟨x, read⟩
    exact ok.seq_lt (ok.readFile_seq.mp read)
  · obtain ⟨x, holds, _⟩ := ok.seqs k inside
    exact ⟨x, holds.readFile⟩
  · obtain ⟨m', _, kept⟩ := safe.run later fun _ _ => trivial
    have holds := kept k x (ok.readFile_seq.mp read)
    rw [SequenceSystem.run, List.foldl_append]
    exact holds.readFile
  · have once := safe.returnedOnce
    rwa [returned_numbers safe.returned] at once
  · have holds := (safe.returned ρ member).added
      ((safe.returned ρ member).nil_added.trans (if_pos nil))
    exact holds.readFile
  · cases found : (SequenceSystem.run h events).disk.lookup (.leaf g) with
    | none =>
      rw [Disk.readFile_missing _ _ found] at read
      cases read
    | some node =>
      obtain ⟨s, x, ⟨j, file, content⟩, _, holds, hashed⟩ := ok.leaves g node found
      have same := Disk.readFile_file _ _ file
      refine ⟨s, x, ?_, holds.readFile, hashed⟩
      rw [← content]
      exact Option.some.inj (read.symm.trans same)
  · have solo := (initial_solo h p).run (initial_safe h fun _ => True) known single
    refine ⟨fun k k' x x' left right same => ?_, fun ρ member => (solo.results ρ member).1,
      solo.ordered⟩
    refine solo.unique (fun r isRunning => ?_) (ok.readFile_seq.mp left) (ok.readFile_seq.mp right) same
    obtain ⟨process, found, running⟩ := Option.bind_eq_some_iff.mp isRunning
    obtain ⟨n, _⟩ := process
    obtain rfl : _ = some r := running
    exact ⟨(safe.calls p n r found).1, (safe.calls p n r found).2.1⟩

def submit (leaf : Bytes) : List SequenceEvent := .call 0 leaf :: List.replicate 9 (.step 0)

theorem sequence_safe_resubmission :
    (SequenceSystem.run LogHasher.padded (.load 0 0 :: submit [1] ++ submit [1])).returned.Pairwise
        (fun earlier later => earlier.call.leafhash = later.call.leafhash →
          later.result = (earlier.result.1, some errDupeLeaf)) ∧
      (SequenceSystem.run LogHasher.padded (.load 0 0 :: submit [1] ++ submit [1])).returned.map
        Returned.result = [(0, none), (0, some errDupeLeaf)] := by
  refine ⟨((sequence_safe LogHasher.padded (.load 0 0 :: submit [1] ++ submit [1])).2.2.2.2.2 0
    ?_).2.2, by decide +kernel⟩
  unfold SingleProcess
  decide

end Run

end Serverless
