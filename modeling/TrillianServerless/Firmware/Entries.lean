import TrillianServerless.Shared.Runs
import TrillianServerless.Firmware.Log

set_option autoImplicit false

namespace Firmware

open Go Merkle Runs

structure LogEntry where
  root : LogCheckpoint
  index : Nat
  value : SignedStatement
  deriving DecidableEq

-- LogEntry{}, what a closed channel gives.
def LogEntry.zero : LogEntry := ⟨.zero, 0, ⟨0, [], []⟩⟩

inductive EntriesError
  | errInclusion (checkpoint : LogCheckpoint) (proof : InclusionProof)
  | failed (reason : GoError)
  deriving DecidableEq

/-- The goroutine of Entries and its channels, the one for entries with room for one. `cp` is the checkpoint of
the loop it is in, `sending` an entry that waits for room and `emitted` what was ever sent. -/
structure Entries where
  head : Nat
  cp : Option LogCheckpoint
  sending : Option LogEntry
  outc : List LogEntry
  emitted : List LogEntry
  errc : Option EntriesError
  returned : Bool
  deriving DecidableEq

-- The next checkpoint on the input channel or its end, and what the log answers to a request for an entry of a tree.
inductive EntriesEvent
  | checkpoint (cp : LogCheckpoint)
  | close
  | getManifestEntryAndProof (index treeSize : Nat) (answer : Except GoError InclusionProof)
  | send
  deriving DecidableEq

namespace Entries

variable (libs : Libraries)

def start (head : Nat) : Entries := ⟨head, none, none, [], [], none, false⟩

def verifyEntry (cp : LogCheckpoint) (ep : InclusionProof) : Except EntriesError SignedStatement :=
  match libs.proofs.verifyInclusion libs.hasher ep.leafIndex cp.size
    (libs.hasher.hashLeaf ep.value) ep.proof cp.hash with
  | .error _ => .error (.errInclusion cp ep)
  | .ok _ =>
    match libs.decodeStatement ep.value with
    | .error _ => .error (.failed (.text "failed to decode SignedStatement: %q"))
    | .ok stmt =>
      match claimantForType stmt.type with
      | .error reason => .error (.failed reason)
      | .ok claimant =>
        match libs.verifySignature claimant stmt.type stmt.statement stmt.signature with
        | .error _ => .error (.failed (.text "failed to verify signature: %q"))
        | .ok _ => .ok stmt

-- Also after a request that fails the loop goes on to the next index.
def fetched (s : Entries) (cp : LogCheckpoint) (answer : Except GoError InclusionProof) : Entries :=
  match answer with
  | .error _ => { s with head := s.head + 1 }
  | .ok ep =>
    match verifyEntry libs cp ep with
    | .error reason => { s with errc := some reason, returned := true }
    | .ok stmt => { s with sending := some ⟨cp, s.head, stmt⟩ }

-- The loop over the entries of a checkpoint is over.
def Idle (s : Entries) : Prop := s.returned = false ∧ s.sending = none ∧ ∀ cp ∈ s.cp, cp.size ≤ s.head

instance (s : Entries) : Decidable s.Idle := inferInstanceAs (Decidable (_ ∧ _ ∧ _))

def step (s : Entries) : EntriesEvent → Option Entries
  | .checkpoint cp => if s.Idle ∧ cp.size < 2 ^ 64 then some { s with cp := some cp } else none
  | .close => if s.Idle then some { s with returned := true } else none
  | .getManifestEntryAndProof index treeSize answer =>
    match s.cp with
    | some cp =>
      if s.returned = false ∧ s.sending = none ∧ s.head < cp.size ∧ index = s.head ∧ treeSize = cp.size then
        some (s.fetched libs cp answer)
      else none
    | none => none
  | .send =>
    match s.sending, s.outc with
    | some entry, [] =>
      some { s with sending := none, outc := [entry], emitted := s.emitted ++ [entry], head := s.head + 1 }
    | _, _ => none

end Entries

/-- Main of the monitor: it takes entries, or the zero one from the closed channel, and writes the checkpoint
of a last entry to its state file. It returns for an error or when it is canceled. -/
structure Monitor where
  entries : Entries
  written : List LogCheckpoint
  returned : Bool
  deriving DecidableEq

inductive MonitorEvent
  | entries (e : EntriesEvent)
  | take (saved : Bool)
  | stop
  deriving DecidableEq

namespace Monitor

variable (libs : Libraries)

def start (head : Nat) : Monitor := ⟨.start head, [], false⟩

-- A write to the file can fail, which is not looked at.
def process (m : Monitor) (entry : LogEntry) (saved : Bool) : Monitor :=
  if entry.index = (entry.root.size + (2 ^ 64 - 1)) % 2 ^ 64 ∧ saved = true then
    { m with written := m.written ++ [entry.root] }
  else m

def step (m : Monitor) : MonitorEvent → Option Monitor
  | .entries e => (m.entries.step libs e).map fun entries => { m with entries := entries }
  | .take saved =>
    if m.returned then none
    else
      match m.entries.outc with
      | entry :: rest =>
        some (process { m with entries := { m.entries with outc := rest } } entry saved)
      | [] => if m.entries.returned then some (m.process .zero saved) else none
  | .stop => if m.returned then none else some { m with returned := true }

def run (events : List MonitorEvent) (m : Monitor) : Option Monitor := exec (step libs) events m

end Monitor

section Steps

variable {libs : Libraries}

-- What a step of the loop finds and what it leaves.
theorem entriesStep_cases {s s' : Entries} {e : EntriesEvent} (moved : s.step libs e = some s') :
    (∃ cp, e = .checkpoint cp ∧ cp.size < 2 ^ 64 ∧ s' = { s with cp := some cp }) ∨
    (e = .close ∧ s' = { s with returned := true }) ∨
    (∃ cp answer, e = .getManifestEntryAndProof s.head cp.size answer ∧ s.cp = some cp ∧ s.head < cp.size ∧
      s' = s.fetched libs cp answer) ∨
    (∃ entry, e = .send ∧ s.sending = some entry ∧ s' = { s with
      sending := none
      outc := [entry]
      emitted := s.emitted ++ [entry]
      head := s.head + 1 }) := by
  cases e with
  | checkpoint cp =>
    obtain ⟨free, same⟩ := Option.ite_none_right_eq_some.mp moved
    exact .inl ⟨cp, rfl, free.2, (Option.some.inj same).symm⟩
  | close =>
    obtain ⟨-, same⟩ := Option.ite_none_right_eq_some.mp moved
    exact .inr (.inl ⟨rfl, (Option.some.inj same).symm⟩)
  | getManifestEntryAndProof index treeSize answer =>
    simp only [Entries.step] at moved
    split at moved
    next cp current =>
      obtain ⟨⟨-, -, more, rfl, rfl⟩, same⟩ := Option.ite_none_right_eq_some.mp moved
      exact .inr (.inr (.inl ⟨cp, answer, rfl, current, more, (Option.some.inj same).symm⟩))
    next => cases moved
  | send =>
    simp only [Entries.step] at moved
    split at moved
    next entry waits _ => exact .inr (.inr (.inr ⟨entry, rfl, waits, (Option.some.inj moved).symm⟩))
    next => cases moved

theorem monitorStep_cases {m m' : Monitor} {e : MonitorEvent} (stepped : m.step libs e = some m') :
    (∃ e' s, e = .entries e' ∧ m.entries.step libs e' = some s ∧ m' = { m with entries := s }) ∨
    (∃ saved entry rest, e = .take saved ∧ m.entries.outc = entry :: rest ∧
      m' = Monitor.process { m with entries := { m.entries with outc := rest } } entry saved) ∨
    (∃ saved, e = .take saved ∧ m' = m.process .zero saved) ∨
    (e = .stop ∧ m' = { m with returned := true }) := by
  cases e with
  | entries e =>
    obtain ⟨s, moved, rfl⟩ := Option.map_eq_some_iff.mp stepped
    exact .inl ⟨e, s, rfl, moved, rfl⟩
  | take saved =>
    obtain ⟨-, taken⟩ := Option.ite_none_left_eq_some.mp stepped
    split at taken
    next entry rest queue => exact .inr (.inl ⟨saved, entry, rest, rfl, queue, (Option.some.inj taken).symm⟩)
    next =>
      obtain ⟨-, same⟩ := Option.ite_none_right_eq_some.mp taken
      exact .inr (.inr (.inl ⟨saved, rfl, (Option.some.inj same).symm⟩))
  | stop =>
    obtain ⟨-, same⟩ := Option.ite_none_left_eq_some.mp stepped
    exact .inr (.inr (.inr ⟨rfl, (Option.some.inj same).symm⟩))

@[simp] theorem process_entries (m : Monitor) (entry : LogEntry) (saved : Bool) :
    (m.process entry saved).entries = m.entries := by
  unfold Monitor.process
  split <;> rfl

end Steps

section Consecutive

variable {libs : Libraries} {head : Nat}

-- No request for an entry fails.
def MonitorEvent.Answered : MonitorEvent → Prop
  | .entries (.getManifestEntryAndProof _ _ answer) => ∃ ep, answer = .ok ep
  | _ => True

-- An entry is one of its tree.
def LogEntry.Inside (entry : LogEntry) : Prop := entry.index < entry.root.size ∧ entry.root.size < 2 ^ 64

/-- Entries come one after the other, and a written checkpoint has none after those that came. -/
structure Monitor.Consecutive (head : Nat) (m : Monitor) : Prop where
  indices : m.entries.emitted.map LogEntry.index = List.range' head m.entries.emitted.length
  next : m.entries.head = head + m.entries.emitted.length
  bounded : ∀ cp ∈ m.entries.cp, cp.size < 2 ^ 64
  sending : ∀ entry ∈ m.entries.sending, entry.index = m.entries.head ∧ entry.Inside
  queue : ∀ entry ∈ m.entries.outc, entry ∈ m.entries.emitted ∧ entry.Inside
  written : ∀ cp ∈ m.written, cp.size ≤ head + m.entries.emitted.length

theorem start_consecutive (head : Nat) : (Monitor.start head).Consecutive head where
  indices := rfl
  next := rfl
  bounded := nofun
  sending := nofun
  queue := nofun
  written := nofun

theorem emitted_below {m : Monitor} (ok : m.Consecutive head) {entry : LogEntry}
    (member : entry ∈ m.entries.emitted) :
    entry.index < head + m.entries.emitted.length := by
  have listed : entry.index ∈ List.range' head m.entries.emitted.length := by
    rw [← ok.indices]
    exact List.mem_map_of_mem member
  exact (List.mem_range'_1.mp listed).2

theorem fetched_consecutive {m : Monitor} (ok : m.Consecutive head) {cp : LogCheckpoint} {ep : InclusionProof}
    (current : m.entries.cp = some cp) (more : m.entries.head < cp.size) :
    Monitor.Consecutive head { m with entries := m.entries.fetched libs cp (.ok ep) } := by
  unfold Entries.fetched
  dsimp only
  split
  next => exact { ok with }
  next stmt _ =>
    refine { ok with sending := ?_ }
    rintro entry waits
    cases waits
    exact ⟨rfl, more, ok.bounded cp current⟩

theorem sent_consecutive {m : Monitor} (ok : m.Consecutive head) {entry : LogEntry}
    (waits : m.entries.sending = some entry) :
    Monitor.Consecutive head { m with entries := { m.entries with
      sending := none
      outc := [entry]
      emitted := m.entries.emitted ++ [entry]
      head := m.entries.head + 1 } } := by
  obtain ⟨index, inside⟩ := ok.sending entry waits
  refine { ok with indices := ?_, next := ?_, sending := nofun, queue := ?_, written := ?_ }
  · simp only [List.map_append, List.map_singleton, List.length_append, List.length_singleton]
    rw [ok.indices, List.range'_concat, index, ok.next, Nat.one_mul]
  · simp only [List.length_append, List.length_singleton, ok.next, Nat.add_assoc]
  · intro other member
    obtain rfl := List.mem_singleton.mp member
    exact ⟨by simp, inside⟩
  · intro cp member
    have size := ok.written cp member
    simp only [List.length_append, List.length_singleton]
    omega

theorem process_consecutive {m : Monitor} (ok : m.Consecutive head) {entry : LogEntry} {saved : Bool}
    (known : entry = .zero ∨ entry ∈ m.entries.emitted ∧ entry.Inside) :
    (m.process entry saved).Consecutive head := by
  unfold Monitor.process
  split
  next last =>
    refine { ok with written := ?_ }
    intro cp member
    rcases List.mem_append.mp member with old | only
    · exact ok.written cp old
    · obtain rfl := List.mem_singleton.mp only
      rcases known with rfl | ⟨emitted, inside, bounded⟩
      · exact absurd last.1 (by decide)
      · have index := last.1
        rw [show entry.root.size + (2 ^ 64 - 1) = entry.root.size - 1 + 2 ^ 64 by omega, Nat.add_mod_right,
          Nat.mod_eq_of_lt (by omega)] at index
        have below := emitted_below ok emitted
        dsimp only
        omega
  next => exact ok

/-- Every step but a failed request keeps the entries one after the other. -/
theorem step_consecutive {m m' : Monitor} {e : MonitorEvent} (answered : e.Answered)
    (stepped : m.step libs e = some m') (ok : m.Consecutive head) : m'.Consecutive head := by
  rcases monitorStep_cases stepped with ⟨e', s, rfl, moved, rfl⟩ | ⟨saved, entry, rest, rfl, queue, rfl⟩ |
    ⟨saved, rfl, same⟩ | ⟨rfl, rfl⟩
  · rcases entriesStep_cases moved with ⟨cp, rfl, bounded, rfl⟩ | ⟨rfl, rfl⟩ | ⟨cp, answer, rfl, current, more, rfl⟩ |
      ⟨entry, rfl, waits, rfl⟩
    · refine { ok with bounded := ?_ }
      intro other same
      cases same
      exact bounded
    · exact { ok with }
    · obtain ⟨ep, rfl⟩ := answered
      exact fetched_consecutive ok current more
    · exact sent_consecutive ok waits
  · have taken : Monitor.Consecutive head { m with entries := { m.entries with outc := rest } } := by
      refine { ok with queue := fun other member => ok.queue other ?_ }
      rw [queue]
      exact List.mem_cons_of_mem _ member
    exact process_consecutive taken (.inr (ok.queue entry (by simp [queue])))
  · rw [same]
    exact process_consecutive ok (.inl rfl)
  · exact { ok with }

/-- While every request is answered no entry is left out, and no checkpoint is written before its entries have
come. -/
theorem entries_consecutive (libs : Libraries) (head : Nat) (events : List MonitorEvent) (m : Monitor)
    (ran : (Monitor.start head).run libs events = some m) (answered : ∀ e ∈ events, e.Answered) :
    m.entries.emitted.map LogEntry.index = List.range' head m.entries.emitted.length ∧
      ∀ cp ∈ m.written, ∀ i, head ≤ i → i < cp.size → ∃ entry ∈ m.entries.emitted, entry.index = i := by
  have ok := exec_keeps (Monitor.Consecutive head) ran (start_consecutive head)
    fun member stepped now => step_consecutive (answered _ member) stepped now
  refine ⟨ok.indices, fun cp member i lower upper => ?_⟩
  have size := ok.written cp member
  have listed : i ∈ m.entries.emitted.map LogEntry.index := by
    rw [ok.indices, List.mem_range'_1]
    omega
  obtain ⟨entry, found, index⟩ := List.mem_map.mp listed
  exact ⟨entry, found, index⟩

-- The answer of the log for an entry of its tree of two.
def sampleAnswer (index : Nat) : InclusionProof :=
  ⟨sampleLog.getD index [], index, [sampleHasher.leafOf sampleLog (1 - index)]⟩

def sampleEntry (index : Nat) (type : UInt8) : LogEntry := ⟨sampleCheckpoint 2, index, ⟨type, [], [7]⟩⟩

theorem entries_consecutive_two :
    ∃ m, (Monitor.start 0).run sample [.entries (.checkpoint (sampleCheckpoint 2)),
        .entries (.getManifestEntryAndProof 0 2 (.ok (sampleAnswer 0))), .entries .send, .take true,
        .entries (.getManifestEntryAndProof 1 2 (.ok (sampleAnswer 1))), .entries .send, .take true] = some m ∧
      m.entries.emitted.map LogEntry.index = [0, 1] ∧ m.written = [sampleCheckpoint 2] := by
  have ran : (Monitor.start 0).run sample [.entries (.checkpoint (sampleCheckpoint 2)),
      .entries (.getManifestEntryAndProof 0 2 (.ok (sampleAnswer 0))), .entries .send, .take true,
      .entries (.getManifestEntryAndProof 1 2 (.ok (sampleAnswer 1))), .entries .send, .take true] =
        some ⟨⟨2, some (sampleCheckpoint 2), none, [], [sampleEntry 0 102, sampleEntry 1 109], none, false⟩,
          [sampleCheckpoint 2], false⟩ := by decide
  refine ⟨_, ran, (entries_consecutive sample 0 _ _ ran ?_).1, rfl⟩
  simp [MonitorEvent.Answered]

/-- A request fails, its entry never comes and the checkpoint is written all the same. -/
theorem failed_entry_skipped :
    ∃ m, (Monitor.start 0).run sample [.entries (.checkpoint (sampleCheckpoint 2)),
        .entries (.getManifestEntryAndProof 0 2 (.error (.text "unavailable"))),
        .entries (.getManifestEntryAndProof 1 2 (.ok (sampleAnswer 1))), .entries .send, .take true] = some m ∧
      m.entries.emitted.map LogEntry.index = [1] ∧ m.written = [sampleCheckpoint 2] ∧
      ¬ (m.entries.emitted.map LogEntry.index = List.range' 0 m.entries.emitted.length ∧
        ∀ cp ∈ m.written, ∀ i, 0 ≤ i → i < cp.size → ∃ entry ∈ m.entries.emitted, entry.index = i) := by
  refine ⟨⟨⟨2, some (sampleCheckpoint 2), none, [], [sampleEntry 1 109], none, false⟩, [sampleCheckpoint 2], false⟩,
    by decide, rfl, rfl, fun all => ?_⟩
  exact absurd all.1 (by decide)

end Consecutive

section Binding

variable {libs : Libraries}

-- The log answers with the index that it was asked for.
def MonitorEvent.Indexed : MonitorEvent → Prop
  | .entries (.getManifestEntryAndProof index _ (.ok ep)) => ep.leafIndex = index
  | _ => True

/-- A statement was proven to be at the index that it is reported for. -/
def LogEntry.Proven (libs : Libraries) (entry : LogEntry) : Prop :=
  ∃ value proof, libs.decodeStatement value = .ok entry.value ∧
    libs.proofs.verifyInclusion libs.hasher entry.index entry.root.size (libs.hasher.hashLeaf value) proof
      entry.root.hash = .ok ()

theorem verifyEntry_ok {cp : LogCheckpoint} {ep : InclusionProof} {stmt : SignedStatement}
    (verified : Entries.verifyEntry libs cp ep = .ok stmt) :
    libs.decodeStatement ep.value = .ok stmt ∧
      libs.proofs.verifyInclusion libs.hasher ep.leafIndex cp.size (libs.hasher.hashLeaf ep.value) ep.proof cp.hash =
        .ok () := by
  unfold Entries.verifyEntry at verified
  split at verified
  next => cases verified
  next included =>
    split at verified
    next => cases verified
    next other decoded =>
      split at verified
      next => cases verified
      next =>
        split at verified
        next => cases verified
        next =>
          cases verified
          exact ⟨decoded, included⟩

theorem fetched_proven {s : Entries} {cp : LogCheckpoint} {answer : Except GoError InclusionProof}
    (indexed : ∀ ep, answer = .ok ep → ep.leafIndex = s.head)
    (ok : ∀ entry ∈ s.emitted ++ s.sending.toList, entry.Proven libs) :
    ∀ entry ∈ (s.fetched libs cp answer).emitted ++ (s.fetched libs cp answer).sending.toList, entry.Proven libs := by
  unfold Entries.fetched
  split
  next => exact ok
  next ep =>
    split
    next => exact ok
    next stmt verified =>
      obtain ⟨decoded, included⟩ := verifyEntry_ok verified
      rw [indexed ep rfl] at included
      intro entry member
      rcases List.mem_append.mp member with old | new
      · exact ok entry (List.mem_append_left _ old)
      · obtain rfl := List.mem_singleton.mp new
        exact ⟨ep.value, ep.proof, decoded, included⟩

theorem step_proven {m m' : Monitor} {e : MonitorEvent} (indexed : e.Indexed) (stepped : m.step libs e = some m')
    (ok : ∀ entry ∈ m.entries.emitted ++ m.entries.sending.toList, entry.Proven libs) :
    ∀ entry ∈ m'.entries.emitted ++ m'.entries.sending.toList, entry.Proven libs := by
  rcases monitorStep_cases stepped with ⟨e', s, rfl, moved, rfl⟩ | ⟨saved, entry, rest, rfl, -, rfl⟩ |
    ⟨saved, rfl, same⟩ | ⟨rfl, rfl⟩
  · rcases entriesStep_cases moved with ⟨cp, -, -, rfl⟩ | ⟨-, rfl⟩ | ⟨cp, answer, rfl, -, -, rfl⟩ |
      ⟨entry, -, waits, rfl⟩
    · exact ok
    · exact ok
    · apply fetched_proven _ ok
      rintro ep rfl
      exact indexed
    · simpa [waits] using ok
  · simpa using ok
  · rw [same]
    simpa using ok
  · exact ok

/-- While the log answers for the indices it is asked for, an entry is what its tree has at its index. -/
theorem entries_at_index (libs : Libraries) (checks : libs.proofs.ChecksInclusion) (head : Nat)
    (events : List MonitorEvent) (m : Monitor) (ran : (Monitor.start head).run libs events = some m)
    (indexed : ∀ e ∈ events, e.Indexed) (entry : LogEntry) (emitted : entry ∈ m.entries.emitted)
    (log : List Bytes) (binds : libs.hasher.Binds log) (size : log.length = entry.root.size)
    (root : libs.hasher.logRoot log = entry.root.hash) :
    ∃ inside : entry.index < log.length, libs.decodeStatement log[entry.index] = .ok entry.value := by
  have proven := exec_keeps
    (fun m : Monitor => ∀ entry ∈ m.entries.emitted ++ m.entries.sending.toList, entry.Proven libs) ran nofun
    fun member stepped ok => step_proven (indexed _ member) stepped ok
  obtain ⟨value, proof, decoded, included⟩ := proven entry (List.mem_append_left _ emitted)
  rw [← root] at included
  obtain ⟨inside, rfl⟩ := binds.included checks size included
  exact ⟨inside, decoded⟩

theorem entries_at_index_two :
    ∃ m, (Monitor.start 1).run sample [.entries (.checkpoint (sampleCheckpoint 2)),
        .entries (.getManifestEntryAndProof 1 2 (.ok (sampleAnswer 1))), .entries .send] = some m ∧
      sampleEntry 1 109 ∈ m.entries.emitted ∧ sample.decodeStatement malwareJson = .ok (sampleEntry 1 109).value := by
  have ran : (Monitor.start 1).run sample [.entries (.checkpoint (sampleCheckpoint 2)),
      .entries (.getManifestEntryAndProof 1 2 (.ok (sampleAnswer 1))), .entries .send] =
        some ⟨⟨2, some (sampleCheckpoint 2), none, [sampleEntry 1 109], [sampleEntry 1 109], none, false⟩,
          [], false⟩ := by
    decide
  obtain ⟨_, decoded⟩ := entries_at_index sample ProofPackage.reference_checksInclusion 1 _ _ ran
    (by simp [MonitorEvent.Indexed, sampleAnswer]) (sampleEntry 1 109) (by simp) sampleLog
    (sampleHasher_binds List.prefix_rfl) rfl sampleRoot_eq.2
  exact ⟨_, ran, by simp, decoded⟩

/-- The log answers for another index, and its entry is reported for the one that was asked for. -/
theorem other_entry_reported :
    ∃ m, (Monitor.start 1).run sample [.entries (.checkpoint (sampleCheckpoint 2)),
        .entries (.getManifestEntryAndProof 1 2 (.ok (sampleAnswer 0))), .entries .send] = some m ∧
      sampleEntry 1 102 ∈ m.entries.emitted ∧ sampleHasher.logRoot sampleLog = (sampleEntry 1 102).root.hash ∧
      sampleHasher.Binds sampleLog ∧ sampleLog[1]? = some malwareJson ∧
      sample.decodeStatement malwareJson ≠ .ok (sampleEntry 1 102).value :=
  ⟨⟨⟨2, some (sampleCheckpoint 2), none, [sampleEntry 1 102], [sampleEntry 1 102], none, false⟩, [], false⟩,
    by decide,
    by simp, sampleRoot_eq.2, sampleHasher_binds List.prefix_rfl, rfl, by decide⟩

end Binding

end Firmware
