import Mathlib.Data.List.Chain
import TrillianServerless.Shared.Runs
import TrillianServerless.Firmware.Log

set_option autoImplicit false

namespace Firmware

open Go Merkle Runs

inductive FollowError
  | errConsistency (golden latest : LogCheckpoint)
  | canceled
  deriving DecidableEq

/-- The goroutine of Checkpoints and its channels, the one for checkpoints with room for one. `sending` is a
checkpoint that waits for room, `emitted` lists what was ever sent. -/
structure Follow where
  golden : LogCheckpoint
  sending : Option LogCheckpoint
  outc : List LogCheckpoint
  emitted : List LogCheckpoint
  errc : Option FollowError
  returned : Bool
  deriving DecidableEq

-- What happens at a tick depends on the answers of the log: the body of its checkpoint and a consistency proof.
inductive FollowEvent
  | tick (root : Except GoError Bytes) (consistency : Except GoError (List Bytes))
  | done
  | send
  | receive

namespace Follow

variable (libs : Libraries)

-- The starting checkpoint is in the channel before the goroutine runs.
def start (golden : LogCheckpoint) : Follow := ⟨golden, none, [golden], [golden], none, false⟩

-- GetCheckpoint of the client.
def getCheckpoint (root : Except GoError Bytes) : Except GoError LogCheckpoint := root >>= libs.parseCheckpoint

def verifyConsistency (golden cp : LogCheckpoint) (proof : List Bytes) : Except GoError Unit :=
  libs.proofs.verifyConsistency libs.hasher golden.size cp.size proof golden.hash cp.hash

def advance (f : Follow) (cp : LogCheckpoint) : Follow := { f with golden := cp, sending := some cp }

-- The error channel has room for the one error there is; outc is closed on return.
def fail (f : Follow) (reason : FollowError) : Follow := { f with errc := some reason, returned := true }

def poll (f : Follow) (root : Except GoError Bytes) (consistency : Except GoError (List Bytes)) : Follow :=
  match getCheckpoint libs root with
  | .error _ => f
  | .ok cp =>
    if cp.size ≤ f.golden.size then f
    else if f.golden.size ≠ 0 then
      match consistency with
      | .error _ => f
      | .ok proof =>
        match verifyConsistency libs f.golden cp proof with
        | .error _ => f.fail (.errConsistency f.golden cp)
        | .ok _ => f.advance cp
    else f.advance cp

def step (f : Follow) : FollowEvent → Option Follow
  | .tick root consistency =>
    if f.returned = false ∧ f.sending = none then some (f.poll libs root consistency) else none
  | .done => if f.returned = false ∧ f.sending = none then some (f.fail .canceled) else none
  | .send =>
    match f.sending, f.outc with
    | some cp, [] => some { f with sending := none, outc := [cp], emitted := f.emitted ++ [cp] }
    | _, _ => none
  | .receive =>
    match f.outc with
    | [] => none
    | _ :: rest => some { f with outc := rest }

def run (events : List FollowEvent) (f : Follow) : Option Follow := exec (step libs) events f

/-- A checkpoint of the log that is larger than the one before it and was verified against it. -/
structure Newer (prev cp : LogCheckpoint) : Prop where
  larger : prev.size < cp.size
  verified : prev.size ≠ 0 → ∃ proof, verifyConsistency libs prev cp proof = .ok ()
  signed : libs.parseCheckpoint cp.envelope = .ok cp

-- What was sent and what waits for it.
def produced (f : Follow) : List LogCheckpoint := f.emitted ++ f.sending.toList

structure Following (f : Follow) : Prop where
  chain : f.produced.IsChain (Newer libs)
  golden : f.produced.getLast? = some f.golden
  running : f.returned = false ↔ f.errc = none
  settled : f.returned = true → f.sending = none
  named : ∀ golden latest, f.errc = some (.errConsistency golden latest) → golden = f.golden

end Follow

section Steps

variable {libs : Libraries} {f f' : Follow}

/-- What a tick can lead to. -/
theorem poll_cases (root : Except GoError Bytes) (consistency : Except GoError (List Bytes)) :
    f.poll libs root consistency = f ∨
      (∃ cp proof, Follow.getCheckpoint libs root = .ok cp ∧ f.golden.size < cp.size ∧ f.golden.size ≠ 0 ∧
        consistency = .ok proof ∧ Follow.verifyConsistency libs f.golden cp proof ≠ .ok () ∧
        f.poll libs root consistency = f.fail (.errConsistency f.golden cp)) ∨
      ∃ cp, Follow.getCheckpoint libs root = .ok cp ∧ f.golden.size < cp.size ∧
        (f.golden.size ≠ 0 → ∃ proof, Follow.verifyConsistency libs f.golden cp proof = .ok ()) ∧
        f.poll libs root consistency = f.advance cp := by
  unfold Follow.poll
  split
  next => exact .inl rfl
  next cp got =>
    split
    next => exact .inl rfl
    next larger =>
      have newer := Nat.lt_of_not_le larger
      split
      next nonempty =>
        split
        next => exact .inl rfl
        next proof =>
          split
          next reason failed =>
            refine .inr (.inl ⟨cp, proof, got, newer, nonempty, rfl, ?_, rfl⟩)
            rw [failed]
            exact nofun
          next verified => exact .inr (.inr ⟨cp, got, newer, fun _ => ⟨proof, verified⟩, rfl⟩)
      next empty => exact .inr (.inr ⟨cp, got, newer, fun nonempty => absurd nonempty empty, rfl⟩)

theorem getCheckpoint_signed {root : Except GoError Bytes} {cp : LogCheckpoint}
    (got : Follow.getCheckpoint libs root = .ok cp) : libs.parseCheckpoint cp.envelope = .ok cp := by
  obtain ⟨raw, -, parsed⟩ := except_bind_eq_ok.mp got
  rwa [parseCheckpoint_envelope parsed]

theorem start_following (golden : LogCheckpoint) : Follow.Following libs (.start golden) where
  chain := .singleton golden
  golden := rfl
  running := by simp [Follow.start]
  settled := nofun
  named := nofun

theorem fail_following (ok : f.Following libs) (free : f.sending = none) {reason : FollowError}
    (named : ∀ golden latest, reason = .errConsistency golden latest → golden = f.golden) :
    (f.fail reason).Following libs where
  chain := ok.chain
  golden := ok.golden
  running := by simp [Follow.fail]
  settled _ := free
  named golden latest err := named golden latest (Option.some.inj err)

theorem advance_following (ok : f.Following libs) (now : f.returned = false) (free : f.sending = none)
    {cp : LogCheckpoint} (newer : Follow.Newer libs f.golden cp) : (f.advance cp).Following libs where
  chain := by
    have chain := ok.chain
    have golden := ok.golden
    simp only [Follow.produced, free, Option.toList_none, List.append_nil] at chain golden
    simp only [Follow.produced, Follow.advance, Option.toList_some]
    refine List.isChain_append.mpr ⟨chain, .singleton cp, fun last found next only => ?_⟩
    rw [golden] at found
    cases found
    cases only
    exact newer
  golden := by simp [Follow.produced, Follow.advance]
  running := ok.running
  settled returned := by
    rw [show (f.advance cp).returned = f.returned from rfl, now] at returned
    cases returned
  named golden latest err := by
    rw [show (f.advance cp).errc = f.errc from rfl, ok.running.mp now] at err
    cases err

/-- Every step keeps what was sent a chain of verified checkpoints. -/
theorem step_following (ok : f.Following libs) {e : FollowEvent} (stepped : f.step libs e = some f') :
    f'.Following libs := by
  cases e with
  | tick root consistency =>
    simp only [Follow.step] at stepped
    split at stepped
    next free =>
      cases stepped
      rcases @poll_cases libs f root consistency with same | ⟨cp, proof, -, -, -, -, -, failed⟩ |
        ⟨cp, got, larger, verified, advanced⟩
      · rw [same]
        exact ok
      · rw [failed]
        refine fail_following ok free.2 fun golden latest same => ?_
        cases same
        rfl
      · rw [advanced]
        exact advance_following ok free.1 free.2 ⟨larger, verified, getCheckpoint_signed got⟩
    next => cases stepped
  | done =>
    simp only [Follow.step] at stepped
    split at stepped
    next free =>
      cases stepped
      exact fail_following ok free.2 nofun
    next => cases stepped
  | send =>
    simp only [Follow.step] at stepped
    split at stepped
    next cp waits room =>
      cases stepped
      have chain := ok.chain
      have golden := ok.golden
      simp only [Follow.produced, waits, Option.toList_some] at chain golden
      refine ⟨?_, ?_, ok.running, fun _ => rfl, ok.named⟩
      · simpa only [Follow.produced, Option.toList_none, List.append_nil] using chain
      · simpa only [Follow.produced, Option.toList_none, List.append_nil] using golden
    next => cases stepped
  | receive =>
    simp only [Follow.step] at stepped
    split at stepped
    next => cases stepped
    next =>
      cases stepped
      exact { ok with }

theorem run_following (ok : f.Following libs) {events : List FollowEvent} (ran : f.run libs events = some f') :
    f'.Following libs :=
  exec_keeps (Follow.Following libs) ran ok fun _ stepped now => step_following now stepped

/-- Once the goroutine has returned nothing more is sent. -/
theorem run_returned (returned : f.returned = true) (settled : f.sending = none) {events : List FollowEvent}
    (ran : f.run libs events = some f') : f'.errc = f.errc ∧ f'.emitted = f.emitted := by
  have still := exec_keeps (fun g : Follow =>
    g.returned = true ∧ g.sending = none ∧ g.errc = f.errc ∧ g.emitted = f.emitted) ran
      ⟨returned, settled, rfl, rfl⟩ (by
      rintro g e g' - stepped ⟨over', free, err, emitted⟩
      cases e with
      | tick root consistency => simp [Follow.step, over'] at stepped
      | done => simp [Follow.step, over'] at stepped
      | send => simp [Follow.step, free] at stepped
      | receive =>
        simp only [Follow.step] at stepped
        split at stepped
        next => cases stepped
        next =>
          cases stepped
          exact ⟨over', free, err, emitted⟩)
  exact still.2.2

end Steps

section Forks

variable (libs : Libraries)

-- The log shows a signed checkpoint of the size of the golden one, with another hash.
def Follow.ForkedHere (f : Follow) (e : FollowEvent) (latest : LogCheckpoint) : Prop :=
  ∃ raw consistency, e = .tick (.ok raw) consistency ∧ libs.parseCheckpoint raw = .ok latest ∧
    latest.size = f.golden.size ∧ latest.hash ≠ f.golden.hash

-- It shows a larger one with a proof that does not verify.
def Follow.ForkedAhead (f : Follow) (e : FollowEvent) (latest : LogCheckpoint) : Prop :=
  ∃ raw proof, e = .tick (.ok raw) (.ok proof) ∧ libs.parseCheckpoint raw = .ok latest ∧
    f.golden.size < latest.size ∧ f.golden.size ≠ 0 ∧ Follow.verifyConsistency libs f.golden latest proof ≠ .ok ()

/-- Whatever fork was seen in a run is the error at its end, and nothing was sent after it. -/
def Follow.ForksReported (golden : LogCheckpoint) (events : List FollowEvent) (final : Follow) : Prop :=
  ∀ before e after mid latest, events = before ++ e :: after → (Follow.start golden).run libs before = some mid →
    mid.ForkedHere libs e latest ∨ mid.ForkedAhead libs e latest →
    final.errc = some (.errConsistency mid.golden latest) ∧ final.emitted = mid.emitted

variable {libs}

theorem forkedAhead_reported {mid final : Follow} {e : FollowEvent} {after : List FollowEvent}
    {latest : LogCheckpoint} (fork : mid.ForkedAhead libs e latest) (ran : mid.run libs (e :: after) = some final) :
    final.errc = some (.errConsistency mid.golden latest) ∧ final.emitted = mid.emitted := by
  obtain ⟨raw, proof, rfl, parsed, larger, nonempty, failed⟩ := fork
  obtain ⟨next, stepped, rested⟩ := exec_cons.mp ran
  simp only [Follow.step] at stepped
  split at stepped
  next free =>
    have got : Follow.getCheckpoint libs (.ok raw) = .ok latest := parsed
    have polled : mid.poll libs (.ok raw) (.ok proof) = mid.fail (.errConsistency mid.golden latest) := by
      unfold Follow.poll
      rw [got]
      dsimp only
      rw [if_neg (Nat.not_le.mpr larger), if_pos nonempty]
      split
      next reason _ => rfl
      next verified => exact absurd verified failed
    rw [polled] at stepped
    cases stepped
    have later := run_returned (by rfl) (by exact free.2) rested
    exact later
  next => cases stepped

-- A checkpoint of the golden size is passed over, whatever its hash.
theorem forkedHere_ignored {mid final : Follow} {e : FollowEvent} {latest : LogCheckpoint}
    (fork : mid.ForkedHere libs e latest) (stepped : mid.step libs e = some final) : final = mid := by
  obtain ⟨raw, consistency, rfl, parsed, size, -⟩ := fork
  simp only [Follow.step] at stepped
  split at stepped
  next =>
    have got : Follow.getCheckpoint libs (.ok raw) = .ok latest := parsed
    have polled : mid.poll libs (.ok raw) consistency = mid := by
      unfold Follow.poll
      rw [got]
      dsimp only
      rw [if_pos (Nat.le_of_eq size)]
    rw [polled] at stepped
    exact (Option.some.inj stepped).symm
  next => cases stepped

/-- What is sent is a chain of verified checkpoints; every fork seen by the end of any part of a run is
reported by then exactly when none was seen at the size of the golden checkpoint. -/
theorem checkpoints_forks_iff (libs : Libraries) (golden : LogCheckpoint) (events : List FollowEvent) (final : Follow)
    (ran : (Follow.start golden).run libs events = some final) :
    final.emitted.IsChain (Follow.Newer libs) ∧
    ((∀ before after reached, events = before ++ after → (Follow.start golden).run libs before = some reached →
        Follow.ForksReported libs golden before reached) ↔
      ∀ before e after mid latest, events = before ++ e :: after →
        (Follow.start golden).run libs before = some mid → ¬ mid.ForkedHere libs e latest) := by
  refine ⟨(List.isChain_append.mp (run_following (start_following golden) ran).chain).1, ?_, ?_⟩
  · intro reported before e after mid latest cut reached fork
    rw [cut] at ran
    obtain ⟨other, reached', later⟩ := exec_append.mp ran
    obtain rfl : mid = other := Option.some.inj (reached.symm.trans reached')
    obtain ⟨next, stepped, -⟩ := exec_cons.mp later
    have here : (Follow.start golden).run libs (before ++ [e]) = some next :=
      exec_append.mpr ⟨mid, reached, exec_cons.mpr ⟨next, stepped, rfl⟩⟩
    obtain ⟨err, -⟩ := reported (before ++ [e]) after next (by simp [cut]) here before e [] mid latest rfl reached
      (.inl fork)
    obtain rfl := forkedHere_ignored fork stepped
    -- The goroutine goes on, which it does not do after an error.
    obtain ⟨raw, consistency, rfl, -⟩ := fork
    have running := (run_following (start_following golden) here).running
    rw [err] at running
    simp only [Follow.step] at stepped
    split at stepped
    next free => exact absurd (running.mp free.1) nofun
    next => cases stepped
  · intro none start after reached cut reach before e rest mid latest cut' reached' fork
    rcases fork with here | ahead
    · exact absurd here (none before e (rest ++ after) mid latest (by simp [cut, cut']) reached')
    · rw [cut'] at reach
      obtain ⟨other, again, later⟩ := exec_append.mp reach
      obtain rfl : mid = other := Option.some.inj (reached'.symm.trans again)
      exact forkedAhead_reported ahead later

def sampleFork (size : UInt8) : LogCheckpoint := ⟨⟨ftLogOrigin, size.toNat, [9]⟩, 7, [size, 9]⟩

-- A larger tree that does not extend the golden one.
theorem checkpoints_forks_iff_ahead :
    ∃ final, (Follow.start (sampleCheckpoint 1)).run sample [.tick (.ok [2, 9]) (.ok [])] = some final ∧
      final.errc = some (.errConsistency (sampleCheckpoint 1) (sampleFork 2)) ∧
      final.emitted = [sampleCheckpoint 1] := by
  have ran : (Follow.start (sampleCheckpoint 1)).run sample [.tick (.ok [2, 9]) (.ok [])] =
      some ((Follow.start (sampleCheckpoint 1)).fail (.errConsistency (sampleCheckpoint 1) (sampleFork 2))) := by
    decide
  refine ⟨_, ran, (checkpoints_forks_iff sample (sampleCheckpoint 1) _ _ ran).2.mpr ?_ _ [] _ rfl ran [] _ []
    (Follow.start (sampleCheckpoint 1)) (sampleFork 2) rfl rfl
      (.inr ⟨[2, 9], [], rfl, rfl, by decide, by decide, ?_⟩)⟩
  · intro before e after mid latest cut reached fork
    obtain ⟨raw, consistency, rfl, parsed, size, -⟩ := fork
    cases before with
    | nil =>
      cases reached
      cases cut
      cases parsed
      exact absurd size (by decide)
    | cons first rest => simp at cut
  · exact fun verified => nomatch verified

/-- A second checkpoint of the golden size passes without an error. -/
theorem checkpoints_fork_missed :
    ∃ final, (Follow.start (sampleCheckpoint 1)).run sample [.tick (.ok [1, 9]) (.ok [])] = some final ∧
      final.errc = none ∧
      ¬ Follow.ForksReported sample (sampleCheckpoint 1) [.tick (.ok [1, 9]) (.ok [])] final := by
  have ran : (Follow.start (sampleCheckpoint 1)).run sample [.tick (.ok [1, 9]) (.ok [])] =
      some (Follow.start (sampleCheckpoint 1)) := by decide
  refine ⟨_, ran, rfl, fun reported => ?_⟩
  have missing := (reported [] _ [] (Follow.start (sampleCheckpoint 1)) (sampleFork 1) rfl rfl
    (.inl ⟨[1, 9], .ok [], rfl, rfl, rfl, by decide⟩)).1
  cases missing

end Forks

end Firmware
