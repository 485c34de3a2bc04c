import TrillianServerless.Packages.NoteFormat
import TrillianServerless.Serverless.ProofBuilder

set_option autoImplicit false

namespace Serverless

open Go Merkle Checkpoints

section Track

variable {W Note : Type} (lst : LogStateTracker W Note)

-- The tracker may move from `t` to `t'`.
def TrackedState.Follows (t t' : TrackedState Note) : Prop :=
  0 < t.latestConsistent.size →
    t.latestConsistent.size ≤ t'.latestConsistent.size ∧
    (t.latestConsistent.size = t'.latestConsistent.size →
      t.latestConsistent.hash = t'.latestConsistent.hash) ∧
    (t.latestConsistent.size < t'.latestConsistent.size →
      ∃ p, lst.deps.proofs.verifyConsistency lst.hasher t.latestConsistent.size
        t'.latestConsistent.size p t.latestConsistent.hash t'.latestConsistent.hash = .ok ())

-- What Update would adopt is larger than what is tracked, or is the same tree.
def Advances (t : TrackedState Note) (w : W) : Prop :=
  ∀ c cRaw cn w', lst.consensusCheckpoint w = (.ok (c, cRaw, cn), w') →
    0 < t.latestConsistent.size →
    t.latestConsistent.size < c.size ∨
      (t.latestConsistent.size = c.size ∧ t.latestConsistent.hash = c.hash)

theorem prove_ok {latest c : Checkpoint} {w w' : W} {p : List Bytes}
    (proved : lst.prove latest c w = (.ok p, w')) :
    lst.deps.proofs.verifyConsistency lst.hasher latest.size c.size p latest.hash c.hash = .ok () := by
  unfold LogStateTracker.prove at proved
  obtain ⟨builder, w1, _, proved⟩ := Eff.bind_eq_ok.mp proved
  obtain ⟨q, w2, _, proved⟩ := Eff.bind_eq_ok.mp proved
  obtain ⟨_, w3, verified, returned⟩ := Eff.bind_eq_ok.mp proved
  rw [Eff.wrap_eq_ok] at verified
  obtain rfl : q = p := by simpa using congrArg Prod.fst returned
  cases checked : lst.deps.proofs.verifyConsistency lst.hasher latest.size c.size q latest.hash
      c.hash with
  | ok => rfl
  | error reason => simp [checked, Eff.ofExcept] at verified

theorem update_failed {t t' : TrackedState Note} {w w' : W}
    {result : Outcome (Bytes × List Bytes × Bytes)} (updated : lst.update t w = (result, w', t'))
    (failed : ∀ value, result ≠ .ok value) : t' = t := by
  unfold LogStateTracker.update at updated
  split at updated
  · simp_all
  · simp_all
  · dsimp only at updated
    split at updated
    · simp_all
    · simp_all
    · obtain ⟨rfl, _⟩ := Prod.mk.inj updated
      exact absurd rfl (failed _)

theorem update_adopts {t t' : TrackedState Note} {w w' : W} {value : Bytes × List Bytes × Bytes}
    (updated : lst.update t w = (.ok value, w', t')) :
    ∃ c cRaw cn w'', lst.consensusCheckpoint w = (.ok (c, cRaw, cn), w'') ∧
      t' = ⟨cRaw, c, some cn⟩ ∧
      (0 < t.latestConsistent.size → t.latestConsistent.size < c.size →
        ∃ p, lst.deps.proofs.verifyConsistency lst.hasher t.latestConsistent.size c.size p
          t.latestConsistent.hash c.hash = .ok ()) := by
  unfold LogStateTracker.update at updated
  split at updated
  · simp at updated
  · simp at updated
  next c cRaw cn w'' consensus =>
    dsimp only at updated
    split at updated
    · simp at updated
    · simp at updated
    next p w''' proof =>
      refine ⟨c, cRaw, cn, w'', consensus, ?_, ?_⟩
      · exact (congrArg (fun result => result.2.2) updated).symm
      · intro positive larger
        rw [if_pos positive, if_pos larger] at proof
        exact ⟨p, prove_ok lst proof⟩

theorem update_follows {t t' : TrackedState Note} {w w' : W}
    {result : Outcome (Bytes × List Bytes × Bytes)} (updated : lst.update t w = (result, w', t'))
    (advances : Advances lst t w) : t.Follows lst t' := by
  cases result with
  | ok value =>
    obtain ⟨c, cRaw, cn, w'', consensus, rfl, verified⟩ := update_adopts lst updated
    intro positive
    rcases advances c cRaw cn w'' consensus positive with larger | ⟨sameSize, sameHash⟩
    · exact ⟨Nat.le_of_lt larger, fun same => absurd larger (by simp [same]), verified positive⟩
    · exact ⟨Nat.le_of_eq sameSize, fun _ => sameHash, verified positive⟩
  | error reason =>
    obtain rfl := update_failed lst updated (by simp)
    exact fun _ => ⟨Nat.le_refl _, fun _ => rfl, fun less => absurd less (Nat.lt_irrefl _)⟩
  | panic reason =>
    obtain rfl := update_failed lst updated (by simp)
    exact fun _ => ⟨Nat.le_refl _, fun _ => rfl, fun less => absurd less (Nat.lt_irrefl _)⟩

-- A smaller or forked checkpoint is adopted unchecked.
theorem advances_of_follows {t : TrackedState Note} {w : W}
    (follows : t.Follows lst (lst.update t w).2.2) : Advances lst t w := by
  intro c cRaw cn w' consensus positive
  by_contra stuck
  have smaller : ¬ t.latestConsistent.size < c.size := fun larger => stuck (Or.inl larger)
  have adopted : (lst.update t w).2.2.latestConsistent = c := by
    unfold LogStateTracker.update
    rw [consensus]
    dsimp only
    rw [if_pos positive, if_neg smaller]
    rfl
  obtain ⟨grown, same, _⟩ := follows positive
  rw [adopted] at grown same
  have equal : t.latestConsistent.size = c.size := by omega
  exact stuck (Or.inr ⟨equal, same equal⟩)

-- The world and the tracked state after `n` calls of Update.
def trackRun (t : TrackedState Note) (w : W) : Nat → W × TrackedState Note
  | 0 => (w, t)
  | n + 1 => (lst.update (trackRun t w n).2 (trackRun t w n).1).2

theorem trackRun_sizes {t : TrackedState Note} {w : W} {m n : Nat} (order : m ≤ n)
    (follows : ∀ j < n, (trackRun lst t w j).2.Follows lst (trackRun lst t w (j + 1)).2)
    (positive : 0 < (trackRun lst t w m).2.latestConsistent.size) :
    let old := (trackRun lst t w m).2.latestConsistent
    let new := (trackRun lst t w n).2.latestConsistent
    old.size ≤ new.size ∧ (old.size = new.size → old.hash = new.hash) := by
  induction n, order using Nat.le_induction with
  | base => exact ⟨Nat.le_refl _, fun _ => rfl⟩
  | succ n order ih =>
    obtain ⟨grown, kept⟩ := ih fun j less => follows j (by omega)
    obtain ⟨next, same, _⟩ := follows n (Nat.lt_succ_self n) (Nat.lt_of_lt_of_le positive grown)
    dsimp only at grown kept ⊢
    refine ⟨Nat.le_trans grown next, fun equal => ?_⟩
    rw [kept (by omega), same (by omega)]

/-- The tracked checkpoint never goes back or forks during a run exactly when every checkpoint offered
to Update is larger than the tracked one or is the same tree. Failed calls leave it alone in any run. -/
theorem tracker_append_only (t : TrackedState Note) (w : W) :
    (∀ n, (∀ j < n, Advances lst (trackRun lst t w j).2 (trackRun lst t w j).1) ↔
      ∀ j < n, (trackRun lst t w j).2.Follows lst (trackRun lst t w (j + 1)).2) ∧
    (∀ n, (∀ j < n, Advances lst (trackRun lst t w j).2 (trackRun lst t w j).1) →
      ∀ m ≤ n, 0 < (trackRun lst t w m).2.latestConsistent.size →
        (trackRun lst t w m).2.latestConsistent.size ≤ (trackRun lst t w n).2.latestConsistent.size ∧
        ((trackRun lst t w m).2.latestConsistent.size =
            (trackRun lst t w n).2.latestConsistent.size →
          (trackRun lst t w m).2.latestConsistent.hash =
            (trackRun lst t w n).2.latestConsistent.hash)) ∧
    ∀ j, (∀ value, (lst.update (trackRun lst t w j).2 (trackRun lst t w j).1).1 ≠ .ok value) →
      (trackRun lst t w (j + 1)).2 = (trackRun lst t w j).2 := by
  refine ⟨fun n => ⟨?_, ?_⟩, ?_, ?_⟩
  · intro advances j less
    exact update_follows lst rfl (advances j less)
  · intro follows j less
    exact advances_of_follows lst (follows j less)
  · intro n advances m order positive
    exact trackRun_sizes lst order (fun j less => update_follows lst rfl (advances j less)) positive
  · intro j failed
    exact update_failed lst rfl failed

end Track

section Rollback

def signedCheckpoint (size : Nat) (hash : Bytes) : Bytes :=
  SignedNote.tagNote (asciiBytes "o\n" ++ formatUint 10 size ++ [newline] ++ encodeBase64 hash ++ [newline]) [108]

-- A log that serves its old checkpoint of size 1 again.
def staleLog : Fetcher Unit := fun path w =>
  if path = .checkpoint then (.ok (signedCheckpoint 1 hashOne), w) else (.error .notExist, w)

def staleTracker : LogStateTracker Unit SignedNote.Note where
  deps := referenceDeps
  hasher := LogHasher.padded
  fetcher := staleLog
  consensusCheckpoint :=
    unilateralConsensus SignedNote.reference staleLog (SignedNote.tagVerifier 108) "o"

def trackedPair : TrackedState SignedNote.Note :=
  (newLogStateTracker SignedNote.reference staleTracker (signedCheckpoint 2 hashPair)
    (SignedNote.tagVerifier 108) "o" ()).2.2

theorem tracker_rolls_back :
    trackedPair.latestConsistent.size = 2 ∧
      (trackRun staleTracker trackedPair () 1).2.latestConsistent.size = 1 ∧
      ¬ ∀ j, (trackRun staleTracker trackedPair () j).2.Follows staleTracker
        (trackRun staleTracker trackedPair () (j + 1)).2 := by
  have before : trackedPair.latestConsistent.size = 2 := by decide +kernel
  have after : (trackRun staleTracker trackedPair () 1).2.latestConsistent.size = 1 := by
    decide +kernel
  refine ⟨before, after, fun follows => ?_⟩
  have grown := (follows 0 (by rw [trackRun, before]; decide)).1
  rw [trackRun, before, after] at grown
  exact absurd grown (by decide)

end Rollback

end Serverless
