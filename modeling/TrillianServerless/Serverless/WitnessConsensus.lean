import TrillianServerless.Packages.NoteFormat

set_option autoImplicit false

namespace WitnessClient

open Go SignedNote Checkpoints

-- What a distributor answers in one call; a fetch that fails because the context of the group was
-- cancelled is an error like any other. A path is given by the elements that path.Join joins.
abbrev Fetcher := List String → Except GoError Bytes

structure Cp where
  cp : Checkpoint
  n : Note
  raw : Bytes
  deriving DecidableEq, Repr

-- An errgroup.Group with the channel that its functions send to: the first error is kept.
structure Group where
  cpc : List Cp
  fetchErrs : Option GoError

section Consensus

variable (pkg : Package) (logID : String) (N : Int) (logSigV : Verifier) (origin : String)
  (witnesses : List Verifier)

def getCheckpointN (f : Fetcher) : Except GoError Cp :=
  match f ["logs", logID, "checkpoint." ++ toString N] with
  | .error _ => .error (.text "failed to fetch from distributor: %v")
  | .ok cpRaw =>
    match pkg.parseCheckpoint cpRaw origin logSigV witnesses with
    | .error _ => .error (.text "error parsing Checkpoint from %q: %v")
    | .ok (cp, n) => .ok ⟨cp, n, cpRaw⟩

-- The channel has room for all, so no send waits.
def Group.finish (group : Group) (f : Fetcher) : Group :=
  match getCheckpointN pkg logID N logSigV origin witnesses f with
  | .error _ => { group with
      fetchErrs := group.fetchErrs.or (some (.text "error talking to distributor: %v")) }
  | .ok c => { group with cpc := group.cpc ++ [c] }

def better (best : Option Cp) (c : Cp) : Option Cp :=
  if (c.n.sigs.length : Int) - 1 < N then best
  else
    match best with
    | none => some c
    | some bestCP => if bestCP.cp.size < c.cp.size then some c else some bestCP

-- `finished` are the distributors in the order in which their fetches came to an end.
def consensusCheckpoint (finished : List Fetcher) : Except GoError Cp :=
  let group := finished.foldl (Group.finish pkg logID N logSigV origin witnesses) ⟨[], none⟩
  match group.cpc.foldl (better N) none with
  | none => .error (.text "unable to identify suitable checkpoint (fetch errs: %v)")
  | some bestCP => .ok bestCP

end Consensus

-- The function that CheckpointNConsensus returns, over the order in which the fetches end.
def checkpointNConsensus (pkg : Package) (logID : String) (witnesses : List Verifier) (N : Int) :
    Except GoError (Verifier → String → List Fetcher → Except GoError Cp) :=
  if N > witnesses.length then
    .error (.text
      "requested consensus across %d witnesses, but only %d witnesses configured - consensus would always fail")
  else .ok fun logSigV origin finished => consensusCheckpoint pkg logID N logSigV origin witnesses finished

section Best

variable {N : Int}

theorem better_cases (best : Option Cp) (c : Cp) :
    (better N best c = best ∧ (N ≤ (c.n.sigs.length : Int) - 1 → ∃ b, best = some b ∧ c.cp.size ≤ b.cp.size)) ∨
      (better N best c = some c ∧ N ≤ (c.n.sigs.length : Int) - 1 ∧
        ∀ b, best = some b → b.cp.size ≤ c.cp.size) := by
  unfold better
  split
  · exact .inl ⟨rfl, fun enough => by omega⟩
  next enough =>
    cases best with
    | none => exact .inr ⟨rfl, by omega, fun b found => by cases found⟩
    | some bestCP =>
      simp only
      split
      next larger =>
        refine .inr ⟨rfl, by omega, fun b found => ?_⟩
        obtain rfl := Option.some.inj found
        exact Nat.le_of_lt larger
      · exact .inl ⟨rfl, fun _ => ⟨bestCP, rfl, by omega⟩⟩

/-- What the loop over the channel has found after the checkpoints `seen`. -/
structure BestOf (N : Int) (seen : List Cp) (best : Option Cp) : Prop where
  found : ∀ b, best = some b → b ∈ seen ∧ N ≤ (b.n.sigs.length : Int) - 1
  largest : ∀ c ∈ seen, N ≤ (c.n.sigs.length : Int) - 1 → ∃ b, best = some b ∧ c.cp.size ≤ b.cp.size

theorem BestOf.step {seen : List Cp} {best : Option Cp} (held : BestOf N seen best) (c : Cp) :
    BestOf N (seen ++ [c]) (better N best c) := by
  rcases better_cases best c with ⟨same, covered⟩ | ⟨new, enough, larger⟩
  · rw [same]
    constructor
    · intro b found
      exact ⟨List.mem_append_left _ (held.found b found).1, (held.found b found).2⟩
    · intro c' member enough
      rcases List.mem_append.mp member with before | last
      · exact held.largest c' before enough
      · rw [List.mem_singleton.mp last] at enough ⊢
        exact covered enough
  · rw [new]
    constructor
    · intro b found
      obtain rfl := Option.some.inj found
      exact ⟨by simp, enough⟩
    · intro c' member enough'
      refine ⟨c, rfl, ?_⟩
      rcases List.mem_append.mp member with before | last
      · obtain ⟨b, found, smaller⟩ := held.largest c' before enough'
        exact Nat.le_trans smaller (larger b found)
      · rw [List.mem_singleton.mp last]

theorem bestOf_foldl (cpc : List Cp) {seen : List Cp} {best : Option Cp} (held : BestOf N seen best) :
    BestOf N (seen ++ cpc) (cpc.foldl (better N) best) := by
  induction cpc generalizing seen best with
  | nil => simpa using held
  | cons c rest ih => simpa using ih (held.step c)

theorem bestOf_channel (N : Int) (cpc : List Cp) : BestOf N cpc (cpc.foldl (better N) none) := by
  have start : BestOf N [] none := by
    constructor
    · intro b found
      cases found
    · intro c member
      cases member
  exact bestOf_foldl cpc start

end Best

section Soundness

variable {pkg : Package} {logID : String} {N : Int} {logSigV : Verifier} {origin : String}
  {witnesses : List Verifier}

theorem finish_cpc (finished : List Fetcher) (group : Group) :
    (finished.foldl (Group.finish pkg logID N logSigV origin witnesses) group).cpc =
      group.cpc ++ finished.filterMap fun f =>
        (getCheckpointN pkg logID N logSigV origin witnesses f).toOption := by
  induction finished generalizing group with
  | nil => simp
  | cons f rest ih =>
    rw [List.foldl_cons, ih, Group.finish]
    cases fetched : getCheckpointN pkg logID N logSigV origin witnesses f with
    | error reason => simp [fetched, Except.toOption]
    | ok c => simp [fetched, Except.toOption]

theorem mem_channel {finished : List Fetcher} {c : Cp} :
    c ∈ (finished.foldl (Group.finish pkg logID N logSigV origin witnesses) ⟨[], none⟩).cpc ↔
      ∃ f ∈ finished, getCheckpointN pkg logID N logSigV origin witnesses f = .ok c := by
  have ok : ∀ f, (getCheckpointN pkg logID N logSigV origin witnesses f).toOption = some c ↔
      getCheckpointN pkg logID N logSigV origin witnesses f = .ok c := fun f => by
    cases getCheckpointN pkg logID N logSigV origin witnesses f <;> simp [Except.toOption]
  simp [finish_cpc, ok]

/-- The checkpoint `c` has the origin, the log's signature and those of at least `N` witnesses. -/
structure Witnessed (pkg : Package) (N : Int) (logSigV : Verifier) (origin : String)
    (witnesses : List Verifier) (c : Cp) (e : Envelope) : Prop where
  decoded : pkg.decode c.raw = some e
  body : pkg.unmarshal e.text = some c.cp
  origin : c.cp.origin = origin
  log : e.SignedBy pkg logSigV
  enough : N ≤ ((e.signerKeys pkg witnesses).card : Int)

theorem getCheckpointN_witnessed (lawful : Lawful pkg) {f : Fetcher} {c : Cp}
    (fetched : getCheckpointN pkg logID N logSigV origin witnesses f = .ok c) :
    (∃ e, Witnessed pkg N logSigV origin witnesses c e) ↔ N ≤ (c.n.sigs.length : Int) - 1 := by
  unfold getCheckpointN at fetched
  split at fetched
  · cases fetched
  next cpRaw answer =>
  split at fetched
  · cases fetched
  next cp n parsed =>
  obtain rfl := Except.ok.inj fetched
  obtain ⟨read, own, body, from'⟩ := (lawful.parse _ _ _ _ _ _).mp parsed
  obtain ⟨e, decoded, text, _, _, signed⟩ := opened_signedBy read
  have count := opened_count decoded read own
  rw [text] at body
  constructor
  · rintro ⟨e', held⟩
    obtain rfl := Option.some.inj (decoded.symm.trans held.decoded)
    have enough := held.enough
    simp only [count]
    omega
  · intro enough
    simp only [count] at enough
    exact ⟨e, decoded, body, from', signed logSigV List.mem_cons_self own, by omega⟩

/-- A checkpoint that consensus returns has the signatures of the log and of `N` witnesses, and no other
one that was fetched and has these is larger. -/
theorem consensus_sound (lawful : Lawful pkg) (logID : String) (distributors : List Fetcher)
    (witnesses : List Verifier) (N : Int) (bound : N ≤ witnesses.length) :
    ∃ cons, checkpointNConsensus pkg logID witnesses N = .ok cons ∧
      ∀ (logSigV : Verifier) (origin : String) (finished : List Fetcher), finished.Perm distributors →
        ∀ c, cons logSigV origin finished = .ok c →
          (∃ e, Witnessed pkg N logSigV origin witnesses c e) ∧
          (∃ f ∈ distributors, getCheckpointN pkg logID N logSigV origin witnesses f = .ok c) ∧
          ∀ f ∈ distributors, ∀ other, getCheckpointN pkg logID N logSigV origin witnesses f = .ok other →
            (∃ e, Witnessed pkg N logSigV origin witnesses other e) → other.cp.size ≤ c.cp.size := by
  refine ⟨_, if_neg (by omega), ?_⟩
  intro logSigV origin finished perm c returned
  unfold consensusCheckpoint at returned
  have best := bestOf_channel N
    (finished.foldl (Group.finish pkg logID N logSigV origin witnesses) ⟨[], none⟩).cpc
  simp only at returned
  split at returned
  · cases returned
  next bestCP found =>
  obtain rfl := Except.ok.inj returned
  obtain ⟨member, enough⟩ := best.found bestCP found
  obtain ⟨f, listed, fetched⟩ := mem_channel.mp member
  refine ⟨(getCheckpointN_witnessed lawful fetched).mpr enough, ⟨f, perm.mem_iff.mp listed, fetched⟩, ?_⟩
  intro g listed' other fetched' witnessed
  have member' := mem_channel.mpr ⟨g, perm.mem_iff.mpr listed', fetched'⟩
  obtain ⟨b, same, larger⟩ :=
    best.largest other member' ((getCheckpointN_witnessed lawful fetched').mp witnessed)
  obtain rfl := Option.some.inj (found.symm.trans same)
  exact larger

end Soundness

section Tags

-- Distributors with checkpoints of sizes 1 and 2, of which only the smaller one has two witnesses.
def tagFetchers : List Fetcher :=
  [fun _ => .ok (tagNote (asciiBytes "o\n1\nAQ==\n") [108, 97, 98]), fun _ => .error .notExist,
    fun _ => .ok (tagNote (asciiBytes "o\n2\nAQ==\n") [108, 97])]

theorem consensus_sound_two :
    ∃ cons c, checkpointNConsensus reference "id" [tagVerifier 97, tagVerifier 98] 2 = .ok cons ∧
      cons (tagVerifier 108) "o" tagFetchers.reverse = .ok c ∧ c.cp.size = 1 ∧
      ∃ e, Witnessed reference 2 (tagVerifier 108) "o" [tagVerifier 97, tagVerifier 98] c e := by
  obtain ⟨cons, made, sound⟩ := consensus_sound reference_lawful "id" tagFetchers
    [tagVerifier 97, tagVerifier 98] 2 (by decide)
  obtain rfl := Except.ok.inj made
  have returned : (consensusCheckpoint reference "id" 2 (tagVerifier 108) "o"
      [tagVerifier 97, tagVerifier 98] tagFetchers.reverse).toOption.map (fun c => c.cp.size) = some 1 := by
    decide +kernel
  cases result : consensusCheckpoint reference "id" 2 (tagVerifier 108) "o"
      [tagVerifier 97, tagVerifier 98] tagFetchers.reverse with
  | error reason =>
    rw [result] at returned
    cases returned
  | ok c =>
    rw [result] at returned
    exact ⟨_, c, made, result, Option.some.inj returned,
      (sound (tagVerifier 108) "o" _ (List.reverse_perm _) c result).1⟩

end Tags

end WitnessClient
