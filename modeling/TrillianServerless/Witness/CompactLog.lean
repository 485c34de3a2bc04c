import TrillianServerless.Witness.RangeCheck
import TrillianServerless.Witness.Safety

set_option autoImplicit false

namespace WitnessServer

open Go Merkle Checkpoints
open SignedNote (Note Verifier Signer)

section Codec

theorem encodeBase64_line (s : Bytes) : newline ∉ encodeBase64 s := by
  intro member
  have low := (encodeBase64_bounds s newline member).1
  exact absurd low (by decide)

theorem splitOn_marshalProof (proof : List Bytes) :
    (marshalProof proof).splitOn newline = proof.map encodeBase64 ++ [[]] := by
  induction proof with
  | nil => rfl
  | cons hash rest ih =>
    have text : marshalProof (hash :: rest) = encodeBase64 hash ++ newline :: marshalProof rest := by
      simp [marshalProof]
    rw [text, List.splitOn_append_cons_self_of_not_mem (encodeBase64_line hash), ih]
    rfl

/-- Unmarshal reads back every list of hashes but the empty one. -/
theorem unmarshalProof_marshalProof {proof : List Bytes} (nonempty : proof ≠ []) :
    unmarshalProof (marshalProof proof) = .ok proof := by
  have ends : (marshalProof proof).getLast? = some newline := by
    obtain ⟨front, last, rfl⟩ := List.eq_nil_or_concat proof |>.resolve_left nonempty
    simp [marshalProof]
  rw [unmarshalProof, if_pos ends, splitOn_marshalProof, List.dropLast_concat]
  clear ends nonempty
  induction proof with
  | nil => rfl
  | cons hash rest ih =>
    rw [List.map_cons, List.mapM_cons, decodeBase64_encodeBase64, ih]
    rfl

theorem unmarshalProof_ne_nil {data : Bytes} {proof : List Bytes} (read : unmarshalProof data = .ok proof) :
    proof ≠ [] := by
  unfold unmarshalProof at read
  split at read
  next ends =>
    -- The text before the last line break has a first line.
    obtain ⟨front, rfl⟩ : ∃ front, data = front ++ [newline] := by
      rcases List.eq_nil_or_concat data with rfl | ⟨front, last, rfl⟩
      · cases ends
      · obtain rfl : last = newline := by simpa using ends
        exact ⟨front, List.concat_eq_append⟩
    rw [List.splitOn_append_cons_self, List.splitOn_nil, List.dropLast_concat] at read
    obtain ⟨first, rest, lines⟩ := List.exists_cons_of_ne_nil (List.splitOn_ne_nil newline front)
    rw [lines, List.mapM_cons] at read
    obtain ⟨hash, _, read⟩ := except_bind_eq_ok.mp read
    obtain ⟨others, _, read⟩ := except_bind_eq_ok.mp read
    obtain rfl := Except.ok.inj read
    exact List.cons_ne_nil hash others
  · cases read

/-- The proofs that can be read back are those with a hash, and what was read can be written and read again. -/
theorem proof_readBack_iff (proof : List Bytes) (data : Bytes) :
    (unmarshalProof (marshalProof proof) = .ok proof ↔ proof ≠ []) ∧
      ∀ accepted, unmarshalProof data = .ok accepted →
        unmarshalProof (marshalProof accepted) = .ok accepted := by
  refine ⟨⟨unmarshalProof_ne_nil, unmarshalProof_marshalProof⟩, fun accepted read => ?_⟩
  exact unmarshalProof_marshalProof (unmarshalProof_ne_nil read)

theorem empty_proof_unreadable : ∃ reason, unmarshalProof (marshalProof []) = .error reason := ⟨_, rfl⟩

end Codec

variable {w : Witness} {logID : String}
  {info : LogInfo} {entries : List Bytes}

-- Every checkpoint that verifies for the log is one of the given entries.
def SignsOnly (w : Witness) (logID : String) (h : LogHasher)
    (entries : List Bytes) : Prop :=
  ∀ raw cp note, parse w raw logID = .ok (cp, note) →
    cp.size ≤ entries.length ∧ cp.hash = h.logRoot (entries.take cp.size)

def trueRange (h : LogHasher) (entries : List Bytes) (b e : Nat) : List Bytes :=
  (cover b e).map (h.logNode entries)

/-- What is stored for the log is a checkpoint with its own compact range. -/
structure StoredTrue (w : Witness) (logID : String) (h : LogHasher)
    (entries : List Bytes) (value : CheckpointState) (cp : Checkpoint) : Prop where
  parsed : ∃ note, parse w value.rawChkpt logID = .ok (cp, note)
  positive : 0 < cp.size
  range : value.compactRange = some (marshalProof (trueRange h entries 0 cp.size))

theorem trueRange_ne_nil {h : LogHasher} {b e : Nat} (less : b < e) : trueRange h entries b e ≠ [] := by
  simpa [trueRange] using cover_ne_nil less

theorem StoredTrue.unmarshal {h : LogHasher} {value : CheckpointState} {cp : Checkpoint}
    (stored : StoredTrue w logID h entries value cp) :
    unmarshalProof (value.compactRange.getD []) = .ok (trueRange h entries 0 cp.size) := by
  rw [stored.range]
  exact unmarshalProof_marshalProof (trueRange_ne_nil stored.positive)

section Pinned

variable {h : LogHasher} {hashes : List Bytes}

/-- Hashes of the right length that have the root of the log are its compact range. -/
theorem trueRange_of_root (binds : h.Binds entries) {n : Nat} (positive : 0 < n)
    (bound : n ≤ entries.length) (v : NodeID → Bytes)
    (sized : ∀ id ∈ cover 0 n, (v id).length = 32)
    (root : h.logRoot (entries.take n) = rangeRoot h.hashChildren [] ((cover 0 n).map v)) :
    (cover 0 n).map v = trueRange h entries 0 n := by
  have same : coverRoot h.hashChildren [] v 0 n = spanHash h.hashChildren (h.leafOf entries) [] ⟨0, n⟩ := by
    rw [coverRoot, Nat.zero_add, ← root, h.logRoot_take entries positive bound]
  have pinned := coverRoot_sized (h.sized entries) binds.nodes (Nat.dvd_zero (2 ^ n)) positive
    (Nat.le_of_lt Nat.lt_two_pow_self) (by omega) (by rwa [Nat.zero_add]) same
  rwa [Nat.zero_add] at pinned

theorem rangeNodes_sized {p n : Nat} {rng delta : List Bytes} (order : p ≤ n)
    (length : rng.length = (cover 0 p).length) (length' : delta.length = (cover p n).length)
    (sized : ∀ hash ∈ rng, hash.length = 32) (sized' : ∀ hash ∈ delta, hash.length = 32) {id : NodeID}
    (member : id ∈ cover 0 n) : (rangeNodes h p n rng delta id).length = 32 := by
  obtain ⟨⟨lower, upper⟩, top⟩ := (mem_cover_iff 0 n id).mp member
  by_cases left : id.stop ≤ p
  · have inside : id ∈ cover 0 p := (mem_cover_iff 0 p id).mpr
      ⟨⟨lower, left⟩, fun parent => top ⟨parent.1, Nat.le_trans parent.2 order⟩⟩
    refine sized _ ?_
    have listed := List.mem_map_of_mem (f := rangeNodes h p n rng delta) inside
    rwa [rangeNodes, joined_left _ _ _ _ length] at listed
  by_cases right : p ≤ id.first
  · have inside : id ∈ cover p n := (mem_cover_iff p n id).mpr
      ⟨⟨right, upper⟩, fun parent => top ⟨Nat.zero_le _, parent.2⟩⟩
    refine sized' _ ?_
    have listed := List.mem_map_of_mem (f := rangeNodes h p n rng delta) inside
    rwa [rangeNodes, joined_right _ _ _ _ length'] at listed
  · obtain ⟨level, index⟩ := id
    cases level with
    | zero =>
      simp at left right
      omega
    | succ level =>
      rw [rangeNodes, joined, merged_parents _ _ 0 p n level index
        (NodeID.straddles_of_bounds lower (by omega) (by omega) upper)]
      exact h.childSize _ _

end Pinned

section Step

/-- What Update stores for the call can be read again: the proof consists of hashes of 32 bytes, and the note has
room for one more signature. -/
structure Storable (w : Witness) (call : Call) : Prop where
  sized : ∀ hash ∈ call.cProof, hash.length = 32
  room : ∀ next note, parse w call.nextRaw call.logID = .ok (next, note) →
    (note.others [w.signer]).length < SignedNote.maxSignatures

variable (lawful : Compact.Lawful w.compact) (notes : SignedNote.Lawful w.notes)
  (known : w.logs logID = some info) (apart : w.signer.key ≠ info.sigV.key)
  (compact : info.useCompact = true) (binds : info.hasher.Binds entries)
  (emptyRoot : info.hasher.emptyRoot ≠ []) (honest : SignsOnly w logID info.hasher entries)
include lawful notes known apart compact binds emptyRoot honest

omit lawful compact binds emptyRoot honest in
theorem Storable.parses {call : Call} {next : Checkpoint} {note : Note} {signed : Bytes} (log : call.logID = logID)
    (storable : Storable w call) (parsed : parse w call.nextRaw logID = .ok (next, note))
    (signs : w.notes.sign note [w.signer] = .ok signed) :
    ∃ signedNote, parse w signed logID = .ok (next, signedNote) := by
  have room := storable.room next note (by rw [log]; exact parsed)
  unfold parse at parsed ⊢
  rw [known] at parsed ⊢
  exact notes.parse_cosigned parsed signs apart room

theorem firstUse_true {call : Call} {next : Checkpoint} {note : Note} {new : CheckpointState}
    {message : String} (log : call.logID = logID)
    (parsed : parse w call.nextRaw logID = .ok (next, note)) (storable : Storable w call)
    (planned : firstUse w info call next note = .set new message) :
    StoredTrue w logID info.hasher entries new next := by
  have newParsed := storable.parses notes known apart log parsed (firstUse_set planned)
  obtain ⟨bound, root⟩ := honest _ _ _ parsed
  unfold firstUse at planned
  split at planned
  · cases planned
  split at planned
  · cases planned
  next range formed =>
    rw [initRange, if_pos compact] at formed
    obtain ⟨r, formed', rest⟩ := except_bind_eq_ok.mp formed
    obtain ⟨_, length, rfl⟩ := lawful.newRange_eq_ok.mp (hideErr_eq_ok.mp formed')
    obtain ⟨_, hashed, stored⟩ := except_bind_eq_ok.mp rest
    have own := (verifyRangeHash_ok lawful rfl).mp (hideErr_eq_ok.mp hashed)
    obtain rfl := Except.ok.inj stored
    obtain ⟨rfl, rfl⟩ := Plan.set.inj planned
    -- A checkpoint of size 0 would have to have the root of an empty range.
    have positive : 0 < next.size := by
      by_contra zero
      obtain none : next.size = 0 := by omega
      rw [none, cover_self, List.length_nil, List.length_eq_zero_iff] at length
      rw [root, none, length] at own
      exact emptyRoot (by simpa [LogHasher.logRoot, rangeRoot] using own)
    refine ⟨newParsed, positive, ?_⟩
    have values := map_coverValue [] length
    have pinned := trueRange_of_root binds positive bound (coverValue [] 0 next.size call.cProof)
      (fun id member => storable.sized _ (by
        have listed := List.mem_map_of_mem (f := coverValue [] 0 next.size call.cProof) member
        rwa [values] at listed))
      (by rw [values, ← root, own])
    rw [← pinned, values]

omit emptyRoot in
theorem replaceStored_true {call : Call} {prev next : Checkpoint} {note : Note}
    {old new : CheckpointState} {message : String} (log : call.logID = logID)
    (parsed : parse w call.nextRaw logID = .ok (next, note)) (storable : Storable w call)
    (held : StoredTrue w logID info.hasher entries old prev)
    (planned : replaceStored w info call next note old = .set new message) :
    StoredTrue w logID info.hasher entries new next := by
  obtain ⟨bound, root⟩ := honest _ _ _ parsed
  obtain ⟨stored, storedNote, range, oldParsed, unmarshalled, larger, verified, signs⟩ :=
    replaceStored_set planned
  have newParsed := storable.parses notes known apart log parsed signs
  obtain ⟨heldNote, heldParsed⟩ := held.parsed
  rw [log, heldParsed] at oldParsed
  obtain ⟨rfl, rfl⟩ := Prod.mk.inj (Except.ok.inj oldParsed)
  rw [if_pos compact, held.unmarshal] at unmarshalled
  obtain rfl := Except.ok.inj unmarshalled
  have checked := verifyNext_ok verified
  rw [if_pos compact] at checked
  obtain ⟨result, accepted, stores⟩ := checked
  obtain ⟨length, _, order, length', rfl, newRoot⟩ := (verifyRange_eq_ok lawful).mp accepted
  refine ⟨newParsed, by omega, ?_⟩
  have own : ∀ hash ∈ trueRange info.hasher entries 0 prev.size, hash.length = 32 := by
    intro hash member
    obtain ⟨id, _, rfl⟩ := List.mem_map.mp member
    exact info.hasher.logNode_length entries id
  rw [stores, trueRange_of_root binds (by omega) bound _
    (fun id member => rangeNodes_sized order length length' own storable.sized member)
    (by rw [← root, newRoot])]

omit notes known apart binds emptyRoot in
/-- A true delta takes the witness from a stored checkpoint to any larger one. -/
theorem replaceStored_accepts {call : Call} {prev next : Checkpoint} {note : Note}
    {old : CheckpointState} {signed : Bytes} (log : call.logID = logID)
    (parsed : parse w call.nextRaw logID = .ok (next, note))
    (held : StoredTrue w logID info.hasher entries old prev) (larger : prev.size < next.size)
    (delta : call.cProof = trueRange info.hasher entries prev.size next.size)
    (signs : w.notes.sign note [w.signer] = .ok signed) :
    replaceStored w info call next note old =
      .set ⟨signed, some (marshalProof (trueRange info.hasher entries 0 next.size))⟩
        "failed to store new checkpoint: %v" := by
  obtain ⟨heldNote, heldParsed⟩ := held.parsed
  obtain ⟨_, oldRoot⟩ := honest _ _ _ heldParsed
  obtain ⟨bound, newRoot⟩ := honest _ _ _ parsed
  have verified : verifyRange w.compact next prev info.hasher (trueRange info.hasher entries 0 prev.size)
      call.cProof = .ok (trueRange info.hasher entries 0 next.size) := by
    rw [delta]
    exact verifyRange_true lawful entries held.positive (Nat.le_of_lt larger) bound rfl oldRoot rfl
      newRoot
  have signs' : signChkpt w note = .ok signed := hideErr_eq_ok.mpr signs
  unfold replaceStored
  rw [log, heldParsed]
  dsimp only
  rw [if_pos compact, held.unmarshal]
  dsimp only
  rw [if_neg (by omega), if_neg (by omega), verifyNext, if_pos compact, verified]
  dsimp only
  rw [signs']

end Step

section Run

/-- Each call whose outcome Update goes on to store for the log is storable. -/
def StorableSteps (w : Witness) (schedule : Nat → Event) (logID : String) : Prop :=
  ∀ n id call read new message, schedule n = .advance id →
    (run w schedule n).calls id = .storing call read new message → call.logID = logID →
    (run w schedule n).store logID = read → Storable w call

-- A call of Update during which no other call takes a step.
def updateAlone (w : Witness) (store : Store) (call : Call) :
    Store × CallState :=
  (fun s => advance w s.1 s.2)^[4] (store, .called call)

theorem updateAlone_set {store : Store} {call : Call} {next : Checkpoint} {note : Note}
    {new : CheckpointState} {message : String} (known : w.logs call.logID = some info)
    (parsed : parse w call.nextRaw call.logID = .ok (next, note))
    (planned : plan w info call next note (store call.logID) = .set new message) :
    updateAlone w store call =
      (Function.update store call.logID (some new), .finished call (some new.rawChkpt, none)) := by
  have received : advance w store (.called call) = (store, .parsed call info next note) := by
    simp only [advance, receive, known, parsed]
  have opened : advance w store (.opened call info next note (store call.logID)) =
      (store, .storing call (store call.logID) new message) := by
    simp only [advance, planned]
  have written : advance w store (.storing call (store call.logID) new message) =
      (Function.update store call.logID (some new), .finished call (some new.rawChkpt, none)) := by
    simp only [advance, expectAndWrite, if_true]
  rw [updateAlone, Function.iterate_succ_apply, received, Function.iterate_succ_apply]
  show (fun s => advance w s.1 s.2)^[2] (store, .opened call info next note (store call.logID)) = _
  rw [Function.iterate_succ_apply, opened, Function.iterate_succ_apply, written]
  rfl

theorem updateAlone_reply {store : Store} {call : Call} {next : Checkpoint} {note : Note}
    {reply : Reply} (known : w.logs call.logID = some info)
    (parsed : parse w call.nextRaw call.logID = .ok (next, note))
    (planned : plan w info call next note (store call.logID) = .reply reply) :
    updateAlone w store call = (store, .returned call reply) := by
  have received : advance w store (.called call) = (store, .parsed call info next note) := by
    simp only [advance, receive, known, parsed]
  have opened : advance w store (.opened call info next note (store call.logID)) =
      (store, .finished call reply) := by
    simp only [advance, planned]
  rw [updateAlone, Function.iterate_succ_apply, received, Function.iterate_succ_apply]
  show (fun s => advance w s.1 s.2)^[2] (store, .opened call info next note (store call.logID)) = _
  rw [Function.iterate_succ_apply, opened]
  rfl

variable (lawful : Compact.Lawful w.compact) (notes : SignedNote.Lawful w.notes)
  (known : w.logs logID = some info) (apart : w.signer.key ≠ info.sigV.key) (compact : info.useCompact = true)
  (binds : info.hasher.Binds entries) (emptyRoot : info.hasher.emptyRoot ≠ [])
  (honest : SignsOnly w logID info.hasher entries)
include lawful notes known apart compact binds emptyRoot honest

theorem run_storedTrue (schedule : Nat → Event) (storable : StorableSteps w schedule logID) (n : Nat)
    (value : CheckpointState) (stored : (run w schedule n).store logID = some value) :
    ∃ cp, StoredTrue w logID info.hasher entries value cp := by
  induction n generalizing value with
  | zero => simp [run, System.initial] at stored
  | succ n ih =>
    rcases step_store w schedule n with same |
      ⟨id, call, read, new, message, event, state, expected, changed, _⟩
    · exact ih value (by rw [← same]; exact stored)
    by_cases log : call.logID = logID
    · obtain ⟨info', next, note, known', parsed, planned⟩ : CallState.Valid w
          (.storing call read new message) := by rw [← state]; exact run_valid w schedule n id
      rw [log] at known' parsed expected changed
      obtain rfl := Option.some.inj (known'.symm.trans known)
      have fits := storable n id call read new message event state log expected
      rw [changed, Function.update_self] at stored
      obtain rfl := Option.some.inj stored
      cases read with
      | none =>
        exact ⟨next, firstUse_true lawful notes known apart compact binds emptyRoot honest log parsed fits planned⟩
      | some old =>
        obtain ⟨prev, held⟩ := ih old expected
        exact ⟨next, replaceStored_true lawful notes known apart compact binds honest log parsed fits held planned⟩
    · exact ih value (by rwa [changed, Function.update_of_ne (Ne.symm log)] at stored)

/-- As long as only hashes of 32 bytes get stored, with notes that have room for the witness's signature, the
stored range of a compact log is the true one and the witness can be taken to every larger checkpoint. -/
theorem compactLog_never_wedged (schedule : Nat → Event) (storable : StorableSteps w schedule logID)
    (n : Nat) (value : CheckpointState) (stored : (run w schedule n).store logID = some value) :
    ∃ cp note, parse w value.rawChkpt logID = .ok (cp, note) ∧
      unmarshalProof (value.compactRange.getD []) =
        .ok (trueRange info.hasher entries 0 cp.size) ∧
      ∀ call next nextNote signed, call.logID = logID →
        parse w call.nextRaw logID = .ok (next, nextNote) → cp.size < next.size →
        call.cProof = trueRange info.hasher entries cp.size next.size →
        w.notes.sign nextNote [w.signer] = .ok signed →
        updateAlone w (run w schedule n).store call =
          (Function.update (run w schedule n).store logID
            (some ⟨signed, some (marshalProof (trueRange info.hasher entries 0 next.size))⟩),
            .finished call (some signed, none)) := by
  obtain ⟨cp, held⟩ := run_storedTrue lawful notes known apart compact binds emptyRoot honest schedule storable
    n value stored
  obtain ⟨note, parsed⟩ := held.parsed
  refine ⟨cp, note, parsed, held.unmarshal, fun call next nextNote signed log nextParsed larger delta
    signs => ?_⟩
  have planned := replaceStored_accepts lawful compact honest log nextParsed held larger delta signs
  subst log
  exact updateAlone_set known nextParsed (by rw [stored]; exact planned)

end Run

section Issued

-- A log that has signed the given texts and no others.
def issuedVerifier (texts : List Bytes) : Verifier :=
  ⟨⟨[108], 108⟩, fun text sig => texts.any (fun issued => text = issued) && decide (sig = [108])⟩

def textAt (h : LogHasher) (entries : List Bytes) (n : Nat) : Bytes := checkpointText n (h.logRoot (entries.take n))

def issuedWitness (h : LogHasher) (texts : List Bytes) : Witness :=
  { referenceWitness with logs := fun id => if id = "log" then some ⟨issuedVerifier texts, "o", h, true⟩ else none }

def checkpointOf (h : LogHasher) (entries : List Bytes) (n : Nat) : Checkpoint :=
  ⟨"o", n, h.logRoot (entries.take n)⟩

theorem issuedWitness_honest (h : LogHasher) (entries : List Bytes) {sizes : List Nat}
    (bounded : ∀ n ∈ sizes, n ≤ entries.length)
    (read : ∀ n ∈ sizes, SignedNote.unmarshalText (textAt h entries n) = some (checkpointOf h entries n)) :
    SignsOnly (issuedWitness h (sizes.map (textAt h entries))) "log" h entries := by
  intro raw cp note parsed
  have issued : SignedNote.reference.parseCheckpoint raw "o" (issuedVerifier (sizes.map (textAt h entries))) [] =
      .ok (cp, note) := parsed
  obtain ⟨opened, named, body, -⟩ := (SignedNote.reference_lawful.parse _ _ _ _ _ _).mp issued
  obtain ⟨e, -, text, -, -, signers⟩ := SignedNote.opened_signedBy opened
  obtain ⟨s, -, verified⟩ := signers _ List.mem_cons_self named
  obtain ⟨issued, listed, same⟩ := List.any_eq_true.mp (Bool.and_eq_true_iff.mp verified).1
  obtain rfl := of_decide_eq_true same
  obtain ⟨n, member, same⟩ := List.mem_map.mp listed
  have own : SignedNote.unmarshalText note.text = some cp := body
  rw [text, ← same, read n member] at own
  obtain rfl := Option.some.inj own
  exact ⟨bounded n member, rfl⟩

def oneCall (call : Call) (n : Nat) : Event := if n = 0 then .invoke 0 call else .advance 0

theorem oneCall_call {w : Witness} {call made : Call} {n id : Nat} {read : Option CheckpointState}
    {new : CheckpointState} {message : String}
    (state : (run w (oneCall call) n).calls id = .storing made read new message) : made = call := by
  have called : ((run w (oneCall call) n).calls id).call? = some made := by
    rw [state]
    rfl
  obtain ⟨j, invoked⟩ := called_invoked _ _ called
  unfold oneCall at invoked
  split at invoked
  · exact (Event.invoke.inj invoked).2.symm
  · cases invoked

def pairWitness : Witness := issuedWitness pairHasher ([1, 2].map (textAt pairHasher [[1], [2]]))

def pairNote (n : Nat) (tags : List UInt8) : Bytes := SignedNote.tagNote (textAt pairHasher [[1], [2]] n) tags

def firstCall : Call := ⟨"log", pairNote 1 [108], trueRange pairHasher [[1], [2]] 0 1⟩

def secondCall : Call := ⟨"log", pairNote 2 [108], trueRange pairHasher [[1], [2]] 1 2⟩

def pairNoteOf (n : Nat) (tags : List UInt8) : Note :=
  ⟨textAt pairHasher [[1], [2]] n, [SignedNote.tagSignature 108], tags.map SignedNote.tagSignature⟩

theorem firstCall_storable : Storable pairWitness firstCall where
  sized hash member := by
    obtain ⟨node, _, rfl⟩ := List.mem_map.mp member
    exact pairHasher.logNode_length _ node
  room next note parsed := by
    have first : parse pairWitness (pairNote 1 [108]) "log" =
        .ok (checkpointOf pairHasher [[1], [2]] 1, pairNoteOf 1 []) := by decide +kernel
    obtain ⟨-, rfl⟩ := Prod.mk.inj (Except.ok.inj (first.symm.trans parsed))
    decide

theorem compactLog_never_wedged_pair :
    (updateAlone pairWitness (run pairWitness (oneCall firstCall) 5).store secondCall).2 =
      .finished secondCall (some (pairNote 2 [108, 119]), none) := by
  have stored : (run pairWitness (oneCall firstCall) 5).store "log" =
      some ⟨pairNote 1 [108, 119], some (marshalProof (trueRange pairHasher [[1], [2]] 0 1))⟩ := by decide +kernel
  have storable : StorableSteps pairWitness (oneCall firstCall) "log" := by
    intro n id call read new message _ state _ _
    rw [oneCall_call state]
    exact firstCall_storable
  obtain ⟨cp, note, parsed, _, accepts⟩ := @compactLog_never_wedged pairWitness "log"
    ⟨issuedVerifier ([1, 2].map (textAt pairHasher [[1], [2]])), "o", pairHasher, true⟩ [[1], [2]]
    Compact.reference_lawful SignedNote.reference_lawful rfl (by decide) rfl (pairHasher_binds (List.prefix_refl _))
    (by decide) (issuedWitness_honest pairHasher [[1], [2]] (by decide) (by decide +kernel)) (oneCall firstCall) storable
    5 _ stored
  have first : parse pairWitness (pairNote 1 [108, 119]) "log" =
      .ok (checkpointOf pairHasher [[1], [2]] 1, pairNoteOf 1 [119]) := by decide +kernel
  obtain ⟨rfl, _⟩ := Prod.mk.inj (Except.ok.inj (first.symm.trans parsed))
  have second : parse pairWitness secondCall.nextRaw "log" =
      .ok (checkpointOf pairHasher [[1], [2]] 2, pairNoteOf 2 []) := by decide +kernel
  rw [accepts secondCall _ _ (pairNote 2 [108, 119]) rfl second (by decide) rfl (by decide +kernel)]

-- The hashes of a log of four entries, of its nodes and of its root at size 3.
def fourLeaf (n : UInt8) : Bytes := LogHasher.numbered 1 [[1], [2], [3], [4]] [n]

def fourPairs : List Bytes := [fourLeaf 1 ++ fourLeaf 2, fourLeaf 3 ++ fourLeaf 4]

def fourPair (n : Nat) : Bytes := LogHasher.fit [2, UInt8.ofNat n]

def fourHasher : LogHasher :=
  .listing [[1], [2], [3], [4]] (fourPairs ++ [fourPair 0 ++ fourLeaf 3, fourPair 0 ++ fourPair 1])

def fourWitness : Witness := issuedWitness fourHasher ([3, 4].map (textAt fourHasher [[1], [2], [3], [4]]))

def fourNote (n : Nat) (tags : List UInt8) : Bytes :=
  SignedNote.tagNote (textAt fourHasher [[1], [2], [3], [4]] n) tags

-- The two hashes of the range [0, 3) with two bytes moved from the second to the first.
def shiftedCall : Call := ⟨"log", fourNote 3 [108], [fourPair 0 ++ (fourLeaf 3).take 2, (fourLeaf 3).drop 2]⟩

def trueCall : Call := ⟨"log", fourNote 4 [108], trueRange fourHasher [[1], [2], [3], [4]] 3 4⟩

/-- A client that moves bytes between the hashes of a first range has it stored, and no true range
takes the witness on. -/
theorem compactLog_wedged :
    SignsOnly fourWitness "log" fourHasher [[1], [2], [3], [4]] ∧
    (run fourWitness (oneCall shiftedCall) 5).store "log" =
      some ⟨fourNote 3 [108, 119], some (marshalProof shiftedCall.cProof)⟩ ∧
    unmarshalProof (marshalProof shiftedCall.cProof) ≠
      .ok (trueRange fourHasher [[1], [2], [3], [4]] 0 3) ∧
    (∃ note, parse fourWitness trueCall.nextRaw "log" =
      .ok (checkpointOf fourHasher [[1], [2], [3], [4]] 4, note)) ∧
    (updateAlone fourWitness (run fourWitness (oneCall shiftedCall) 5).store trueCall).2 =
      .returned trueCall (some (fourNote 3 [108, 119]),
        some ⟨.failedPrecondition, "failed to verify compact range: %v"⟩) := by
  have stored : (run fourWitness (oneCall shiftedCall) 5).store "log" =
      some ⟨fourNote 3 [108, 119], some (marshalProof shiftedCall.cProof)⟩ := by decide +kernel
  have parsed : parse fourWitness trueCall.nextRaw "log" =
      .ok (checkpointOf fourHasher [[1], [2], [3], [4]] 4,
        ⟨textAt fourHasher [[1], [2], [3], [4]] 4, [SignedNote.tagSignature 108], []⟩) := by decide +kernel
  have rejected : plan fourWitness
      ⟨issuedVerifier ([3, 4].map (textAt fourHasher [[1], [2], [3], [4]])), "o", fourHasher, true⟩ trueCall
      (checkpointOf fourHasher [[1], [2], [3], [4]] 4)
      ⟨textAt fourHasher [[1], [2], [3], [4]] 4, [SignedNote.tagSignature 108], []⟩
      (some ⟨fourNote 3 [108, 119], some (marshalProof shiftedCall.cProof)⟩) =
        .reply (some (fourNote 3 [108, 119]),
          some ⟨.failedPrecondition, "failed to verify compact range: %v"⟩) := by decide +kernel
  refine ⟨issuedWitness_honest fourHasher _ (by decide) (by decide +kernel), stored, by decide +kernel,
    ⟨_, parsed⟩, ?_⟩
  rw [updateAlone_reply rfl parsed (by rw [show trueCall.logID = "log" from rfl, stored]; exact rejected)]

end Issued

end WitnessServer
