import Mathlib.Data.Finset.Card
import TrillianServerless.Shared.Slices
import TrillianServerless.Packages.Merkle

set_option autoImplicit false

/-!
# Package note of golang.org/x/mod, and log.ParseCheckpoint of transparency-dev/formats

Neither is part of the repository. `Package` lists the functions that the repository calls, and `Lawful`
what their documentation promises over the format of a signed note.
-/

namespace SignedNote

open Go Checkpoints

-- A key is looked up by its name and its hash.
structure Key where
  name : Bytes
  hash : UInt32
  deriving DecidableEq, Repr

structure Verifier where
  key : Key
  verify : Bytes → Bytes → Bool

structure Signature where
  key : Key
  base64 : Bytes
  deriving DecidableEq, Repr

structure Note where
  text : Bytes
  sigs : List Signature
  unverifiedSigs : List Signature
  deriving DecidableEq, Repr

inductive OpenError where
  | unverified (note : Note)
  | failed (reason : GoError)

/-- A signer as NewSigner makes it: it has a valid name, and no signature is empty. -/
structure Signer where
  key : Key
  sign : Bytes → Except GoError Bytes
  named : key.name ≠ [] ∧ ∀ c ∈ key.name, c ≠ 43 ∧ c ≠ 32 ∧ c ≠ newline
  signs : ∀ text sig, sign text = .ok sig → sig ≠ []

-- The text and the signature lines of a message.
structure Envelope where
  text : Bytes
  lines : List Signature
  deriving DecidableEq, Repr

-- `decode` reads the format of messages (malformed ones and those with more than 100 signatures have
-- none), `textOf` the text before the signatures however many they are, `payload` the signature in a base64
-- text, `unmarshal` a checkpoint body. Every Verifiers is a VerifierList.
structure Package where
  decode : Bytes → Option Envelope
  textOf : Bytes → Option Bytes
  payload : Bytes → Bytes
  unmarshal : Bytes → Option Checkpoint
  openNote : Bytes → List Verifier → Except OpenError Note
  sign : Note → List Signer → Except GoError Bytes
  parseCheckpoint : Bytes → String → Verifier → List Verifier → Except GoError (Checkpoint × Note)

-- The checkpoint in the text of a message, however many signatures it has.
def Package.stated (pkg : Package) (msg : Bytes) : Option Checkpoint := do
  pkg.unmarshal (← pkg.textOf msg)

def maxSignatures : Nat := 100

-- Open ignores repeated signatures of one key.
def firstOfEach : List Signature → List Signature
  | [] => []
  | s :: rest => s :: (firstOfEach rest).filter fun t => t.key ≠ s.key

def isKnown (known : List Verifier) (s : Signature) : Bool := known.any fun v => v.key = s.key

section Opened

variable (pkg : Package) (known : List Verifier)

-- Two verifiers for one key are an error.
def accepts (text : Bytes) (s : Signature) : Bool :=
  match known.filter fun v => v.key = s.key with
  | [v] => v.verify text (pkg.payload s.base64)
  | _ => false

def Envelope.verified (e : Envelope) : List Signature := firstOfEach (e.lines.filter (isKnown known))

def Envelope.note (e : Envelope) : Note :=
  ⟨e.text, e.verified known, (e.lines.filter fun s => !isKnown known s).eraseDups⟩

-- What Open makes of a message before it looks whether any signature was verified.
def opened (msg : Bytes) : Option Note :=
  match pkg.decode msg with
  | none => none
  | some e =>
    if (e.verified known).all (accepts pkg known e.text) then some (e.note known) else none

end Opened

/-- A note made of parts of messages. -/
structure Written (pkg : Package) (n : Note) : Prop where
  text : ∃ msg e, pkg.decode msg = some e ∧ e.text = n.text
  lines : ∀ s ∈ n.sigs ++ n.unverifiedSigs, ∃ msg e, pkg.decode msg = some e ∧ s ∈ e.lines
  some' : n.sigs ++ n.unverifiedSigs ≠ []

-- Sign replaces signatures of its signers and leaves the others.
def Note.others (n : Note) (signers : List Signer) : List Signature :=
  (n.sigs ++ n.unverifiedSigs).filter fun t => t.key ∉ signers.map Signer.key

/-- The lines with which the signers sign a text. -/
def SignedWith (pkg : Package) (text : Bytes) (signers : List Signer) (lines : List Signature) : Prop :=
  List.Forall₂ (fun s t => t.key = s.key ∧ s.sign text = .ok (pkg.payload t.base64)) signers lines

structure Lawful (pkg : Package) : Prop where
  decode_nil : pkg.decode [] = none
  decode_text : ∀ msg e, pkg.decode msg = some e → pkg.textOf msg = some e.text
  open_ok : ∀ msg known n, opened pkg known msg = some n → n.sigs ≠ [] →
    pkg.openNote msg known = .ok n
  open_unverified : ∀ msg known n, opened pkg known msg = some n → n.sigs = [] →
    pkg.openNote msg known = .error (.unverified n)
  open_failed : ∀ msg known, opened pkg known msg = none →
    ∃ reason, pkg.openNote msg known = .error (.failed reason)
  sign_some : ∀ n signers, Written pkg n → (∀ s ∈ signers, ∃ sig, s.sign n.text = .ok sig) →
    ∃ msg, pkg.sign n signers = .ok msg
  sign_ok : ∀ n signers msg, Written pkg n → pkg.sign n signers = .ok msg →
    pkg.textOf msg = some n.text ∧ ∃ lines, SignedWith pkg n.text signers lines ∧
      pkg.decode msg = if (n.others signers ++ lines).length ≤ maxSignatures then
        some ⟨n.text, n.others signers ++ lines⟩ else none
  parse : ∀ msg origin v others cp n, pkg.parseCheckpoint msg origin v others = .ok (cp, n) ↔
    opened pkg (v :: others) msg = some n ∧ v.key ∈ n.sigs.map Signature.key ∧
      pkg.unmarshal n.text = some cp ∧ cp.origin = origin

section Signers

theorem mem_firstOfEach {s : Signature} {lines : List Signature} :
    s ∈ firstOfEach lines ↔ lines.find? (fun t => t.key = s.key) = some s := by
  induction lines with
  | nil => simp [firstOfEach]
  | cons t rest ih =>
    rw [firstOfEach, List.mem_cons, List.mem_filter, ih, List.find?_cons]
    by_cases own : t.key = s.key
    · simp [own, eq_comm]
    · have other : s ≠ t := fun same => own (by rw [same])
      simp [own, other, Ne.symm own]

theorem firstOfEach_nodup (lines : List Signature) : ((firstOfEach lines).map Signature.key).Nodup := by
  induction lines with
  | nil => exact List.nodup_nil
  | cons t rest ih =>
    rw [firstOfEach, List.map_cons, List.nodup_cons]
    constructor
    · simp
    · exact ih.sublist (List.filter_sublist.map _)

theorem firstOfEach_of_nodup {lines : List Signature} (distinct : (lines.map Signature.key).Nodup) :
    firstOfEach lines = lines := by
  induction lines with
  | nil => rfl
  | cons t rest ih =>
    rw [List.map_cons, List.nodup_cons] at distinct
    rw [firstOfEach, ih distinct.2, List.filter_eq_self.mpr]
    intro s member
    simp only [ne_eq, decide_eq_true_eq]
    exact fun same => distinct.1 (List.mem_map.mpr ⟨s, member, same⟩)

/-- The signature that Open takes for a key. -/
def Envelope.signature (e : Envelope) (k : Key) : Option Signature := e.lines.find? fun s => s.key = k

variable (pkg : Package)

/-- The message `e` is validly signed by `v`. -/
def Envelope.SignedBy (e : Envelope) (v : Verifier) : Prop :=
  ∃ s, e.signature v.key = some s ∧ v.verify e.text (pkg.payload s.base64) = true

/-- The message `e` has a signature in the name of `v` that `v` rejects. -/
def Envelope.Forges (e : Envelope) (v : Verifier) : Prop :=
  ∃ s, e.signature v.key = some s ∧ v.verify e.text (pkg.payload s.base64) = false

instance (e : Envelope) (v : Verifier) : Decidable (e.SignedBy pkg v) :=
  match h : e.signature v.key with
  | none => .isFalse (by rintro ⟨s, found, _⟩; rw [h] at found; cases found)
  | some s =>
    decidable_of_iff (v.verify e.text (pkg.payload s.base64) = true)
      ⟨fun ok => ⟨s, h, ok⟩, fun ⟨t, found, ok⟩ => by rw [h] at found; cases found; exact ok⟩

instance (e : Envelope) (v : Verifier) : Decidable (e.Forges pkg v) :=
  match h : e.signature v.key with
  | none => .isFalse (by rintro ⟨s, found, _⟩; rw [h] at found; cases found)
  | some s =>
    decidable_of_iff (v.verify e.text (pkg.payload s.base64) = false)
      ⟨fun ok => ⟨s, h, ok⟩, fun ⟨t, found, ok⟩ => by rw [h] at found; cases found; exact ok⟩

end Signers

section Open

variable {pkg : Package} {known : List Verifier} {e : Envelope}

theorem isKnown_iff {s : Signature} : isKnown known s = true ↔ ∃ v ∈ known, v.key = s.key := by
  simp [isKnown]

theorem mem_verified {s : Signature} :
    s ∈ e.verified known ↔ (∃ v ∈ known, v.key = s.key) ∧ e.signature s.key = some s := by
  rw [Envelope.verified, mem_firstOfEach, List.find?_filter, Envelope.signature, ← isKnown_iff]
  have same : isKnown known s = true →
      (fun t : Signature => decide (isKnown known t = true ∧ decide (t.key = s.key) = true)) =
        fun t => decide (t.key = s.key) := fun listed => by
    funext t
    by_cases own : t.key = s.key
    · have known' : isKnown known t = true := by rw [isKnown_iff] at listed ⊢; rwa [own]
      simp [own, known']
    · simp [own]
  constructor
  · intro found
    have listed : isKnown known s = true := by
      have passed := List.find?_some found
      simpa using passed
    rw [same listed] at found
    exact ⟨listed, found⟩
  · rintro ⟨listed, found⟩
    rw [same listed]
    exact found

theorem mem_verified_keys {k : Key} :
    k ∈ (e.verified known).map Signature.key ↔ (∃ v ∈ known, v.key = k) ∧ k ∈ e.lines.map Signature.key := by
  constructor
  · intro member
    obtain ⟨s, listed, rfl⟩ := List.mem_map.mp member
    obtain ⟨named, found⟩ := mem_verified.mp listed
    exact ⟨named, List.mem_map_of_mem (List.mem_of_find?_eq_some found)⟩
  · rintro ⟨named, member⟩
    obtain ⟨s, listed, rfl⟩ := List.mem_map.mp member
    cases found : e.signature s.key with
    | none =>
      have none := List.find?_eq_none.mp found s listed
      simp at none
    | some t =>
      have own : t.key = s.key := by simpa using List.find?_some found
      rw [← own] at named found ⊢
      exact List.mem_map_of_mem (mem_verified.mpr ⟨named, found⟩)

theorem verified_nodup : ((e.verified known).map Signature.key).Nodup := firstOfEach_nodup _

theorem accepts_verifier {text : Bytes} {s : Signature} (accepted : accepts pkg known text s = true) :
    ∃ v ∈ known, v.key = s.key ∧ v.verify text (pkg.payload s.base64) = true ∧
      ∀ w ∈ known, w.key = s.key → w = v := by
  unfold accepts at accepted
  split at accepted
  next v only =>
    have member : ∀ w, w ∈ known ∧ w.key = s.key ↔ w = v := fun w => by
      have listed : w ∈ known.filter (fun v => decide (v.key = s.key)) ↔ w ∈ [v] := by rw [only]
      simpa using listed
    obtain ⟨listed, own⟩ := (member v).mpr rfl
    exact ⟨v, listed, own, accepted, fun w listed' own' => (member w).mp ⟨listed', own'⟩⟩
  · cases accepted

theorem opened_eq_some {msg : Bytes} {n : Note} (read : opened pkg known msg = some n) :
    ∃ e, pkg.decode msg = some e ∧ n.text = e.text ∧ n.sigs = e.verified known ∧
      ∀ s ∈ n.sigs, accepts pkg known e.text s = true := by
  unfold opened at read
  split at read
  · cases read
  next e decoded =>
    split at read
    next all =>
      obtain rfl := Option.some.inj read
      exact ⟨e, decoded, rfl, rfl, List.all_eq_true.mp all⟩
    · cases read

/-- What Open takes for signatures of known verifiers are valid ones. -/
theorem opened_signedBy {msg : Bytes} {n : Note} (read : opened pkg known msg = some n) :
    ∃ e, pkg.decode msg = some e ∧ n.text = e.text ∧ (n.sigs.map Signature.key).Nodup ∧
      (∀ k ∈ n.sigs.map Signature.key, ∃ v ∈ known, v.key = k ∧ e.SignedBy pkg v) ∧
      ∀ v ∈ known, v.key ∈ n.sigs.map Signature.key → e.SignedBy pkg v := by
  obtain ⟨e, decoded, text, sigs, accepted⟩ := opened_eq_some read
  have signer : ∀ s ∈ n.sigs, ∃ v ∈ known, v.key = s.key ∧ e.SignedBy pkg v ∧
      ∀ w ∈ known, w.key = s.key → w = v := by
    intro s member
    obtain ⟨v, listed, own, verified, only⟩ := accepts_verifier (accepted s member)
    rw [sigs] at member
    refine ⟨v, listed, own, ⟨s, ?_, verified⟩, only⟩
    rw [own]
    exact (mem_verified.mp member).2
  refine ⟨e, decoded, text, by rw [sigs]; exact verified_nodup, ?_, ?_⟩
  · intro k named
    obtain ⟨s, member, rfl⟩ := List.mem_map.mp named
    obtain ⟨v, listed, own, signed, _⟩ := signer s member
    exact ⟨v, listed, own, signed⟩
  · intro w listed named
    obtain ⟨s, member, own⟩ := List.mem_map.mp named
    obtain ⟨v, _, _, signed, only⟩ := signer s member
    rw [only w listed own.symm]
    exact signed

theorem signedBy_mem {v : Verifier} (listed : v ∈ known) (signed : e.SignedBy pkg v) :
    v.key ∈ (e.verified known).map Signature.key := by
  obtain ⟨s, found, _⟩ := signed
  have own : s.key = v.key := by simpa using List.find?_some found
  refine List.mem_map.mpr ⟨s, mem_verified.mpr ⟨⟨v, listed, own.symm⟩, ?_⟩, own⟩
  rw [own]
  exact found

/-- The keys of those verifiers that signed the message. -/
def Envelope.signerKeys (pkg : Package) (e : Envelope) (vs : List Verifier) : Finset Key :=
  ((vs.filter fun v => e.SignedBy pkg v).map Verifier.key).toFinset

theorem mem_signerKeys {vs : List Verifier} {k : Key} :
    k ∈ e.signerKeys pkg vs ↔ ∃ v ∈ vs, e.SignedBy pkg v ∧ v.key = k := by
  simp [Envelope.signerKeys, and_assoc]

-- A second verifier for the first one's key would be an error.
theorem accepts_only {v : Verifier} {others : List Verifier} {text : Bytes} {s : Signature}
    (accepted : accepts pkg (v :: others) text s = true) (own : v.key = s.key) :
    ∀ w ∈ others, w.key ≠ v.key := by
  unfold accepts at accepted
  rw [List.filter_cons_of_pos (by simpa using own)] at accepted
  split at accepted
  next u only =>
    have empty := (List.cons.inj only).2
    intro w listed same
    have none' := List.filter_eq_nil_iff.mp empty w listed
    simp [same, own] at none'
  · cases accepted

/-- Open verifies as many signatures as there are keys that signed. -/
theorem opened_count {msg : Bytes} {n : Note} {v : Verifier} {others : List Verifier}
    (decoded : pkg.decode msg = some e) (read : opened pkg (v :: others) msg = some n)
    (own : v.key ∈ n.sigs.map Signature.key) : n.sigs.length = (e.signerKeys pkg others).card + 1 := by
  obtain ⟨e', decoded', _, sigs, accepted⟩ := opened_eq_some read
  obtain ⟨e'', decoded'', _, distinct, signers, _⟩ := opened_signedBy read
  obtain rfl := Option.some.inj (decoded.symm.trans decoded')
  obtain rfl := Option.some.inj (decoded.symm.trans decoded'')
  have keys : (n.sigs.map Signature.key).toFinset = insert v.key (e.signerKeys pkg others) := by
    ext k
    rw [List.mem_toFinset, Finset.mem_insert, mem_signerKeys]
    constructor
    · intro named
      obtain ⟨u, listed, rfl, signed⟩ := signers k named
      rcases List.mem_cons.mp listed with rfl | other
      · exact .inl rfl
      · exact .inr ⟨u, other, signed, rfl⟩
    · rintro (rfl | ⟨u, other, signed, rfl⟩)
      · exact own
      · rw [sigs]
        exact signedBy_mem (List.mem_cons_of_mem v other) signed
  have apart : v.key ∉ e.signerKeys pkg others := by
    rw [mem_signerKeys]
    rintro ⟨u, other, _, same⟩
    obtain ⟨s, member, key⟩ := List.mem_map.mp own
    exact accepts_only (accepted s member) key.symm u other same
  rw [← Finset.card_insert_of_notMem apart, ← keys, List.toFinset_card_of_nodup distinct, List.length_map]

variable (distinct : (known.map Verifier.key).Nodup)
include distinct

theorem filter_key {v : Verifier} (listed : v ∈ known) :
    known.filter (fun w => decide (w.key = v.key)) = [v] := by
  induction known with
  | nil => cases listed
  | cons w rest ih =>
    rw [List.map_cons, List.nodup_cons] at distinct
    rcases List.mem_cons.mp listed with rfl | later
    · rw [List.filter_cons_of_pos (by simp), List.filter_eq_nil_iff.mpr]
      intro w member
      simp only [decide_eq_true_eq]
      exact fun same => distinct.1 (List.mem_map.mpr ⟨w, member, same⟩)
    · rw [List.filter_cons_of_neg, ih distinct.2 later]
      simp only [decide_eq_true_eq]
      exact fun same => distinct.1 (List.mem_map.mpr ⟨v, later, same.symm⟩)

theorem accepts_eq {text : Bytes} {s : Signature} {v : Verifier} (listed : v ∈ known)
    (own : v.key = s.key) : accepts pkg known text s = v.verify text (pkg.payload s.base64) := by
  rw [accepts, ← own, filter_key distinct listed]

/-- Open reads a message unless some known verifier rejects its signature. -/
theorem opened_of_decode {msg : Bytes} (decoded : pkg.decode msg = some e)
    (genuine : ∀ v ∈ known, ¬ e.Forges pkg v) :
    opened pkg known msg = some (e.note known) := by
  rw [opened, decoded]
  refine if_pos (List.all_eq_true.mpr fun s member => ?_)
  obtain ⟨⟨v, listed, own⟩, found⟩ := mem_verified.mp member
  rw [accepts_eq distinct listed own]
  by_contra rejected
  exact genuine v listed ⟨s, by rw [own, found], by simpa using rejected⟩

theorem not_forges_of_opened {msg : Bytes} {n : Note} (decoded : pkg.decode msg = some e)
    (read : opened pkg known msg = some n) : ∀ v ∈ known, ¬ e.Forges pkg v := by
  rintro v listed ⟨s, found, rejected⟩
  obtain ⟨e', decoded', _, sigs, accepted⟩ := opened_eq_some read
  obtain rfl := Option.some.inj (decoded.symm.trans decoded')
  have own : s.key = v.key := by simpa using List.find?_some found
  have member : s ∈ n.sigs := by
    rw [sigs]
    exact mem_verified.mpr ⟨⟨v, listed, own.symm⟩, by rw [own]; exact found⟩
  have passed := accepted s member
  rw [accepts_eq distinct listed own.symm, rejected] at passed
  cases passed

end Open

section Sign

variable {pkg : Package} {known : List Verifier} {msg : Bytes} {n : Note}

theorem opened_written (read : opened pkg known msg = some n) (some' : n.sigs ≠ []) : Written pkg n := by
  unfold opened at read
  split at read
  · cases read
  next e decoded =>
    split at read
    next =>
      obtain rfl := Option.some.inj read
      refine ⟨⟨msg, e, decoded, rfl⟩, fun s member => ⟨msg, e, decoded, ?_⟩, List.append_ne_nil_of_left_ne_nil some' _⟩
      rcases List.mem_append.mp member with verified | unknown
      · exact List.mem_of_find?_eq_some (mem_verified.mp verified).2
      · rw [Envelope.note, List.mem_eraseDups] at unknown
        exact (List.mem_filter.mp unknown).1
    · cases read

variable (lawful : Lawful pkg)
include lawful

/-- Without signers, Sign writes the signatures that a note has. -/
theorem Lawful.sign_none (written : Written pkg n) : ∃ msg, pkg.sign n [] = .ok msg ∧
    pkg.decode msg = if (n.sigs ++ n.unverifiedSigs).length ≤ maxSignatures then
      some ⟨n.text, n.sigs ++ n.unverifiedSigs⟩ else none := by
  obtain ⟨msg, signed⟩ := lawful.sign_some n [] written (by simp)
  obtain ⟨-, lines, with', decoded⟩ := lawful.sign_ok n [] msg written signed
  have others : n.others [] = n.sigs ++ n.unverifiedSigs := by simp [Note.others]
  obtain rfl := List.forall₂_nil_left_iff.mp with'
  rw [others, List.append_nil] at decoded
  exact ⟨msg, signed, decoded⟩

variable {origin : String} {v : Verifier} {others : List Verifier} {cp : Checkpoint}

theorem Lawful.parsed_written (parsed : pkg.parseCheckpoint msg origin v others = .ok (cp, n)) : Written pkg n := by
  obtain ⟨read, named, -⟩ := (lawful.parse _ _ _ _ _ _).mp parsed
  refine opened_written read fun none' => ?_
  rw [none'] at named
  cases named

/-- However many signatures there are, what Sign has written states the checkpoint of the note. -/
theorem Lawful.signed_states (parsed : pkg.parseCheckpoint msg origin v others = .ok (cp, n)) {signers : List Signer}
    {signed : Bytes} (signs : pkg.sign n signers = .ok signed) : pkg.stated signed = some cp := by
  obtain ⟨-, -, body, -⟩ := (lawful.parse _ _ _ _ _ _).mp parsed
  rw [Package.stated, (lawful.sign_ok n signers signed (lawful.parsed_written parsed) signs).1]
  exact body

theorem Lawful.parsed_states (parsed : pkg.parseCheckpoint msg origin v others = .ok (cp, n)) :
    pkg.stated msg = some cp := by
  obtain ⟨read, -, body, -⟩ := (lawful.parse _ _ _ _ _ _).mp parsed
  obtain ⟨e, decoded, text, -⟩ := opened_eq_some read
  rw [Package.stated, lawful.decode_text _ _ decoded, ← text]
  exact body

/-- A checkpoint with another signature is read as the same one, as long as there is room for it. -/
theorem Lawful.parse_cosigned (parsed : pkg.parseCheckpoint msg origin v [] = .ok (cp, n)) {signer : Signer}
    {signed : Bytes} (signs : pkg.sign n [signer] = .ok signed) (apart : signer.key ≠ v.key)
    (room : (n.others [signer]).length < maxSignatures) :
    ∃ signedNote, pkg.parseCheckpoint signed origin v [] = .ok (cp, signedNote) := by
  obtain ⟨read, named, body, own⟩ := (lawful.parse _ _ _ _ _ _).mp parsed
  obtain ⟨-, lines, with', decoded⟩ := lawful.sign_ok n _ signed (lawful.parsed_written parsed) signs
  obtain ⟨line, rest, ⟨key, -⟩, none', rfl⟩ := List.forall₂_cons_left_iff.mp with'
  obtain rfl := List.forall₂_nil_left_iff.mp none'
  rw [if_pos (by rw [List.length_append]; exact room)] at decoded
  obtain ⟨e, decoded', text, sigs, accepted⟩ := opened_eq_some read
  have keys : ∀ s ∈ n.sigs, v.key = s.key := by
    intro s member
    rw [sigs] at member
    obtain ⟨⟨u, listed, same⟩, -⟩ := mem_verified.mp member
    rwa [List.mem_singleton.mp listed] at same
  have unknown : ∀ s ∈ n.unverifiedSigs, isKnown [v] s = false := by
    intro s member
    unfold opened at read
    rw [decoded'] at read
    dsimp only at read
    split at read
    · obtain rfl := Option.some.inj read
      rw [Envelope.note, List.mem_eraseDups] at member
      simpa using (List.mem_filter.mp member).2
    · cases read
  -- The lines of the log's key are those of the note.
  have found : (n.others [signer] ++ [line]).filter (isKnown [v]) = n.sigs := by
    have verified : n.sigs.filter (fun t => decide (t.key ∉ [signer].map Signer.key)) = n.sigs :=
      List.filter_eq_self.mpr fun s member => by simp [← keys s member, Ne.symm apart]
    have listed : n.sigs.filter (isKnown [v]) = n.sigs :=
      List.filter_eq_self.mpr fun s member => isKnown_iff.mpr ⟨v, by simp, keys s member⟩
    have rest : (n.unverifiedSigs.filter fun t => decide (t.key ∉ [signer].map Signer.key)).filter (isKnown [v]) = [] :=
      List.filter_eq_nil_iff.mpr fun s member => by simp [unknown s (List.mem_filter.mp member).1]
    have last : [line].filter (isKnown [v]) = [] :=
      List.filter_eq_nil_iff.mpr fun s member => by
        rw [List.mem_singleton.mp member]
        simpa [isKnown, key] using Ne.symm apart
    rw [List.filter_append, Note.others, List.filter_append, List.filter_append, verified, listed, rest, last,
      List.append_nil, List.append_nil]
  have distinct : (n.sigs.map Signature.key).Nodup := by
    rw [sigs]
    exact verified_nodup
  have verified : (⟨n.text, n.others [signer] ++ [line]⟩ : Envelope).verified [v] = n.sigs := by
    rw [Envelope.verified, found, firstOfEach_of_nodup distinct]
  refine ⟨(⟨n.text, n.others [signer] ++ [line]⟩ : Envelope).note [v], (lawful.parse _ _ _ _ _ _).mpr
    ⟨?_, ?_, body, own⟩⟩
  · rw [opened, decoded]
    refine if_pos (List.all_eq_true.mpr fun s member => ?_)
    rw [verified] at member
    rw [text]
    exact accepted s member
  · rw [Envelope.note, verified]
    exact named

end Sign

end SignedNote
