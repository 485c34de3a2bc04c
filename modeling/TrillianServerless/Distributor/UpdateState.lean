import TrillianServerless.Formats.WitnessHashes

set_option autoImplicit false

namespace GithubDistributor

open Go SignedNote Checkpoints Formats

-- A slot without a checkpoint is a nil slice, which is as empty as an empty one.
abbrev State := List Bytes

structure UpdateOpts where
  logSigV : Verifier
  logOrigin : String
  witnesses : List Verifier
  maxWitnessSignatures : UInt64

-- int(opts.MaxWitnessSignatures + 1): the sum is that of an unsigned, the result that of a signed number.
def UpdateOpts.requiredSlots (opts : UpdateOpts) : Int := (opts.maxWitnessSignatures + 1).toInt64.toInt

-- What a slot and what a cpNoteRaw take in memory.
def slotBytes : Nat := 24
def cpNoteRawBytes : Nat := 40

-- The first of the slots, or all and empty ones after them.
def fitSlots (slots : Nat) (state : State) : State :=
  if slots < state.length then state.take slots
  else state ++ List.replicate (slots - state.length) []

def resize (requiredSlots : Int) (state : State) : Outcome State :=
  if requiredSlots < state.length then
    if requiredSlots < 0 then .panic "slice bounds out of range [:%d]"
    else .ok (state.take requiredSlots.toNat)
  else if state.length < requiredSlots then
    if maxAlloc < slotBytes * requiredSlots then .panic "growslice: len out of range"
    else .ok (state ++ List.replicate (requiredSlots - state.length).toNat [])
  else .ok state

structure CpNoteRaw where
  cp : Checkpoint
  note : Note
  raw : Bytes

-- make([]cpNoteRaw, 0, requiredSlots).
def makeCombined (requiredSlots : Int) : Outcome (List CpNoteRaw) :=
  if requiredSlots < 0 ∨ maxAlloc < cpNoteRawBytes * requiredSlots then .panic "makeslice: cap out of range"
  else .ok []

section Update

variable (pkg : Package) (sort : Sorter)

def goError : OpenError → GoError
  | .unverified _ => .text "note has no verifiable signatures"
  | .failed reason => reason

-- One round of the loop that sorts checkpoints by their bodies.
def addToBody (logSigV : Verifier) (byBody : List (Bytes × List Bytes)) (raw : Bytes) :
    Outcome (List (Bytes × List Bytes)) :=
  if raw = [] then .ok byBody
  else
    match pkg.openNote raw [logSigV] with
    | .error reason => .error (goError reason)
    | .ok n => .ok (appendAt n.text raw byBody)

def combineBody (orders : Bytes → MapOrder Signature) (opts : UpdateOpts) (body : Bytes × List Bytes) :
    Outcome CpNoteRaw := do
  let raw ← combine pkg sort (orders body.1) body.2 opts.logSigV opts.witnesses
  let (cp, n) ← Outcome.ofExcept (pkg.parseCheckpoint raw opts.logOrigin opts.logSigV opts.witnesses)
  return ⟨cp, n, raw⟩

def largerFirst (a b : CpNoteRaw) : Bool := a.cp.size > b.cp.size

-- `combined` is what is left from the cursor on.
def fillSlots : Nat → Nat → List CpNoteRaw → State
  | 0, _, _ => []
  | slots + 1, i, combined =>
    let rest := combined.dropWhile fun c => ¬ i < c.note.sigs.length
    ((rest.head?.map CpNoteRaw.raw).getD []) :: fillSlots slots (i + 1) rest

def updateState (bodyOrder : MapOrder (Bytes × List Bytes)) (orders : Bytes → MapOrder Signature)
    (state : State) (incoming : List Bytes) (opts : UpdateOpts) : Outcome State := do
  let state ← resize opts.requiredSlots state
  let byBody ← (state ++ incoming).foldlM (addToBody pkg opts.logSigV) []
  let none ← makeCombined opts.requiredSlots
  let combined ← (bodyOrder.walk byBody).mapM (combineBody pkg sort orders opts)
  return fillSlots state.length 0 (sort.slice largerFirst (none ++ combined))

end Update

section Slots

variable {combined : List CpNoteRaw}

theorem find?_dropWhile {A : Type} {p q : A → Bool} (out : ∀ a, q a = true → p a = false) (l : List A) :
    (l.dropWhile p).find? q = l.find? q := by
  induction l with
  | nil => rfl
  | cons a rest ih =>
    rw [List.dropWhile_cons]
    split
    next passed =>
      have fails : q a = false := by
        by_contra holds
        rw [out a (by simpa using holds)] at passed
        cases passed
      rw [ih, List.find?_cons_of_neg (by simp [fails])]
    · rfl

theorem head?_dropWhile {A : Type} (p : A → Bool) (l : List A) :
    (l.dropWhile fun a => !p a).head? = l.find? p := by
  induction l with
  | nil => rfl
  | cons a rest ih =>
    cases holds : p a with
    | true => simp [holds]
    | false => simp [holds, ih]

theorem fillSlots_length (slots i : Nat) (combined : List CpNoteRaw) :
    (fillSlots slots i combined).length = slots := by
  induction slots generalizing i combined with
  | zero => rfl
  | succ slots ih => rw [fillSlots, List.length_cons, ih]

/-- The cursor never passes a checkpoint that a later slot needs. -/
theorem fillSlots_getElem? (slots k i : Nat) (bound : i < slots) (combined : List CpNoteRaw) :
    (fillSlots slots k combined)[i]? =
      some (((combined.find? fun c => k + i < c.note.sigs.length).map CpNoteRaw.raw).getD []) := by
  induction slots generalizing k i combined with
  | zero => omega
  | succ slots ih =>
    rw [fillSlots]
    cases i with
    | zero =>
      have head := head?_dropWhile (fun c : CpNoteRaw => decide (k < c.note.sigs.length)) combined
      simp only [List.getElem?_cons_zero, Nat.add_zero, decide_not, head]
    | succ i =>
      rw [List.getElem?_cons_succ, ih (k + 1) i (by omega), show k + 1 + i = k + (i + 1) by omega,
        find?_dropWhile]
      intro c enough
      simp only [decide_eq_true_eq] at enough
      simp only [decide_eq_false_iff_not, not_not]
      omega

theorem largerFirst_orders (combined : List CpNoteRaw) : Orders largerFirst combined where
  asymm := List.pairwise_of_forall fun a b => by simp only [largerFirst, decide_eq_true_eq]; omega
  negTrans a _ b _ c _ := by simp only [largerFirst, decide_eq_false_iff_not]; omega

-- The first of a kind in a list that starts with the largest is the largest of its kind.
theorem find?_largest {p : CpNoteRaw → Bool} {c : CpNoteRaw} (sorted : Sorted largerFirst combined)
    (found : combined.find? p = some c) : ∀ d ∈ combined, p d = true → d.cp.size ≤ c.cp.size := by
  induction combined with
  | nil => cases found
  | cons first rest ih =>
    obtain ⟨before, later⟩ := List.pairwise_cons.mp sorted
    intro d member holds
    cases passed : p first with
    | true =>
      rw [List.find?_cons_of_pos passed] at found
      obtain rfl := Option.some.inj found
      rcases List.mem_cons.mp member with rfl | after
      · exact Nat.le_refl _
      · have order := before d after
        simp only [largerFirst, decide_eq_false_iff_not] at order
        omega
    | false =>
      rw [List.find?_cons_of_neg (by simp [passed])] at found
      rcases List.mem_cons.mp member with rfl | after
      · rw [passed] at holds
        cases holds
      · exact ih later found d after holds

/-- What stands in a slot is the first checkpoint, and so a largest, with more signatures than the slot's number. -/
theorem fillSlots_cases (sorted : Sorted largerFirst combined) {slots i : Nat} (bound : i < slots) :
    ((∀ c ∈ combined, ¬ i < c.note.sigs.length) ∧ (fillSlots slots 0 combined)[i]? = some []) ∨
      ∃ c ∈ combined, i < c.note.sigs.length ∧ (fillSlots slots 0 combined)[i]? = some c.raw ∧
        ∀ d ∈ combined, i < d.note.sigs.length → d.cp.size ≤ c.cp.size := by
  have slot := fillSlots_getElem? slots 0 i bound combined
  rw [Nat.zero_add] at slot
  rw [slot]
  cases found : combined.find? fun c => i < c.note.sigs.length with
  | none =>
    refine .inl ⟨fun c member => ?_, rfl⟩
    simpa using List.find?_eq_none.mp found c member
  | some c =>
    refine .inr ⟨c, List.mem_of_find?_eq_some found, by simpa using List.find?_some found, rfl,
      fun d member enough => ?_⟩
    exact find?_largest sorted found d member (by simpa using enough)

end Slots

section Pool

variable (pkg : Package)

def textOf (raw : Bytes) : Option Bytes := (pkg.decode raw).map Envelope.text

-- The checkpoints with a body, in their order.
def withBody (raws : List Bytes) (text : Bytes) : List Bytes :=
  raws.filter fun raw => textOf pkg raw = some text

/-- How many of the witnesses signed the checkpoint. -/
def witnessCount (opts : UpdateOpts) (raw : Bytes) : Nat :=
  (opts.witnesses.filter fun w => signedIn pkg w raw).length

/-- The results of Combine, one for each body among the checkpoints. -/
structure PoolOf (sort : Sorter) (orders : Bytes → MapOrder Signature) (opts : UpdateOpts)
    (raws : List Bytes) (pool : List CpNoteRaw) : Prop where
  distinct : (pool.map fun m => m.note.text).Nodup
  bodies : ∀ text, text ∈ pool.map (fun m => m.note.text) ↔ ∃ raw ∈ raws, textOf pkg raw = some text
  combined : ∀ m ∈ pool, combine pkg sort (orders m.note.text) (withBody pkg raws m.note.text)
    opts.logSigV opts.witnesses = .ok m.raw
  parsed : ∀ m ∈ pool, pkg.parseCheckpoint m.raw opts.logOrigin opts.logSigV opts.witnesses =
    .ok (m.cp, m.note)

/-- Slot `i` holds a largest checkpoint of the pool with `i` witnesses. -/
structure SlotLaw (opts : UpdateOpts) (pool : List CpNoteRaw) (slots : State) : Prop where
  length : slots.length = opts.maxWitnessSignatures.toNat + 1
  nil : ∀ i ≤ opts.maxWitnessSignatures.toNat, slots[i]? = some [] ↔ ∀ m ∈ pool, witnessCount pkg opts m.raw < i
  best : ∀ i ≤ opts.maxWitnessSignatures.toNat, slots[i]? ≠ some [] → ∃ m ∈ pool, slots[i]? = some m.raw ∧
    i ≤ witnessCount pkg opts m.raw ∧
    ∀ m' ∈ pool, i ≤ witnessCount pkg opts m'.raw → m'.cp.size ≤ m.cp.size

end Pool

section Steps

variable {pkg : Package} (lawful : Lawful pkg) {opts : UpdateOpts}

theorem textOf_eq_some {raw text : Bytes} :
    textOf pkg raw = some text ↔ ∃ e, pkg.decode raw = some e ∧ e.text = text := by
  simp [textOf]

theorem combineBody_eq_ok {sort : Sorter} {orders : Bytes → MapOrder Signature}
    {body : Bytes × List Bytes} {m : CpNoteRaw} :
    combineBody pkg sort orders opts body = .ok m ↔
      combine pkg sort (orders body.1) body.2 opts.logSigV opts.witnesses = .ok m.raw ∧
      pkg.parseCheckpoint m.raw opts.logOrigin opts.logSigV opts.witnesses = .ok (m.cp, m.note) := by
  unfold combineBody
  rw [Outcome.bind_eq_ok]
  constructor
  · rintro ⟨raw, combined, ran⟩
    obtain ⟨⟨cp, n⟩, parsed, same⟩ := Outcome.bind_eq_ok.mp ran
    obtain rfl := Outcome.ok.inj same
    refine ⟨combined, ?_⟩
    cases result : pkg.parseCheckpoint raw opts.logOrigin opts.logSigV opts.witnesses with
    | error reason =>
      rw [result] at parsed
      cases parsed
    | ok pair =>
      rw [result] at parsed
      rw [Outcome.ok.inj parsed]
  · rintro ⟨combined, parsed⟩
    refine ⟨m.raw, combined, ?_⟩
    rw [parsed]
    rfl

include lawful

theorem addToBody_groups {items : List Bytes} {byBody byBody' : List (Bytes × List Bytes)} {raw : Bytes}
    (held : Groups (textOf pkg) items byBody) (ran : addToBody pkg opts.logSigV byBody raw = .ok byBody') :
    Groups (textOf pkg) (items ++ [raw]) byBody' := by
  unfold addToBody at ran
  split at ran
  next empty =>
    obtain rfl := Outcome.ok.inj ran
    exact held.skip (by rw [empty, textOf, lawful.decode_nil]; rfl)
  · split at ran
    · cases ran
    next n read =>
      obtain rfl := Outcome.ok.inj ran
      obtain ⟨e, decoded, _, text, _⟩ := log_signed lawful read
      exact held.append (textOf_eq_some.mpr ⟨e, decoded, text.symm⟩)

theorem addToBody_ok (byBody : List (Bytes × List Bytes)) {raw : Bytes}
    (valid : raw = [] ∨ ∃ e, Endorsed pkg opts.logSigV opts.witnesses raw e) :
    ∃ byBody', addToBody pkg opts.logSigV byBody raw = .ok byBody' := by
  unfold addToBody
  split
  · exact ⟨byBody, rfl⟩
  next nonempty =>
    obtain ⟨e, endorsed⟩ := valid.resolve_left nonempty
    obtain ⟨_, n, _, _, read, _⟩ := open_log lawful endorsed
    exact ⟨_, by rw [read]⟩

end Steps

section Numbers

variable (opts : UpdateOpts)

/-- The numbers of slots that can be allocated. -/
def UpdateOpts.Allocates : Prop := cpNoteRawBytes * (opts.maxWitnessSignatures.toNat + 1) ≤ maxAlloc

variable {opts}

theorem requiredSlots_eq : opts.requiredSlots =
    if opts.maxWitnessSignatures.toNat + 1 < 2 ^ 63 then (opts.maxWitnessSignatures.toNat + 1 : Int)
    else (opts.maxWitnessSignatures.toNat + 1 : Int) - 2 ^ 64 := by
  have small := opts.maxWitnessSignatures.toNat_lt
  have sum : (opts.maxWitnessSignatures + 1).toNat = (opts.maxWitnessSignatures.toNat + 1) % 2 ^ 64 := UInt64.toNat_add _ _
  have signed : opts.requiredSlots = ((opts.maxWitnessSignatures + 1).toBitVec).toInt := rfl
  rw [signed, BitVec.toInt_eq_toNat_cond]
  rw [← UInt64.toNat_toBitVec] at sum
  split <;> split <;> omega

theorem requiredSlots_of_allocates (allocates : opts.Allocates) :
    opts.requiredSlots = (opts.maxWitnessSignatures.toNat + 1 : Nat) := by
  unfold UpdateOpts.Allocates cpNoteRawBytes maxAlloc at allocates
  rw [requiredSlots_eq, if_pos (by omega)]
  push_cast
  rfl

theorem slotBytes_le (room : opts.Allocates ∨ opts.requiredSlots = 0) :
    slotBytes * opts.requiredSlots ≤ maxAlloc := by
  unfold slotBytes
  rcases room with allocates | none
  · rw [requiredSlots_of_allocates allocates]
    unfold UpdateOpts.Allocates cpNoteRawBytes at allocates
    omega
  · rw [none]
    decide

theorem makeCombined_eq_ok {none : List CpNoteRaw} : makeCombined opts.requiredSlots = .ok none ↔
    none = [] ∧ (opts.Allocates ∨ opts.requiredSlots = 0) := by
  have slots := @requiredSlots_eq opts
  have small := opts.maxWitnessSignatures.toNat_lt
  unfold makeCombined UpdateOpts.Allocates
  split
  next refused =>
    simp only [reduceCtorEq, false_iff, not_and, not_or]
    intro _
    unfold cpNoteRawBytes maxAlloc at *
    split at slots <;> omega
  next taken =>
    have fits : cpNoteRawBytes * (opts.maxWitnessSignatures.toNat + 1) ≤ maxAlloc ∨ opts.requiredSlots = 0 := by
      unfold cpNoteRawBytes maxAlloc at *
      split at slots <;> omega
    rw [Outcome.ok.injEq]
    exact ⟨fun same => ⟨same.symm, fits⟩, fun made => made.1.symm⟩

theorem resize_eq_ok {requiredSlots : Int} {state state' : State} (resized : resize requiredSlots state = .ok state') :
    0 ≤ requiredSlots ∧ state' = fitSlots requiredSlots.toNat state := by
  unfold resize at resized
  split at resized
  next long =>
    split at resized
    · cases resized
    next natural =>
      obtain rfl := Outcome.ok.inj resized
      refine ⟨by omega, ?_⟩
      rw [fitSlots, if_pos (by omega)]
  next short =>
    have natural : 0 ≤ requiredSlots := by omega
    refine ⟨natural, ?_⟩
    rw [fitSlots, if_neg (by omega)]
    split at resized
    next shorter =>
      split at resized
      · cases resized
      · obtain rfl := Outcome.ok.inj resized
        congr 2
        omega
    next equal =>
      obtain rfl := Outcome.ok.inj resized
      rw [show requiredSlots.toNat - state.length = 0 by omega]
      simp

theorem resize_ok {requiredSlots : Int} (natural : 0 ≤ requiredSlots) (room : slotBytes * requiredSlots ≤ maxAlloc)
    (state : State) : resize requiredSlots state = .ok (fitSlots requiredSlots.toNat state) := by
  unfold resize fitSlots
  by_cases long : requiredSlots < state.length
  · rw [if_pos long, if_neg (by omega), if_pos (by omega)]
  · rw [if_neg long, if_neg (show ¬ requiredSlots.toNat < state.length by omega)]
    split
    · rw [if_neg (by omega)]
      congr 3
      omega
    · rw [show requiredSlots.toNat - state.length = 0 by omega]
      simp

end Numbers

/-- When the slots can be allocated, an update succeeds with the loops over the checkpoints and over the bodies. -/
theorem updateState_of_steps {pkg : Package} {sort : Sorter} {bodyOrder : MapOrder (Bytes × List Bytes)}
    {orders : Bytes → MapOrder Signature} {opts : UpdateOpts} {state : State} {incoming : List Bytes}
    {byBody : List (Bytes × List Bytes)} {combined : List CpNoteRaw} (natural : 0 ≤ opts.requiredSlots)
    (room : opts.Allocates ∨ opts.requiredSlots = 0)
    (grouped : (fitSlots opts.requiredSlots.toNat state ++ incoming).foldlM (addToBody pkg opts.logSigV) [] = .ok byBody)
    (mapped : (bodyOrder.walk byBody).mapM (combineBody pkg sort orders opts) = .ok combined) :
    ∃ slots, updateState pkg sort bodyOrder orders state incoming opts = .ok slots := by
  have resized := resize_ok natural (slotBytes_le room) state
  have made : makeCombined opts.requiredSlots = .ok [] := makeCombined_eq_ok.mpr ⟨rfl, room⟩
  unfold updateState
  rw [resized, Outcome.bind_ok, grouped, Outcome.bind_ok, made, Outcome.bind_ok, mapped]
  exact ⟨_, rfl⟩

theorem fitSlots_length (slots : Nat) (state : State) : (fitSlots slots state).length = slots := by
  rw [fitSlots]
  split
  · rw [List.length_take]
    omega
  · rw [List.length_append, List.length_replicate]
    omega

section Law

variable {pkg : Package} (lawful : Lawful pkg) {sort : Sorter} (sorts : sort.Lawful) {opts : UpdateOpts}
  (distinct : ((opts.logSigV :: opts.witnesses).map Verifier.key).Nodup)

/-- A message of the pool, as Combine made it of the checkpoints with its body. -/
def Combined (pkg : Package) (sort : Sorter) (opts : UpdateOpts) (raws : List Bytes) (m : CpNoteRaw)
    (e : Envelope) (s : Signature) (sigs : List Signature) : Prop :=
  m.note = ⟨e.text, e.lines, []⟩ ∧ pkg.unmarshal e.text = some m.cp ∧
    Combination pkg sort opts.logSigV opts.witnesses (withBody pkg raws e.text) m.raw e s sigs

include lawful sorts distinct

omit distinct in
-- ParseCheckpoint finds the body of the checkpoints that were combined.
theorem combined_text {order : MapOrder Signature} {raws : List Bytes} {text : Bytes} {m : CpNoteRaw}
    (ran : combine pkg sort order (withBody pkg raws text) opts.logSigV opts.witnesses = .ok m.raw)
    (parsed : pkg.parseCheckpoint m.raw opts.logOrigin opts.logSigV opts.witnesses = .ok (m.cp, m.note)) :
    m.note.text = text := by
  obtain ⟨read, -⟩ := (lawful.parse _ _ _ _ _ _).mp parsed
  obtain ⟨e, decoded, body, -⟩ := opened_eq_some read
  rw [combine_eq_sign] at ran
  obtain ⟨n, made, signed⟩ := Outcome.bind_eq_ok.mp ran
  obtain ⟨some', text', each, combines⟩ := combines_of_ok lawful sorts made
  obtain ⟨raw, signed', decoded'⟩ := combines.sign lawful some' each
  obtain rfl := Except.ok.inj (signed'.symm.trans (Outcome.ofExcept_eq_ok.mp signed))
  have own : text' = text := by
    obtain ⟨cp, member⟩ := List.exists_mem_of_ne_nil _ some'
    obtain ⟨e', legible, same⟩ := each cp member
    have listed := (List.mem_filter.mp member).2
    simp only [decide_eq_true_eq, textOf, legible.decoded, Option.map_some, Option.some.injEq] at listed
    rw [← same, listed]
  rw [decoded] at decoded'
  split at decoded'
  · rw [body, Option.some.inj decoded', own]
  · cases decoded'

theorem combined_of_ok {order : MapOrder Signature} {raws : List Bytes} {text : Bytes} {m : CpNoteRaw}
    (ran : combine pkg sort order (withBody pkg raws text) opts.logSigV opts.witnesses = .ok m.raw)
    (parsed : pkg.parseCheckpoint m.raw opts.logOrigin opts.logSigV opts.witnesses = .ok (m.cp, m.note)) :
    ∃ e s sigs, Combined pkg sort opts raws m e s sigs := by
  obtain ⟨read, signed, cp, _⟩ := (lawful.parse _ _ _ _ _ _).mp parsed
  obtain ⟨some', _, made⟩ := combination_of_ok lawful sorts (List.nodup_cons.mp distinct).2 ran
  obtain ⟨e, s, sigs, endorsed, result⟩ := made fun unread => by
    obtain ⟨_, decoded, _⟩ := opened_eq_some read
    rw [unread] at decoded
    cases decoded
  obtain ⟨raw, member⟩ := List.exists_mem_of_ne_nil _ some'
  have body : e.text = text := by
    obtain ⟨e', valid, same⟩ := endorsed raw member
    have own := (List.mem_filter.mp member).2
    simp only [decide_eq_true_eq] at own
    obtain ⟨e'', decoded, text'⟩ := textOf_eq_some.mp own
    rw [← same, Option.some.inj (valid.decoded.symm.trans decoded), text']
  rw [result.opens sorts distinct] at read
  have note := Option.some.inj read
  refine ⟨e, s, sigs, note.symm, ?_, ?_⟩
  · rw [← note] at cp
    exact cp
  · rw [body]
    exact result

theorem PoolOf.combinedAs {orders : Bytes → MapOrder Signature} {raws : List Bytes}
    {pool : List CpNoteRaw} (held : PoolOf pkg sort orders opts raws pool) {m : CpNoteRaw} (member : m ∈ pool) :
    ∃ e s sigs, Combined pkg sort opts raws m e s sigs :=
  combined_of_ok lawful sorts distinct (held.combined m member) (held.parsed m member)

omit lawful in
/-- The verified signatures of a pool member are the log's and those of the witnesses that signed it. -/
theorem Combined.sigs_length {raws : List Bytes} {m : CpNoteRaw} {e : Envelope} {s : Signature}
    {sigs : List Signature} (held : Combined pkg sort opts raws m e s sigs) :
    m.note.sigs.length = witnessCount pkg opts m.raw + 1 := by
  obtain ⟨note, _, result⟩ := held
  have perm : (e.lines.map Signature.key).Perm
      ((opts.logSigV :: opts.witnesses.filter fun w => signedIn pkg w m.raw).map Verifier.key) := by
    refine (List.perm_ext_iff_of_nodup (result.keys_nodup sorts distinct) ?_).mpr fun k => ?_
    · exact distinct.sublist ((List.filter_sublist.cons_cons _).map _)
    have signed : ∀ v ∈ opts.logSigV :: opts.witnesses,
        v.key ∈ e.lines.map Signature.key ↔ signedIn pkg v m.raw = true := by
      intro v known
      rw [signedIn_iff]
      constructor
      · intro listed
        obtain ⟨t, line, own⟩ := List.mem_map.mp listed
        refine ⟨e, result.decoded, t, ?_, result.verifies sorts distinct line known own.symm⟩
        rw [← own]
        exact result.signature sorts distinct line
      · rintro ⟨e', decoded, t, found, _⟩
        obtain rfl := Option.some.inj (result.decoded.symm.trans decoded)
        exact List.mem_map.mpr ⟨t, List.mem_of_find?_eq_some found, by simpa using List.find?_some found⟩
    constructor
    · intro listed
      obtain ⟨t, line, rfl⟩ := List.mem_map.mp listed
      obtain ⟨v, known, own, _⟩ := result.accepted sorts line
      rw [← own]
      refine List.mem_map_of_mem ?_
      rcases List.mem_cons.mp known with rfl | witness
      · simp
      · refine List.mem_cons_of_mem _ (List.mem_filter.mpr ⟨witness, (signed v known).mp ?_⟩)
        rw [own]
        exact listed
    · intro listed
      obtain ⟨v, known, rfl⟩ := List.mem_map.mp listed
      rcases List.mem_cons.mp known with rfl | witness
      · refine (signed _ (by simp)).mpr (signedIn_iff.mpr ⟨e, result.decoded, ?_⟩)
        exact (result.endorsed sorts distinct).signed
      · obtain ⟨witness, own⟩ := List.mem_filter.mp witness
        exact (signed v (by simp [witness])).mpr own
  have length := perm.length_eq
  rw [List.length_map, List.length_map, List.length_cons] at length
  rw [note, witnessCount, ← length]

omit distinct in
/-- What UpdateState returned is filled from the pool, largest checkpoints first. -/
theorem updateState_pool {bodyOrder : MapOrder (Bytes × List Bytes)} {orders : Bytes → MapOrder Signature}
    {state slots : State} {incoming : List Bytes}
    (ran : updateState pkg sort bodyOrder orders state incoming opts = .ok slots) :
    ∃ pool, PoolOf pkg sort orders opts (fitSlots opts.requiredSlots.toNat state ++ incoming) pool ∧
      Sorted largerFirst pool ∧ slots = fillSlots opts.requiredSlots.toNat 0 pool ∧
      (opts.Allocates ∨ opts.requiredSlots = 0) := by
  unfold updateState at ran
  obtain ⟨resized, fitted, ran⟩ := Outcome.bind_eq_ok.mp ran
  obtain ⟨-, rfl⟩ := resize_eq_ok fitted
  obtain ⟨byBody, grouped, ran⟩ := Outcome.bind_eq_ok.mp ran
  obtain ⟨none, made, ran⟩ := Outcome.bind_eq_ok.mp ran
  obtain ⟨rfl, room⟩ := makeCombined_eq_ok.mp made
  obtain ⟨combined, mapped, ran⟩ := Outcome.bind_eq_ok.mp ran
  have groups : Groups (textOf pkg) (fitSlots opts.requiredSlots.toNat state ++ incoming) byBody := by
    have held := Outcome.foldlM_inv (fun _ _ _ _ held step => addToBody_groups lawful held step)
      Groups.nil grouped
    rwa [List.nil_append] at held
  have each := Outcome.mapM_eq_ok.mp mapped
  have perm := sorts.perm largerFirst combined
  have walked := bodyOrder.perm byBody
  have own : ∀ body ∈ bodyOrder.walk byBody, ∀ m, combineBody pkg sort orders opts body = .ok m →
      m.note.text = body.1 ∧ combine pkg sort (orders m.note.text)
        (withBody pkg (fitSlots opts.requiredSlots.toNat state ++ incoming) m.note.text) opts.logSigV opts.witnesses =
          .ok m.raw := by
    intro body member m made
    obtain ⟨combined, parsed⟩ := combineBody_eq_ok.mp made
    have list := (groups.lists body (walked.mem_iff.mp member)).1
    rw [list] at combined
    have text := combined_text lawful sorts combined parsed
    exact ⟨text, by rw [text]; exact combined⟩
  have texts : combined.map (fun m => m.note.text) = (bodyOrder.walk byBody).map Prod.fst :=
    matched_map each fun body member m made => (own body member m made).1
  have bodies := (perm.map fun m => m.note.text).trans (texts ▸ walked.map Prod.fst)
  refine ⟨sort.slice largerFirst combined, ⟨?_, fun text => ?_, fun m member => ?_, fun m member => ?_⟩,
    sorts.sorted _ _ (largerFirst_orders _), ?_, room⟩
  · exact bodies.nodup_iff.mpr groups.distinct
  · rw [bodies.mem_iff]
    constructor
    · intro listed
      obtain ⟨body, member, rfl⟩ := List.mem_map.mp listed
      obtain ⟨list, some'⟩ := groups.lists body member
      obtain ⟨raw, inBody⟩ := List.exists_mem_of_ne_nil _ some'
      rw [list] at inBody
      exact ⟨raw, (List.mem_filter.mp inBody).1, by simpa using (List.mem_filter.mp inBody).2⟩
    · rintro ⟨raw, member, text'⟩
      exact groups.complete raw member text text'
  · obtain ⟨body, listed, made⟩ := matched_mem each m (perm.mem_iff.mp member)
    exact (own body listed m made).2
  · obtain ⟨body, listed, made⟩ := matched_mem each m (perm.mem_iff.mp member)
    exact (combineBody_eq_ok.mp made).2
  · rw [fitSlots_length] at ran
    exact (Outcome.ok.inj ran).symm

theorem slotLaw_of_pool {orders : Bytes → MapOrder Signature} {raws : List Bytes} {pool : List CpNoteRaw}
    (held : PoolOf pkg sort orders opts raws pool) (sorted : Sorted largerFirst pool) (allocates : opts.Allocates) :
    SlotLaw pkg opts pool (fillSlots opts.requiredSlots.toNat 0 pool) := by
  have slots : opts.requiredSlots.toNat = opts.maxWitnessSignatures.toNat + 1 := by
    rw [requiredSlots_of_allocates allocates]
    rfl
  rw [slots]
  have counts : ∀ m ∈ pool, ∀ i, i < m.note.sigs.length ↔ i ≤ witnessCount pkg opts m.raw := by
    intro m member i
    obtain ⟨e, s, sigs, made⟩ := held.combinedAs lawful sorts distinct member
    rw [made.sigs_length sorts distinct]
    omega
  have nonempty : ∀ m ∈ pool, m.raw ≠ [] := by
    intro m member empty
    obtain ⟨e, s, sigs, made⟩ := held.combinedAs lawful sorts distinct member
    have decoded := made.2.2.decoded
    rw [empty, lawful.decode_nil] at decoded
    cases decoded
  refine ⟨fillSlots_length _ _ _, fun i bound => ?_, fun i bound some' => ?_⟩
  · rcases fillSlots_cases sorted (Nat.lt_succ_of_le bound) with ⟨none, slot⟩ | ⟨m, member, enough, slot, -⟩
    · simp only [slot, true_iff]
      intro m member
      exact Nat.not_le.mp ((counts m member i).not.mp (none m member))
    · simp only [slot, Option.some.injEq, nonempty m member, false_iff, not_forall]
      exact ⟨m, member, Nat.not_lt.mpr ((counts m member i).mp enough)⟩
  · rcases fillSlots_cases sorted (Nat.lt_succ_of_le bound) with ⟨-, slot⟩ | ⟨m, member, enough, slot, largest⟩
    · exact absurd slot some'
    · refine ⟨m, member, slot, (counts m member i).mp enough, fun m' member' enough' => ?_⟩
      exact largest m' member' ((counts m' member' i).mpr enough')

/-- UpdateState succeeds on checkpoints of the log that no witness rejects. -/
theorem updateState_ok (few : opts.witnesses.length < maxSignatures) (allocates : opts.Allocates)
    (bodyOrder : MapOrder (Bytes × List Bytes)) (orders : Bytes → MapOrder Signature)
    {state : State} {incoming : List Bytes}
    (valid : ∀ raw ∈ state ++ incoming, raw = [] ∨ ∃ e cp, Endorsed pkg opts.logSigV opts.witnesses raw e ∧
      pkg.unmarshal e.text = some cp ∧ cp.origin = opts.logOrigin) :
    ∃ slots, updateState pkg sort bodyOrder orders state incoming opts = .ok slots := by
  have valid' : ∀ raw ∈ fitSlots opts.requiredSlots.toNat state ++ incoming, raw = [] ∨
      ∃ e cp, Endorsed pkg opts.logSigV opts.witnesses raw e ∧ pkg.unmarshal e.text = some cp ∧
        cp.origin = opts.logOrigin := by
    intro raw member
    rcases List.mem_append.mp member with kept | new
    · rw [fitSlots] at kept
      split at kept
      · exact valid raw (by simp [List.mem_of_mem_take kept])
      · rcases List.mem_append.mp kept with old | filled
        · exact valid raw (by simp [old])
        · exact .inl (List.eq_of_mem_replicate filled)
    · exact valid raw (by simp [new])
  have rounds : ∀ raw ∈ fitSlots opts.requiredSlots.toNat state ++ incoming, ∀ byBody,
      ∃ byBody', addToBody pkg opts.logSigV byBody raw = .ok byBody' := by
    intro raw member byBody
    exact addToBody_ok lawful byBody ((valid' raw member).imp_right fun ⟨e, _, endorsed, _⟩ => ⟨e, endorsed⟩)
  obtain ⟨byBody, grouped⟩ := Outcome.foldlM_ok rounds []
  have groups : Groups (textOf pkg) (fitSlots opts.requiredSlots.toNat state ++ incoming) byBody := by
    have held := Outcome.foldlM_inv (fun _ _ _ _ held step => addToBody_groups lawful held step)
      Groups.nil grouped
    rwa [List.nil_append] at held
  have each : ∀ body ∈ bodyOrder.walk byBody, ∃ m, combineBody pkg sort orders opts body = .ok m := by
    intro body member
    obtain ⟨list, some'⟩ := groups.lists body ((bodyOrder.perm byBody).mem_iff.mp member)
    have inBody : ∀ raw ∈ body.2, ∃ e cp, Endorsed pkg opts.logSigV opts.witnesses raw e ∧ e.text = body.1 ∧
        pkg.unmarshal body.1 = some cp ∧ cp.origin = opts.logOrigin := by
      intro raw listed
      rw [list] at listed
      obtain ⟨member, own⟩ := List.mem_filter.mp listed
      simp only [decide_eq_true_eq] at own
      obtain ⟨e', decoded, text⟩ := textOf_eq_some.mp own
      rcases valid' raw member with rfl | ⟨e, cp, endorsed, parsed, origin⟩
      · rw [lawful.decode_nil] at decoded
        cases decoded
      · obtain rfl := Option.some.inj (decoded.symm.trans endorsed.decoded)
        exact ⟨e', cp, endorsed, text, by rw [← text]; exact parsed, origin⟩
    obtain ⟨raw, e, s, sigs, ran, text, result⟩ := combine_ok lawful sorts (List.nodup_cons.mp distinct).2
      few (orders body.1) some' fun raw listed => by
        obtain ⟨e, _, endorsed, text, _⟩ := inBody raw listed
        exact ⟨e, endorsed, text⟩
    obtain ⟨first, listed⟩ := List.exists_mem_of_ne_nil _ some'
    obtain ⟨_, cp, _, _, parsed, origin⟩ := inBody first listed
    refine ⟨⟨cp, ⟨e.text, e.lines, []⟩, raw⟩, combineBody_eq_ok.mpr ⟨ran, ?_⟩⟩
    refine (lawful.parse _ _ _ _ _ _).mpr ⟨result.opens sorts distinct, ?_, by rw [text]; exact parsed, origin⟩
    rw [← result.signed.1]
    exact List.mem_map_of_mem ((result.perm sorts).mem_iff.mpr (by simp))
  obtain ⟨combined, mapped⟩ := Outcome.mapM_ok each
  have natural : 0 ≤ opts.requiredSlots := by
    rw [requiredSlots_of_allocates allocates]
    exact Int.natCast_nonneg _
  exact updateState_of_steps natural (.inl allocates) grouped mapped

omit lawful in
/-- Combining a slot with other checkpoints loses none of its witnesses. -/
theorem Combined.count_le {raws raws' : List Bytes} {m m' : CpNoteRaw} {e e' : Envelope}
    {s s' : Signature} {sigs sigs' : List Signature} (held : Combined pkg sort opts raws m e s sigs)
    (held' : Combined pkg sort opts raws' m' e' s' sigs') (member : m.raw ∈ raws') (same : e'.text = e.text) :
    witnessCount pkg opts m.raw ≤ witnessCount pkg opts m'.raw := by
  have length := held.sigs_length sorts distinct
  have length' := held'.sigs_length sorts distinct
  obtain ⟨note, _, result⟩ := held
  obtain ⟨note', _, result'⟩ := held'
  have lines := (result.perm sorts).length_eq
  have lines' := (result'.perm sorts).length_eq
  have inside : (sigs.map fun t => t.key.hash) ⊆ sigs'.map fun t => t.key.hash := by
    intro hash listed
    obtain ⟨t, own, rfl⟩ := List.mem_map.mp listed
    obtain ⟨w, known, key, _⟩ := result.genuine t own
    have line : t ∈ e.lines := (result.perm sorts).mem_iff.mpr (by simp [own])
    have found : Found pkg opts.witnesses (withBody pkg raws' e'.text) t := by
      refine ⟨m.raw, List.mem_filter.mpr ⟨member, ?_⟩, e, result.decoded, ?_⟩
      · simp only [decide_eq_true_eq]
        exact textOf_eq_some.mpr ⟨e, result.decoded, same.symm⟩
      · exact mem_verified.mpr ⟨⟨w, known, key⟩, result.signature sorts distinct line⟩
    obtain ⟨u, listed', hash⟩ := result'.gathers.complete t found
    exact List.mem_map.mpr ⟨u, listed', hash⟩
  have shorter := (List.subperm_of_subset result.gathers.distinct inside).length_le
  rw [List.length_map, List.length_map] at shorter
  rw [note] at length
  rw [note'] at length'
  simp only [List.length_cons] at length length' lines lines'
  omega

end Law

theorem withBody_fitSlots {pkg : Package} (lawful : Lawful pkg) {slots : Nat} {state : State}
    (short : state.length ≤ slots) (incoming : List Bytes) (text : Bytes) :
    withBody pkg (fitSlots slots state ++ incoming) text = withBody pkg (state ++ incoming) text := by
  have none' : (List.replicate (slots - state.length) ([] : Bytes)).filter
      (fun raw => decide (textOf pkg raw = some text)) = [] := by
    refine List.filter_eq_nil_iff.mpr fun raw member => ?_
    rw [List.eq_of_mem_replicate member, textOf, lawful.decode_nil]
    simp
  rw [fitSlots, if_neg (by omega), withBody, withBody, List.filter_append, List.filter_append, none',
    List.append_nil, List.filter_append]

theorem PoolOf.of_fitSlots {pkg : Package} (lawful : Lawful pkg) {sort : Sorter} {opts : UpdateOpts}
    {orders : Bytes → MapOrder Signature} {slots : Nat} {state : State} {incoming : List Bytes}
    {pool : List CpNoteRaw} (short : state.length ≤ slots)
    (held : PoolOf pkg sort orders opts (fitSlots slots state ++ incoming) pool) :
    PoolOf pkg sort orders opts (state ++ incoming) pool where
  distinct := held.distinct
  bodies text := by
    have same := withBody_fitSlots lawful short incoming text
    have listed : ∀ raws, (∃ raw ∈ raws, textOf pkg raw = some text) ↔ withBody pkg raws text ≠ [] := by
      intro raws
      simp [withBody]
    rw [held.bodies, listed, listed, same]
  combined m member := by
    rw [← withBody_fitSlots lawful short incoming]
    exact held.combined m member
  parsed := held.parsed

section Sizes

variable (pkg : Package)

def slotSize (slots : State) (i : Nat) : Option Nat := do
  let raw ← slots[i]?
  let text ← textOf pkg raw
  let cp ← pkg.unmarshal text
  return cp.size

variable {pkg} (lawful : Lawful pkg) {sort : Sorter} (sorts : sort.Lawful) {opts : UpdateOpts}
  (distinct : ((opts.logSigV :: opts.witnesses).map Verifier.key).Nodup)
include lawful sorts distinct

theorem slotSize_of_member {orders : Bytes → MapOrder Signature} {raws : List Bytes} {pool : List CpNoteRaw}
    (held : PoolOf pkg sort orders opts raws pool) {slots : State} {i : Nat} {m : CpNoteRaw}
    (member : m ∈ pool) (slot : slots[i]? = some m.raw) : slotSize pkg slots i = some m.cp.size := by
  obtain ⟨e, s, sigs, _, parsed, result⟩ := held.combinedAs lawful sorts distinct member
  simp [slotSize, slot, textOf, result.decoded, parsed]

/-- The size in a slot is the largest in the pool with so many witnesses. -/
theorem slotSize_le {orders : Bytes → MapOrder Signature} {raws : List Bytes} {pool : List CpNoteRaw}
    (held : PoolOf pkg sort orders opts raws pool) {slots : State} (law : SlotLaw pkg opts pool slots)
    {i : Nat} (bound : i ≤ opts.maxWitnessSignatures.toNat) {m : CpNoteRaw} (member : m ∈ pool)
    (enough : i ≤ witnessCount pkg opts m.raw) :
    ∃ size, slotSize pkg slots i = some size ∧ m.cp.size ≤ size := by
  have filled : slots[i]? ≠ some [] := fun empty => by
    have short := (law.nil i bound).mp empty m member
    omega
  obtain ⟨best, listed, slot, _, largest⟩ := law.best i bound filled
  exact ⟨best.cp.size, slotSize_of_member lawful sorts distinct held listed slot,
    largest m member enough⟩

/-- A slot with a size is filled from the pool. -/
theorem slot_member {orders : Bytes → MapOrder Signature} {raws : List Bytes} {pool : List CpNoteRaw}
    (held : PoolOf pkg sort orders opts raws pool) {slots : State} (law : SlotLaw pkg opts pool slots)
    {i size : Nat} (bound : i ≤ opts.maxWitnessSignatures.toNat) (sized : slotSize pkg slots i = some size) :
    ∃ m ∈ pool, slots[i]? = some m.raw ∧ i ≤ witnessCount pkg opts m.raw ∧ m.cp.size = size := by
  have filled : slots[i]? ≠ some [] := fun empty => by
    simp [slotSize, empty, textOf, lawful.decode_nil] at sized
  obtain ⟨m, member, slot, enough, _⟩ := law.best i bound filled
  refine ⟨m, member, slot, enough, ?_⟩
  rw [slotSize_of_member lawful sorts distinct held member slot] at sized
  exact Option.some.inj sized

/-- A checkpoint with `i` witnesses that goes into an update leaves a size in slot `i` that is as large. -/
theorem slot_kept {orders orders' : Bytes → MapOrder Signature} {raws raws' : List Bytes}
    {pool pool' : List CpNoteRaw} (old : PoolOf pkg sort orders opts raws pool)
    (new : PoolOf pkg sort orders' opts raws' pool') {slots : State} (law : SlotLaw pkg opts pool' slots)
    {m : CpNoteRaw} (member : m ∈ pool) (used : m.raw ∈ raws') {i : Nat}
    (bound : i ≤ opts.maxWitnessSignatures.toNat) (enough : i ≤ witnessCount pkg opts m.raw) :
    ∃ size, slotSize pkg slots i = some size ∧ m.cp.size ≤ size := by
  obtain ⟨e, s, sigs, made⟩ := old.combinedAs lawful sorts distinct member
  have text : textOf pkg m.raw = some e.text := textOf_eq_some.mpr ⟨e, made.2.2.decoded, rfl⟩
  obtain ⟨m', member', same⟩ := List.mem_map.mp ((new.bodies e.text).mpr ⟨m.raw, used, text⟩)
  obtain ⟨e', s', sigs', made'⟩ := new.combinedAs lawful sorts distinct member'
  have text' : e'.text = e.text := by rw [← same, made'.1]
  have more := made.count_le sorts distinct made' used text'
  obtain ⟨size, slot, larger⟩ :=
    slotSize_le lawful sorts distinct new law bound member' (Nat.le_trans enough more)
  refine ⟨size, slot, ?_⟩
  have parsed := made.2.1
  have parsed' := made'.2.1
  rw [text', parsed] at parsed'
  rwa [Option.some.inj parsed']

omit distinct in
/-- What UpdateState returned has as many slots as the number says, unless that number has run over. -/
theorem updateState_length {bodyOrder : MapOrder (Bytes × List Bytes)} {orders : Bytes → MapOrder Signature}
    {state slots : State} {incoming : List Bytes}
    (ran : updateState pkg sort bodyOrder orders state incoming opts = .ok slots) :
    opts.Allocates ∨ slots = [] := by
  obtain ⟨pool, -, -, rfl, allocates | none⟩ := updateState_pool lawful sorts ran
  · exact .inl allocates
  · rw [none]
    exact .inr rfl

/-- Slot `i` of an update holds a largest checkpoint with `i` witnesses, and no slot falls back, exactly if the
slots that MaxWitnessSignatures asks for can be allocated. -/
theorem updateState_slots (few : opts.witnesses.length < maxSignatures)
    (bodyOrder : MapOrder (Bytes × List Bytes)) (orders : Bytes → MapOrder Signature)
    (state : State) (incoming : List Bytes) (short : state.length ≤ opts.maxWitnessSignatures.toNat + 1)
    (valid : ∀ raw ∈ state ++ incoming, raw = [] ∨ ∃ e cp, Endorsed pkg opts.logSigV opts.witnesses raw e ∧
      pkg.unmarshal e.text = some cp ∧ cp.origin = opts.logOrigin) :
    (∃ slots pool, updateState pkg sort bodyOrder orders state incoming opts = .ok slots ∧
      PoolOf pkg sort orders opts (state ++ incoming) pool ∧ SlotLaw pkg opts pool slots ∧
      (∀ i j size, i ≤ j → j ≤ opts.maxWitnessSignatures.toNat → slotSize pkg slots j = some size →
        ∃ larger, slotSize pkg slots i = some larger ∧ size ≤ larger) ∧
      ∀ (bodyOrder' : MapOrder (Bytes × List Bytes)) (orders' : Bytes → MapOrder Signature)
        (state' : State) (incoming' : List Bytes),
        updateState pkg sort bodyOrder' orders' state' incoming' opts = .ok state →
        ∀ i size, i ≤ opts.maxWitnessSignatures.toNat → slotSize pkg state i = some size →
          ∃ larger, slotSize pkg slots i = some larger ∧ size ≤ larger) ↔
    cpNoteRawBytes * (opts.maxWitnessSignatures.toNat + 1) ≤ maxAlloc := by
  constructor
  · rintro ⟨slots, pool, ran, -, law, -⟩
    rcases updateState_length lawful sorts ran with allocates | rfl
    · exact allocates
    · cases law.length
  intro allocates
  obtain ⟨slots, ran⟩ := updateState_ok lawful sorts distinct few allocates bodyOrder orders valid
  obtain ⟨pool, held, sorted, rfl, -⟩ := updateState_pool lawful sorts ran
  have law := slotLaw_of_pool lawful sorts distinct held sorted allocates
  have own := held.of_fitSlots lawful (by rw [requiredSlots_of_allocates allocates]; exact short)
  refine ⟨_, pool, ran, own, law, fun i j size order bound sized => ?_, ?_⟩
  · obtain ⟨m, member, _, enough, rfl⟩ := slot_member lawful sorts distinct held law bound sized
    exact slotSize_le lawful sorts distinct held law (Nat.le_trans order bound) member
      (Nat.le_trans order enough)
  · intro bodyOrder' orders' state' incoming' before i size bound sized
    obtain ⟨pool', held', sorted', rfl, -⟩ := updateState_pool lawful sorts before
    have law' := slotLaw_of_pool lawful sorts distinct held' sorted' allocates
    obtain ⟨m, member, slot, enough, rfl⟩ := slot_member lawful sorts distinct held' law' bound sized
    have used := List.mem_append_left incoming (List.mem_of_getElem? slot)
    exact slot_kept lawful sorts distinct held' own law member used bound enough

end Sizes

section Tags

def sizedText (n : Nat) : Bytes := asciiBytes "o\n" ++ formatUint 10 n ++ asciiBytes "\nAQ==\n"

-- A log and as many witnesses as tags, each with a letter.
def tagOpts (tags : List UInt8) (slots : UInt64) : UpdateOpts :=
  ⟨tagVerifier 108, "o", tags.map tagVerifier, slots⟩

theorem tagNote_valid {raw text : Bytes} {cp : Checkpoint} {opts : UpdateOpts} (tags : List UInt8)
    (decoded : decodeNote raw = some ⟨text, tags.map tagSignature⟩)
    (signed : Envelope.SignedBy reference ⟨text, tags.map tagSignature⟩ opts.logSigV)
    (genuine : ∀ w ∈ opts.witnesses, ¬ Envelope.Forges reference ⟨text, tags.map tagSignature⟩ w)
    (parsed : unmarshalText text = some cp) (origin : cp.origin = opts.logOrigin) :
    raw = [] ∨ ∃ e cp, Endorsed reference opts.logSigV opts.witnesses raw e ∧
      reference.unmarshal e.text = some cp ∧ cp.origin = opts.logOrigin :=
  .inr ⟨_, cp, ⟨decoded, signed, genuine⟩, parsed, origin⟩

theorem updateState_slots_two :
    ∃ slots pool, updateState reference .insertion (.reversed _) (fun _ => .listed _) []
        [tagNote (sizedText 2) [108], tagNote (sizedText 1) [108, 97]] (tagOpts [97, 98] 2) = .ok slots ∧
      SlotLaw reference (tagOpts [97, 98] 2) pool slots ∧ slotSize reference slots 0 = some 2 ∧
      slotSize reference slots 1 = some 1 ∧ slots[2]? = some [] := by
  obtain ⟨slots, pool, ran, _, law, _⟩ := (updateState_slots reference_lawful Sorter.insertion_lawful
    (by decide : ((((tagOpts [97, 98] 2).logSigV) :: (tagOpts [97, 98] 2).witnesses).map Verifier.key).Nodup)
    (by decide) (.reversed _) (fun _ => .listed _) [] [tagNote (sizedText 2) [108], tagNote (sizedText 1) [108, 97]]
    (by decide) (by
      intro raw member
      simp only [List.nil_append, List.mem_cons, List.not_mem_nil, or_false] at member
      rcases member with rfl | rfl
      · exact tagNote_valid [108] (by decide +kernel) (by decide +kernel) (by decide +kernel)
          (rfl : unmarshalText (sizedText 2) = some ⟨"o", 2, [1]⟩) rfl
      · exact tagNote_valid [108, 97] (by decide +kernel) (by decide +kernel) (by decide +kernel)
          (rfl : unmarshalText (sizedText 1) = some ⟨"o", 1, [1]⟩) rfl)).mpr (by decide)
  have result : updateState reference .insertion (.reversed _) (fun _ => .listed _) []
      [tagNote (sizedText 2) [108], tagNote (sizedText 1) [108, 97]] (tagOpts [97, 98] 2) =
        .ok [tagNote (sizedText 2) [108], tagNote (sizedText 1) [108, 97], []] := by
    decide +kernel
  have same := Outcome.ok.inj (ran.symm.trans result)
  refine ⟨slots, pool, ran, law, ?_⟩
  rw [same]
  decide +kernel

/-- With the largest number the sum runs over: the log's checkpoint is dropped and no slot is left. -/
theorem slots_run_over :
    ¬ ∀ (opts : UpdateOpts) (state : State) (incoming : List Bytes),
      ((opts.logSigV :: opts.witnesses).map Verifier.key).Nodup → opts.witnesses.length < maxSignatures →
      state.length ≤ opts.maxWitnessSignatures.toNat + 1 →
      (∀ raw ∈ state ++ incoming, raw = [] ∨ ∃ e cp, Endorsed reference opts.logSigV opts.witnesses raw e ∧
        reference.unmarshal e.text = some cp ∧ cp.origin = opts.logOrigin) →
      ∃ slots, updateState reference .insertion (.listed _) (fun _ => .listed _) state incoming opts = .ok slots ∧
        slots.length = opts.maxWitnessSignatures.toNat + 1 := by
  intro slotted
  obtain ⟨slots, ran, length⟩ := slotted (tagOpts [97] 18446744073709551615) []
    [tagNote (sizedText 2) [108, 97]] (by decide) (by decide) (by decide) (by
      intro raw member
      rw [List.nil_append, List.mem_singleton] at member
      rw [member]
      exact tagNote_valid [108, 97] (by decide +kernel) (by decide +kernel) (by decide +kernel)
        (rfl : unmarshalText (sizedText 2) = some ⟨"o", 2, [1]⟩) rfl)
  have result : updateState reference .insertion (.listed _) (fun _ => .listed _) []
      [tagNote (sizedText 2) [108, 97]] (tagOpts [97] 18446744073709551615) = .ok [] := by
    decide +kernel
  rw [Outcome.ok.inj (ran.symm.trans result)] at length
  cases length

end Tags

end GithubDistributor
