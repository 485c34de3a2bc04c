import TrillianServerless.Distributor.UpdateState

set_option autoImplicit false

namespace GithubDistributor

open Go SignedNote Checkpoints Formats

section Keys

variable (pkg : Package) (opts : UpdateOpts)

def UpdateOpts.known (opts : UpdateOpts) : List Verifier := opts.logSigV :: opts.witnesses

/-- The log and the known witnesses with a signature in the checkpoints. -/
def keysIn (cps : List Bytes) : Finset Key :=
  insert opts.logSigV.key ((cps.flatMap (witnessSigs pkg opts.witnesses)).map Signature.key).toFinset

/-- Who signed the checkpoint, of the log and the known witnesses. -/
def signersIn (raw : Bytes) : Finset Key :=
  match pkg.decode raw with
  | none => ∅
  | some e => ((e.verified opts.known).map Signature.key).toFinset

-- No two of the keys have one hash.
def HashesApart : Prop :=
  ∀ v ∈ opts.known, ∀ w ∈ opts.known, v.key.hash = w.key.hash → v.key = w.key

/-- Checkpoints of one body that can be combined and parsed again, whatever their order. -/
structure Publishable (cps : List Bytes) (text : Bytes) (cp : Checkpoint) : Prop where
  legible : ∀ c ∈ cps, ∃ e, Legible pkg opts.logSigV opts.witnesses c e ∧ e.text = text
  few : (witnessHashes pkg opts.witnesses cps).card < maxSignatures
  parsed : pkg.unmarshal text = some cp
  origin : cp.origin = opts.logOrigin
  single : ∀ k ∈ keysIn pkg opts cps, ∃ v, opts.known.filter (fun v => v.key = k) = [v]

end Keys

section Bodies

variable {pkg : Package} {opts : UpdateOpts} {cps cps' : List Bytes}

theorem keysIn_perm (same : cps.Perm cps') : keysIn pkg opts cps = keysIn pkg opts cps' := by
  rw [keysIn, keysIn, List.toFinset_eq_of_perm _ _ ((same.flatMap_right _).map _)]

theorem Publishable.perm (same : cps.Perm cps') {text : Bytes} {cp : Checkpoint}
    (held : Publishable pkg opts cps text cp) : Publishable pkg opts cps' text cp where
  legible c member := held.legible c (same.mem_iff.mpr member)
  few := by
    rw [witnessHashes, ← List.toFinset_eq_of_perm _ _ ((same.flatMap_right _).map _)]
    exact held.few
  parsed := held.parsed
  origin := held.origin
  single := keysIn_perm same ▸ held.single

variable (lawful : Lawful pkg) {sort : Sorter} (sorts : sort.Lawful)

theorem witness_known {s : Signature} (member : s ∈ cps.flatMap (witnessSigs pkg opts.witnesses)) :
    ∃ w ∈ opts.witnesses, w.key = s.key := by
  obtain ⟨cp, -, listed⟩ := List.mem_flatMap.mp member
  unfold witnessSigs at listed
  split at listed
  · cases listed
  · exact (mem_verified.mp listed).1

-- With a hash for each key no signature displaces another one.
theorem lastWith_key (apart : HashesApart opts) (k : Key) :
    (∃ s, lastWith (cps.flatMap (witnessSigs pkg opts.witnesses)) k.hash = some s ∧ s.key = k) ↔
      k ∈ (cps.flatMap (witnessSigs pkg opts.witnesses)).map Signature.key := by
  constructor
  · rintro ⟨s, last, rfl⟩
    exact List.mem_map_of_mem (List.mem_reverse.mp (List.mem_of_find?_eq_some last))
  · intro member
    obtain ⟨s, listed, rfl⟩ := List.mem_map.mp member
    cases last : lastWith (cps.flatMap (witnessSigs pkg opts.witnesses)) s.key.hash with
    | none =>
      have none := List.find?_eq_none.mp last s (List.mem_reverse.mpr listed)
      simp at none
    | some t =>
      refine ⟨t, rfl, ?_⟩
      obtain ⟨v, known, own⟩ := witness_known listed
      obtain ⟨w, known', own'⟩ := witness_known (List.mem_reverse.mp (List.mem_of_find?_eq_some last))
      rw [← own, ← own']
      refine apart w (List.mem_cons_of_mem _ known') v (List.mem_cons_of_mem _ known) ?_
      rw [own, own', lastWith_hash last]

include lawful sorts

theorem mem_keysIn (apart : HashesApart opts) {order : MapOrder Signature} {n : Note}
    (made : combinedNote pkg sort order cps opts.logSigV opts.witnesses = .ok n) (k : Key) :
    k ∈ noteSigners n ↔ k ∈ keysIn pkg opts cps := by
  rw [mem_noteSigners lawful sorts made, lastWith_key apart, keysIn, Finset.mem_insert, List.mem_toFinset]

/-- What a body that went through says about its checkpoints. -/
theorem publishable_of_ok (apart : HashesApart opts) {order : MapOrder Signature} {m : CpNoteRaw}
    (ran : combine pkg sort order cps opts.logSigV opts.witnesses = .ok m.raw)
    (parsed : pkg.parseCheckpoint m.raw opts.logOrigin opts.logSigV opts.witnesses = .ok (m.cp, m.note)) :
    Publishable pkg opts cps m.note.text m.cp ∧ textOf pkg m.raw = some m.note.text ∧
      signersIn pkg opts m.raw = keysIn pkg opts cps ∧ m.note.sigs.length = (keysIn pkg opts cps).card := by
  obtain ⟨read, -, cp, origin⟩ := (lawful.parse _ _ _ _ _ _).mp parsed
  obtain ⟨e, decoded, body, sigs, accepted⟩ := opened_eq_some read
  rw [combine_eq_sign] at ran
  obtain ⟨n, made, signed⟩ := Outcome.bind_eq_ok.mp ran
  obtain ⟨some', text, each, combines⟩ := combines_of_ok lawful sorts made
  obtain ⟨raw, signed', decoded'⟩ := combines.sign lawful some' each
  obtain rfl := Except.ok.inj (signed'.symm.trans (Outcome.ofExcept_eq_ok.mp signed))
  rw [decoded] at decoded'
  split at decoded'
  next few =>
    obtain rfl := Option.some.inj decoded'
    have keys : ((Envelope.verified opts.known ⟨text, n.sigs⟩).map Signature.key).toFinset = keysIn pkg opts cps := by
      ext k
      rw [List.mem_toFinset, ← mem_keysIn lawful sorts apart made, noteSigners, mem_verified_keys]
      refine ⟨And.right, fun member => ⟨?_, member⟩⟩
      obtain ⟨s, listed, rfl⟩ := List.mem_map.mp member
      rcases combines.lines s listed with ⟨own, -⟩ | witness
      · exact ⟨_, List.mem_cons_self, own.symm⟩
      · obtain ⟨w, known, own⟩ := witness_known witness
        exact ⟨w, List.mem_cons_of_mem _ known, own⟩
    have text' : m.note.text = text := body
    refine ⟨⟨text' ▸ each, ?_, cp, origin, fun k member => ?_⟩, ?_, ?_, ?_⟩
    · have length := combines.length
      omega
    · rw [← keys, List.mem_toFinset] at member
      obtain ⟨s, listed, rfl⟩ := List.mem_map.mp member
      have passed := accepted s (sigs ▸ listed)
      unfold accepts at passed
      split at passed
      next v only => exact ⟨v, only⟩
      · cases passed
    · rw [textOf, decoded, text']
      rfl
    · rw [signersIn, decoded]
      exact keys
    · rw [sigs, ← keys, List.toFinset_card_of_nodup verified_nodup, List.length_map]
      rfl
  · cases decoded'

/-- Publishable checkpoints go through. -/
theorem Publishable.combineBody (apart : HashesApart opts) (orders : Bytes → MapOrder Signature) (label : Bytes)
    {text : Bytes} {cp : Checkpoint} (held : Publishable pkg opts cps text cp) (some' : cps ≠ []) :
    ∃ m, combineBody pkg sort orders opts (label, cps) = .ok m := by
  obtain ⟨n, made, combines⟩ := combinedNote_ok lawful sorts (orders label) some' held.legible
  obtain ⟨raw, signed, decoded⟩ := combines.sign lawful some' held.legible
  have few : n.sigs.length ≤ maxSignatures := by
    rw [combines.length]
    exact held.few
  rw [if_pos few] at decoded
  have read : opened pkg opts.known raw = some (Envelope.note opts.known ⟨text, n.sigs⟩) := by
    rw [opened, decoded]
    refine if_pos (List.all_eq_true.mpr fun t member => ?_)
    have listed : t ∈ n.sigs := List.mem_of_find?_eq_some (mem_verified.mp member).2
    obtain ⟨v, only⟩ := held.single t.key
      ((mem_keysIn lawful sorts apart made t.key).mp (List.mem_map_of_mem listed))
    -- The verifier that accepted the signature is the only one with its key.
    have valid : ∃ w ∈ opts.known, w.key = t.key ∧ w.verify text (pkg.payload t.base64) = true := by
      rcases combines.lines t listed with ⟨own, valid, -⟩ | witness
      · exact ⟨_, List.mem_cons_self, own.symm, valid⟩
      · obtain ⟨c, inside, first⟩ := List.mem_flatMap.mp witness
        obtain ⟨e, legible, same⟩ := held.legible c inside
        rw [legible.sigs] at first
        obtain ⟨w, known, own, valid, -⟩ := accepts_verifier (legible.accepted t first)
        exact ⟨w, List.mem_cons_of_mem _ known, own, same ▸ valid⟩
    obtain ⟨w, known, own, valid⟩ := valid
    have here : w ∈ opts.known.filter fun v => v.key = t.key := List.mem_filter.mpr ⟨known, by simpa using own⟩
    rw [only, List.mem_singleton] at here
    rw [accepts, only, ← here]
    exact valid
  have combined : combine pkg sort (orders label) cps opts.logSigV opts.witnesses = .ok raw := by
    rw [combine_eq_sign, made, Outcome.bind_ok, signed]
    rfl
  have log : opts.logSigV.key ∈ (Envelope.note opts.known ⟨text, n.sigs⟩).sigs.map Signature.key := by
    refine mem_verified_keys.mpr ⟨⟨_, List.mem_cons_self, rfl⟩, ?_⟩
    exact (mem_keysIn lawful sorts apart made opts.logSigV.key).mpr (Finset.mem_insert_self _ _)
  exact ⟨⟨cp, _, raw⟩, combineBody_eq_ok.mpr ⟨combined,
    (lawful.parse _ _ _ _ _ _).mpr ⟨read, log, held.parsed, held.origin⟩⟩⟩

end Bodies

section Runs

variable {pkg : Package} (lawful : Lawful pkg) {sort : Sorter} (sorts : sort.Lawful) {opts : UpdateOpts}
  (apart : HashesApart opts)

theorem fitSlots_eq (slots : Nat) (state : State) :
    fitSlots slots state = state.take slots ++ List.replicate (slots - (state.take slots).length) [] := by
  rw [fitSlots]
  split
  next long => simp [List.length_take, Nat.min_eq_left long.le]
  next short => rw [List.take_of_length_le (Nat.not_lt.mp short)]

theorem used_perm {slots : Nat} {state state' : State} {incoming incoming' : List Bytes}
    (kept : (state.take slots).Perm (state'.take slots)) (same : incoming.Perm incoming') :
    (fitSlots slots state ++ incoming).Perm (fitSlots slots state' ++ incoming') := by
  rw [fitSlots_eq, fitSlots_eq slots state', kept.length_eq]
  exact (kept.append_right _).append same

theorem withBody_perm {raws raws' : List Bytes} (same : raws.Perm raws') (text : Bytes) :
    (withBody pkg raws text).Perm (withBody pkg raws' text) := same.filter _

-- Whether a checkpoint is taken does not depend on those before it.
theorem addToBody_ok_iff (byBody : List (Bytes × List Bytes)) (raw : Bytes) :
    (∃ byBody', addToBody pkg opts.logSigV byBody raw = .ok byBody') ↔
      raw = [] ∨ ∃ n, pkg.openNote raw [opts.logSigV] = .ok n := by
  unfold addToBody
  by_cases empty : raw = []
  · simp [empty]
  · rw [if_neg empty]
    cases pkg.openNote raw [opts.logSigV] <;> simp [empty]

theorem taken_of_ok {raws : List Bytes} {byBody : List (Bytes × List Bytes)}
    (grouped : raws.foldlM (addToBody pkg opts.logSigV) [] = .ok byBody) :
    ∀ raw ∈ raws, raw = [] ∨ ∃ n, pkg.openNote raw [opts.logSigV] = .ok n := by
  have round : ∀ (done : List Bytes) (b : List (Bytes × List Bytes)) (a : Bytes) (b' : List (Bytes × List Bytes)),
      (∀ raw ∈ done, raw = [] ∨ ∃ n, pkg.openNote raw [opts.logSigV] = .ok n) →
      addToBody pkg opts.logSigV b a = .ok b' →
      ∀ raw ∈ done ++ [a], raw = [] ∨ ∃ n, pkg.openNote raw [opts.logSigV] = .ok n := by
    intro done b a b' before added raw member
    rcases List.mem_append.mp member with old | new
    · exact before raw old
    · rw [List.mem_singleton.mp new]
      exact (addToBody_ok_iff b a).mp ⟨b', added⟩
  have all := Outcome.foldlM_inv round (by simp : ∀ raw ∈ [], _) grouped
  rwa [List.nil_append] at all

include lawful sorts apart

theorem PoolOf.published {orders : Bytes → MapOrder Signature} {raws : List Bytes} {pool : List CpNoteRaw}
    (held : PoolOf pkg sort orders opts raws pool) {m : CpNoteRaw} (member : m ∈ pool) :
    Publishable pkg opts (withBody pkg raws m.note.text) m.note.text m.cp ∧ textOf pkg m.raw = some m.note.text ∧
      signersIn pkg opts m.raw = keysIn pkg opts (withBody pkg raws m.note.text) ∧
      m.note.sigs.length = (keysIn pkg opts (withBody pkg raws m.note.text)).card :=
  publishable_of_ok lawful sorts apart (held.combined m member) (held.parsed m member)

/-- An update that succeeds does so in every order. -/
theorem updateState_reordered {sort' : Sorter} (sorts' : sort'.Lawful)
    {bodyOrder bodyOrder' : MapOrder (Bytes × List Bytes)} {orders orders' : Bytes → MapOrder Signature}
    {state state' slots : State} {incoming incoming' : List Bytes}
    (same : (fitSlots opts.requiredSlots.toNat state ++ incoming).Perm (fitSlots opts.requiredSlots.toNat state' ++ incoming'))
    (ran : updateState pkg sort bodyOrder orders state incoming opts = .ok slots) :
    ∃ slots', updateState pkg sort' bodyOrder' orders' state' incoming' opts = .ok slots' := by
  obtain ⟨pool, held, -, -, room⟩ := updateState_pool lawful sorts ran
  unfold updateState at ran
  obtain ⟨resized, fitted, ran⟩ := Outcome.bind_eq_ok.mp ran
  obtain ⟨natural, rfl⟩ := resize_eq_ok fitted
  obtain ⟨byBody, grouped, ran⟩ := Outcome.bind_eq_ok.mp ran
  have rounds : ∀ raw ∈ fitSlots opts.requiredSlots.toNat state' ++ incoming', ∀ byBody,
      ∃ byBody', addToBody pkg opts.logSigV byBody raw = .ok byBody' := by
    intro raw member byBody
    exact (addToBody_ok_iff byBody raw).mpr (taken_of_ok grouped raw (same.mem_iff.mpr member))
  obtain ⟨byBody', grouped'⟩ := Outcome.foldlM_ok rounds []
  have groups : Groups (textOf pkg) (fitSlots opts.requiredSlots.toNat state' ++ incoming') byBody' := by
    have all := Outcome.foldlM_inv (fun _ _ _ _ held step => addToBody_groups lawful held step) Groups.nil grouped'
    rwa [List.nil_append] at all
  have each : ∀ body ∈ bodyOrder'.walk byBody', ∃ m, combineBody pkg sort' orders' opts body = .ok m := by
    rintro ⟨text, cps⟩ member
    obtain ⟨list, some'⟩ := groups.lists _ ((bodyOrder'.perm byBody').mem_iff.mp member)
    have list : cps = withBody pkg (fitSlots opts.requiredSlots.toNat state' ++ incoming') text := list
    obtain ⟨raw, inBody⟩ := List.exists_mem_of_ne_nil _ some'
    rw [list] at inBody some' ⊢
    obtain ⟨used, own⟩ := List.mem_filter.mp inBody
    obtain ⟨m, published, rfl⟩ := List.mem_map.mp
      ((held.bodies text).mpr ⟨raw, same.mem_iff.mpr used, by simpa using own⟩)
    obtain ⟨publishable, -⟩ := held.published lawful sorts apart published
    exact (publishable.perm (withBody_perm same _)).combineBody lawful sorts' apart orders' _ some'
  obtain ⟨combined, mapped⟩ := Outcome.mapM_ok each
  exact updateState_of_steps natural room grouped' mapped

end Runs

section Slots

variable (pkg : Package) (opts : UpdateOpts)

/-- A body among the checkpoints with more signers than the slot's number, and its size. -/
structure Contends (raws : List Bytes) (i : Nat) (text : Bytes) (size : Nat) : Prop where
  body : ∃ raw ∈ raws, textOf pkg raw = some text
  enough : i < (keysIn pkg opts (withBody pkg raws text)).card
  sized : ∃ cp, pkg.unmarshal text = some cp ∧ cp.size = size

structure Largest (raws : List Bytes) (i : Nat) (text : Bytes) (size : Nat) : Prop where
  contends : Contends pkg opts raws i text size
  largest : ∀ text' size', Contends pkg opts raws i text' size' → size' ≤ size

/-- Only one of the largest bodies can go into the slot. -/
def Untied (raws : List Bytes) (i : Nat) : Prop :=
  ∀ text text' size, Largest pkg opts raws i text size → Largest pkg opts raws i text' size → text = text'

-- What a slot holds: nothing, or a checkpoint of one of the largest bodies with all its signers.
def SlotHolds (raws : List Bytes) (i : Nat) (raw : Bytes) : Prop :=
  raw = [] ∧ (∀ text size, ¬ Contends pkg opts raws i text size) ∨
    ∃ text size, Largest pkg opts raws i text size ∧ textOf pkg raw = some text ∧
      signersIn pkg opts raw = keysIn pkg opts (withBody pkg raws text)

variable {pkg opts} {raws raws' : List Bytes} {i : Nat}

theorem Contends.perm (same : raws.Perm raws') {text : Bytes} {size : Nat}
    (held : Contends pkg opts raws i text size) :
    Contends pkg opts raws' i text size where
  body := by
    obtain ⟨raw, member, own⟩ := held.body
    exact ⟨raw, same.mem_iff.mp member, own⟩
  enough := keysIn_perm (withBody_perm same text) ▸ held.enough
  sized := held.sized

theorem Largest.perm (same : raws.Perm raws') {text : Bytes} {size : Nat} (held : Largest pkg opts raws i text size) :
    Largest pkg opts raws' i text size :=
  ⟨held.contends.perm same, fun text' size' other => held.largest text' size' (other.perm same.symm)⟩

theorem SlotHolds.perm (same : raws.Perm raws') {raw : Bytes} (held : SlotHolds pkg opts raws i raw) :
    SlotHolds pkg opts raws' i raw := by
  rcases held with ⟨empty, none⟩ | ⟨text, size, largest, body, signers⟩
  · exact .inl ⟨empty, fun text size other => none text size (other.perm same.symm)⟩
  · exact .inr ⟨text, size, largest.perm same, body, signers.trans (keysIn_perm (withBody_perm same text))⟩

def rawSize (pkg : Package) (raw : Bytes) : Option Nat := do
  let cp ← (textOf pkg raw).bind pkg.unmarshal
  return cp.size

/-- What two slots with one number have in common. -/
structure Agree (pkg : Package) (opts : UpdateOpts) (raws : List Bytes) (i : Nat) (raw raw' : Bytes) : Prop where
  empty : raw = [] ↔ raw' = []
  size : raw ≠ [] → ∃ size, rawSize pkg raw = some size ∧ rawSize pkg raw' = some size
  signers : textOf pkg raw = textOf pkg raw' → signersIn pkg opts raw = signersIn pkg opts raw'
  body : Untied pkg opts raws i → textOf pkg raw = textOf pkg raw'

theorem SlotHolds.agree (lawful : Lawful pkg) {raw raw' : Bytes} (held : SlotHolds pkg opts raws i raw)
    (held' : SlotHolds pkg opts raws i raw') : Agree pkg opts raws i raw raw' := by
  have unread : textOf pkg [] = none := by rw [textOf, lawful.decode_nil, Option.map_none]
  rcases held with ⟨rfl, none⟩ | ⟨text, size, largest, body, signers⟩ <;>
    rcases held' with ⟨rfl, none'⟩ | ⟨text', size', largest', body', signers'⟩
  · exact ⟨.rfl, fun filled => absurd rfl filled, fun _ => rfl, fun _ => rfl⟩
  · exact absurd largest'.contends (none text' size')
  · exact absurd largest.contends (none' text size)
  · have sizes : size = size' := Nat.le_antisymm (largest'.largest _ _ largest.contends)
      (largest.largest _ _ largest'.contends)
    subst sizes
    have filled : ∀ {raw text}, textOf pkg raw = some text → raw ≠ [] := by
      rintro _ _ read rfl
      rw [unread] at read
      cases read
    refine ⟨iff_of_false (filled body) (filled body'), fun _ => ⟨size, ?_, ?_⟩, fun same => ?_, fun untied => ?_⟩
    · obtain ⟨cp, parsed, rfl⟩ := largest.contends.sized
      simp [rawSize, body, parsed]
    · obtain ⟨cp, parsed, rfl⟩ := largest'.contends.sized
      simp [rawSize, body', parsed]
    · rw [body, body'] at same
      rw [signers, signers', Option.some.inj same]
    · rw [body, body', untied text text' size largest largest']

variable (lawful : Lawful pkg) {sort : Sorter} (sorts : sort.Lawful) (apart : HashesApart opts)
include lawful sorts apart

theorem PoolOf.slotHolds {orders : Bytes → MapOrder Signature} {pool : List CpNoteRaw}
    (held : PoolOf pkg sort orders opts raws pool) (sorted : Sorted largerFirst pool) {slots : Nat}
      (bound : i < slots) :
    ∃ raw, (fillSlots slots 0 pool)[i]? = some raw ∧ SlotHolds pkg opts raws i raw := by
  have contends : ∀ text size, Contends pkg opts raws i text size ↔
      ∃ m ∈ pool, m.note.text = text ∧ m.cp.size = size ∧ i < m.note.sigs.length := by
    intro text size
    constructor
    · rintro ⟨body, enough, cp, parsed, sized⟩
      obtain ⟨m, member, rfl⟩ := List.mem_map.mp ((held.bodies text).mpr body)
      obtain ⟨publishable, -, -, length⟩ := held.published lawful sorts apart member
      obtain rfl := Option.some.inj (parsed.symm.trans publishable.parsed)
      exact ⟨m, member, rfl, sized, by rw [length]; exact enough⟩
    · rintro ⟨m, member, rfl, sized, enough⟩
      obtain ⟨publishable, -, -, length⟩ := held.published lawful sorts apart member
      exact ⟨(held.bodies _).mp (List.mem_map_of_mem member), by rw [← length]; exact enough, m.cp,
        publishable.parsed,
        sized⟩
  rcases fillSlots_cases sorted bound with ⟨none, slot⟩ | ⟨m, member, enough, slot, largest⟩
  · refine ⟨[], slot, .inl ⟨rfl, fun text size other => ?_⟩⟩
    obtain ⟨m, member, -, -, enough⟩ := (contends text size).mp other
    exact none m member enough
  · obtain ⟨-, read, signers, -⟩ := held.published lawful sorts apart member
    refine ⟨m.raw, slot, .inr ⟨m.note.text, m.cp.size, ⟨?_, fun text size other => ?_⟩, read, signers⟩⟩
    · exact (contends _ _).mpr ⟨m, member, rfl, rfl, enough⟩
    · obtain ⟨m', member', -, rfl, enough'⟩ := (contends text size).mp other
      exact largest m' member' enough'

/-- Two updates with the same checkpoints in other orders agree in every slot. -/
theorem updateState_order {sort' : Sorter} (sorts' : sort'.Lawful)
    (bodyOrder bodyOrder' : MapOrder (Bytes × List Bytes)) (orders orders' : Bytes → MapOrder Signature)
    (state state' slots : State) (incoming incoming' : List Bytes)
    (kept : (state.take opts.requiredSlots.toNat).Perm (state'.take opts.requiredSlots.toNat)) (same : incoming.Perm incoming')
    (ran : updateState pkg sort bodyOrder orders state incoming opts = .ok slots) :
    ∃ slots', updateState pkg sort' bodyOrder' orders' state' incoming' opts = .ok slots' ∧
      slots'.length = slots.length ∧ ∀ i < slots.length, ∃ raw raw', slots[i]? = some raw ∧ slots'[i]? = some raw' ∧
        Agree pkg opts (fitSlots opts.requiredSlots.toNat state ++ incoming) i raw raw' := by
  have used := used_perm kept same
  obtain ⟨slots', ran'⟩ := updateState_reordered lawful sorts apart sorts' used ran
  obtain ⟨pool, held, sorted, rfl, -⟩ := updateState_pool lawful sorts ran
  obtain ⟨pool', held', sorted', rfl, -⟩ := updateState_pool lawful sorts' ran'
  refine ⟨_, ran', by rw [fillSlots_length, fillSlots_length], fun i bound => ?_⟩
  rw [fillSlots_length] at bound
  obtain ⟨raw, slot, holds⟩ := held.slotHolds lawful sorts apart sorted bound
  obtain ⟨raw', slot', holds'⟩ := held'.slotHolds lawful sorts' apart sorted' bound
  exact ⟨raw, raw', slot, slot', holds.agree lawful (holds'.perm used.symm)⟩

end Slots

section Tags

-- Another body of size 2.
def otherText : Bytes := asciiBytes "o\n2\nAg==\n"

theorem updateState_order_two :
    ∃ slots', updateState reference .insertion (.reversed _) (fun _ => .reversed _) []
        [tagNote (sizedText 1) [108, 97], tagNote (sizedText 2) [108]] (tagOpts [97, 98] 2) = .ok slots' ∧
      slots'.length = 3 ∧ ∀ i < 3, ∃ raw raw',
        [tagNote (sizedText 2) [108], tagNote (sizedText 1) [108, 97], []][i]? = some raw ∧ slots'[i]? = some raw' ∧
        Agree reference (tagOpts [97, 98] 2)
          [[], [], [], tagNote (sizedText 2) [108], tagNote (sizedText 1) [108, 97]] i raw raw' := by
  have result : updateState reference .insertion (.listed _) (fun _ => .listed _) []
      [tagNote (sizedText 2) [108], tagNote (sizedText 1) [108, 97]] (tagOpts [97, 98] 2) =
        .ok [tagNote (sizedText 2) [108], tagNote (sizedText 1) [108, 97], []] := by
    decide +kernel
  exact updateState_order reference_lawful Sorter.insertion_lawful
    (by simp only [HashesApart]; decide : HashesApart (tagOpts [97, 98] 2)) Sorter.insertion_lawful (.listed _)
    (.reversed _) (fun _ => .listed _) (fun _ => .reversed _) [] [] _ _ _ (.refl _) (.swap _ _ _) result

/-- Of two bodies of one size the order of the map decides, of a longer state its own order, and of two witnesses
with one hash the order of their checkpoints. -/
theorem update_order_matters :
    (∃ slots slots',
      updateState reference .insertion (.listed _) (fun _ => .listed _) []
        [tagNote (sizedText 2) [108], tagNote otherText [108]] (tagOpts [] 0) = .ok slots ∧
      updateState reference .insertion (.reversed _) (fun _ => .listed _) []
        [tagNote (sizedText 2) [108], tagNote otherText [108]] (tagOpts [] 0) = .ok slots' ∧
      slots.map (textOf reference) ≠ slots'.map (textOf reference)) ∧
    (∃ slots slots',
      updateState reference .insertion (.listed _) (fun _ => .listed _)
        [tagNote (sizedText 1) [108], tagNote (sizedText 2) [108]] [] (tagOpts [] 0) = .ok slots ∧
      updateState reference .insertion (.listed _) (fun _ => .listed _)
        [tagNote (sizedText 2) [108], tagNote (sizedText 1) [108]] [] (tagOpts [] 0) = .ok slots' ∧
      slots.map (textOf reference) ≠ slots'.map (textOf reference)) ∧
    ∃ slots slots',
      updateState reference .insertion (.listed _) (fun _ => .listed _) []
        [namedNote [(108, 1), (97, 5)], namedNote [(108, 1), (98, 5)]]
        ⟨namedVerifier 108 1, "o", [namedVerifier 97 5, namedVerifier 98 5], 1⟩ = .ok slots ∧
      updateState reference .insertion (.listed _) (fun _ => .listed _) []
        [namedNote [(108, 1), (98, 5)], namedNote [(108, 1), (97, 5)]]
        ⟨namedVerifier 108 1, "o", [namedVerifier 97 5, namedVerifier 98 5], 1⟩ = .ok slots' ∧
      slots.map (signersIn reference ⟨namedVerifier 108 1, "o", [namedVerifier 97 5, namedVerifier 98 5], 1⟩) ≠
        slots'.map (signersIn reference ⟨namedVerifier 108 1, "o", [namedVerifier 97 5, namedVerifier 98 5], 1⟩) := by
  refine ⟨⟨[tagNote (sizedText 2) [108]], [tagNote otherText [108]], by decide +kernel, by decide +kernel,
    by decide +kernel⟩, ⟨[tagNote (sizedText 1) [108]], [tagNote (sizedText 2) [108]], by decide +kernel,
    by decide +kernel, by decide +kernel⟩, ⟨[namedNote [(108, 1), (98, 5)], namedNote [(108, 1), (98, 5)]],
    [namedNote [(108, 1), (97, 5)], namedNote [(108, 1), (97, 5)]], by decide +kernel, by decide +kernel,
    by decide +kernel⟩⟩

end Tags

end GithubDistributor
