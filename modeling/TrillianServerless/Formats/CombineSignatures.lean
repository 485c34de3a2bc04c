import Mathlib.Data.List.Nodup
import Mathlib.Data.List.Perm.Subperm
import TrillianServerless.Packages.NoteFormat

set_option autoImplicit false

namespace Formats

open Go SignedNote

section Combine

variable (pkg : Package) (sort : Sorter)

-- sigs[s.Hash] = s.
def setSig (sigs : List Signature) (s : Signature) : List Signature :=
  s :: sigs.filter fun t => t.key.hash ≠ s.key.hash

structure Gathered where
  ret : Option Note
  sigs : List Signature

def openForLog (logSigV : Verifier) (cp : Bytes) : Outcome Note :=
  match pkg.openNote cp [logSigV] with
  | .ok n => .ok n
  | .error _ => .error (.text "checkpoint %d is not signed by log: %v")

-- The first checkpoint is taken with its log signature only.
def takeFirst (ret : Option Note) (candN : Note) : Outcome Note :=
  match ret, candN.sigs with
  | some ret, _ => .ok ret
  | none, [] => .panic "index out of range [0] with length 0"
  | none, s :: _ => .ok ⟨candN.text, [s], []⟩

def openForWitnesses (witSigVs : List Verifier) (cp : Bytes) : Outcome Note :=
  match pkg.openNote cp witSigVs with
  | .ok n => .ok n
  | .error (.unverified n) => .ok n
  | .error (.failed _) => .error (.text "failed to open checkpoint %d: %v")

-- One round of the loop over the checkpoints.
def gather (logSigV : Verifier) (witSigVs : List Verifier) (g : Gathered) (cp : Bytes) :
    Outcome Gathered := do
  let candN ← openForLog pkg logSigV cp
  let ret ← takeFirst g.ret candN
  let witN ← openForWitnesses pkg witSigVs cp
  if witN.text ≠ ret.text then .error (.text "checkpoint %d has differing content")
  else .ok ⟨some ret, witN.sigs.foldl setSig g.sigs⟩

-- The log key is always first.
def sigLess (logSigV : Verifier) (a b : Signature) : Bool :=
  if a.key.hash = logSigV.key.hash then true
  else if b.key.hash = logSigV.key.hash then false
  else a.key.hash < b.key.hash

def combine (order : MapOrder Signature) (cps : List Bytes) (logSigV : Verifier)
    (witSigVs : List Verifier) : Outcome Bytes := do
  let g ← cps.foldlM (gather pkg logSigV witSigVs) ⟨none, []⟩
  match g.ret with
  | none => .panic "invalid memory address or nil pointer dereference"
  | some ret =>
    let sigs := sort.slice (sigLess logSigV) (ret.sigs ++ order.walk g.sigs)
    .ofExcept (pkg.sign ⟨ret.text, sigs, ret.unverifiedSigs⟩ [])

end Combine

section Gather

/-- The map has one signature of each hash that occurs in `P`. -/
structure Gathers (P : Signature → Prop) (sigs : List Signature) : Prop where
  distinct : (sigs.map fun s => s.key.hash).Nodup
  only : ∀ s ∈ sigs, P s
  complete : ∀ s, P s → ∃ t ∈ sigs, t.key.hash = s.key.hash

theorem Gathers.nil : Gathers (fun _ => False) [] :=
  ⟨List.nodup_nil, fun _ member => absurd member List.not_mem_nil, fun _ wrong => wrong.elim⟩

variable {P : Signature → Prop} {sigs : List Signature}

theorem Gathers.set (held : Gathers P sigs) (s : Signature) :
    Gathers (fun t => P t ∨ t = s) (setSig sigs s) where
  distinct := by
    rw [setSig, List.map_cons, List.nodup_cons]
    constructor
    · simp
    · exact held.distinct.sublist (List.filter_sublist.map _)
  only t member := by
    rcases List.mem_cons.mp member with rfl | kept
    · exact .inr rfl
    · exact .inl (held.only t (List.mem_filter.mp kept).1)
  complete t possible := by
    by_cases own : t.key.hash = s.key.hash
    · exact ⟨s, List.mem_cons_self, own.symm⟩
    rcases possible with old | rfl
    · obtain ⟨u, member, same⟩ := held.complete t old
      refine ⟨u, List.mem_cons_of_mem _ (List.mem_filter.mpr ⟨member, ?_⟩), same⟩
      rw [same]
      simpa using own
    · exact absurd rfl own

theorem Gathers.congr {Q : Signature → Prop} (held : Gathers P sigs) (same : ∀ s, P s ↔ Q s) :
    Gathers Q sigs :=
  ⟨held.distinct, fun s member => (same s).mp (held.only s member),
    fun s q => held.complete s ((same s).mpr q)⟩

theorem Gathers.fold (held : Gathers P sigs) (new : List Signature) :
    Gathers (fun t => P t ∨ t ∈ new) (new.foldl setSig sigs) := by
  induction new generalizing P sigs with
  | nil => exact held.congr (by simp)
  | cons s rest ih =>
    rw [List.foldl_cons]
    exact (ih (held.set s)).congr fun t => by rw [List.mem_cons, or_assoc]

theorem Gathers.keys_nodup (held : Gathers P sigs) : (sigs.map Signature.key).Nodup := by
  have hashes := held.distinct
  rw [show (fun s : Signature => s.key.hash) = Key.hash ∘ Signature.key from rfl, ← List.map_map]
    at hashes
  exact hashes.of_map _

theorem Gathers.perm (held : Gathers P sigs) {other : List Signature} (perm : other.Perm sigs) :
    Gathers P other where
  distinct := (perm.map _).nodup_iff.mpr held.distinct
  only s member := held.only s (perm.mem_iff.mp member)
  complete s possible := by
    obtain ⟨t, member, same⟩ := held.complete s possible
    exact ⟨t, perm.mem_iff.mpr member, same⟩

end Gather

/-- A message that the log signed, with no rejected signature in the name of a witness. -/
structure Endorsed (pkg : Package) (log : Verifier) (wits : List Verifier) (msg : Bytes) (e : Envelope) :
    Prop where
  decoded : pkg.decode msg = some e
  signed : e.SignedBy pkg log
  genuine : ∀ w ∈ wits, ¬ e.Forges pkg w

section Round

variable {pkg : Package} (lawful : Lawful pkg) {log : Verifier} {wits : List Verifier}

theorem singleton_nodup (v : Verifier) : ([v].map Verifier.key).Nodup := List.nodup_singleton _

-- The log's own signature is the only one that its verifier finds.
theorem verified_singleton {e : Envelope} {s : Signature} (found : e.signature log.key = some s) :
    e.verified [log] = [s] := by
  have own : s.key = log.key := by simpa using List.find?_some found
  have member : ∀ t, t ∈ e.verified [log] ↔ t = s := fun t => by
    rw [mem_verified]
    constructor
    · rintro ⟨⟨v, listed, key⟩, first⟩
      rw [← key, List.mem_singleton.mp listed, found] at first
      exact (Option.some.inj first).symm
    · rintro rfl
      exact ⟨⟨log, by simp, own.symm⟩, by rw [own]; exact found⟩
  have distinct : (e.verified [log]).Nodup := List.Nodup.of_map _ verified_nodup
  exact List.perm_singleton.mp ((List.perm_ext_iff_of_nodup distinct (List.nodup_singleton s)).mpr
    fun t => by rw [member, List.mem_singleton])

include lawful

theorem open_log {msg : Bytes} {e : Envelope} (endorsed : Endorsed pkg log wits msg e) :
    ∃ s n, e.signature log.key = some s ∧ log.verify e.text (pkg.payload s.base64) = true ∧
      pkg.openNote msg [log] = .ok n ∧ n.text = e.text ∧ n.sigs = [s] := by
  obtain ⟨s, found, valid⟩ := endorsed.signed
  have read := opened_of_decode (singleton_nodup log) endorsed.decoded fun v listed => by
    rw [List.mem_singleton.mp listed]
    rintro ⟨t, found', rejected⟩
    obtain rfl := Option.some.inj (found.symm.trans found')
    rw [valid] at rejected
    cases rejected
  have sigs := verified_singleton found
  have nonempty : (e.note [log]).sigs ≠ [] := by simp [Envelope.note, sigs]
  exact ⟨s, e.note [log], found, valid, lawful.open_ok _ _ _ read nonempty, rfl, sigs⟩

theorem log_signed {msg : Bytes} {n : Note} (read : pkg.openNote msg [log] = .ok n) :
    ∃ e, pkg.decode msg = some e ∧ e.SignedBy pkg log ∧ n.text = e.text ∧ n.sigs ≠ [] := by
  cases result : opened pkg [log] msg with
  | none =>
    obtain ⟨reason, failed⟩ := lawful.open_failed _ _ result
    rw [read] at failed
    cases failed
  | some m =>
    by_cases empty : m.sigs = []
    · have failed := lawful.open_unverified _ _ _ result empty
      rw [read] at failed
      cases failed
    have same := lawful.open_ok _ _ _ result empty
    rw [read] at same
    obtain rfl := Except.ok.inj same
    obtain ⟨e, decoded, text, sigs, accepted⟩ := opened_eq_some result
    obtain ⟨s, member⟩ := List.exists_mem_of_ne_nil _ empty
    obtain ⟨v, listed, own, valid, _⟩ := accepts_verifier (accepted s member)
    obtain rfl := List.mem_singleton.mp listed
    rw [sigs] at member
    refine ⟨e, decoded, ⟨s, ?_, valid⟩, text, empty⟩
    rw [own]
    exact (mem_verified.mp member).2

/-- What opening a message for the witnesses gives, whether or not one of them signed it. -/
theorem open_witnesses (distinct : (wits.map Verifier.key).Nodup) {msg : Bytes} {e : Envelope}
    (endorsed : Endorsed pkg log wits msg e) :
    ∃ n, n.text = e.text ∧ n.sigs = e.verified wits ∧
      (pkg.openNote msg wits = .ok n ∨ pkg.openNote msg wits = .error (.unverified n)) := by
  have read := opened_of_decode distinct endorsed.decoded endorsed.genuine
  refine ⟨e.note wits, rfl, rfl, ?_⟩
  by_cases empty : e.verified wits = []
  · exact .inr (lawful.open_unverified _ _ _ read empty)
  · exact .inl (lawful.open_ok _ _ _ read empty)

/-- The log's signature of `text` in one of the messages. -/
def LogLine (pkg : Package) (log : Verifier) (text : Bytes) (cps : List Bytes) (s : Signature) : Prop :=
  s.key = log.key ∧ log.verify text (pkg.payload s.base64) = true ∧
    ∃ cp ∈ cps, ∃ e, pkg.decode cp = some e ∧ e.signature log.key = some s

/-- The signature stands first for its witness in one of the messages. -/
def Found (pkg : Package) (wits : List Verifier) (cps : List Bytes) (s : Signature) : Prop :=
  ∃ cp ∈ cps, ∃ e, pkg.decode cp = some e ∧ s ∈ e.verified wits

/-- What Combine holds after the checkpoints `done`. -/
structure Progress (pkg : Package) (log : Verifier) (wits : List Verifier) (text : Bytes)
    (done : List Bytes) (g : Gathered) : Prop where
  ret : g.ret = none ∧ done = [] ∨ ∃ s, g.ret = some ⟨text, [s], []⟩ ∧ LogLine pkg log text done s
  sigs : Gathers (Found pkg wits done) g.sigs

theorem gather_ok (distinct : (wits.map Verifier.key).Nodup) {g : Gathered} {done : List Bytes}
    {cp : Bytes} {e : Envelope} (held : Progress pkg log wits e.text done g)
    (endorsed : Endorsed pkg log wits cp e) :
    ∃ g', gather pkg log wits g cp = .ok g' ∧ Progress pkg log wits e.text (done ++ [cp]) g' := by
  obtain ⟨s, n, found, valid, openedLog, logText, logSigs⟩ := open_log lawful endorsed
  obtain ⟨m, witText, witSigs, openedWits⟩ := open_witnesses lawful distinct endorsed
  have own : s.key = log.key := by simpa using List.find?_some found
  have sigs : Gathers (Found pkg wits (done ++ [cp])) (m.sigs.foldl setSig g.sigs) := by
    refine (held.sigs.fold m.sigs).congr fun t => ?_
    rw [witSigs]
    constructor
    · rintro (⟨old, member, rest⟩ | new)
      · exact ⟨old, by simp [member], rest⟩
      · exact ⟨cp, by simp, e, endorsed.decoded, new⟩
    · rintro ⟨msg, member, e', decoded, listed⟩
      rcases List.mem_append.mp member with old | new
      · exact .inl ⟨msg, old, e', decoded, listed⟩
      · rw [List.mem_singleton.mp new, endorsed.decoded] at decoded
        obtain rfl := Option.some.inj decoded
        exact .inr listed
  have line : LogLine pkg log e.text (done ++ [cp]) s :=
    ⟨own, valid, cp, by simp, e, endorsed.decoded, found⟩
  have forLog : openForLog pkg log cp = .ok n := by rw [openForLog, openedLog]
  have forWitnesses : openForWitnesses pkg wits cp = .ok m := by
    rcases openedWits with ok | unverified
    · rw [openForWitnesses, ok]
    · rw [openForWitnesses, unverified]
  rcases held.ret with ⟨fresh, _⟩ | ⟨t, taken, own', valid', old, member, before⟩
  · refine ⟨⟨some ⟨e.text, [s], []⟩, _⟩, ?_, .inr ⟨s, rfl, line⟩, sigs⟩
    simp [gather, forLog, fresh, takeFirst, logSigs, forWitnesses, witText, logText]
  · refine ⟨⟨some ⟨e.text, [t], []⟩, _⟩, ?_,
      .inr ⟨t, rfl, own', valid', old, by simp [member], before⟩, sigs⟩
    simp [gather, forLog, taken, takeFirst, forWitnesses, witText]

theorem gatherAll_ok (distinct : (wits.map Verifier.key).Nodup) {text : Bytes} {cps : List Bytes}
    (endorsed : ∀ cp ∈ cps, ∃ e, Endorsed pkg log wits cp e ∧ e.text = text) {g : Gathered}
    {done : List Bytes} (held : Progress pkg log wits text done g) :
    ∃ g', cps.foldlM (gather pkg log wits) g = .ok g' ∧ Progress pkg log wits text (done ++ cps) g' := by
  induction cps generalizing g done with
  | nil => exact ⟨g, rfl, by simpa using held⟩
  | cons cp rest ih =>
    obtain ⟨e, valid, rfl⟩ := endorsed cp (by simp)
    obtain ⟨g', ran, next⟩ := gather_ok lawful distinct held valid
    obtain ⟨final, rested, last⟩ := ih (fun other member => endorsed other (by simp [member])) next
    refine ⟨final, ?_, by simpa using last⟩
    rw [List.foldlM_cons, ran, Outcome.bind_ok, rested]

end Round

/-- The message that Combine makes of checkpoints: the log's signature and one for each hash. -/
structure Combination (pkg : Package) (sort : Sorter) (log : Verifier) (wits : List Verifier)
    (cps : List Bytes) (raw : Bytes) (e : Envelope) (s : Signature) (sigs : List Signature) : Prop where
  decoded : pkg.decode raw = some e
  lines : e.lines = sort.slice (sigLess log) (s :: sigs)
  written : pkg.sign ⟨e.text, e.lines, []⟩ [] = .ok raw
  signed : LogLine pkg log e.text cps s
  gathers : Gathers (Found pkg wits cps) sigs
  genuine : ∀ t ∈ sigs, ∃ w ∈ wits, w.key = t.key ∧ w.verify e.text (pkg.payload t.base64) = true

section Result

variable {pkg : Package} {log : Verifier} {wits : List Verifier}

theorem Found.listed {cps : List Bytes} {s : Signature} (found : Found pkg wits cps s) :
    ∃ w ∈ wits, w.key = s.key := by
  obtain ⟨_, _, _, _, member⟩ := found
  exact (mem_verified.mp member).1

-- There are no more signatures than witnesses.
theorem Gathers.length_le {cps : List Bytes} {sigs : List Signature}
    (held : Gathers (Found pkg wits cps) sigs) : sigs.length ≤ wits.length := by
  have inside : (sigs.map fun s => s.key.hash) ⊆ wits.map fun w => w.key.hash := by
    intro hash member
    obtain ⟨s, listed, rfl⟩ := List.mem_map.mp member
    obtain ⟨w, known, same⟩ := (held.only s listed).listed
    exact List.mem_map.mpr ⟨w, known, by rw [same]⟩
  have shorter := (List.subperm_of_subset held.distinct inside).length_le
  simpa using shorter

theorem Endorsed.verifies {msg : Bytes} {e : Envelope} (endorsed : Endorsed pkg log wits msg e)
    {s : Signature} (first : s ∈ e.verified wits) :
    ∃ w ∈ wits, w.key = s.key ∧ w.verify e.text (pkg.payload s.base64) = true := by
  obtain ⟨⟨w, listed, own⟩, found⟩ := mem_verified.mp first
  refine ⟨w, listed, own, ?_⟩
  by_contra rejected
  exact endorsed.genuine w listed ⟨s, by rw [own]; exact found, by simpa using rejected⟩

theorem Gathers.length_eq {cps : List Bytes} {sigs : List Signature}
    (held : Gathers (Found pkg wits cps) sigs)
    (all : ∀ w ∈ wits, ∃ cp ∈ cps, ∃ e, pkg.decode cp = some e ∧ e.SignedBy pkg w) :
    sigs.length = (wits.map fun w => w.key.hash).toFinset.card := by
  have same : (sigs.map fun s => s.key.hash).toFinset = (wits.map fun w => w.key.hash).toFinset := by
    ext hash
    rw [List.mem_toFinset, List.mem_toFinset, List.mem_map, List.mem_map]
    constructor
    · rintro ⟨s, listed, rfl⟩
      obtain ⟨w, known, own⟩ := (held.only s listed).listed
      exact ⟨w, known, by rw [own]⟩
    · rintro ⟨w, known, rfl⟩
      obtain ⟨cp, member, e, decoded, s, found, _⟩ := all w known
      have own : s.key = w.key := by simpa using List.find?_some found
      have first : s ∈ e.verified wits :=
        mem_verified.mpr ⟨⟨w, known, own.symm⟩, by rw [own]; exact found⟩
      obtain ⟨t, listed, equal⟩ := held.complete s ⟨cp, member, e, decoded, first⟩
      exact ⟨t, listed, by rw [equal, own]⟩
  rw [← same, List.toFinset_card_of_nodup held.distinct, List.length_map]

/-- Combine makes a message of checkpoints of one body that the log signed and no witness rejects. It can
be read unless there are too many signatures. -/
theorem combine_made (lawful : Lawful pkg) {sort : Sorter} (sorts : sort.Lawful)
    (distinct : (wits.map Verifier.key).Nodup) (order : MapOrder Signature) {text : Bytes}
    {cps : List Bytes} (some' : cps ≠ [])
    (endorsed : ∀ cp ∈ cps, ∃ e, Endorsed pkg log wits cp e ∧ e.text = text) :
    ∃ raw e s sigs, combine pkg sort order cps log wits = .ok raw ∧ e.text = text ∧
      Gathers (Found pkg wits cps) sigs ∧
      (pkg.decode raw ≠ none → Combination pkg sort log wits cps raw e s sigs) ∧
      (sigs.length < maxSignatures ↔ pkg.decode raw ≠ none) := by
  have start : Progress pkg log wits text [] ⟨none, []⟩ :=
    ⟨.inl ⟨rfl, rfl⟩, Gathers.nil.congr fun s => by simp [Found]⟩
  obtain ⟨g, ran, held⟩ := gatherAll_ok lawful distinct endorsed start
  rw [List.nil_append] at held
  rcases held.ret with ⟨_, wrong⟩ | ⟨s, ret, line⟩
  · exact absurd wrong some'
  have sigs := held.sigs.perm (order.perm g.sigs)
  have perm := sorts.perm (sigLess log) (s :: order.walk g.sigs)
  have written : Written pkg ⟨text, sort.slice (sigLess log) (s :: order.walk g.sigs), []⟩ := by
    refine ⟨?_, ?_, ?_⟩
    · obtain ⟨cp, member⟩ := List.exists_mem_of_ne_nil _ some'
      obtain ⟨e, valid, same⟩ := endorsed cp member
      exact ⟨cp, e, valid.decoded, same⟩
    · intro t member
      rw [List.append_nil, perm.mem_iff, List.mem_cons] at member
      rcases member with rfl | listed
      · obtain ⟨cp, _, e, decoded, found⟩ := line.2.2
        exact ⟨cp, e, decoded, List.mem_of_find?_eq_some found⟩
      · obtain ⟨cp, _, e, decoded, first⟩ := sigs.only t listed
        exact ⟨cp, e, decoded, List.mem_of_find?_eq_some (mem_verified.mp first).2⟩
    · intro none
      have length := perm.length_eq
      simp only [List.append_nil] at none
      simp [none] at length
  obtain ⟨raw, signed, decoded⟩ := lawful.sign_none written
  rw [List.append_nil] at decoded
  refine ⟨raw, ⟨text, sort.slice (sigLess log) (s :: order.walk g.sigs)⟩, s, order.walk g.sigs, ?_, rfl,
    sigs, fun readable => ⟨?_, rfl, signed, line, sigs, ?_⟩, ?_⟩
  · rw [combine, ran, Outcome.bind_ok, ret]
    show Outcome.ofExcept (pkg.sign _ _) = _
    rw [List.singleton_append, signed]
    rfl
  · split at decoded
    · exact decoded
    · exact absurd decoded readable
  · intro t listed
    obtain ⟨cp, member, e, read, first⟩ := sigs.only t listed
    obtain ⟨e', valid, same⟩ := endorsed cp member
    obtain rfl := Option.some.inj (read.symm.trans valid.decoded)
    rw [← same]
    exact valid.verifies first
  · rw [perm.length_eq, List.length_cons] at decoded
    by_cases few : (order.walk g.sigs).length + 1 ≤ maxSignatures
    · rw [if_pos few] at decoded
      simp [decoded, Nat.lt_of_succ_le few]
    · rw [if_neg few] at decoded
      simp only [decoded, ne_eq, not_true_eq_false, iff_false]
      omega

/-- Combine succeeds on checkpoints of one body that the log signed and no witness rejects. -/
theorem combine_ok (lawful : Lawful pkg) {sort : Sorter} (sorts : sort.Lawful)
    (distinct : (wits.map Verifier.key).Nodup) (few : wits.length < maxSignatures) (order : MapOrder Signature)
    {text : Bytes} {cps : List Bytes} (some' : cps ≠ [])
    (endorsed : ∀ cp ∈ cps, ∃ e, Endorsed pkg log wits cp e ∧ e.text = text) :
    ∃ raw e s sigs, combine pkg sort order cps log wits = .ok raw ∧ e.text = text ∧
      Combination pkg sort log wits cps raw e s sigs := by
  obtain ⟨raw, e, s, sigs, ran, same, gathers, result, readable⟩ :=
    combine_made lawful sorts distinct order some' endorsed
  exact ⟨raw, e, s, sigs, ran, same, result (readable.mp (Nat.lt_of_le_of_lt gathers.length_le few))⟩

section Lines

variable {sort : Sorter} {cps : List Bytes} {raw : Bytes} {e : Envelope} {s : Signature}
  {sigs : List Signature} (result : Combination pkg sort log wits cps raw e s sigs) (sorts : sort.Lawful)
include result sorts

theorem Combination.perm : e.lines.Perm (s :: sigs) := by
  rw [result.lines]
  exact sorts.perm _ _

theorem Combination.accepted {t : Signature} (member : t ∈ e.lines) :
    ∃ v ∈ log :: wits, v.key = t.key ∧ v.verify e.text (pkg.payload t.base64) = true := by
  rcases List.mem_cons.mp ((result.perm sorts).mem_iff.mp member) with rfl | listed
  · exact ⟨log, by simp, result.signed.1.symm, result.signed.2.1⟩
  · obtain ⟨w, known, own, valid⟩ := result.genuine t listed
    exact ⟨w, by simp [known], own, valid⟩

variable (distinct : ((log :: wits).map Verifier.key).Nodup)
include distinct

theorem Combination.keys_nodup : (e.lines.map Signature.key).Nodup := by
  rw [((result.perm sorts).map _).nodup_iff, List.map_cons, List.nodup_cons]
  refine ⟨fun member => ?_, result.gathers.keys_nodup⟩
  obtain ⟨t, listed, same⟩ := List.mem_map.mp member
  obtain ⟨w, known, own, _⟩ := result.genuine t listed
  rw [List.map_cons, List.nodup_cons] at distinct
  exact distinct.1 (List.mem_map.mpr ⟨w, known, by rw [own, same, result.signed.1]⟩)

theorem Combination.signature {t : Signature} (member : t ∈ e.lines) :
    e.signature t.key = some t := by
  have first : t ∈ firstOfEach e.lines := by
    rw [firstOfEach_of_nodup (result.keys_nodup sorts distinct)]
    exact member
  exact mem_firstOfEach.mp first

theorem Combination.verifies {t : Signature} (member : t ∈ e.lines) {v : Verifier}
    (known : v ∈ log :: wits) (own : v.key = t.key) : v.verify e.text (pkg.payload t.base64) = true := by
  obtain ⟨w, known', own', valid⟩ := result.accepted sorts member
  rwa [List.inj_on_of_nodup_map distinct known known' (own.trans own'.symm)]

/-- All lines of a combined checkpoint are signatures that verify. -/
theorem Combination.opens : opened pkg (log :: wits) raw = some ⟨e.text, e.lines, []⟩ := by
  have all : ∀ t ∈ e.lines, isKnown (log :: wits) t = true := fun t member => by
    obtain ⟨v, known, own, _⟩ := result.accepted sorts member
    exact isKnown_iff.mpr ⟨v, known, own⟩
  rw [opened_of_decode distinct result.decoded]
  · have lines : e.verified (log :: wits) = e.lines := by
      rw [Envelope.verified, List.filter_eq_self.mpr all,
        firstOfEach_of_nodup (result.keys_nodup sorts distinct)]
    have rest : e.lines.filter (fun t => !isKnown (log :: wits) t) = [] := by
      rw [List.filter_eq_nil_iff]
      exact fun t member => by simp [all t member]
    rw [Envelope.note, lines, rest, List.eraseDups_nil]
  · rintro v known ⟨t, found, rejected⟩
    have own : t.key = v.key := by simpa using List.find?_some found
    have valid := result.verifies sorts distinct (List.mem_of_find?_eq_some found) known own.symm
    rw [rejected] at valid
    cases valid

theorem Combination.endorsed : Endorsed pkg log wits raw e := by
  have genuine := not_forges_of_opened distinct result.decoded (result.opens sorts distinct)
  refine ⟨result.decoded, ⟨s, ?_, result.signed.2.1⟩, fun w known => genuine w (by simp [known])⟩
  rw [← result.signed.1]
  exact result.signature sorts distinct ((result.perm sorts).mem_iff.mpr (by simp))

end Lines

end Result

section Signers

variable (pkg : Package)

def hashLess (a b : Key) : Bool := a.hash < b.hash

def signedIn (v : Verifier) (cp : Bytes) : Bool :=
  match pkg.decode cp with
  | none => false
  | some e => decide (e.SignedBy pkg v)

/-- The log, then by hash the witnesses that signed one of the checkpoints. -/
def signers (log : Verifier) (wits : List Verifier) (cps : List Bytes) : List Key :=
  log.key :: sortBy hashLess ((wits.filter fun w => cps.any (signedIn pkg w)).map Verifier.key)

-- sigLess only looks at keys.
def logFirst (log : Key) (a b : Key) : Bool :=
  if a.hash = log.hash then true else if b.hash = log.hash then false else hashLess a b

theorem hashLess_orders {keys : List Key} : Orders hashLess keys where
  asymm := List.pairwise_of_forall fun a b => by simp only [hashLess, decide_eq_true_eq]; grind
  negTrans a _ b _ c _ := by simp only [hashLess, decide_eq_false_iff_not]; grind

theorem logFirst_orders {log : Key} {rest : List Key} (distinct : ((log :: rest).map Key.hash).Nodup) :
    Orders (logFirst log) (log :: rest) where
  asymm := by
    have apart := (List.pairwise_map.mp distinct)
    refine apart.imp fun {a b} different => ?_
    simp only [logFirst, hashLess]
    grind
  negTrans a _ b _ c _ := by
    simp only [logFirst, hashLess]
    grind

variable {pkg}

theorem signedIn_iff {v : Verifier} {cp : Bytes} :
    signedIn pkg v cp = true ↔ ∃ e, pkg.decode cp = some e ∧ e.SignedBy pkg v := by
  unfold signedIn
  cases pkg.decode cp with
  | none => simp
  | some e => simp

theorem keys_nodup_of_hashes {vs : List Verifier} (distinct : (vs.map fun v => v.key.hash).Nodup) :
    (vs.map Verifier.key).Nodup := by
  rw [show (fun v : Verifier => v.key.hash) = Key.hash ∘ Verifier.key from rfl, ← List.map_map] at distinct
  exact distinct.of_map _

section Order

variable {log : Verifier} {wits : List Verifier} {sort : Sorter} {cps : List Bytes} {raw : Bytes}
  {e : Envelope} {s : Signature} {sigs : List Signature}
  (result : Combination pkg sort log wits cps raw e s sigs) (sorts : sort.Lawful)
  (apart : ∀ w ∈ wits, w.key.hash ≠ log.key.hash)
include result apart

theorem Combination.hashes_nodup : (((s :: sigs).map Signature.key).map Key.hash).Nodup := by
  rw [List.map_cons, List.map_cons, List.nodup_cons, List.map_map]
  refine ⟨fun member => ?_, result.gathers.distinct⟩
  obtain ⟨t, listed, same⟩ := List.mem_map.mp member
  obtain ⟨w, known, own, _⟩ := result.genuine t listed
  refine apart w known ?_
  rw [own, ← result.signed.1]
  exact same

include sorts

theorem Combination.sorted : Sorted (sigLess log) e.lines := by
  have orders : Orders (sigLess log) (s :: sigs) := Orders.of_map (f := Signature.key) (by
    have hashes := result.hashes_nodup apart
    rw [List.map_cons, result.signed.1] at hashes ⊢
    exact logFirst_orders hashes)
  rw [result.lines]
  exact sorts.sorted _ _ orders

theorem Combination.total : ∀ a ∈ e.lines, ∀ b ∈ e.lines,
    sigLess log a b = false → sigLess log b a = false → a = b := by
  intro a ma b mb after before
  have hashes := result.hashes_nodup apart
  rw [List.map_map, ← ((result.perm sorts).map (Key.hash ∘ Signature.key)).nodup_iff] at hashes
  refine List.inj_on_of_nodup_map hashes ma mb ?_
  simp only [sigLess] at after before
  show a.key.hash = b.key.hash
  grind

end Order

section Again

variable {log : Verifier} {wits : List Verifier} {sort : Sorter} (sorts : sort.Lawful)
  (distinct : ((log :: wits).map Verifier.key).Nodup) (apart : ∀ w ∈ wits, w.key.hash ≠ log.key.hash)
include sorts distinct apart

/-- Combining copies of a combined checkpoint gives that checkpoint. -/
theorem Combination.again {cps cps' : List Bytes} {raw raw' : Bytes} {e e' : Envelope} {s s' : Signature}
    {sigs sigs' : List Signature} (result : Combination pkg sort log wits cps raw e s sigs)
    (result' : Combination pkg sort log wits cps' raw' e' s' sigs') (copies : ∀ cp ∈ cps', cp = raw)
    (text : e'.text = e.text) : raw' = raw := by
  obtain ⟨_, _, cp, member, f, decoded, found⟩ := result'.signed
  rw [copies cp member, result.decoded] at decoded
  obtain rfl := Option.some.inj decoded
  have own : s' = s := by
    have line : s ∈ e.lines := (result.perm sorts).mem_iff.mpr (by simp)
    have first := result.signature sorts distinct line
    rw [result.signed.1, found] at first
    exact Option.some.inj first
  have inLines : ∀ t, Found pkg wits cps' t → t ∈ sigs := by
    rintro t ⟨msg, listed, g, read, verified⟩
    rw [copies msg listed, result.decoded] at read
    obtain rfl := Option.some.inj read
    obtain ⟨⟨w, known, key⟩, first⟩ := mem_verified.mp verified
    rcases List.mem_cons.mp ((result.perm sorts).mem_iff.mp (List.mem_of_find?_eq_some first)) with rfl | one
    · exact absurd (by rw [key, result.signed.1]) (apart w known)
    · exact one
  have perm : sigs'.Perm sigs := by
    refine (List.perm_ext_iff_of_nodup (result'.gathers.keys_nodup.of_map _)
      (result.gathers.keys_nodup.of_map _)).mpr fun t => ⟨fun listed => inLines t (result'.gathers.only t listed),
        fun listed => ?_⟩
    have line : t ∈ e.lines := (result.perm sorts).mem_iff.mpr (by simp [listed])
    obtain ⟨w, known, key, _⟩ := result.genuine t listed
    obtain ⟨u, listed', same⟩ := result'.gathers.complete t ⟨cp, member, e,
      by rw [copies cp member, result.decoded],
      mem_verified.mpr ⟨⟨w, known, key⟩, result.signature sorts distinct line⟩⟩
    rwa [← List.inj_on_of_nodup_map result.gathers.distinct (inLines u (result'.gathers.only u listed'))
      listed same]
  have lines : e'.lines = e.lines := by
    refine (result'.sorted sorts apart).eq_of_perm (result.sorted sorts apart) ?_ (result'.total sorts apart)
    have same : (s' :: sigs').Perm (s :: sigs) := by
      rw [own]
      exact perm.cons s
    exact ((result'.perm sorts).trans same).trans (result.perm sorts).symm
  have written := result'.written
  rw [text, lines, result.written] at written
  exact (Except.ok.inj written).symm

end Again

section Canonical

variable {log : Verifier} {wits : List Verifier} {sort : Sorter} {cps : List Bytes} {raw : Bytes}
  {e : Envelope} {s : Signature} {sigs : List Signature}
  (result : Combination pkg sort log wits cps raw e s sigs)
  (endorsed : ∀ cp ∈ cps, ∃ e', Endorsed pkg log wits cp e' ∧ e'.text = e.text)
  (distinct : ((log :: wits).map fun v => v.key.hash).Nodup)
include result endorsed distinct

/-- Of each witness that signed one of the checkpoints there is a signature in the map. -/
theorem Combination.key_mem (k : Key) :
    k ∈ sigs.map Signature.key ↔
      k ∈ (wits.filter fun w => cps.any (signedIn pkg w)).map Verifier.key := by
  simp only [List.mem_map, List.mem_filter, List.any_eq_true, signedIn_iff]
  constructor
  · rintro ⟨t, listed, rfl⟩
    obtain ⟨cp, member, e', decoded, first⟩ := result.gathers.only t listed
    obtain ⟨e'', valid, _⟩ := endorsed cp member
    obtain rfl := Option.some.inj (decoded.symm.trans valid.decoded)
    obtain ⟨w, known, own, accepted⟩ := valid.verifies first
    refine ⟨w, ⟨known, cp, member, e', decoded, t, ?_, accepted⟩, own⟩
    rw [own]
    exact (mem_verified.mp first).2
  · rintro ⟨w, ⟨known, cp, member, e', decoded, t, found, _⟩, rfl⟩
    have own : t.key = w.key := by simpa using List.find?_some found
    have first : t ∈ e'.verified wits :=
      mem_verified.mpr ⟨⟨w, known, own.symm⟩, by rw [own]; exact found⟩
    obtain ⟨u, listed, same⟩ := result.gathers.complete t ⟨cp, member, e', decoded, first⟩
    obtain ⟨w', known', own', _⟩ := result.genuine u listed
    rw [List.map_cons, List.nodup_cons] at distinct
    have equal : w' = w := List.inj_on_of_nodup_map distinct.2 known' known (by
      show w'.key.hash = w.key.hash
      rw [own', same, own])
    exact ⟨u, listed, by rw [← own', equal]⟩

theorem Combination.keys_perm :
    (sigs.map Signature.key).Perm
      ((wits.filter fun w => cps.any (signedIn pkg w)).map Verifier.key) := by
  refine (List.perm_ext_iff_of_nodup result.gathers.keys_nodup ?_).mpr
    (result.key_mem endorsed distinct)
  rw [List.map_cons, List.nodup_cons] at distinct
  exact (keys_nodup_of_hashes distinct.2).sublist (List.filter_sublist.map _)

/-- The lines of a combined checkpoint stand in the order of `signers`. -/
theorem Combination.signers_eq (sorts : sort.Lawful) :
    e.lines.map Signature.key = signers pkg log wits cps := by
  have different : ∀ w ∈ wits, w.key.hash ≠ log.key.hash := by
    rw [List.map_cons, List.nodup_cons] at distinct
    exact fun w known same => distinct.1 (List.mem_map.mpr ⟨w, known, same⟩)
  have apart := result.hashes_nodup different
  rw [List.map_cons, result.signed.1] at apart
  have perm : (e.lines.map Signature.key).Perm (log.key :: sigs.map Signature.key) := by
    rw [← result.signed.1]
    exact (result.perm sorts).map Signature.key
  have sorted : Sorted (logFirst log.key) (e.lines.map Signature.key) :=
    List.pairwise_map.mpr (result.sorted sorts different)
  have others := sortBy_perm hashLess ((wits.filter fun w => cps.any (signedIn pkg w)).map Verifier.key)
  have perm' := perm.trans (((result.keys_perm endorsed distinct).trans others.symm).cons log.key)
  have apart' := ((perm.symm.trans perm').map Key.hash).nodup_iff.mp apart
  rw [List.map_cons, List.nodup_cons] at apart'
  have others' : ∀ k ∈ sortBy hashLess ((wits.filter fun w => cps.any (signedIn pkg w)).map Verifier.key),
      k.hash ≠ log.key.hash := fun k member same => apart'.1 (List.mem_map.mpr ⟨k, member, same⟩)
  refine sorted.eq_of_perm (List.pairwise_cons.mpr ⟨fun k member => ?_, ?_⟩) perm' fun a ma b mb => ?_
  · simp [logFirst, others' k member]
  · refine (sortBy_sorted hashLess_orders).imp_of_mem fun {a b} ma mb after => ?_
    simp [logFirst, others' a ma, others' b mb, after]
  · intro after before
    have hashes : ((e.lines.map Signature.key).map Key.hash).Nodup := (perm.map Key.hash).nodup_iff.mpr apart
    refine List.inj_on_of_nodup_map hashes ma mb ?_
    simp only [logFirst, hashLess] at after before
    grind

theorem Combination.signedIn_iff (sorts : sort.Lawful) {w : Verifier} (known : w ∈ wits) :
    signedIn pkg w raw = true ↔ ∃ cp ∈ cps, signedIn pkg w cp = true := by
  have keys := keys_nodup_of_hashes distinct
  have member := result.key_mem endorsed distinct w.key
  have listed : w.key ∈ (wits.filter fun w => cps.any (signedIn pkg w)).map Verifier.key ↔
      ∃ cp ∈ cps, signedIn pkg w cp = true := by
    rw [List.map_cons, List.nodup_cons] at keys
    simp only [List.mem_map, List.mem_filter, List.any_eq_true]
    constructor
    · rintro ⟨w', ⟨known', signed⟩, same⟩
      rwa [← List.inj_on_of_nodup_map keys.2 known' known same]
    · exact fun signed => ⟨w, ⟨known, signed⟩, rfl⟩
  rw [← listed, ← member, Formats.signedIn_iff]
  constructor
  · rintro ⟨e', decoded, t, found, _⟩
    obtain rfl := Option.some.inj (result.decoded.symm.trans decoded)
    have own : t.key = w.key := by simpa using List.find?_some found
    rcases List.mem_cons.mp ((result.perm sorts).mem_iff.mp (List.mem_of_find?_eq_some found)) with rfl | one
    · rw [List.map_cons, List.nodup_cons] at keys
      exact absurd (List.mem_map.mpr ⟨w, known, by rw [← own, result.signed.1]⟩) keys.1
    · exact List.mem_map.mpr ⟨t, one, own⟩
  · intro one
    obtain ⟨t, one, own⟩ := List.mem_map.mp one
    have line : t ∈ e.lines := (result.perm sorts).mem_iff.mpr (by simp [one])
    refine ⟨e, result.decoded, t, ?_, result.verifies sorts keys line (by simp [known]) own.symm⟩
    rw [← own]
    exact result.signature sorts keys line

end Canonical

theorem signers_congr {log : Verifier} {wits : List Verifier} {cps others : List Bytes}
    (same : ∀ w ∈ wits, (∃ cp ∈ cps, signedIn pkg w cp = true) ↔ ∃ cp ∈ others, signedIn pkg w cp = true) :
    signers pkg log wits cps = signers pkg log wits others := by
  have filters : (wits.filter fun w => cps.any (signedIn pkg w)) =
      wits.filter fun w => others.any (signedIn pkg w) := by
    refine List.filter_congr fun w known => ?_
    rw [Bool.eq_iff_iff, List.any_eq_true, List.any_eq_true]
    exact same w known
  rw [signers, signers, filters]

end Signers

section Errors

variable {pkg : Package} (lawful : Lawful pkg) {log : Verifier} {wits : List Verifier}
include lawful

theorem open_witness_cases (distinct : (wits.map Verifier.key).Nodup) (msg : Bytes) :
    (∃ reason, openForWitnesses pkg wits msg = .error reason) ∨
      ∃ n e, openForWitnesses pkg wits msg = .ok n ∧ pkg.decode msg = some e ∧ n.text = e.text ∧
        ∀ w ∈ wits, ¬ e.Forges pkg w := by
  unfold openForWitnesses
  cases result : opened pkg wits msg with
  | none =>
    obtain ⟨reason, failed⟩ := lawful.open_failed _ _ result
    exact .inl ⟨_, by rw [failed]⟩
  | some m =>
    obtain ⟨e, decoded, text, _⟩ := opened_eq_some result
    refine .inr ⟨m, e, ?_, decoded, text, not_forges_of_opened distinct decoded result⟩
    by_cases empty : m.sigs = []
    · rw [lawful.open_unverified _ _ _ result empty]
    · rw [lawful.open_ok _ _ _ result empty]

/-- A round that does not fail has seen an endorsed checkpoint with the body of the rounds before it. -/
theorem gather_cases (distinct : (wits.map Verifier.key).Nodup) (g : Gathered) (cp : Bytes) :
    (∃ reason, gather pkg log wits g cp = .error reason) ∨
      ∃ g' ret e, gather pkg log wits g cp = .ok g' ∧ g'.ret = some ret ∧ Endorsed pkg log wits cp e ∧
        ret.text = e.text ∧ ∀ r, g.ret = some r → r = ret := by
  unfold gather
  cases first : pkg.openNote cp [log] with
  | error reason => exact .inl ⟨_, by rw [openForLog, first, Outcome.bind_error]⟩
  | ok candN =>
    obtain ⟨e, decoded, signed, text, some'⟩ := log_signed lawful first
    obtain ⟨s, rest, sigs⟩ := List.exists_cons_of_ne_nil some'
    obtain ⟨ret, taken, kept⟩ : ∃ ret, takeFirst g.ret candN = .ok ret ∧ ∀ r, g.ret = some r → r = ret := by
      cases g.ret with
      | none => exact ⟨⟨candN.text, [s], []⟩, by simp [takeFirst, sigs], by simp⟩
      | some r => exact ⟨r, rfl, by simp⟩
    rw [show openForLog pkg log cp = .ok candN by rw [openForLog, first], Outcome.bind_ok, taken,
      Outcome.bind_ok]
    rcases open_witness_cases lawful distinct cp with ⟨reason, failed⟩ | ⟨n, e', read, decoded', text', genuine⟩
    · exact .inl ⟨reason, by rw [failed, Outcome.bind_error]⟩
    · obtain rfl := Option.some.inj (decoded.symm.trans decoded')
      rw [read, Outcome.bind_ok]
      by_cases same : n.text = ret.text
      · rw [if_neg (not_not.mpr same)]
        exact .inr ⟨_, ret, e, rfl, rfl, ⟨decoded, signed, genuine⟩, by rw [← same, text'], kept⟩
      · exact .inl ⟨_, if_pos same⟩

theorem gatherAll_cases (distinct : (wits.map Verifier.key).Nodup) (g : Gathered) (cps : List Bytes) :
    (∃ reason, cps.foldlM (gather pkg log wits) g = .error reason) ∨
      ∃ g' text, cps.foldlM (gather pkg log wits) g = .ok g' ∧ (∀ r, g.ret = some r → r.text = text) ∧
        ∀ cp ∈ cps, ∃ e, Endorsed pkg log wits cp e ∧ e.text = text := by
  induction cps generalizing g with
  | nil =>
    refine .inr ⟨g, (g.ret.map Note.text).getD [], rfl, fun r same => by simp [same], by simp⟩
  | cons cp rest ih =>
    rw [List.foldlM_cons]
    rcases gather_cases lawful distinct g cp with ⟨reason, failed⟩ | ⟨g', ret, e, ran, taken, valid, text, kept⟩
    · exact .inl ⟨reason, by rw [failed, Outcome.bind_error]⟩
    · rw [ran, Outcome.bind_ok]
      rcases ih g' with failed | ⟨final, text', rested, same, others⟩
      · exact .inl failed
      refine .inr ⟨final, text', rested, fun r own => ?_, fun other member => ?_⟩
      · rw [kept r own]
        exact same ret taken
      · rcases List.mem_cons.mp member with rfl | later
        · exact ⟨e, valid, by rw [← text, same ret taken]⟩
        · exact others other later

/-- Combine refuses checkpoints that are not endorsed or have several bodies. -/
theorem combine_refuses (distinct : (wits.map Verifier.key).Nodup) {sort : Sorter}
    (order : MapOrder Signature) {cps : List Bytes}
    (wrong : ¬ ∃ text, ∀ cp ∈ cps, ∃ e, Endorsed pkg log wits cp e ∧ e.text = text) :
    ∃ reason, combine pkg sort order cps log wits = .error reason := by
  rcases gatherAll_cases lawful distinct ⟨none, []⟩ cps with ⟨reason, failed⟩ | ⟨_, text, _, _, all⟩
  · exact ⟨reason, by rw [combine, failed, Outcome.bind_error]⟩
  · exact absurd ⟨text, all⟩ wrong

/-- What Combine made a readable message of, and which one. -/
theorem combination_of_ok {sort : Sorter} (sorts : sort.Lawful) (distinct : (wits.map Verifier.key).Nodup)
    {order : MapOrder Signature} {raw : Bytes} {cps : List Bytes}
    (combined : combine pkg sort order cps log wits = .ok raw) :
    cps ≠ [] ∧ (wits.length < maxSignatures → pkg.decode raw ≠ none) ∧
      (pkg.decode raw ≠ none → ∃ e s sigs,
        (∀ cp ∈ cps, ∃ e', Endorsed pkg log wits cp e' ∧ e'.text = e.text) ∧
        Combination pkg sort log wits cps raw e s sigs) := by
  have some' : cps ≠ [] := by
    rintro rfl
    cases combined
  by_cases valid : ∃ text, ∀ cp ∈ cps, ∃ e, Endorsed pkg log wits cp e ∧ e.text = text
  · obtain ⟨text, endorsed⟩ := valid
    obtain ⟨raw', e, s, sigs, ran, rfl, gathers, result, readable⟩ :=
      combine_made lawful sorts distinct order some' endorsed
    rw [combined] at ran
    obtain rfl := Outcome.ok.inj ran
    exact ⟨some', fun few => readable.mp (Nat.lt_of_le_of_lt gathers.length_le few),
      fun read => ⟨e, s, sigs, endorsed, result read⟩⟩
  · obtain ⟨reason, failed⟩ := combine_refuses lawful distinct order valid
    rw [combined] at failed
    cases failed

end Errors

section Union

variable {pkg : Package} (lawful : Lawful pkg) {sort : Sorter} (sorts : sort.Lawful) {log : Verifier}
  {wits : List Verifier} (distinct : ((log :: wits).map fun v => v.key.hash).Nodup)
  (few : wits.length < maxSignatures)
include lawful sorts distinct few

/-- Combining combined checkpoints finds the signers of all checkpoints they were made of. -/
theorem signers_regroup {text : Bytes} {parts : List (List Bytes × Bytes)}
    (combined : ∀ p ∈ parts, p.1 ≠ [] ∧ (∀ cp ∈ p.1, ∃ e, Endorsed pkg log wits cp e ∧ e.text = text) ∧
      ∃ order, combine pkg sort order p.1 log wits = .ok p.2) :
    (∀ raw ∈ parts.map Prod.snd, ∃ e, Endorsed pkg log wits raw e ∧ e.text = text) ∧
      signers pkg log wits (parts.map Prod.snd) = signers pkg log wits (parts.flatMap Prod.fst) := by
  have keys := keys_nodup_of_hashes distinct
  have wit := (List.nodup_cons.mp keys).2
  have each : ∀ p ∈ parts, (∃ e, Endorsed pkg log wits p.2 e ∧ e.text = text) ∧
      ∀ w ∈ wits, signedIn pkg w p.2 = true ↔ ∃ cp ∈ p.1, signedIn pkg w cp = true := by
    intro p member
    obtain ⟨some', valid, order, ran⟩ := combined p member
    obtain ⟨_, readable, made⟩ := combination_of_ok lawful sorts wit ran
    obtain ⟨e, s, sigs, endorsed, result⟩ := made (readable few)
    obtain ⟨cp, listed⟩ := List.exists_mem_of_ne_nil _ some'
    have body : e.text = text := by
      obtain ⟨e', own, same⟩ := valid cp listed
      obtain ⟨e'', own', same'⟩ := endorsed cp listed
      rw [← same', ← same, Option.some.inj (own'.decoded.symm.trans own.decoded)]
    exact ⟨⟨e, result.endorsed sorts keys, body⟩, fun w known =>
      result.signedIn_iff endorsed distinct sorts known⟩
  constructor
  · intro raw member
    obtain ⟨p, listed, rfl⟩ := List.mem_map.mp member
    exact (each p listed).1
  · refine signers_congr fun w known => ?_
    constructor
    · rintro ⟨raw, member, signed⟩
      obtain ⟨p, listed, rfl⟩ := List.mem_map.mp member
      obtain ⟨cp, part, own⟩ := ((each p listed).2 w known).mp signed
      exact ⟨cp, List.mem_flatMap.mpr ⟨p, listed, part⟩, own⟩
    · rintro ⟨cp, member, signed⟩
      obtain ⟨p, listed, part⟩ := List.mem_flatMap.mp member
      exact ⟨p.2, List.mem_map_of_mem listed, ((each p listed).2 w known).mpr ⟨cp, part, signed⟩⟩

/-- Combine gives the body with the log's signature and one of every witness that signed, in the order of
their hashes; how the checkpoints are listed, repeated or combined before makes no difference. Without
the log's signature, or with several bodies, it fails. -/
theorem combine_union :
    (∀ (order : MapOrder Signature) (text : Bytes) (cps : List Bytes), cps ≠ [] →
      (∀ cp ∈ cps, ∃ e, Endorsed pkg log wits cp e ∧ e.text = text) →
      ∃ raw n, combine pkg sort order cps log wits = .ok raw ∧ pkg.openNote raw (log :: wits) = .ok n ∧
        n.text = text ∧ n.unverifiedSigs = [] ∧ n.sigs.map Signature.key = signers pkg log wits cps ∧
        ∀ s ∈ n.sigs, ∃ v ∈ log :: wits, v.key = s.key ∧ v.verify text (pkg.payload s.base64) = true) ∧
    (∀ cps others : List Bytes, (∀ cp, cp ∈ cps ↔ cp ∈ others) →
      signers pkg log wits cps = signers pkg log wits others) ∧
    (∀ (text : Bytes) (parts : List (List Bytes × Bytes)),
      (∀ p ∈ parts, p.1 ≠ [] ∧ (∀ cp ∈ p.1, ∃ e, Endorsed pkg log wits cp e ∧ e.text = text) ∧
        ∃ order, combine pkg sort order p.1 log wits = .ok p.2) →
      (∀ raw ∈ parts.map Prod.snd, ∃ e, Endorsed pkg log wits raw e ∧ e.text = text) ∧
        signers pkg log wits (parts.map Prod.snd) = signers pkg log wits (parts.flatMap Prod.fst)) ∧
    ∀ (order : MapOrder Signature) (cps : List Bytes),
      ((∃ cp ∈ cps, ∀ e, pkg.decode cp = some e → ¬ e.SignedBy pkg log) ∨
        ∃ cp ∈ cps, ∃ other ∈ cps, ∃ e e', pkg.decode cp = some e ∧ pkg.decode other = some e' ∧
          e.text ≠ e'.text) →
      ∃ reason, combine pkg sort order cps log wits = .error reason := by
  have keys := keys_nodup_of_hashes distinct
  refine ⟨fun order text cps some' endorsed => ?_, fun cps others same => ?_, fun text parts combined => ?_,
    fun order cps wrong => ?_⟩
  · obtain ⟨raw, e, s, sigs, ran, rfl, result⟩ :=
      combine_ok lawful sorts (List.nodup_cons.mp keys).2 few order some' endorsed
    have opens := result.opens sorts keys
    have some'' : e.lines ≠ [] := fun none => by
      have length := (result.perm sorts).length_eq
      simp [none] at length
    exact ⟨raw, _, ran, lawful.open_ok _ _ _ opens some'', rfl, rfl,
      result.signers_eq endorsed distinct sorts, fun t member => result.accepted sorts member⟩
  · refine signers_congr fun w _ => ?_
    simp only [same]
  · exact signers_regroup lawful sorts distinct few combined
  · refine combine_refuses lawful (List.nodup_cons.mp keys).2 order ?_
    rintro ⟨text, all⟩
    rcases wrong with ⟨cp, member, unsigned⟩ | ⟨cp, member, other, member', e, e', decoded, decoded', differ⟩
    · obtain ⟨e, valid, _⟩ := all cp member
      exact unsigned e valid.decoded valid.signed
    · obtain ⟨_, first, text'⟩ := all cp member
      obtain ⟨_, second, text''⟩ := all other member'
      obtain rfl := Option.some.inj (decoded.symm.trans first.decoded)
      obtain rfl := Option.some.inj (decoded'.symm.trans second.decoded)
      exact differ (text'.trans text''.symm)

end Union

section Tags

-- A checkpoint body of size 1.
def bodyText : Bytes := Checkpoints.asciiBytes "o\n1\nAQ==\n"

theorem tagNote_endorsed {text msg : Bytes} (tags : List UInt8) {log : Verifier} {wits : List Verifier}
    (decoded : decodeNote msg = some ⟨text, tags.map tagSignature⟩)
    (signed : Envelope.SignedBy reference ⟨text, tags.map tagSignature⟩ log)
    (genuine : ∀ w ∈ wits, ¬ Envelope.Forges reference ⟨text, tags.map tagSignature⟩ w) :
    ∃ e, Endorsed reference log wits msg e ∧ e.text = text :=
  ⟨_, ⟨decoded, signed, genuine⟩, rfl⟩

theorem combine_union_two :
    ∃ raw n, combine reference .insertion (.reversed _) [tagNote bodyText [108, 98], tagNote bodyText [108, 97]]
        (tagVerifier 108) [tagVerifier 97, tagVerifier 98] = .ok raw ∧
      reference.openNote raw [tagVerifier 108, tagVerifier 97, tagVerifier 98] = .ok n ∧
      n.text = bodyText ∧ n.unverifiedSigs = [] ∧ n.sigs.map (fun s => s.key.hash) = [108, 97, 98] := by
  obtain ⟨raw, n, combined, read, text, none, keys, _⟩ :=
    (combine_union reference_lawful Sorter.insertion_lawful
      (by decide : ([tagVerifier 108, tagVerifier 97, tagVerifier 98].map fun v => v.key.hash).Nodup)
      (by decide)).1 (.reversed _) bodyText [tagNote bodyText [108, 98], tagNote bodyText [108, 97]]
      (by decide) (by
        intro cp member
        simp only [List.mem_cons, List.not_mem_nil, or_false] at member
        rcases member with rfl | rfl
        · exact tagNote_endorsed [108, 98] (by decide +kernel) (by decide +kernel) (by decide +kernel)
        · exact tagNote_endorsed [108, 97] (by decide +kernel) (by decide +kernel) (by decide +kernel))
  refine ⟨raw, n, combined, read, text, none, ?_⟩
  have hashes : (n.sigs.map Signature.key).map Key.hash = [108, 97, 98] := by
    rw [keys]
    decide +kernel
  rw [List.map_map] at hashes
  exact hashes

end Tags

end Formats
