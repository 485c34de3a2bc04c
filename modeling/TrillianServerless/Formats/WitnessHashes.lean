import TrillianServerless.Formats.CombineSignatures

set_option autoImplicit false

namespace Formats

open Go SignedNote

section Combined

variable (pkg : Package) (sort : Sorter)

-- What Combine hands to note.Sign.
def combinedNote (order : MapOrder Signature) (cps : List Bytes) (logSigV : Verifier) (witSigVs : List Verifier) :
    Outcome Note := do
  let g ← cps.foldlM (gather pkg logSigV witSigVs) ⟨none, []⟩
  match g.ret with
  | none => .panic "invalid memory address or nil pointer dereference"
  | some ret => .ok ⟨ret.text, sort.slice (sigLess logSigV) (ret.sigs ++ order.walk g.sigs), ret.unverifiedSigs⟩

theorem combine_eq_sign (order : MapOrder Signature) (cps : List Bytes) (log : Verifier) (wits : List Verifier) :
    combine pkg sort order cps log wits =
      combinedNote pkg sort order cps log wits >>= fun n => .ofExcept (pkg.sign n []) := by
  unfold combine combinedNote
  cases cps.foldlM (gather pkg log wits) ⟨none, []⟩ with
  | error reason => rfl
  | panic reason => rfl
  | ok g =>
    obtain ⟨ret, sigs⟩ := g
    cases ret <;> rfl

/-- Who signs the note, by name and hash. -/
def noteSigners (n : Note) : List Key := n.sigs.map Signature.key

/-- Who signs a message, by name and hash. Open refuses a message that has no format, so nobody signs it. -/
def messageSigners (raw : Bytes) : List Key :=
  match pkg.decode raw with
  | none => []
  | some e => e.lines.map Signature.key

-- The signatures of known witnesses in a checkpoint, in the order of its lines.
def witnessSigs (wits : List Verifier) (cp : Bytes) : List Signature :=
  match pkg.decode cp with
  | none => []
  | some e => e.verified wits

/-- The hashes with which known witnesses have signed the checkpoints. -/
def witnessHashes (wits : List Verifier) (cps : List Bytes) : Finset UInt32 :=
  ((cps.flatMap (witnessSigs pkg wits)).map fun s => s.key.hash).toFinset

end Combined

section LastOf

/-- The last signature with this hash. -/
def lastWith (sigs : List Signature) (hash : UInt32) : Option Signature :=
  sigs.reverse.find? fun s => s.key.hash = hash

theorem lastWith_append (sigs more : List Signature) (hash : UInt32) :
    lastWith (sigs ++ more) hash = (lastWith more hash).or (lastWith sigs hash) := by
  rw [lastWith, List.reverse_append, List.find?_append]
  rfl

theorem lastWith_hash {sigs : List Signature} {hash : UInt32} {s : Signature} (last : lastWith sigs hash = some s) :
    s.key.hash = hash := by
  simpa using List.find?_some last

theorem setSig_find (sigs : List Signature) (s : Signature) (hash : UInt32) :
    (setSig sigs s).find? (fun t => t.key.hash = hash) =
      if s.key.hash = hash then some s else sigs.find? fun t => t.key.hash = hash := by
  rw [setSig, List.find?_cons]
  by_cases own : s.key.hash = hash
  · simp [own]
  · simp only [own, decide_false, if_false, List.find?_filter]
    congr 1
    funext t
    by_cases here : t.key.hash = hash
    · simp [here, Ne.symm own]
    · simp [here]

-- A map that is written to holds the last value of each key.
theorem foldl_setSig_find (new sigs : List Signature) (hash : UInt32) :
    (new.foldl setSig sigs).find? (fun t => t.key.hash = hash) =
      (lastWith new hash).or (sigs.find? fun t => t.key.hash = hash) := by
  induction new generalizing sigs with
  | nil => rfl
  | cons s rest ih =>
    rw [List.foldl_cons, ih, setSig_find, ← List.singleton_append, lastWith_append, Option.or_assoc]
    by_cases own : s.key.hash = hash <;> simp [lastWith, own]

end LastOf

section Rounds

variable {pkg : Package} (lawful : Lawful pkg) {log : Verifier} {wits : List Verifier}

/-- A checkpoint that Combine takes: the log signed it, and every signature in the name of a witness is accepted. -/
structure Legible (pkg : Package) (log : Verifier) (wits : List Verifier) (cp : Bytes) (e : Envelope) : Prop where
  decoded : pkg.decode cp = some e
  signed : e.SignedBy pkg log
  accepted : ∀ s ∈ e.verified wits, accepts pkg wits e.text s = true

theorem Legible.sigs {cp : Bytes} {e : Envelope} (legible : Legible pkg log wits cp e) :
    witnessSigs pkg wits cp = e.verified wits := by
  rw [witnessSigs, legible.decoded]

-- What the note to return and the map are after the checkpoints `done`.
structure Holding (pkg : Package) (log : Verifier) (wits : List Verifier) (text : Bytes) (done : List Bytes)
    (g : Gathered) : Prop where
  ret : g.ret = none ∧ done = [] ∨ ∃ s, g.ret = some ⟨text, [s], []⟩ ∧ LogLine pkg log text done s
  sigs : g.sigs = (done.flatMap (witnessSigs pkg wits)).foldl setSig []

theorem Holding.nil (text : Bytes) : Holding pkg log wits text [] ⟨none, []⟩ := ⟨.inl ⟨rfl, rfl⟩, rfl⟩

section Map

variable {text : Bytes} {done : List Bytes} {g : Gathered} (held : Holding pkg log wits text done g)
include held

theorem Holding.distinct : (g.sigs.map fun s => s.key.hash).Nodup := by
  rw [held.sigs]
  exact (Gathers.nil.fold _).distinct

theorem Holding.last (hash : UInt32) :
    g.sigs.find? (fun t => t.key.hash = hash) = lastWith (done.flatMap (witnessSigs pkg wits)) hash := by
  rw [held.sigs, foldl_setSig_find]
  simp

theorem Holding.mem_iff (t : Signature) :
    t ∈ g.sigs ↔ lastWith (done.flatMap (witnessSigs pkg wits)) t.key.hash = some t := by
  rw [← held.last]
  constructor
  · intro listed
    cases found : g.sigs.find? fun u => u.key.hash = t.key.hash with
    | none =>
      have none := List.find?_eq_none.mp found t listed
      simp at none
    | some u =>
      have same : u.key.hash = t.key.hash := by simpa using List.find?_some found
      rw [List.inj_on_of_nodup_map held.distinct (List.mem_of_find?_eq_some found) listed same]
  · exact List.mem_of_find?_eq_some

end Map

include lawful

theorem openForLog_eq_ok {cp : Bytes} {n : Note} :
    openForLog pkg log cp = .ok n ↔ opened pkg [log] cp = some n ∧ n.sigs ≠ [] := by
  unfold openForLog
  cases result : opened pkg [log] cp with
  | none =>
    obtain ⟨reason, failed⟩ := lawful.open_failed _ _ result
    simp [failed]
  | some m =>
    by_cases empty : m.sigs = []
    · rw [lawful.open_unverified _ _ _ result empty]
      simp only [reduceCtorEq, false_iff, not_and, not_not]
      intro same
      rw [← Option.some.inj same, empty]
    · rw [lawful.open_ok _ _ _ result empty]
      simp only [Outcome.ok.injEq, Option.some.injEq]
      exact ⟨fun same => ⟨same, same ▸ empty⟩, And.left⟩

theorem openForWitnesses_eq_ok {cp : Bytes} {n : Note} :
    openForWitnesses pkg wits cp = .ok n ↔ opened pkg wits cp = some n := by
  unfold openForWitnesses
  cases result : opened pkg wits cp with
  | none =>
    obtain ⟨reason, failed⟩ := lawful.open_failed _ _ result
    simp [failed]
  | some m =>
    by_cases empty : m.sigs = []
    · simp [lawful.open_unverified _ _ _ result empty]
    · simp [lawful.open_ok _ _ _ result empty]

-- A round that goes through has seen a legible checkpoint with the body of the rounds before it.
theorem gather_legible {g g' : Gathered} {cp : Bytes} (ran : gather pkg log wits g cp = .ok g') :
    ∃ e, Legible pkg log wits cp e ∧ ∀ ret, g.ret = some ret → ret.text = e.text := by
  unfold gather at ran
  obtain ⟨candN, forLog, ran⟩ := Outcome.bind_eq_ok.mp ran
  obtain ⟨ret, taken, ran⟩ := Outcome.bind_eq_ok.mp ran
  obtain ⟨witN, forWitnesses, ran⟩ := Outcome.bind_eq_ok.mp ran
  obtain ⟨e, decoded, text, sigs, accepted⟩ := opened_eq_some ((openForWitnesses_eq_ok lawful).mp forWitnesses)
  obtain ⟨read, some'⟩ := (openForLog_eq_ok lawful).mp forLog
  obtain ⟨e', decoded', signed, -⟩ := log_signed lawful (lawful.open_ok _ _ _ read some')
  obtain rfl := Option.some.inj (decoded.symm.trans decoded')
  split at ran
  · cases ran
  next same =>
    refine ⟨e, ⟨decoded, signed, sigs ▸ accepted⟩, fun ret' before => ?_⟩
    rw [before] at taken
    obtain rfl := Outcome.ok.inj taken
    rw [← not_not.mp same, text]

/-- A legible checkpoint of the body goes through. -/
theorem Holding.gather {text : Bytes} {done : List Bytes} {g : Gathered} {cp : Bytes} {e : Envelope}
    (held : Holding pkg log wits text done g) (legible : Legible pkg log wits cp e) (same : e.text = text) :
    ∃ g', gather pkg log wits g cp = .ok g' ∧ Holding pkg log wits text (done ++ [cp]) g' := by
  obtain ⟨s, found, valid⟩ := legible.signed
  have own : s.key = log.key := by simpa using List.find?_some found
  have single := verified_singleton found
  have forLog : openForLog pkg log cp = .ok (e.note [log]) := by
    refine (openForLog_eq_ok lawful).mpr ⟨?_, by simp [Envelope.note, single]⟩
    rw [opened, legible.decoded]
    refine if_pos ?_
    rw [single, List.all_cons, List.all_nil, Bool.and_true, accepts_eq (singleton_nodup log) (by simp) own.symm]
    exact valid
  have forWitnesses : openForWitnesses pkg wits cp = .ok (e.note wits) := by
    refine (openForWitnesses_eq_ok lawful).mpr ?_
    rw [opened, legible.decoded]
    exact if_pos (List.all_eq_true.mpr legible.accepted)
  have sigs : (e.verified wits).foldl setSig g.sigs =
      ((done ++ [cp]).flatMap (witnessSigs pkg wits)).foldl setSig [] := by
    rw [held.sigs, List.flatMap_append, List.foldl_append, List.flatMap_singleton, legible.sigs]
  rcases held.ret with ⟨fresh, -⟩ | ⟨t, taken, key, valid', old, member, before⟩
  · refine ⟨⟨some ⟨text, [s], []⟩, _⟩, ?_,
      .inr ⟨s, rfl, own, same ▸ valid, cp, by simp, e, legible.decoded, found⟩, sigs⟩
    simp [Formats.gather, forLog, fresh, takeFirst, Envelope.note, single, forWitnesses, same]
  · refine ⟨⟨some ⟨text, [t], []⟩, _⟩, ?_, .inr ⟨t, rfl, key, valid', old, by simp [member], before⟩, sigs⟩
    simp [Formats.gather, forLog, taken, takeFirst, forWitnesses, Envelope.note, same]

theorem gatherAll_legible {cps : List Bytes} {g : Gathered}
    (ran : cps.foldlM (Formats.gather pkg log wits) ⟨none, []⟩ = .ok g) :
    ∃ text, Holding pkg log wits text cps g ∧ ∀ cp ∈ cps, ∃ e, Legible pkg log wits cp e ∧ e.text = text := by
  have all := @Outcome.foldlM_inv _ _
    (fun done g => ∃ text, Holding pkg log wits text done g ∧
      ∀ cp ∈ done, ∃ e, Legible pkg log wits cp e ∧ e.text = text)
    _ ?_ cps [] _ _ ⟨[], .nil [], by simp⟩ ran
  · rwa [List.nil_append] at all
  rintro done g cp g' ⟨text, held, before⟩ round
  obtain ⟨e, legible, agrees⟩ := gather_legible lawful round
  -- The first checkpoint decides the body.
  obtain ⟨held, before⟩ : Holding pkg log wits e.text done g ∧
      ∀ cp ∈ done, ∃ e', Legible pkg log wits cp e' ∧ e'.text = e.text := by
    rcases held.ret with ⟨fresh, rfl⟩ | ⟨s, taken, -⟩
    · exact ⟨⟨.inl ⟨fresh, rfl⟩, held.sigs⟩, by simp⟩
    · have same : text = e.text := agrees _ taken
      exact ⟨same ▸ held, same ▸ before⟩
  obtain ⟨g'', ran, next⟩ := held.gather lawful legible rfl
  obtain rfl := Outcome.ok.inj (ran.symm.trans round)
  refine ⟨e.text, next, fun other member => ?_⟩
  rcases List.mem_append.mp member with old | new
  · exact before other old
  · rw [List.mem_singleton.mp new]
    exact ⟨e, legible, rfl⟩

theorem gatherAll_holding {text : Bytes} {cps : List Bytes}
    (each : ∀ cp ∈ cps, ∃ e, Legible pkg log wits cp e ∧ e.text = text) {done : List Bytes} {g : Gathered}
    (held : Holding pkg log wits text done g) :
    ∃ g', cps.foldlM (Formats.gather pkg log wits) g = .ok g' ∧ Holding pkg log wits text (done ++ cps) g' := by
  induction cps generalizing done g with
  | nil => exact ⟨g, rfl, by simpa using held⟩
  | cons cp rest ih =>
    obtain ⟨e, legible, same⟩ := each cp (by simp)
    obtain ⟨g', ran, next⟩ := held.gather lawful legible same
    obtain ⟨final, rested, last⟩ := ih (fun other member => each other (by simp [member])) next
    refine ⟨final, ?_, by simpa using last⟩
    rw [List.foldlM_cons, ran, Outcome.bind_ok, rested]

/-- The note that Combine makes of checkpoints with this body. -/
structure Combines (pkg : Package) (log : Verifier) (wits : List Verifier) (text : Bytes) (cps : List Bytes)
    (n : Note) : Prop where
  body : n.text = text
  unverified : n.unverifiedSigs = []
  lines : ∀ t ∈ n.sigs, LogLine pkg log text cps t ∨ t ∈ cps.flatMap (witnessSigs pkg wits)
  length : n.sigs.length = (witnessHashes pkg wits cps).card + 1

omit lawful in
theorem Holding.combines {sort : Sorter} (sorts : sort.Lawful) (order : MapOrder Signature) {text : Bytes}
    {cps : List Bytes} {g : Gathered} (held : Holding pkg log wits text cps g) {s : Signature}
    (line : LogLine pkg log text cps s) :
    Combines pkg log wits text cps ⟨text, sort.slice (sigLess log) ([s] ++ order.walk g.sigs), []⟩ := by
  have perm := sorts.perm (sigLess log) ([s] ++ order.walk g.sigs)
  refine ⟨rfl, rfl, fun t member => ?_, ?_⟩
  · rw [perm.mem_iff, List.singleton_append, List.mem_cons, (order.perm g.sigs).mem_iff] at member
    rcases member with rfl | listed
    · exact .inl line
    · have last := (held.mem_iff t).mp listed
      exact .inr (List.mem_reverse.mp (List.mem_of_find?_eq_some last))
  · have hashes : (g.sigs.map fun s => s.key.hash).toFinset = witnessHashes pkg wits cps := by
      have gathers := Gathers.nil.fold (cps.flatMap (witnessSigs pkg wits))
      rw [← held.sigs] at gathers
      ext hash
      rw [witnessHashes, List.mem_toFinset, List.mem_toFinset, List.mem_map, List.mem_map]
      constructor
      · rintro ⟨t, listed, rfl⟩
        exact ⟨t, (gathers.only t listed).resolve_left id, rfl⟩
      · rintro ⟨t, listed, rfl⟩
        exact gathers.complete t (.inr listed)
    rw [perm.length_eq, List.singleton_append, List.length_cons, (order.perm g.sigs).length_eq, ← hashes,
      List.toFinset_card_of_nodup held.distinct, List.length_map]

/-- Combine makes a note of legible checkpoints of one body. -/
theorem combinedNote_ok {sort : Sorter} (sorts : sort.Lawful) (order : MapOrder Signature) {text : Bytes}
    {cps : List Bytes} (some' : cps ≠ []) (each : ∀ cp ∈ cps, ∃ e, Legible pkg log wits cp e ∧ e.text = text) :
    ∃ n, combinedNote pkg sort order cps log wits = .ok n ∧ Combines pkg log wits text cps n := by
  obtain ⟨g, ran, held⟩ := gatherAll_holding lawful each (Holding.nil text)
  rw [List.nil_append] at held
  rcases held.ret with ⟨-, none⟩ | ⟨s, taken, line⟩
  · exact absurd none some'
  · refine ⟨_, ?_, held.combines sorts order line⟩
    rw [combinedNote, ran, Outcome.bind_ok, taken]

theorem combines_of_ok {sort : Sorter} (sorts : sort.Lawful) {order : MapOrder Signature} {cps : List Bytes}
    {n : Note}
    (made : combinedNote pkg sort order cps log wits = .ok n) :
    cps ≠ [] ∧ ∃ text, (∀ cp ∈ cps, ∃ e, Legible pkg log wits cp e ∧ e.text = text) ∧
      Combines pkg log wits text cps n := by
  unfold combinedNote at made
  obtain ⟨g, ran, made⟩ := Outcome.bind_eq_ok.mp made
  obtain ⟨text, held, each⟩ := gatherAll_legible lawful ran
  rcases held.ret with ⟨fresh, -⟩ | ⟨s, taken, line⟩
  · rw [fresh] at made
    cases made
  · rw [taken] at made
    obtain rfl := Outcome.ok.inj made
    refine ⟨?_, text, each, held.combines sorts order line⟩
    obtain ⟨-, -, cp, member, -⟩ := line
    exact List.ne_nil_of_mem member

/-- The note is written, and can be read again unless there are too many signatures. -/
theorem Combines.sign {text : Bytes} {cps : List Bytes} {n : Note} (made : Combines pkg log wits text cps n)
    (some' : cps ≠ []) (each : ∀ cp ∈ cps, ∃ e, Legible pkg log wits cp e ∧ e.text = text) :
    ∃ raw, pkg.sign n [] = .ok raw ∧
      pkg.decode raw = if n.sigs.length ≤ maxSignatures then some ⟨text, n.sigs⟩ else none := by
  have written : Written pkg n := by
    refine ⟨?_, fun t member => ?_, ?_⟩
    · obtain ⟨cp, member⟩ := List.exists_mem_of_ne_nil _ some'
      obtain ⟨e, legible, same⟩ := each cp member
      exact ⟨cp, e, legible.decoded, by rw [same, made.body]⟩
    · rw [made.unverified, List.append_nil] at member
      rcases made.lines t member with ⟨-, -, cp, -, e, decoded, found⟩ | listed
      · exact ⟨cp, e, decoded, List.mem_of_find?_eq_some found⟩
      · obtain ⟨cp, inside, listed⟩ := List.mem_flatMap.mp listed
        obtain ⟨e, legible, -⟩ := each cp inside
        rw [legible.sigs] at listed
        exact ⟨cp, e, legible.decoded, List.mem_of_find?_eq_some (mem_verified.mp listed).2⟩
    · intro none
      have length := made.length
      rw [(List.append_eq_nil_iff.mp none).1] at length
      cases length
  obtain ⟨raw, signed, decoded⟩ := lawful.sign_none written
  rw [made.unverified, List.append_nil, made.body] at decoded
  exact ⟨raw, signed, decoded⟩

/-- The note that Combine makes is signed by the log and, for each hash, by the last witness with it. -/
theorem mem_noteSigners {sort : Sorter} (sorts : sort.Lawful) {order : MapOrder Signature} {cps : List Bytes}
    {n : Note}
    (made : combinedNote pkg sort order cps log wits = .ok n) (k : Key) :
    k ∈ noteSigners n ↔
      k = log.key ∨ ∃ s, lastWith (cps.flatMap (witnessSigs pkg wits)) k.hash = some s ∧ s.key = k := by
  unfold combinedNote at made
  obtain ⟨g, ran, made⟩ := Outcome.bind_eq_ok.mp made
  obtain ⟨text, held, -⟩ := gatherAll_legible lawful ran
  rcases held.ret with ⟨fresh, -⟩ | ⟨first, taken, own, -⟩
  · rw [fresh] at made
    cases made
  rw [taken] at made
  obtain rfl := Outcome.ok.inj made
  have perm := sorts.perm (sigLess log) ([first] ++ order.walk g.sigs)
  have members : k ∈ noteSigners ⟨text, sort.slice (sigLess log) ([first] ++ order.walk g.sigs), []⟩ ↔
      k = log.key ∨ k ∈ g.sigs.map Signature.key := by
    unfold noteSigners
    rw [(perm.map Signature.key).mem_iff, List.map_append, List.mem_append,
      ((order.perm g.sigs).map Signature.key).mem_iff, List.map_singleton, List.mem_singleton, own]
  rw [members]
  refine or_congr_right ⟨fun member => ?_, ?_⟩
  · obtain ⟨s, listed, rfl⟩ := List.mem_map.mp member
    exact ⟨s, (held.mem_iff s).mp listed, rfl⟩
  · rintro ⟨s, last, rfl⟩
    exact List.mem_map_of_mem ((held.mem_iff s).mpr last)

/-- Each witness whose signature was kept keeps its place: it has the log's key, or no other one with its hash
has the last word in the further checkpoint. -/
def Undisplaced (pkg : Package) (log : Verifier) (wits : List Verifier) (cps : List Bytes) (cp : Bytes) : Prop :=
  ∀ hash s, lastWith (cps.flatMap (witnessSigs pkg wits)) hash = some s →
    s.key = log.key ∨ ∀ t, lastWith (witnessSigs pkg wits cp) hash = some t → t.key = s.key

theorem noteSigners_subset_iff {sort : Sorter} (sorts : sort.Lawful) {order order' : MapOrder Signature}
    {cps : List Bytes} {cp : Bytes} {n n' : Note} (made : combinedNote pkg sort order cps log wits = .ok n)
    (made' : combinedNote pkg sort order' (cps ++ [cp]) log wits = .ok n') :
    noteSigners n ⊆ noteSigners n' ↔ Undisplaced pkg log wits cps cp := by
  have before := mem_noteSigners lawful sorts made
  have after := mem_noteSigners lawful sorts made'
  have last : ∀ hash, lastWith ((cps ++ [cp]).flatMap (witnessSigs pkg wits)) hash =
      (lastWith (witnessSigs pkg wits cp) hash).or (lastWith (cps.flatMap (witnessSigs pkg wits)) hash) := by
    intro hash
    rw [List.flatMap_append, lastWith_append, List.flatMap_singleton]
  constructor
  · intro subset hash s kept
    have own := lastWith_hash kept
    rcases (after s.key).mp (subset ((before s.key).mpr (.inr ⟨s, own.symm ▸ kept, rfl⟩))) with
      log' | ⟨t, found, same⟩
    · exact .inl log'
    · refine .inr fun u later => ?_
      rw [last, own, later] at found
      cases found
      exact same
  · intro stays k member
    rcases (before k).mp member with log' | ⟨s, kept, rfl⟩
    · exact (after k).mpr (.inl log')
    · rcases stays s.key.hash s kept with log' | only
      · exact (after _).mpr (.inl log')
      · refine (after _).mpr (.inr ?_)
        rw [last]
        cases later : lastWith (witnessSigs pkg wits cp) s.key.hash with
        | none => exact ⟨s, kept, rfl⟩
        | some t => exact ⟨t, rfl, only t later⟩

/-- What Combine returns can be read exactly if the witnesses' hashes leave room for the log. It is signed as
the note that Combine has made. -/
theorem combine_messageSigners {sort : Sorter} (sorts : sort.Lawful) {order : MapOrder Signature} {cps : List Bytes}
    {raw : Bytes} (combined : combine pkg sort order cps log wits = .ok raw) :
    ∃ n, combinedNote pkg sort order cps log wits = .ok n ∧
      messageSigners pkg raw = if (witnessHashes pkg wits cps).card < maxSignatures then noteSigners n else [] := by
  rw [combine_eq_sign] at combined
  obtain ⟨n, made, signed⟩ := Outcome.bind_eq_ok.mp combined
  obtain ⟨some', text, each, combines⟩ := combines_of_ok lawful sorts made
  obtain ⟨raw', signed', decoded⟩ := combines.sign lawful some' each
  obtain rfl := Except.ok.inj (signed'.symm.trans (Outcome.ofExcept_eq_ok.mp signed))
  refine ⟨n, made, ?_⟩
  rw [combines.length] at decoded
  by_cases few : (witnessHashes pkg wits cps).card < maxSignatures
  · rw [if_pos (Nat.succ_le_of_lt few)] at decoded
    rw [if_pos few, messageSigners, decoded]
    rfl
  · rw [if_neg (by omega)] at decoded
    rw [if_neg few, messageSigners, decoded]

/-- A further checkpoint takes no signer away from what Combine returns exactly if it displaces none under its
hash and leaves the result readable. From a result that is itself unreadable there is no signer to take. -/
theorem combine_keeps_signers_iff {sort : Sorter} (sorts : sort.Lawful) (order order' : MapOrder Signature)
    (log : Verifier) (wits : List Verifier) (cps : List Bytes) (cp raw raw' : Bytes)
    (combined : combine pkg sort order cps log wits = .ok raw)
    (combined' : combine pkg sort order' (cps ++ [cp]) log wits = .ok raw') :
    messageSigners pkg raw ⊆ messageSigners pkg raw' ↔
      maxSignatures ≤ (witnessHashes pkg wits cps).card ∨
      Undisplaced pkg log wits cps cp ∧ (witnessHashes pkg wits (cps ++ [cp])).card < maxSignatures := by
  obtain ⟨n, made, signers⟩ := combine_messageSigners lawful sorts combined
  obtain ⟨n', made', signers'⟩ := combine_messageSigners lawful sorts combined'
  have kept := noteSigners_subset_iff lawful sorts made made'
  by_cases few : (witnessHashes pkg wits cps).card < maxSignatures
  · rw [signers, signers', if_pos few]
    by_cases few' : (witnessHashes pkg wits (cps ++ [cp])).card < maxSignatures
    · rw [if_pos few', kept]
      simp [Nat.not_le.mpr few, few']
    · have signed : log.key ∈ noteSigners n := (mem_noteSigners lawful sorts made log.key).mpr (.inl rfl)
      rw [if_neg few']
      simp only [Nat.not_le.mpr few, few', and_false, or_self, iff_false]
      exact fun all => absurd (all signed) List.not_mem_nil
  · rw [signers, if_neg few]
    simp [Nat.le_of_not_lt few]

end Rounds

section Collision

-- Two witnesses may have one hash under different names.
def namedVerifier (name hash : UInt8) : Verifier := ⟨⟨[name], hash.toUInt32⟩, fun _ sig => sig = [name]⟩

def namedSignature (name hash : UInt8) : Signature := ⟨⟨[name], hash.toUInt32⟩, encodeBase64 [0, 0, 0, hash, name]⟩

def namedNote (names : List (UInt8 × UInt8)) : Bytes :=
  encodeNote ⟨bodyText, names.map fun p => namedSignature p.1 p.2⟩

-- What Combine signs is written as it stands.
theorem combine_of_note {order : MapOrder Signature} {cps : List Bytes} {log : Verifier} {wits : List Verifier}
    {n : Note} (made : combinedNote reference .insertion order cps log wits = .ok n) :
    combine reference .insertion order cps log wits = .ok (encodeNote ⟨n.text, n.sigs ++ n.unverifiedSigs⟩) := by
  have others : n.others [] = n.sigs ++ n.unverifiedSigs := by simp [Note.others]
  rw [combine_eq_sign, made, ← others]
  show Outcome.ok (encodeNote ⟨n.text, n.others [] ++ []⟩) = _
  rw [List.append_nil]

theorem combine_keeps_signers_two :
    ∃ raw raw', combine reference .insertion (.listed _) [namedNote [(108, 1), (97, 5)]] (namedVerifier 108 1)
        [namedVerifier 97 5, namedVerifier 98 6] = .ok raw ∧
      combine reference .insertion (.listed _) ([namedNote [(108, 1), (97, 5)]] ++ [namedNote [(108, 1), (98, 6)]])
        (namedVerifier 108 1) [namedVerifier 97 5, namedVerifier 98 6] = .ok raw' ∧
      messageSigners reference raw = [⟨[108], 1⟩, ⟨[97], 5⟩] ∧ messageSigners reference raw ⊆ messageSigners reference raw' := by
  have one : combinedNote reference .insertion (.listed _) [namedNote [(108, 1), (97, 5)]] (namedVerifier 108 1)
      [namedVerifier 97 5, namedVerifier 98 6] =
        .ok ⟨bodyText, [namedSignature 108 1, namedSignature 97 5], []⟩ := by decide +kernel
  have two : combinedNote reference .insertion (.listed _)
      ([namedNote [(108, 1), (97, 5)]] ++ [namedNote [(108, 1), (98, 6)]]) (namedVerifier 108 1)
      [namedVerifier 97 5, namedVerifier 98 6] =
        .ok ⟨bodyText, [namedSignature 108 1, namedSignature 97 5, namedSignature 98 6], []⟩ := by decide +kernel
  have kept := combine_keeps_signers_iff reference_lawful Sorter.insertion_lawful _ _ _ _ _ _ _ _
    (combine_of_note one) (combine_of_note two)
  refine ⟨_, _, combine_of_note one, combine_of_note two, by decide +kernel,
    kept.mpr (.inr ⟨fun hash s last => .inr fun t later => ?_, by decide +kernel⟩)⟩
  have first : witnessSigs reference [namedVerifier 97 5, namedVerifier 98 6] (namedNote [(108, 1), (97, 5)]) =
      [namedSignature 97 5] := by decide +kernel
  have second : witnessSigs reference [namedVerifier 97 5, namedVerifier 98 6] (namedNote [(108, 1), (98, 6)]) =
      [namedSignature 98 6] := by decide +kernel
  have same := (lastWith_hash last).trans (lastWith_hash later).symm
  rw [List.flatMap_singleton, first] at last
  rw [second] at later
  have own : s = namedSignature 97 5 := by simpa using List.mem_of_find?_eq_some last
  have other : t = namedSignature 98 6 := by simpa using List.mem_of_find?_eq_some later
  rw [own, other] at same
  exact absurd same (by decide)

/-- The second witness has the hash of the first under another name, and its signature takes that one's place. -/
theorem witness_displaced :
    ([namedVerifier 97 5, namedVerifier 98 5].map Verifier.key).Nodup ∧
    ∃ raw raw',
      combine reference .insertion (.listed _) [namedNote [(108, 1), (97, 5)]] (namedVerifier 108 1)
        [namedVerifier 97 5, namedVerifier 98 5] = .ok raw ∧
      combine reference .insertion (.listed _) ([namedNote [(108, 1), (97, 5)]] ++ [namedNote [(108, 1), (98, 5)]])
        (namedVerifier 108 1) [namedVerifier 97 5, namedVerifier 98 5] = .ok raw' ∧
      messageSigners reference raw = [⟨[108], 1⟩, ⟨[97], 5⟩] ∧ messageSigners reference raw' = [⟨[108], 1⟩, ⟨[98], 5⟩] := by
  have one : combinedNote reference .insertion (.listed _) [namedNote [(108, 1), (97, 5)]] (namedVerifier 108 1)
      [namedVerifier 97 5, namedVerifier 98 5] =
        .ok ⟨bodyText, [namedSignature 108 1, namedSignature 97 5], []⟩ := by decide +kernel
  have two : combinedNote reference .insertion (.listed _)
      ([namedNote [(108, 1), (97, 5)]] ++ [namedNote [(108, 1), (98, 5)]]) (namedVerifier 108 1)
      [namedVerifier 97 5, namedVerifier 98 5] =
        .ok ⟨bodyText, [namedSignature 108 1, namedSignature 98 5], []⟩ := by decide +kernel
  exact ⟨by decide, _, _, combine_of_note one, combine_of_note two, by decide +kernel, by decide +kernel⟩

end Collision

end Formats
