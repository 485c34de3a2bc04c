import Mathlib.Data.List.ReduceOption
import TrillianServerless.Formats.CombineSignatures
import TrillianServerless.Distributor.Distribute

set_option autoImplicit false

namespace DbDistributor

open Go SignedNote Checkpoints Formats

/-- An order in which ORDER BY treeSize DESC returns rows: those of one size come in any order. -/
structure RowOrder where
  walk : Table → Table
  perm : ∀ rows, (walk rows).Perm rows
  sorted : ∀ rows, (walk rows).Pairwise fun a b => b.treeSize ≤ a.treeSize

-- `next` is the number of rows after which rows.Next or rows.Scan fails, and the error.
structure ReadFaults where
  beginTx : Option GoError
  query : Option GoError
  next : Option (Nat × GoError)

def ReadFaults.none : ReadFaults := ⟨.none, .none, .none⟩

def ReadFaults.stream (faults : ReadFaults) (rows : Table) : List (Except GoError Row) :=
  match faults.next with
  | .none => rows.map .ok
  | .some (k, reason) => (rows.take k).map .ok ++ [.error reason]

-- The map lookup d.ws[witID] gives nil for an unknown witness.
structure Scan where
  currentSize : Nat
  witsAtSize : List (Option Verifier)
  cpsAtSize : List Bytes

section CheckpointN

variable (pkg : Package) (d : Distributor)

def Scan.add (acc : Scan) (row : Row) : Scan :=
  { acc with
    witsAtSize := acc.witsAtSize ++ [d.ws row.witID]
    cpsAtSize := acc.cpsAtSize ++ [row.chkpt] }

def scanRows (n : Nat) : Scan → List (Except GoError Row) → Except GoError Scan
  | acc, [] => .ok acc
  | _, .error _ :: _ => .error (.text "failed to scan rows: %v")
  | acc, .ok row :: rest =>
    if row.treeSize = acc.currentSize then scanRows n (acc.add d row) rest
    else if n ≤ acc.cpsAtSize.length then .ok acc
    else scanRows n (Scan.add d ⟨row.treeSize, [], []⟩ row) rest

def combineFound (sort : Sorter) (order : MapOrder Signature) (log : Verifier) (found : Scan) :
    Outcome Bytes :=
  if found.witsAtSize.any Option.isNone then .panic "invalid memory address or nil pointer dereference"
  else
    match combine pkg sort order found.cpsAtSize log found.witsAtSize.reduceOption with
    | .error _ => .error (.text "failed to combine sigs: %v")
    | other => other

def getCheckpointN (sort : Sorter) (order : MapOrder Signature) (rowOrder : RowOrder) (faults : ReadFaults)
    (rows : Table) (logID : Bytes) (n : Nat) : Outcome Bytes :=
  match d.ls logID with
  | none => .error (.text "unknown log ID %q")
  | some l =>
    if faults.beginTx.isSome then .error (.text "failed to begin transaction: %v")
    else if faults.query.isSome then .error (.text "query failed: %v")
    else
      match scanRows d n ⟨0, [], []⟩
          (faults.stream (rowOrder.walk (rows.filter fun row => row.logID = logID))) with
      | .error reason => .error reason
      | .ok found =>
        if n ≤ found.cpsAtSize.length then combineFound pkg sort order l.verifier found
        else .error (.text "no checkpoint with %d signatures found")

end CheckpointN

section Scanning

variable {d : Distributor} {n : Nat}

def atSize (rows : Table) (size : Nat) : Table := rows.filter fun row => row.treeSize = size

/-- The accumulators that hold the rows `group` of one size. -/
def Scan.of (d : Distributor) (size : Nat) (group : Table) : Scan :=
  ⟨size, group.map fun row => d.ws row.witID, group.map Row.chkpt⟩

theorem Scan.of_add (size : Nat) (group : Table) (row : Row) :
    (Scan.of d size group).add d row = Scan.of d size (group ++ [row]) := by
  simp [Scan.of, Scan.add]

theorem mem_atSize {rows : Table} {size : Nat} {row : Row} :
    row ∈ atSize rows size ↔ row ∈ rows ∧ row.treeSize = size := by
  simp [atSize]

theorem atSize_append (rows more : Table) (size : Nat) :
    atSize (rows ++ more) size = atSize rows size ++ atSize more size :=
  List.filter_append ..

theorem atSize_eq_nil {rows : Table} {size : Nat} (other : ∀ row ∈ rows, row.treeSize ≠ size) :
    atSize rows size = [] := by
  rw [atSize, List.filter_eq_nil_iff]
  intro row member
  simpa using other row member

theorem atSize_append_other (rows : Table) {row : Row} {size : Nat} (other : row.treeSize ≠ size) :
    atSize (rows ++ [row]) size = atSize rows size := by
  rw [atSize_append]
  simp [atSize, other]

/-- The scan has come to size `size` over the rows `seen`, and has found no `n` rows of another size. -/
structure Passed (n : Nat) (seen : Table) (size : Nat) : Prop where
  reached : seen ≠ [] → ∃ row ∈ seen, row.treeSize = size
  below : ∀ row ∈ seen, size ≤ row.treeSize
  short : ∀ other, other ≠ size → (atSize seen other).length < n

/-- What the scan of `rows` ends with: the rows of the largest size that has `n` of them, if there is one. -/
structure Selects (rows : Table) (n size : Nat) : Prop where
  larger : ∀ other, size < other → atSize rows other ≠ [] → (atSize rows other).length < n
  none' : (atSize rows size).length < n → ∀ other, (atSize rows other).length < n
  some' : n ≤ (atSize rows size).length → atSize rows size ≠ []

theorem Passed.same {seen : Table} {size : Nat} (passed : Passed n seen size) {row : Row}
    (same : row.treeSize = size) :
    Passed n (seen ++ [row]) size ∧ atSize (seen ++ [row]) size = atSize seen size ++ [row] := by
  refine ⟨⟨fun _ => ⟨row, by simp, same⟩, ?_, ?_⟩, ?_⟩
  · intro other member
    rcases List.mem_append.mp member with old | new
    · exact passed.below other old
    · rw [List.mem_singleton.mp new, same]
  · intro other apart
    rw [atSize_append_other seen (by rw [same]; exact Ne.symm apart)]
    exact passed.short other apart
  · rw [atSize_append]
    simp [atSize, same]

theorem Passed.lower {seen : Table} {size : Nat} (passed : Passed n seen size) {row : Row}
    (sorted : ∀ r ∈ seen, row.treeSize ≤ r.treeSize) (other : row.treeSize ≠ size) :
    ∀ r ∈ seen, row.treeSize < r.treeSize := by
  intro r member
  obtain ⟨last, listed, own⟩ := passed.reached (List.ne_nil_of_mem member)
  have least := passed.below r member
  have order := sorted last listed
  omega

theorem Passed.next {seen : Table} {size : Nat} (passed : Passed n seen size) {row : Row}
    (few : (atSize seen size).length < n) (lower : ∀ r ∈ seen, row.treeSize < r.treeSize) :
    Passed n (seen ++ [row]) row.treeSize ∧ atSize (seen ++ [row]) row.treeSize = [row] := by
  have fresh : atSize seen row.treeSize = [] :=
    atSize_eq_nil fun r member => Nat.ne_of_gt (lower r member)
  refine ⟨⟨fun _ => ⟨row, by simp, rfl⟩, ?_, ?_⟩, ?_⟩
  · intro other member
    rcases List.mem_append.mp member with old | new
    · exact Nat.le_of_lt (lower other old)
    · rw [List.mem_singleton.mp new]
  · intro other apart
    rw [atSize_append_other seen (Ne.symm apart)]
    by_cases same : other = size
    · rwa [same]
    · exact passed.short other same
  · rw [atSize_append, fresh]
    simp [atSize]

theorem Passed.selects {seen : Table} {size : Nat} (passed : Passed n seen size) (pos : 0 < n)
    (rest : Table) (lower : ∀ r ∈ rest, r.treeSize < size) (stop : rest ≠ [] → n ≤ (atSize seen size).length) :
    atSize (seen ++ rest) size = atSize seen size ∧ Selects (seen ++ rest) n size := by
  have seenOnly : ∀ other, size ≤ other → atSize (seen ++ rest) other = atSize seen other := by
    intro other above
    have none' : atSize rest other = [] := atSize_eq_nil fun r member => by
      have below := lower r member
      omega
    rw [atSize_append, none', List.append_nil]
  refine ⟨seenOnly size (Nat.le_refl _), ?_, ?_, ?_⟩
  · intro other above _
    rw [seenOnly other (Nat.le_of_lt above)]
    exact passed.short other (by omega)
  · intro few other
    rw [seenOnly size (Nat.le_refl _)] at few
    have ended : rest = [] := by
      by_contra more
      have many := stop more
      omega
    rw [ended, List.append_nil]
    by_cases same : other = size
    · rwa [same]
    · exact passed.short other same
  · intro many empty
    rw [empty, List.length_nil] at many
    omega

theorem scanRows_passed (pos : 0 < n) {rest seen : Table} {size : Nat} (passed : Passed n seen size)
    (sorted : (seen ++ rest).Pairwise fun a b => b.treeSize ≤ a.treeSize) :
    ∃ final, scanRows d n (Scan.of d size (atSize seen size)) (rest.map .ok) =
        .ok (Scan.of d final (atSize (seen ++ rest) final)) ∧ Selects (seen ++ rest) n final := by
  induction rest generalizing seen size with
  | nil =>
    obtain ⟨own, selects⟩ := passed.selects pos [] (by simp) (by simp)
    exact ⟨size, by rw [own]; rfl, selects⟩
  | cons row rest ih =>
    have again : seen ++ row :: rest = (seen ++ [row]) ++ rest := by simp
    have order := List.pairwise_append.mp sorted
    rw [List.map_cons, scanRows]
    by_cases same : row.treeSize = size
    · obtain ⟨next, own⟩ := passed.same same
      rw [if_pos (by exact same), Scan.of_add, ← own, again]
      exact ih next (by rwa [← again])
    rw [if_neg (by exact same)]
    have lower := passed.lower (fun r member => order.2.2 r member row List.mem_cons_self) same
    by_cases many : n ≤ (atSize seen size).length
    · -- A row that was found stands between the rest and the smaller sizes.
      have lowest : row.treeSize < size := by
        obtain ⟨r, member⟩ := List.exists_mem_of_length_pos (Nat.lt_of_lt_of_le pos many)
        obtain ⟨listed, own⟩ := mem_atSize.mp member
        rw [← own]
        exact lower r listed
      obtain ⟨own, selects⟩ := passed.selects pos (row :: rest) (by
        intro r member
        rcases List.mem_cons.mp member with rfl | later
        · exact lowest
        · exact Nat.lt_of_le_of_lt ((List.pairwise_cons.mp order.2.1).1 r later) lowest) fun _ => many
      refine ⟨size, ?_, selects⟩
      rw [if_pos (by simpa [Scan.of] using many), own]
    · obtain ⟨next, own⟩ := passed.next (by omega) lower
      rw [if_neg (by simpa [Scan.of] using many), again]
      have later := ih next (by rwa [← again])
      rw [own] at later
      exact later

theorem scanRows_one_size (size : Nat) {rest : Table} (seen : Table) (same : ∀ row ∈ rest, row.treeSize = size) :
    scanRows d n (Scan.of d size seen) (rest.map .ok) = .ok (Scan.of d size (seen ++ rest)) := by
  induction rest generalizing seen with
  | nil => simp [scanRows]
  | cons row rest ih =>
    have own : row.treeSize = (Scan.of d size seen).currentSize := same row List.mem_cons_self
    rw [List.map_cons, scanRows, if_pos own, Scan.of_add,
      ih (seen ++ [row]) fun r member => same r (List.mem_cons_of_mem _ member)]
    simp

/-- With `n` = 0 the scan stops before the first row, unless that has the initial size 0. -/
def Scannable (rows : Table) (n : Nat) : Prop := 0 < n ∨ rows ≠ [] ∧ ∀ row ∈ rows, row.treeSize = 0

theorem scanRows_selects {rows : Table} (scannable : Scannable rows n)
    (sorted : rows.Pairwise fun a b => b.treeSize ≤ a.treeSize) :
    ∃ size, scanRows d n ⟨0, [], []⟩ (rows.map .ok) = .ok (Scan.of d size (atSize rows size)) ∧
      Selects rows n size := by
  rcases scannable with pos | ⟨some', zero⟩
  · have start : Passed n [] 0 := ⟨fun wrong => absurd rfl wrong, by simp, fun _ _ => pos⟩
    exact scanRows_passed pos start sorted
  · have all : atSize rows 0 = rows := by
      rw [atSize, List.filter_eq_self]
      intro row member
      simpa using zero row member
    refine ⟨0, ?_, ?_, ?_, ?_⟩
    · rw [all]
      exact scanRows_one_size 0 [] zero
    · intro other above more
      refine absurd (atSize_eq_nil fun row member => ?_) more
      rw [zero row member]
      omega
    · intro few other
      by_cases same : other = 0
      · rwa [same]
      · rw [atSize_eq_nil fun row member => ?_]
        · exact Nat.lt_of_le_of_lt (Nat.zero_le _) few
        · rw [zero row member]
          exact Ne.symm same
    · intro _
      rwa [all]

theorem scanRows_stuck {rows : Table} (stuck : ¬ Scannable rows n)
    (sorted : rows.Pairwise fun a b => b.treeSize ≤ a.treeSize) :
    scanRows d n ⟨0, [], []⟩ (rows.map .ok) = .ok ⟨0, [], []⟩ := by
  cases rows with
  | nil => rfl
  | cons row rest =>
    have zero : n = 0 := Nat.eq_zero_of_not_pos fun pos => stuck (.inl pos)
    have first : row.treeSize ≠ 0 := by
      intro none'
      refine stuck (.inr ⟨by simp, fun r member => ?_⟩)
      rcases List.mem_cons.mp member with rfl | later
      · exact none'
      · have order := (List.pairwise_cons.mp sorted).1 r later
        omega
    rw [List.map_cons, scanRows, if_neg (by exact first), if_pos (by simp [zero])]

end Scanning

section Bodies

variable (pkg : Package) (d : Distributor)

def logRows (rows : Table) (logID : Bytes) : Table := rows.filter fun row => row.logID = logID

def bodyOf (raw : Bytes) : Option Bytes := (pkg.decode raw).map Envelope.text

-- The verifiers that GetCheckpointN hands to Combine.
def witsOf (group : Table) : List Verifier := (group.map fun row => d.ws row.witID).reduceOption

def hashes (group : Table) : Nat := ((witsOf d group).map fun v => v.key.hash).toFinset.card

variable (log : Verifier)

/-- The witness `id`, which is not the log itself, validly signed `e`. -/
def SignedByWitness (e : Envelope) (id : Bytes) : Prop :=
  ∃ v, d.ws id = some v ∧ v.key ≠ log.key ∧ e.SignedBy pkg v

def SignedByMany (n : Nat) (e : Envelope) : Prop :=
  ∃ ids : List Bytes, ids.Nodup ∧ ids.length = n ∧ ∀ id ∈ ids, SignedByWitness pkg d log e id

/-- The row of the witness has the body. -/
def InRowOf (rows : Table) (body id : Bytes) : Prop :=
  ∃ row ∈ rows, row.witID = id ∧ bodyOf pkg row.chkpt = some body

/-- Some row has the body with a signature of the witness. -/
def InSomeRow (rows : Table) (body id : Bytes) : Prop :=
  ∃ row ∈ rows, ∃ e, pkg.decode row.chkpt = some e ∧ e.text = body ∧ SignedByWitness pkg d log e id

/-- A stored body that `n` distinct witnesses signed, where `signed` says which ones did. -/
def Enough (rows : Table) (n : Nat) (signed : Bytes → Bytes → Prop) (body : Bytes) : Prop :=
  (∃ row ∈ rows, bodyOf pkg row.chkpt = some body) ∧
    ∃ ids : List Bytes, ids.Nodup ∧ ids.length = n ∧ ∀ id ∈ ids, signed body id

/-- The answer is a largest one of the bodies `enough`, with signatures of the log and of `n` witnesses. -/
structure Best (n : Nat) (enough : Bytes → Prop) (answer : Outcome Bytes) : Prop where
  total : ∀ reason, answer ≠ .panic reason
  returns : (∃ raw, answer = .ok raw) ↔ ∃ body, enough body
  largest : ∀ raw, answer = .ok raw → ∃ e cp, pkg.decode raw = some e ∧ pkg.unmarshal e.text = some cp ∧
    e.SignedBy pkg log ∧ SignedByMany pkg d log n e ∧ enough e.text ∧
    ∀ body cp', enough body → pkg.unmarshal body = some cp' → cp'.size ≤ cp.size

/-- The rows have one body, none has a bad signature in the name of another's witness, and their witnesses
have `n` hashes, but not too many for a note. -/
structure Combinable (n : Nat) (group : Table) : Prop where
  body : ∃ body, ∀ row ∈ group, bodyOf pkg row.chkpt = some body
  genuine : ∀ row ∈ group, ∀ e, pkg.decode row.chkpt = some e → ∀ v ∈ witsOf d group, ¬ e.Forges pkg v
  many : n ≤ hashes d group
  few : hashes d group < maxSignatures

/-- The largest size of which there are `n` rows. -/
def LargestWith (rows : Table) (n size : Nat) : Prop :=
  atSize rows size ≠ [] ∧ n ≤ (atSize rows size).length ∧
    ∀ other, size < other → atSize rows other ≠ [] → (atSize rows other).length < n

/-- There is nothing to return, or the rows of the largest size with `n` of them can be combined and no
body that is enough is larger. -/
def Servable (rows : Table) (n : Nat) (enough : Bytes → Prop) : Prop :=
  Scannable rows n ∧ ((∀ body, ¬ enough body) ∨ ∃ size, LargestWith rows n size ∧
    Combinable pkg d n (atSize rows size) ∧
    ∀ body cp, enough body → pkg.unmarshal body = some cp → cp.size ≤ size)

end Bodies

section Group

variable {pkg : Package} {d : Distributor} {group : Table}

theorem mem_witsOf {v : Verifier} : v ∈ witsOf d group ↔ ∃ row ∈ group, d.ws row.witID = some v := by
  simp [witsOf, List.reduceOption_mem_iff]

theorem witsOf_names (known : ∀ row ∈ group, ∃ v, d.ws row.witID = some v)
    (named : ∀ id v, d.ws id = some v → v.key.name = id) :
    (witsOf d group).map (fun v => v.key.name) = group.map Row.witID := by
  induction group with
  | nil => rfl
  | cons row rest ih =>
    obtain ⟨v, found⟩ := known row List.mem_cons_self
    have later := ih fun r member => known r (List.mem_cons_of_mem _ member)
    rw [witsOf] at later ⊢
    rw [List.map_cons, found, List.reduceOption_cons_of_some, List.map_cons, later, List.map_cons,
      named row.witID v found]

/-- Rows of one log, at most one of each witness. -/
structure GroupOk (pkg : Package) (d : Distributor) (logID : Bytes) (group : Table) : Prop where
  some' : group ≠ []
  valid : ∀ row ∈ group, row.Valid pkg d
  log : ∀ row ∈ group, row.logID = logID
  ids : (group.map Row.witID).Nodup

variable {logID : Bytes} {l : LogInfo} (ok : GroupOk pkg d logID group) (logKnown : d.ls logID = some l)
include ok

theorem GroupOk.known : ∀ row ∈ group, ∃ v, d.ws row.witID = some v := by
  intro row member
  obtain ⟨_, v, _, _, _, found, _⟩ := ok.valid row member
  exact ⟨v, found⟩

include logKnown in
theorem GroupOk.row {row : Row} (member : row ∈ group) :
    ∃ v e cp, d.ws row.witID = some v ∧ pkg.decode row.chkpt = some e ∧ e.SignedBy pkg l.verifier ∧
      e.SignedBy pkg v ∧ l.verifier.key ≠ v.key ∧ pkg.unmarshal e.text = some cp ∧ cp.size = row.treeSize := by
  obtain ⟨l', v, e, cp, found, witness, decoded, signed, signed', apart, body, _, size⟩ := ok.valid row member
  rw [ok.log row member, logKnown] at found
  obtain rfl := Option.some.inj found
  exact ⟨v, e, cp, witness, decoded, signed, signed', apart, body, size⟩

omit ok in
theorem bodyOf_endorsed {log : Verifier} {wits : List Verifier} {text : Bytes}
    (endorsed : ∀ cp ∈ group.map Row.chkpt, ∃ e, Endorsed pkg log wits cp e ∧ e.text = text) :
    ∀ row ∈ group, bodyOf pkg row.chkpt = some text := by
  intro row member
  obtain ⟨e, valid, same⟩ := endorsed row.chkpt (List.mem_map_of_mem member)
  rw [bodyOf, valid.decoded, ← same]
  rfl

include logKnown in
theorem GroupOk.endorsed_iff :
    (∃ text, ∀ cp ∈ group.map Row.chkpt,
        ∃ e, Endorsed pkg l.verifier (witsOf d group) cp e ∧ e.text = text) ↔
      (∃ body, ∀ row ∈ group, bodyOf pkg row.chkpt = some body) ∧
        ∀ row ∈ group, ∀ e, pkg.decode row.chkpt = some e → ∀ v ∈ witsOf d group, ¬ e.Forges pkg v := by
  constructor
  · rintro ⟨text, endorsed⟩
    refine ⟨⟨text, bodyOf_endorsed endorsed⟩, fun row member e decoded => ?_⟩
    obtain ⟨e', valid, _⟩ := endorsed row.chkpt (List.mem_map_of_mem member)
    obtain rfl := Option.some.inj (decoded.symm.trans valid.decoded)
    exact valid.genuine
  · rintro ⟨⟨body, same⟩, genuine⟩
    refine ⟨body, fun cp listed => ?_⟩
    obtain ⟨row, member, rfl⟩ := List.mem_map.mp listed
    obtain ⟨_, e, _, _, decoded, signed, _⟩ := ok.row logKnown member
    refine ⟨e, ⟨decoded, signed, genuine row member e decoded⟩, ?_⟩
    have text := same row member
    rw [bodyOf, decoded] at text
    exact Option.some.inj text

include logKnown in
/-- The rows of one size that have one body are checkpoints of that size. -/
theorem GroupOk.body_size {size : Nat} {body : Bytes} (sized : ∀ row ∈ group, row.treeSize = size)
    (texts : ∀ row ∈ group, bodyOf pkg row.chkpt = some body) :
    ∃ cp, pkg.unmarshal body = some cp ∧ cp.size = size := by
  obtain ⟨row, member⟩ := List.exists_mem_of_ne_nil _ ok.some'
  obtain ⟨_, e, cp, _, decoded, _, _, _, parsed, rowSize⟩ := ok.row logKnown member
  have text := texts row member
  rw [bodyOf, decoded] at text
  rw [Option.some.inj text] at parsed
  exact ⟨cp, parsed, by rw [rowSize, sized row member]⟩

include logKnown in
/-- Every witness of the rows has signed its row, so every hash of theirs is found. -/
theorem GroupOk.gathers_length {sigs : List Signature}
    (gathers : Gathers (Found pkg (witsOf d group) (group.map Row.chkpt)) sigs) :
    sigs.length = hashes d group := by
  refine gathers.length_eq fun w listed => ?_
  obtain ⟨row, inGroup, found⟩ := mem_witsOf.mp listed
  obtain ⟨v, e, _, found', decoded, _, signed, _⟩ := ok.row logKnown inGroup
  obtain rfl := Option.some.inj (found.symm.trans found')
  exact ⟨row.chkpt, List.mem_map_of_mem inGroup, e, decoded, signed⟩

theorem GroupOk.combineFound_eq {sort : Sorter} {order : MapOrder Signature} (log : Verifier) (size : Nat) :
    combineFound pkg sort order log (Scan.of d size group) =
      match combine pkg sort order (group.map Row.chkpt) log (witsOf d group) with
      | .error _ => .error (.text "failed to combine sigs: %v")
      | other => other := by
  have none' : (Scan.of d size group).witsAtSize.any Option.isNone = false := by
    rw [List.any_eq_false]
    intro v member
    obtain ⟨row, inGroup, rfl⟩ := List.mem_map.mp member
    obtain ⟨w, found⟩ := ok.known row inGroup
    simp [found]
  rw [combineFound, none']
  rfl

variable (named : ∀ id v, d.ws id = some v → v.key.name = id)
include named

theorem GroupOk.distinct : ((witsOf d group).map Verifier.key).Nodup := by
  have names := ok.ids
  rw [← witsOf_names ok.known named] at names
  refine List.Nodup.of_map Key.name ?_
  rwa [List.map_map]

include logKnown in
theorem GroupOk.distinct_log : ((l.verifier :: witsOf d group).map Verifier.key).Nodup := by
  rw [List.map_cons, List.nodup_cons]
  refine ⟨fun listed => ?_, ok.distinct named⟩
  obtain ⟨v, member, same⟩ := List.mem_map.mp listed
  obtain ⟨row, inGroup, found⟩ := mem_witsOf.mp member
  obtain ⟨v', _, _, found', _, _, _, apart, _⟩ := ok.row logKnown inGroup
  obtain rfl := Option.some.inj (found.symm.trans found')
  exact apart same.symm

section Signers

variable {sort : Sorter} (sorts : sort.Lawful) {raw : Bytes} {e : Envelope} {s : Signature}
  {sigs : List Signature}
  (result : Combination pkg sort l.verifier (witsOf d group) (group.map Row.chkpt) raw e s sigs)
include result

omit ok in
theorem signer_named {t : Signature} (listed : t ∈ sigs) :
    ∃ row ∈ group, ∃ v, d.ws row.witID = some v ∧ v.key = t.key ∧ row.witID = t.key.name := by
  obtain ⟨v, member, own, _⟩ := result.genuine t listed
  obtain ⟨row, inGroup, found⟩ := mem_witsOf.mp member
  exact ⟨row, inGroup, v, found, own, by rw [← own, named _ v found]⟩

omit ok in
theorem signer_names_nodup : (sigs.map fun t => t.key.name).Nodup := by
  rw [show (fun t : Signature => t.key.name) = Key.name ∘ Signature.key from rfl, ← List.map_map]
  refine List.Nodup.map_on ?_ result.gathers.keys_nodup
  intro a memberA b memberB same
  obtain ⟨t, listed, rfl⟩ := List.mem_map.mp memberA
  obtain ⟨u, listed', rfl⟩ := List.mem_map.mp memberB
  obtain ⟨row, _, v, found, own, name⟩ := signer_named named result listed
  obtain ⟨row', _, v', found', own', name'⟩ := signer_named named result listed'
  rw [name, same, ← name', found'] at found
  rw [← own, ← own', Option.some.inj found]

include logKnown sorts in
/-- A combined checkpoint is signed by as many witnesses as there are hashes. -/
theorem GroupOk.signedByMany_iff {n : Nat} : SignedByMany pkg d l.verifier n e ↔ n ≤ sigs.length := by
  have distinct := ok.distinct_log logKnown named
  constructor
  · rintro ⟨ids, nodup, rfl, signed⟩
    have inside : ids ⊆ sigs.map fun t => t.key.name := by
      intro id member
      obtain ⟨v, found, apart, t, first, _⟩ := signed id member
      have own : t.key = v.key := by simpa using List.find?_some first
      have line := (result.perm sorts).mem_iff.mp (List.mem_of_find?_eq_some first)
      rcases List.mem_cons.mp line with rfl | listed
      · exact absurd (own.symm.trans result.signed.1) apart
      · exact List.mem_map.mpr ⟨t, listed, by rw [own, named id v found]⟩
    have shorter := (List.subperm_of_subset nodup inside).length_le
    simpa using shorter
  · intro enough
    refine ⟨(sigs.map fun t => t.key.name).take n, ?_, by simpa using enough, ?_⟩
    · exact (signer_names_nodup named result).sublist (List.take_sublist _ _)
    · intro id member
      obtain ⟨t, listed, rfl⟩ := List.mem_map.mp (List.mem_of_mem_take member)
      obtain ⟨row, inGroup, v, found, own, name⟩ := signer_named named result listed
      obtain ⟨v', _, _, found', _, _, _, apart, _⟩ := ok.row logKnown inGroup
      obtain rfl := Option.some.inj (found.symm.trans found')
      have line := (result.perm sorts).mem_iff.mpr (List.mem_cons_of_mem s listed)
      have first := result.signature sorts distinct line
      have member' := mem_witsOf.mpr ⟨row, inGroup, found⟩
      refine ⟨v, by rw [← name, found], Ne.symm apart, t, by rw [own, first], ?_⟩
      exact result.verifies sorts distinct line (List.mem_cons_of_mem _ member') own

end Signers

include logKnown in
/-- What Combine makes of the rows of one size is the best answer unless there is none. -/
theorem GroupOk.best_iff (lawful : Lawful pkg) {sort : Sorter} (sorts : sort.Lawful)
    (order : MapOrder Signature) {n size : Nat} {enough : Bytes → Prop}
    (sized : ∀ row ∈ group, row.treeSize = size)
    (own : ∀ body, (∀ row ∈ group, bodyOf pkg row.chkpt = some body) → enough body) :
    Best pkg d l.verifier n enough (combineFound pkg sort order l.verifier (Scan.of d size group)) ↔
      (∀ body, ¬ enough body) ∨ Combinable pkg d n group ∧
        ∀ body cp, enough body → pkg.unmarshal body = some cp → cp.size ≤ size := by
  rw [ok.combineFound_eq]
  by_cases uniform : ∃ text, ∀ cp ∈ group.map Row.chkpt,
      ∃ e, Endorsed pkg l.verifier (witsOf d group) cp e ∧ e.text = text
  · obtain ⟨sameBody, genuine⟩ := (ok.endorsed_iff logKnown).mp uniform
    obtain ⟨text, endorsed⟩ := uniform
    obtain ⟨raw, e, s, sigs, ran, rfl, gathers, made, readable⟩ :=
      combine_made lawful sorts (ok.distinct named) order (by simpa using ok.some') endorsed
    have texts := bodyOf_endorsed endorsed
    obtain ⟨cp, parsed, cpSize⟩ := ok.body_size logKnown sized texts
    have length := ok.gathers_length logKnown gathers
    rw [ran]
    constructor
    · intro best
      obtain ⟨e'', cp', decoded'', parsed', _, many, _, largest⟩ := best.largest raw rfl
      have read : pkg.decode raw ≠ none := by simp [decoded'']
      have result := made read
      obtain rfl := Option.some.inj (result.decoded.symm.trans decoded'')
      obtain rfl := Option.some.inj (parsed.symm.trans parsed')
      rw [cpSize] at largest
      refine .inr ⟨⟨sameBody, genuine, ?_, ?_⟩, largest⟩
      · rw [← length]
        exact (ok.signedByMany_iff logKnown named sorts result).mp many
      · rw [← length]
        exact readable.mpr read
    · rintro (none' | ⟨combinable, largest⟩)
      · exact absurd (own e.text texts) (none' _)
      have result := made (readable.mp (by rw [length]; exact combinable.few))
      refine ⟨by simp, ⟨fun _ => ⟨e.text, own e.text texts⟩, fun _ => ⟨raw, rfl⟩⟩, ?_⟩
      intro raw' same
      obtain rfl := Outcome.ok.inj same
      refine ⟨e, cp, result.decoded, parsed, ?_, ?_, own e.text texts, ?_⟩
      · exact (result.endorsed sorts (ok.distinct_log logKnown named)).signed
      · refine (ok.signedByMany_iff logKnown named sorts result).mpr ?_
        rw [length]
        exact combinable.many
      · rw [cpSize]
        exact largest
  · obtain ⟨reason, failed⟩ := combine_refuses lawful (ok.distinct named) order uniform
    rw [failed]
    constructor
    · intro best
      refine .inl fun body enough' => ?_
      obtain ⟨raw, wrong⟩ := best.returns.mpr ⟨body, enough'⟩
      cases wrong
    · rintro (none' | ⟨combinable, _⟩)
      · exact ⟨by simp, by simp [none'], by simp⟩
      · exact absurd ((ok.endorsed_iff logKnown).mpr ⟨combinable.body, combinable.genuine⟩) uniform

end Group

section Answer

variable {pkg : Package} {d : Distributor} {n : Nat}

theorem atSize_perm {rows rows' : Table} (perm : rows.Perm rows') (size : Nat) :
    (atSize rows size).Perm (atSize rows' size) :=
  perm.filter _

theorem Scannable.perm {rows rows' : Table} (perm : rows.Perm rows') (scannable : Scannable rows n) :
    Scannable rows' n := by
  rcases scannable with pos | ⟨some', zero⟩
  · exact .inl pos
  · refine .inr ⟨fun empty => some' ?_, fun row member => zero row (perm.mem_iff.mpr member)⟩
    rw [empty] at perm
    exact List.perm_nil.mp perm

theorem witsOf_perm {group group' : Table} (perm : group.Perm group') :
    (witsOf d group).Perm (witsOf d group') :=
  (perm.map _).filterMap _

theorem Combinable.perm {group group' : Table} (perm : group.Perm group')
    (combinable : Combinable pkg d n group) : Combinable pkg d n group' := by
  have wits := witsOf_perm (d := d) perm
  have same : hashes d group' = hashes d group := by
    rw [hashes, hashes, List.toFinset_eq_of_perm _ _ (wits.map _)]
  obtain ⟨⟨body, bodies⟩, genuine, many, few⟩ := combinable
  refine ⟨⟨body, fun row member => bodies row (perm.mem_iff.mpr member)⟩, ?_, by rwa [same], by rwa [same]⟩
  intro row member e decoded v listed
  exact genuine row (perm.mem_iff.mpr member) e decoded v (wits.mem_iff.mpr listed)

theorem LargestWith.perm {rows rows' : Table} (perm : rows.Perm rows') {size : Nat}
    (largest : LargestWith rows n size) : LargestWith rows' n size := by
  have nil : ∀ other, atSize rows other = [] ↔ atSize rows' other = [] := by
    intro other
    rw [← List.length_eq_zero_iff, (atSize_perm perm other).length_eq, List.length_eq_zero_iff]
  obtain ⟨some', many, larger⟩ := largest
  refine ⟨fun empty => some' ((nil size).mpr empty), ?_, fun other above more => ?_⟩
  · rwa [← (atSize_perm perm size).length_eq]
  · rw [← (atSize_perm perm other).length_eq]
    exact larger other above fun empty => more ((nil other).mp empty)

theorem Servable.perm {rows rows' : Table} (perm : rows.Perm rows') {enough : Bytes → Prop}
    (servable : Servable pkg d rows n enough) : Servable pkg d rows' n enough := by
  obtain ⟨scannable, found⟩ := servable
  refine ⟨scannable.perm perm, found.imp_right ?_⟩
  rintro ⟨size, largest, combinable, bound⟩
  exact ⟨size, largest.perm perm, combinable.perm (atSize_perm perm size), bound⟩

theorem Selects.largest_iff {rows : Table} {size other : Nat} (selects : Selects rows n size)
    (many : n ≤ (atSize rows size).length) : LargestWith rows n other ↔ other = size := by
  constructor
  · rintro ⟨some', enough, larger⟩
    rcases Nat.lt_trichotomy other size with below | same | above
    · have few := larger size below (selects.some' many)
      omega
    · exact same
    · have few := selects.larger other above some'
      omega
  · rintro rfl
    exact ⟨selects.some' many, many, selects.larger⟩

theorem TableOk.group {rows walked : Table} (held : TableOk pkg d rows) {logID : Bytes}
    (perm : walked.Perm (logRows rows logID)) {size : Nat} (some' : atSize walked size ≠ []) :
    GroupOk pkg d logID (atSize walked size) := by
  have listed : ∀ row ∈ atSize walked size, row ∈ rows ∧ row.logID = logID := by
    intro row member
    simpa [logRows] using perm.mem_iff.mp (mem_atSize.mp member).1
  refine ⟨some', fun row member => held.valid row (listed row member).1,
    fun row member => (listed row member).2, ?_⟩
  refine List.Nodup.of_map (fun id => (logID, id)) ?_
  have pairs : (atSize walked size).map Row.pair =
      ((atSize walked size).map Row.witID).map fun id => (logID, id) := by
    rw [List.map_map]
    refine List.map_congr_left fun row member => ?_
    show (row.logID, row.witID) = (logID, row.witID)
    rw [(listed row member).2]
  rw [← pairs]
  have unique : ((logRows rows logID).map Row.pair).Nodup :=
    held.unique.sublist (List.filter_sublist.map _)
  exact ((perm.map _).nodup_iff.mpr unique).sublist (List.filter_sublist.map _)

/-- One body in the rows of a size with `n` of them is a body with `n` witnesses. -/
theorem GroupOk.enough {rows : Table} {logID : Bytes} {size : Nat}
    (ok : GroupOk pkg d logID (atSize rows size)) (many : n ≤ (atSize rows size).length) {body : Bytes}
    (same : ∀ row ∈ atSize rows size, bodyOf pkg row.chkpt = some body) :
    Enough pkg rows n (InRowOf pkg rows) body := by
  constructor
  · obtain ⟨row, member⟩ := List.exists_mem_of_ne_nil _ ok.some'
    exact ⟨row, (mem_atSize.mp member).1, same row member⟩
  · refine ⟨((atSize rows size).map Row.witID).take n, ok.ids.sublist (List.take_sublist _ _),
      by simpa using many, fun id member => ?_⟩
    obtain ⟨row, listed, rfl⟩ := List.mem_map.mp (List.mem_of_mem_take member)
    exact ⟨row, (mem_atSize.mp listed).1, rfl, same row listed⟩

theorem not_best_panic {log : Verifier} {enough : Bytes → Prop} {reason : String} :
    ¬ Best pkg d log n enough (.panic reason) := fun best => best.total reason rfl

theorem best_error_iff {log : Verifier} {enough : Bytes → Prop} {reason : GoError} :
    Best pkg d log n enough (.error reason) ↔ ∀ body, ¬ enough body := by
  constructor
  · intro best body enough'
    obtain ⟨raw, wrong⟩ := best.returns.mpr ⟨body, enough'⟩
    cases wrong
  · intro none'
    exact ⟨by simp, by simp [none'], by simp⟩

section Walk

variable (lawful : Lawful pkg) {sort : Sorter} (sorts : sort.Lawful)
  (named : ∀ id v, d.ws id = some v → v.key.name = id) {rows : Table} (held : TableOk pkg d rows)
  {logID : Bytes} {l : LogInfo} (logKnown : d.ls logID = some l)
include lawful sorts named held logKnown

theorem getCheckpointN_best_iff (order : MapOrder Signature) (rowOrder : RowOrder) {enough : Bytes → Prop}
    (own : ∀ body, Enough pkg (logRows rows logID) n (InRowOf pkg (logRows rows logID)) body → enough body) :
    Best pkg d l.verifier n enough (getCheckpointN pkg d sort order rowOrder .none rows logID n) ↔
      Servable pkg d (logRows rows logID) n enough := by
  have perm := rowOrder.perm (logRows rows logID)
  have sorted := rowOrder.sorted (logRows rows logID)
  generalize walk : rowOrder.walk (logRows rows logID) = walked at perm sorted
  have eq : getCheckpointN pkg d sort order rowOrder .none rows logID n =
      match scanRows d n ⟨0, [], []⟩ (walked.map .ok) with
      | .error reason => .error reason
      | .ok found =>
        if n ≤ found.cpsAtSize.length then combineFound pkg sort order l.verifier found
        else .error (.text "no checkpoint with %d signatures found") := by
    rw [getCheckpointN, logKnown, ← walk]
    rfl
  have swap : Servable pkg d (logRows rows logID) n enough ↔ Servable pkg d walked n enough :=
    ⟨.perm perm.symm, .perm perm⟩
  rw [eq, swap]
  by_cases scannable : Scannable walked n
  · obtain ⟨size, scan, selects⟩ := scanRows_selects (d := d) scannable sorted
    have length : (Scan.of d size (atSize walked size)).cpsAtSize.length = (atSize walked size).length := by
      simp [Scan.of]
    rw [scan]
    simp only [length]
    split
    next many =>
      have ok := held.group perm (selects.some' many)
      have enough' : ∀ body, (∀ row ∈ atSize walked size, bodyOf pkg row.chkpt = some body) →
          enough body := by
        intro body same
        obtain ⟨⟨row, member, text⟩, ids, nodup, count, signed⟩ := ok.enough many same
        refine own body ⟨⟨row, perm.mem_iff.mp member, text⟩, ids, nodup, count, fun id listed => ?_⟩
        obtain ⟨r, inRows, name, text'⟩ := signed id listed
        exact ⟨r, perm.mem_iff.mp inRows, name, text'⟩
      rw [ok.best_iff logKnown named lawful sorts order (fun row member => (mem_atSize.mp member).2) enough',
        Servable]
      simp only [selects.largest_iff many, exists_eq_left, scannable, true_and]
    next few =>
      rw [best_error_iff, Servable]
      refine ⟨fun none' => ⟨scannable, .inl none'⟩, ?_⟩
      rintro ⟨_, none' | ⟨other, ⟨_, many, _⟩, _⟩⟩
      · exact none'
      · have short := selects.none' (by omega) other
        omega
  · have zero : n = 0 := Nat.eq_zero_of_not_pos fun pos => scannable (.inl pos)
    rw [scanRows_stuck scannable sorted]
    refine iff_of_false ?_ fun servable => scannable servable.1
    simp only [zero, Nat.zero_le, if_true]
    exact not_best_panic

end Walk

/-- For the log `logID`, whose witnesses are known by their key names, GetCheckpointN gives the best answer
in exactly the states that are `Servable`, whether a body counts for the witnesses in whose rows it is or
for those whose signatures are stored with it. -/
theorem getCheckpointN_exact (lawful : Lawful pkg) {sort : Sorter} (sorts : sort.Lawful) (d : Distributor)
    (named : ∀ id v, d.ws id = some v → v.key.name = id) (calls : List Call) (logID : Bytes) (l : LogInfo)
    (logKnown : d.ls logID = some l) (n : Nat) (order : MapOrder Signature) (rowOrder : RowOrder) :
    let rows := logRows (runCalls pkg d [] calls) logID
    let answer := getCheckpointN pkg d sort order rowOrder .none (runCalls pkg d [] calls) logID n
    (Best pkg d l.verifier n (Enough pkg rows n (InSomeRow pkg d l.verifier rows)) answer ↔
      Servable pkg d rows n (Enough pkg rows n (InSomeRow pkg d l.verifier rows))) ∧
    (Best pkg d l.verifier n (Enough pkg rows n (InRowOf pkg rows)) answer ↔
      Servable pkg d rows n (Enough pkg rows n (InRowOf pkg rows))) := by
  have held := runCalls_ok lawful d calls
  intro rows answer
  constructor
  · refine getCheckpointN_best_iff lawful sorts named held logKnown order rowOrder ?_
    rintro body ⟨stored, ids, nodup, count, signed⟩
    refine ⟨stored, ids, nodup, count, fun id listed => ?_⟩
    obtain ⟨row, member, rfl, text⟩ := signed id listed
    obtain ⟨inTable, log⟩ : row ∈ runCalls pkg d [] calls ∧ row.logID = logID := by
      simpa [rows, logRows] using member
    obtain ⟨l', v, e, _, found, witness, decoded, _, signed', apart, _⟩ := held.valid row inTable
    rw [log, logKnown] at found
    obtain rfl := Option.some.inj found
    rw [bodyOf, decoded] at text
    exact ⟨row, member, e, decoded, Option.some.inj text, v, witness, Ne.symm apart, signed'⟩
  · exact getCheckpointN_best_iff lawful sorts named held logKnown order rowOrder fun _ enough => enough

end Answer

section Tags

def RowOrder.insertion : RowOrder where
  walk rows := Sorter.insertion.slice (fun a b => decide (b.treeSize < a.treeSize)) rows
  perm rows := Sorter.insertion_lawful.perm _ rows
  sorted rows := by
    have orders : Orders (fun a b : Row => decide (b.treeSize < a.treeSize)) rows :=
      ⟨List.pairwise_of_forall fun a b => by simp only [decide_eq_true_eq]; omega,
        fun a _ b _ c _ => by simp only [decide_eq_false_iff_not]; omega⟩
    refine (Sorter.insertion_lawful.sorted _ rows orders).imp fun order => ?_
    simpa using order

def agreed : List Call :=
  [tagCall 97 (tagNote (rootedText 1 1) [108, 97]), tagCall 98 (tagNote (rootedText 1 1) [108, 98])]

-- The log signs another root of size 1 for a third witness.
def forked : List Call := agreed ++ [tagCall 99 (tagNote (rootedText 1 2) [108, 99])]

def agreedRows : Table :=
  [⟨[108], [97], 1, tagNote (rootedText 1 1) [108, 97]⟩, ⟨[108], [98], 1, tagNote (rootedText 1 1) [108, 98]⟩]

theorem agreed_rows : logRows (runCalls reference (tagDistributor [97, 98, 99]) [] agreed) [108] = agreedRows := by
  decide +kernel

theorem agreed_bodies (row : Row) (member : row ∈ agreedRows) :
    bodyOf reference row.chkpt = some (rootedText 1 1) := by
  revert row
  decide +kernel

theorem agreed_envelope (row : Row) (member : row ∈ agreedRows) :
    ∃ tag ∈ [97, 98], row.witID = [tag] ∧
      decodeNote row.chkpt = some ⟨rootedText 1 1, [108, tag].map tagSignature⟩ := by
  revert row
  decide +kernel

theorem getCheckpointN_exact_agreed :
    Best reference (tagDistributor [97, 98, 99]) (tagVerifier 108) 2
      (Enough reference agreedRows 2 (InSomeRow reference (tagDistributor [97, 98, 99]) (tagVerifier 108) agreedRows))
      (getCheckpointN reference (tagDistributor [97, 98, 99]) .insertion (.listed _) .insertion .none
        (runCalls reference (tagDistributor [97, 98, 99]) [] agreed) [108] 2) := by
  have exact' := getCheckpointN_exact reference_lawful Sorter.insertion_lawful (tagDistributor [97, 98, 99])
    (by
      intro id v found
      simpa using List.find?_some found)
    agreed [108] ⟨"o", tagVerifier 108⟩ rfl 2 (.listed _) .insertion
  rw [agreed_rows] at exact'
  refine exact'.1.mpr ⟨.inl (by decide), .inr ⟨1, ?_, ?_, ?_⟩⟩
  · refine ⟨by decide, by decide, fun other above more => absurd (atSize_eq_nil ?_) more⟩
    intro row member
    have size : row.treeSize = 1 := by
      revert row
      decide
    omega
  · refine ⟨⟨rootedText 1 1, fun row member => agreed_bodies row (mem_atSize.mp member).1⟩, ?_, ?_, ?_⟩
    · intro row member e decoded v listed
      obtain ⟨tag, tagged, name, read⟩ := agreed_envelope row (mem_atSize.mp member).1
      obtain rfl := Option.some.inj (read.symm.trans decoded)
      clear read decoded name
      revert v tag
      decide +kernel
    · decide
    · decide
  · rintro body cp ⟨⟨row, member, text⟩, _⟩ parsed
    rw [agreed_bodies row member] at text
    obtain rfl := Option.some.inj text
    have parsed' : reference.unmarshal (rootedText 1 1) = some ⟨"o", 1, [1]⟩ := by decide +kernel
    rw [parsed'] at parsed
    rw [← Option.some.inj parsed]

def forkedRows : Table := agreedRows ++ [⟨[108], [99], 1, tagNote (rootedText 1 2) [108, 99]⟩]

theorem forked_rows : logRows (runCalls reference (tagDistributor [97, 98, 99]) [] forked) [108] = forkedRows := by
  decide +kernel

theorem forked_answer :
    getCheckpointN reference (tagDistributor [97, 98, 99]) .insertion (.listed _) .insertion .none
      (runCalls reference (tagDistributor [97, 98, 99]) [] forked) [108] 2 =
        .error (.text "failed to combine sigs: %v") := by
  decide +kernel

-- Two witnesses signed one root, but nothing is returned; and no witness at all is a panic.
theorem getCheckpointN_forked :
    ¬ Best reference (tagDistributor [97, 98, 99]) (tagVerifier 108) 2
        (Enough reference (logRows (runCalls reference (tagDistributor [97, 98, 99]) [] forked) [108]) 2
          (InSomeRow reference (tagDistributor [97, 98, 99]) (tagVerifier 108)
            (logRows (runCalls reference (tagDistributor [97, 98, 99]) [] forked) [108])))
        (getCheckpointN reference (tagDistributor [97, 98, 99]) .insertion (.listed _) .insertion .none
          (runCalls reference (tagDistributor [97, 98, 99]) [] forked) [108] 2) ∧
      getCheckpointN reference (tagDistributor [97, 98, 99]) .insertion (.listed _) .insertion .none
        (runCalls reference (tagDistributor [97, 98, 99]) [] agreed) [108] 0 =
          .panic "invalid memory address or nil pointer dereference" := by
  refine ⟨fun best => ?_, by decide +kernel⟩
  rw [forked_answer, best_error_iff, forked_rows] at best
  have inside : ∀ row ∈ agreedRows, row ∈ forkedRows := fun row member => List.mem_append_left _ member
  refine best (rootedText 1 1) ⟨⟨agreedRows.head (by decide), by decide, by decide +kernel⟩, [[97], [98]], by decide,
    rfl, fun id listed => ?_⟩
  have row : ∃ row ∈ agreedRows, row.witID = id := by
    revert id
    decide
  obtain ⟨row, member, rfl⟩ := row
  obtain ⟨tag, tagged, name, read⟩ := agreed_envelope row member
  refine ⟨row, inside row member, _, read, rfl, ?_⟩
  rw [name]
  simp only [List.mem_cons, List.not_mem_nil, or_false] at tagged
  rcases tagged with rfl | rfl
  · exact ⟨tagVerifier 97, rfl, by decide, by decide +kernel⟩
  · exact ⟨tagVerifier 98, rfl, by decide, by decide +kernel⟩

end Tags

end DbDistributor
