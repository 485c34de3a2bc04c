import Mathlib.Data.List.Infix
import TrillianServerless.SumDbAudit.Checks

set_option autoImplicit false

namespace Audit

open Go Sql

section Parse

def index {A : Type} (slice : List A) (i : Nat) : Outcome A :=
  match slice[i]? with
  | some a => .ok a
  | none => .panic "index out of range"

-- s[:n] of a string.
def sliceTo (s : Bytes) (n : Nat) : Outcome Bytes :=
  if n ≤ s.length then .ok (s.take n) else .panic "slice bounds out of range"

-- The second line of a leaf against the fields of the first.
def parseModLine (module version repoHash : Bytes) (tokens : List Bytes) : Outcome Metadata := do
  let got ← index tokens 0
  if got ≠ module then .error (.text "mismatched module names at %d: (%s, %s)")
  else
    let got ← sliceTo (← index tokens 1) version.length
    if got ≠ version then .error (.text "mismatched version names at %d: (%s, %s)")
    else
      let modHash ← index tokens 2
      pure ⟨module, version, repoHash, modHash⟩

-- What ProcessMetadata does with one leaf.
def parseLeaf (h : Bytes) : Outcome Metadata := do
  let lines := h.splitOn 10
  let tokens := (← index lines 0).splitOn 32
  let module ← index tokens 0
  let version ← index tokens 1
  let repoHash ← index tokens 2
  parseModLine module version repoHash ((← index lines 1).splitOn 32)

-- "/go.mod".
def goMod : Bytes := [47, 103, 111, 46, 109, 111, 100]

/-- The record of a module version: "module version repohash" and "module version/go.mod modhash", each on a
line of its own. -/
def entryText (m : Metadata) : Bytes :=
  [10].intercalate
    [[32].intercalate [m.module, m.version, m.repoHash],
      [32].intercalate [m.module, m.version ++ goMod, m.modHash], []]

structure IsEntry (h : Bytes) (m : Metadata) : Prop where
  text : h = entryText m
  fields : ∀ field ∈ [m.module, m.version, m.repoHash, m.modHash], field ≠ [] ∧ 32 ∉ field ∧ 10 ∉ field

theorem splitOn_line {fields : List Bytes} (nonempty : fields ≠ []) (clean : ∀ field ∈ fields, (32 : UInt8) ∉ field) :
    ([32].intercalate fields).splitOn 32 = fields := List.splitOn_intercalate 32 clean nonempty

theorem not_mem_intercalate {c : UInt8} (other : c ≠ 32) {fields : List Bytes} (clean : ∀ field ∈ fields, c ∉ field) :
    c ∉ [32].intercalate fields := by
  induction fields with
  | nil => simp
  | cons field rest ih =>
    cases rest with
    | nil => simpa using clean
    | cons next rest =>
      rw [List.intercalate_cons_cons]
      simp only [List.mem_append, List.mem_singleton, not_or]
      exact ⟨⟨clean field (by simp), other⟩, ih fun f member => clean f (by simp at member ⊢; tauto)⟩

theorem IsEntry.splits {h : Bytes} {m : Metadata} (entry : IsEntry h m) :
    ∃ first second, h.splitOn 10 = [first, second, []] ∧ first.splitOn 32 = [m.module, m.version, m.repoHash] ∧
      second.splitOn 32 = [m.module, m.version ++ goMod, m.modHash] := by
  have fields := entry.fields
  simp only [List.mem_cons, List.not_mem_nil, or_false, forall_eq_or_imp, forall_eq] at fields
  obtain ⟨⟨-, moduleSpace, moduleLine⟩, ⟨-, versionSpace, versionLine⟩, ⟨-, repoSpace, repoLine⟩, -, modSpace,
    modLine⟩ := fields
  have suffix : (32 : UInt8) ∉ goMod ∧ (10 : UInt8) ∉ goMod := by decide
  refine ⟨_, _, ?_, splitOn_line (by simp) ?_, splitOn_line (by simp) ?_⟩
  · rw [entry.text, entryText]
    refine List.splitOn_intercalate 10 ?_ (by simp)
    simp only [List.mem_cons, List.not_mem_nil, or_false, forall_eq_or_imp, forall_eq, not_false_eq_true, and_true]
    refine ⟨not_mem_intercalate (by decide) ?_, not_mem_intercalate (by decide) ?_⟩
    · simp [moduleLine, versionLine, repoLine]
    · simp [moduleLine, versionLine, modLine, suffix.2]
  · simp [moduleSpace, versionSpace, repoSpace]
  · simp [moduleSpace, versionSpace, modSpace, suffix.1]

theorem IsEntry.parsed {h : Bytes} {m : Metadata} (entry : IsEntry h m) : parseLeaf h = .ok m := by
  obtain ⟨first, second, lines, tokens, others⟩ := entry.splits
  simp [parseLeaf, parseModLine, lines, tokens, others, index, sliceTo]

-- The fields that the second line is compared with.
def Fields (h : Bytes) (second module version repoHash : Bytes) : Prop :=
  ∃ first lines others, h.splitOn 10 = first :: second :: lines ∧
    first.splitOn 32 = module :: version :: repoHash :: others

theorem parseLeaf_cases (h : Bytes) :
    (∃ second module version repoHash, Fields h second module version repoHash ∧
      parseLeaf h = parseModLine module version repoHash (second.splitOn 32)) ∨
    (∀ second module version repoHash, ¬ Fields h second module version repoHash) ∧
      parseLeaf h = .panic "index out of range" := by
  rcases lines : h.splitOn 10 with _ | ⟨first, rest⟩
  · exact absurd lines (List.splitOn_ne_nil _ _)
  · rcases tokens : first.splitOn 32 with _ | ⟨module, _ | ⟨version, _ | ⟨repoHash, others⟩⟩⟩
    · exact absurd tokens (List.splitOn_ne_nil _ _)
    · refine .inr ⟨?_, by simp [parseLeaf, lines, tokens, index]⟩
      rintro second m v r ⟨first', lines', others', split, fields⟩
      simp_all
    · refine .inr ⟨?_, by simp [parseLeaf, lines, tokens, index]⟩
      rintro second m v r ⟨first', lines', others', split, fields⟩
      simp_all
    · cases rest with
      | nil =>
        refine .inr ⟨?_, by simp [parseLeaf, lines, tokens, index]⟩
        rintro second m v r ⟨first', lines', others', split, fields⟩
        simp_all
      | cons second more =>
        refine .inl ⟨second, module, version, repoHash, ⟨first, more, others, lines, tokens⟩, ?_⟩
        simp [parseLeaf, lines, tokens, index]

theorem Fields.unique {h second module version repoHash second' module' version' repoHash' : Bytes}
    (fields : Fields h second module version repoHash) (other : Fields h second' module' version' repoHash') :
    second' = second ∧ module' = module ∧ version' = version ∧ repoHash' = repoHash := by
  obtain ⟨first, lines, others, split, tokens⟩ := fields
  obtain ⟨first', lines', others', split', tokens'⟩ := other
  rw [split] at split'
  obtain ⟨rfl, rfl, -⟩ := by simpa using split'
  rw [tokens] at tokens'
  obtain ⟨rfl, rfl, rfl, -⟩ := by simpa using tokens'
  exact ⟨rfl, rfl, rfl, rfl⟩

/-- The second line disagrees with the first: it names another module, or its version is long enough to be
compared and does not begin with that of the first line. -/
def LinesDiffer (module version : Bytes) (tokens : List Bytes) : Prop :=
  ∃ got rest, tokens = got :: rest ∧
    (got ≠ module ∨ ∃ gotVersion others, rest = gotVersion :: others ∧ version.length ≤ gotVersion.length ∧
      ¬ version <+: gotVersion)

theorem parseModLine_error_iff {module version repoHash : Bytes} {tokens : List Bytes} :
    (∃ reason, parseModLine module version repoHash tokens = .error reason) ↔ LinesDiffer module version tokens := by
  unfold LinesDiffer parseModLine
  rcases tokens with _ | ⟨got, rest⟩
  · simp [index]
  · by_cases same : got = module
    · rcases rest with _ | ⟨gotVersion, others⟩
      · simp [index, same]
      · by_cases long : version.length ≤ gotVersion.length
        · by_cases begins : version <+: gotVersion
          · have equal : gotVersion.take version.length = version := (List.prefix_iff_eq_take.mp begins).symm
            rcases others with _ | ⟨modHash, others⟩ <;> simp [index, sliceTo, same, long, begins, equal]
          · have differs : gotVersion.take version.length ≠ version := fun equal =>
              begins (List.prefix_iff_eq_take.mpr equal.symm)
            simp [index, sliceTo, same, long, begins, differs]
        · simp [index, sliceTo, same, long]
    · simp [index, same]

/-- A leaf that ProcessMetadata has an error for. -/
def Rejected (h : Bytes) : Prop :=
  ∃ second module version repoHash, Fields h second module version repoHash ∧
    LinesDiffer module version (second.splitOn 32)

theorem parseLeaf_error_iff {h : Bytes} : (∃ reason, parseLeaf h = .error reason) ↔ Rejected h := by
  rcases parseLeaf_cases h with ⟨second, module, version, repoHash, fields, parsed⟩ | ⟨none, parsed⟩
  · rw [parsed, parseModLine_error_iff]
    constructor
    · exact fun differ => ⟨second, module, version, repoHash, fields, differ⟩
    · rintro ⟨second', module', version', repoHash', other, differ⟩
      obtain ⟨rfl, rfl, rfl, rfl⟩ := fields.unique other
      exact differ
  · rw [parsed]
    refine iff_of_false (by simp) ?_
    rintro ⟨second, module, version, repoHash, fields, -⟩
    exact none _ _ _ _ fields

end Parse

def Database.maxLeafMetadata (fault : Option GoError) (d : Database) : Except GoError Nat :=
  match fault, d.leafMetadata.max? with
  | some _, _ => .error (.text "failed to get max metadata: %v")
  | none, none => .error errNoDataFound
  | none, some id => .ok id

-- What goes wrong with the tables during a call: at the largest id, at the leaves and the metadata of a tile.
structure TableFaults where
  max : Option GoError
  read : Nat → Option GoError
  write : Nat → Faults

namespace Service

variable (s : Service) (faults : TableFaults)

def firstTile (d : Database) : Except GoError Nat :=
  match d.maxLeafMetadata faults.max with
  | .ok latest => .ok ((latest + 1) / s.tileWidth)
  | .error reason => if reason = errNoDataFound then .ok 0 else .error (.wrap "MaxLeafMetadata(): %w" reason)

def tileLeaves (offset : Nat) (d : Database) : Except GoError (List Bytes) :=
  match faults.read offset with
  | some reason => .error reason
  | none => d.leafBlock (offset * s.tileWidth) s.tileWidth

-- A tile has as many leaves as `metadata` has places.
def processTile (offset : Nat) : Eff Database Unit := fun d =>
  match s.tileLeaves faults offset d with
  | .error reason => (.error reason, d)
  | .ok hashes =>
    match hashes.mapM parseLeaf with
    | .error reason => (.error reason, d)
    | .panic reason => (.panic reason, d)
    | .ok metadata =>
      let (result, d') := d.setLeafMetadata (faults.write offset) (offset * s.tileWidth) metadata
      (Outcome.ofExcept result, d')

def processMetadata (checkpoint : Checkpoint) : Eff Database Unit := fun d =>
  match s.firstTile faults d with
  | .error reason => (.error reason, d)
  | .ok firstTile =>
    (do
      let _ ← Eff.each (s.processTile faults) (List.range' firstTile (checkpoint.n / s.tileWidth - firstTile))
      pure ()) d

end Service

section Tiles

variable {s : Service} {faults : TableFaults} {d : Database}

-- A leaf that has its two lines, or an error of its own.
def Fine (h : Bytes) : Prop := (∃ m, IsEntry h m) ∨ Rejected h

theorem leafBlock_rows {start count : Nat} {leaves : List Bytes} (read : d.leafBlock start count = .ok leaves) :
    leaves.length = count ∧ ∀ i < count, d.leaves.row (start + i) = leaves[i]? := by
  unfold Database.leafBlock at read
  dsimp only at read
  split at read
  · cases read
  next length =>
    rw [not_not] at length
    obtain rfl := Except.ok.inj read
    have present : ∀ i, start ≤ i → i < start + count → d.leaves.row i ≠ none := by
      intro i lower upper missing
      exact select_short lower upper missing length
    rw [select_rows present]
    refine ⟨by simp, fun i inside => ?_⟩
    obtain ⟨x, found⟩ := Option.ne_none_iff_exists'.mp (present (start + i) (by omega) (by omega))
    simp [inside, found]

-- Fine leaves are read to their end or to an error.
theorem mapM_fine {leaves : List Bytes} (fine : ∀ h ∈ leaves, Fine h) :
    (∃ metadata, leaves.mapM parseLeaf = .ok metadata ∧ List.Forall₂ IsEntry leaves metadata) ∨
    ∃ reason, leaves.mapM parseLeaf = .error reason := by
  induction leaves with
  | nil => exact .inl ⟨[], rfl, .nil⟩
  | cons h rest ih =>
    rw [List.mapM_cons]
    rcases fine h (by simp) with ⟨m, entry⟩ | rejected
    · rcases ih fun other member => fine other (by simp [member]) with ⟨metadata, parsed, entries⟩ | ⟨reason, failed⟩
      · exact .inl ⟨m :: metadata, by simp [entry.parsed, parsed], .cons entry entries⟩
      · exact .inr ⟨reason, by simp [entry.parsed, failed]⟩
    · obtain ⟨reason, failed⟩ := parseLeaf_error_iff.mpr rejected
      exact .inr ⟨reason, by simp [failed]⟩

theorem setLeafMetadata_rows {write : Faults} {start : Nat} {metadata : List Metadata}
    (inside : start + metadata.length ≤ 2 ^ 64) (id : Nat) :
    (id < start ∨ start + metadata.length ≤ id →
      (d.setLeafMetadata write start metadata).2.leafMetadata.row id = d.leafMetadata.row id) ∧
    ∀ m, (d.setLeafMetadata write start metadata).2.leafMetadata.row id = some m →
      d.leafMetadata.row id = some m ∨ ∃ i, id = start + i ∧ metadata[i]? = some m := by
  unfold Database.setLeafMetadata Database.writeRows transact
  dsimp only
  split
  · exact ⟨fun _ => rfl, fun m present => .inl present⟩
  · exact ⟨fun _ => rfl, fun m present => .inl present⟩
  · rw [Table.counted_eq inside]
    refine ⟨fun outside => Table.insertAll_other _ _ _ ?_, fun m present => ?_⟩
    · rw [Table.numbered_keys, List.mem_range'_1]
      omega
    · refine (Table.insertAll_origin _ _ _ present).imp_right fun member => ?_
      obtain ⟨i, small, same⟩ := List.mem_mapIdx.mp member
      cases same
      exact ⟨i, rfl, List.getElem?_eq_getElem small⟩

-- A failed transaction leaves the rows alone.
theorem setLeafMetadata_failed {write : Faults} {start : Nat} {metadata : List Metadata} {reason : GoError}
    (failed : (d.setLeafMetadata write start metadata).1 = .error reason) :
    (d.setLeafMetadata write start metadata).2 = d := by
  unfold Database.setLeafMetadata Database.writeRows transact at failed ⊢
  dsimp only at failed ⊢
  split at failed
  · rfl
  · rfl
  · cases failed

/-- The leaf at this place of a tile is not a record. -/
def BadLeaf (s : Service) (d : Database) (offset : Nat) : Prop :=
  ∃ i < s.tileWidth, ∃ leaf, d.leaves.row (offset * s.tileWidth + i) = some leaf ∧ ¬ ∃ m, IsEntry leaf m

/-- What was recorded since comes from records, and before this leaf. -/
structure Noted (old new : Database) (stop : Nat) : Prop where
  leaves : new.leaves = old.leaves
  origin : ∀ id m, new.leafMetadata.row id = some m →
    old.leafMetadata.row id = some m ∨ ∃ leaf, old.leaves.row id = some leaf ∧ IsEntry leaf m
  later : ∀ id, stop ≤ id → new.leafMetadata.row id = old.leafMetadata.row id

theorem Noted.refl (d : Database) (stop : Nat) : Noted d d stop := ⟨rfl, fun _ _ => .inl, fun _ _ => rfl⟩

theorem Noted.trans {old mid new : Database} {stop stop' : Nat} (first : Noted old mid stop)
    (second : Noted mid new stop') (upper : stop ≤ stop') : Noted old new stop' where
  leaves := second.leaves.trans first.leaves
  origin id m present := by
    rcases second.origin id m present with before | ⟨leaf, there, entry⟩
    · exact first.origin id m before
    · exact .inr ⟨leaf, first.leaves ▸ there, entry⟩
  later id above := (second.later id above).trans (first.later id (Nat.le_trans upper above))

/-- A tile of fine leaves is recorded, or an error is returned and nothing is; the second if one of them is
not a record. -/
theorem processTile_exact {offset : Nat} (fits : (offset + 1) * s.tileWidth ≤ 2 ^ 64)
    (fine : ∀ i < s.tileWidth, ∀ leaf, d.leaves.row (offset * s.tileWidth + i) = some leaf → Fine leaf) :
    (∃ reason, s.processTile faults offset d = (.error reason, d)) ∨
    ¬ BadLeaf s d offset ∧ ∃ d', s.processTile faults offset d = (.ok (), d') ∧
      Noted d d' ((offset + 1) * s.tileWidth) ∧
      ∀ id < offset * s.tileWidth, d'.leafMetadata.row id = d.leafMetadata.row id := by
  unfold Service.processTile
  cases read : s.tileLeaves faults offset d with
  | error reason => exact .inl ⟨reason, rfl⟩
  | ok leaves =>
    have block : d.leafBlock (offset * s.tileWidth) s.tileWidth = .ok leaves := by
      unfold Service.tileLeaves at read
      split at read
      · cases read
      · exact read
    obtain ⟨length, rows⟩ := leafBlock_rows block
    have each : ∀ h ∈ leaves, Fine h := by
      intro h member
      obtain ⟨i, small, rfl⟩ := List.mem_iff_getElem.mp member
      exact fine i (length ▸ small) _ ((rows i (length ▸ small)).trans (List.getElem?_eq_getElem small))
    rcases mapM_fine each with ⟨metadata, parsed, entries⟩ | ⟨reason, failed⟩
    · simp only [parsed]
      have size : metadata.length = s.tileWidth := entries.length_eq.symm.trans length
      rw [Nat.succ_mul] at fits
      cases wrote : (d.setLeafMetadata (faults.write offset) (offset * s.tileWidth) metadata).1 with
      | error reason =>
        left
        refine ⟨reason, ?_⟩
        rw [setLeafMetadata_failed wrote]
        rfl
      | ok _ =>
        refine .inr ⟨?_, _, rfl, ⟨rfl, fun id m present => ?_, fun id above => ?_⟩, fun id below => ?_⟩
        · rintro ⟨i, small, leaf, there, bad⟩
          have inside : i < leaves.length := length ▸ small
          rw [rows i small, List.getElem?_eq_getElem inside] at there
          obtain rfl := Option.some.inj there
          exact bad ⟨_, entries.get inside (size.symm ▸ small)⟩
        · rcases (setLeafMetadata_rows (size ▸ fits) id).2 m present with before | ⟨i, rfl, found⟩
          · exact .inl before
          · obtain ⟨small, same⟩ := List.getElem?_eq_some_iff.mp found
            have inside : i < leaves.length := by omega
            refine .inr ⟨leaves[i], ?_, ?_⟩
            · rw [rows i (by omega), List.getElem?_eq_getElem inside]
            · rw [← same]
              exact entries.get inside small
        · rw [Nat.succ_mul] at above
          exact (setLeafMetadata_rows (size ▸ fits) id).1 (.inr (by omega))
        · exact (setLeafMetadata_rows (size ▸ fits) id).1 (.inl below)
    · simp only [failed]
      exact .inl ⟨reason, rfl⟩

theorem BadLeaf.congr {d' : Database} {offset : Nat} (same : d'.leaves = d.leaves) :
    BadLeaf s d' offset ↔ BadLeaf s d offset := by
  unfold BadLeaf
  rw [same]

theorem processTiles_exact {first count : Nat} (fits : (first + count) * s.tileWidth ≤ 2 ^ 64)
    (fine : ∀ id leaf, first * s.tileWidth ≤ id → id < (first + count) * s.tileWidth →
      d.leaves.row id = some leaf → Fine leaf) :
    ∃ d', Noted d d' ((first + count) * s.tileWidth) ∧
      ((∃ results, Eff.each (s.processTile faults) (List.range' first count) d = (.ok results, d') ∧
          ∀ offset, first ≤ offset → offset < first + count → ¬ BadLeaf s d offset) ∨
        ∃ reason, Eff.each (s.processTile faults) (List.range' first count) d = (.error reason, d') ∧
          ∀ offset, first ≤ offset → BadLeaf s d offset →
            ∀ id, offset * s.tileWidth ≤ id → d'.leafMetadata.row id = d.leafMetadata.row id) := by
  induction count generalizing first d with
  | zero => exact ⟨d, .refl d _, .inl ⟨[], rfl, fun offset lower upper => absurd upper (by omega)⟩⟩
  | succ count ih =>
    rw [← Nat.add_assoc, Nat.add_right_comm] at fits
    have mono : ∀ {a b : Nat}, a ≤ b → a * s.tileWidth ≤ b * s.tileWidth := Nat.mul_le_mul_right _
    have tile : ∀ i < s.tileWidth, ∀ leaf, d.leaves.row (first * s.tileWidth + i) = some leaf → Fine leaf := by
      intro i small leaf there
      have upper := mono (show first + 1 ≤ first + (count + 1) by omega)
      rw [Nat.succ_mul] at upper
      exact fine _ leaf (Nat.le_add_right _ _) (by omega) there
    rw [List.range'_succ, Eff.each]
    rcases @processTile_exact s faults d first (Nat.le_trans (mono (by omega)) fits) tile with
      ⟨reason, failed⟩ | ⟨good, d1, ran, recorded, -⟩
    · refine ⟨d, .refl d _, .inr ⟨reason, Eff.bind_of_error failed, fun _ _ _ _ _ => rfl⟩⟩
    · obtain ⟨d', more, rest⟩ := @ih d1 (first + 1) fits fun id leaf lower upper there => by
        rw [recorded.leaves] at there
        exact fine id leaf (Nat.le_trans (mono (Nat.le_succ first)) lower)
          (by rwa [Nat.add_right_comm] at upper) there
      have whole := recorded.trans more (mono (by omega))
      rw [Nat.add_right_comm] at whole
      refine ⟨d', whole, ?_⟩
      rw [Eff.bind_of_ok ran]
      rcases rest with ⟨results, rested, fine'⟩ | ⟨reason, rested, kept⟩
      · refine .inl ⟨() :: results, by rw [Eff.bind_of_ok rested]; rfl, fun offset lower upper bad => ?_⟩
        rcases Nat.eq_or_lt_of_le lower with rfl | above
        · exact good bad
        · exact fine' offset above (by omega) ((BadLeaf.congr recorded.leaves).mpr bad)
      · refine .inr ⟨reason, Eff.bind_of_error rested, fun offset lower bad id above => ?_⟩
        rcases Nat.eq_or_lt_of_le lower with rfl | beyond
        · exact absurd bad good
        · rw [kept offset beyond ((BadLeaf.congr recorded.leaves).mpr bad) id above]
          exact recorded.later id (Nat.le_trans (mono beyond) above)

/-- A call that records records and nothing else: it does not panic, what it records comes from leaves that are
records, and a leaf that is not one gets it an error, with nothing recorded for its tile. -/
structure RecordsExactly (s : Service) (faults : TableFaults) (checkpoint : Checkpoint) (d : Database) : Prop where
  noPanic : ∀ reason, (s.processMetadata faults checkpoint d).1 ≠ .panic reason
  recorded : ∀ id m, (s.processMetadata faults checkpoint d).2.leafMetadata.row id = some m →
    d.leafMetadata.row id = some m ∨ ∃ leaf, d.leaves.row id = some leaf ∧ IsEntry leaf m
  refused : ∀ first offset, s.firstTile faults d = .ok first → first ≤ offset → offset < checkpoint.n / s.tileWidth →
    BadLeaf s d offset →
    (∃ reason, (s.processMetadata faults checkpoint d).1 = .error reason) ∧
      ∀ i < s.tileWidth, (s.processMetadata faults checkpoint d).2.leafMetadata.row (offset * s.tileWidth + i) =
        d.leafMetadata.row (offset * s.tileWidth + i)

theorem recordsExactly_of_outcome {checkpoint : Checkpoint} {result : Outcome Unit} {d' : Database} {stop : Nat}
    (ran : s.processMetadata faults checkpoint d = (result, d')) (recorded : Noted d d' stop)
    (outcome : (result = .ok () ∧ ∀ first offset, s.firstTile faults d = .ok first → first ≤ offset →
        offset < checkpoint.n / s.tileWidth → ¬ BadLeaf s d offset) ∨
      ∃ reason, result = .error reason ∧ ∀ first offset, s.firstTile faults d = .ok first → first ≤ offset →
        BadLeaf s d offset → ∀ id, offset * s.tileWidth ≤ id → d'.leafMetadata.row id = d.leafMetadata.row id) :
    RecordsExactly s faults checkpoint d := by
  rcases outcome with ⟨rfl, good⟩ | ⟨reason, rfl, kept⟩
  · refine ⟨fun other => ?_, fun id m => ?_, fun first offset begins lower upper bad => ?_⟩
    · rw [ran]
      nofun
    · rw [ran]
      exact recorded.origin id m
    · exact absurd bad (good first offset begins lower upper)
  · refine ⟨fun other => ?_, fun id m => ?_, fun first offset begins lower upper bad => ?_⟩
    · rw [ran]
      nofun
    · rw [ran]
      exact recorded.origin id m
    · rw [ran]
      exact ⟨⟨reason, rfl⟩, fun i _ => kept first offset begins lower bad _ (Nat.le_add_right _ _)⟩

theorem processMetadata_first {checkpoint : Checkpoint} {first : Nat} (begins : s.firstTile faults d = .ok first) :
    s.processMetadata faults checkpoint d =
      (Eff.each (s.processTile faults) (List.range' first (checkpoint.n / s.tileWidth - first)) >>= fun _ =>
        pure ()) d := by
  unfold Service.processMetadata
  rw [begins]

theorem recordsExactly_of_fine {checkpoint : Checkpoint}
    (fine : ∀ first, s.firstTile faults d = .ok first → ∀ id leaf, first * s.tileWidth ≤ id →
      id < checkpoint.n / s.tileWidth * s.tileWidth → d.leaves.row id = some leaf → Fine leaf) :
    RecordsExactly s faults checkpoint d := by
  cases begins : s.firstTile faults d with
  | error reason =>
    have ran : s.processMetadata faults checkpoint d = (.error reason, d) := by
      unfold Service.processMetadata
      rw [begins]
    refine recordsExactly_of_outcome ran (.refl d 0) (.inr ⟨reason, rfl, fun first offset found => ?_⟩)
    rw [begins] at found
    cases found
  | ok first =>
    have same : ∀ other, s.firstTile faults d = .ok other → other = first := by
      intro other found
      rw [begins] at found
      cases found
      rfl
    have ran := @processMetadata_first s faults d checkpoint first begins
    by_cases more : first ≤ checkpoint.n / s.tileWidth
    · obtain ⟨count, sum⟩ := Nat.exists_eq_add_of_le more
      have whole := Nat.div_mul_le_self checkpoint.n s.tileWidth
      have word := checkpoint.small
      obtain ⟨d', recorded, outcome⟩ := @processTiles_exact s faults d first count (by rw [← sum]; omega)
        (by rw [← sum]; exact fine first begins)
      rw [sum, Nat.add_sub_cancel_left] at ran
      rcases outcome with ⟨results, went, good⟩ | ⟨reason, went, kept⟩
      · rw [Eff.bind_of_ok went] at ran
        refine recordsExactly_of_outcome ran recorded (.inl ⟨rfl, fun other offset found lower upper => ?_⟩)
        cases same other found
        exact good offset lower (by omega)
      · rw [Eff.bind_of_error went] at ran
        refine recordsExactly_of_outcome ran recorded (.inr ⟨reason, rfl, fun other offset found => ?_⟩)
        cases same other found
        exact kept offset
    · rw [Nat.sub_eq_zero_of_le (by omega)] at ran
      have done : s.processMetadata faults checkpoint d = (.ok (), d) := ran
      refine recordsExactly_of_outcome done (.refl d 0)
        (.inl ⟨rfl, fun other offset found lower upper => ?_⟩)
      cases same other found
      omega

end Tiles

section Exact

def entry : Metadata := ⟨[97], [98], [99], [100]⟩

theorem entry_isEntry : IsEntry (entryText entry) entry := ⟨rfl, by decide⟩

def TableFaults.clean : TableFaults := ⟨none, fun _ => none, fun _ => .clean⟩

-- A database with this leaf and a record.
def leafAndEntry (h : Bytes) : Database := { Database.empty with leaves := leafRows [h, entryText entry] }

def twoLeaves : Checkpoint := ⟨2, [], [], by decide⟩

theorem leafAndEntry_first (h : Bytes) : pairs.firstTile .clean (leafAndEntry h) = .ok 0 := rfl

theorem processTile_pair (h : Bytes) :
    (∀ reason, parseLeaf h = .panic reason →
      pairs.processTile .clean 0 (leafAndEntry h) = (.panic reason, leafAndEntry h)) ∧
    ∀ m, parseLeaf h = .ok m → ∃ d', pairs.processTile .clean 0 (leafAndEntry h) = (.ok (), d') := by
  have read : pairs.tileLeaves .clean 0 (leafAndEntry h) = .ok [h, entryText entry] := rfl
  constructor
  · intro reason panics
    simp [Service.processTile, read, panics]
  · intro m parsed
    simp only [Service.processTile, read, List.mapM_cons, parsed, entry_isEntry.parsed, List.mapM_nil,
      Outcome.pure_eq, Outcome.bind_ok]
    exact ⟨_, rfl⟩

-- A leaf that is neither a record nor rejected gets through or stops the program.
theorem fine_of_recordsExactly {h : Bytes} (exact' : RecordsExactly pairs .clean twoLeaves (leafAndEntry h)) :
    Fine h := by
  have ran : pairs.processMetadata .clean twoLeaves (leafAndEntry h) =
      (Eff.each (pairs.processTile .clean) [0] >>= fun _ => pure ()) (leafAndEntry h) :=
    processMetadata_first (leafAndEntry_first h)
  cases parsed : parseLeaf h with
  | error reason => exact .inr (parseLeaf_error_iff.mp ⟨reason, parsed⟩)
  | panic reason =>
    rw [Eff.each, Eff.bind_of_panic (Eff.bind_of_panic ((processTile_pair h).1 reason parsed))] at ran
    exact absurd (congrArg Prod.fst ran) (exact'.noPanic reason)
  | ok m =>
    obtain ⟨d', went⟩ := (processTile_pair h).2 m parsed
    have whole : Eff.each (pairs.processTile .clean) [0] (leafAndEntry h) = (.ok [()], d') := by
      rw [Eff.each, Eff.bind_of_ok went]
      rfl
    rw [Eff.bind_of_ok whole] at ran
    by_contra other
    have bad : BadLeaf pairs (leafAndEntry h) 0 :=
      ⟨0, by decide, h, rfl, fun entry => other (.inl entry)⟩
    obtain ⟨⟨reason, failed⟩, -⟩ := exact'.refused 0 0 (leafAndEntry_first h) (Nat.le_refl _) (by decide) bad
    rw [ran] at failed
    cases failed

/-- A leaf is handled as it should be in every call on records and such leaves exactly if it is a record or has
an error of its own; and a call all of whose leaves are of this kind records the records and nothing else. -/
theorem processMetadata_exact_iff (h : Bytes) :
    (∀ m, IsEntry h m → parseLeaf h = .ok m) ∧
    ((∀ s faults checkpoint d,
        (∀ id leaf, d.leaves.row id = some leaf → leaf = h ∨ ∃ m, IsEntry leaf m) →
        RecordsExactly s faults checkpoint d) ↔ Fine h) ∧
    ∀ s faults checkpoint d,
      (∀ first, s.firstTile faults d = .ok first → ∀ id leaf, first * s.tileWidth ≤ id →
        id < checkpoint.n / s.tileWidth * s.tileWidth → d.leaves.row id = some leaf → Fine leaf) →
      RecordsExactly s faults checkpoint d := by
  refine ⟨fun m entry => entry.parsed, ⟨fun all => ?_, fun fine s faults checkpoint d stored => ?_⟩,
    fun s faults checkpoint d => recordsExactly_of_fine⟩
  · refine fine_of_recordsExactly (all pairs .clean twoLeaves (leafAndEntry h) fun id leaf present => ?_)
    match id with
    | 0 => exact .inl (Option.some.inj present).symm
    | 1 => exact .inr ⟨entry, (Option.some.inj present) ▸ entry_isEntry⟩
    | id + 2 => cases present
  · refine recordsExactly_of_fine fun _ _ id leaf _ _ present => ?_
    rcases stored id leaf present with rfl | entry
    · exact fine
    · exact .inl entry

-- "a b c" and "x", without a record's other fields.
theorem processMetadata_exact_rejected :
    Rejected [97, 32, 98, 32, 99, 10, 120, 10] ∧
    RecordsExactly pairs .clean twoLeaves (leafAndEntry [97, 32, 98, 32, 99, 10, 120, 10]) := by
  have rejected : Rejected [97, 32, 98, 32, 99, 10, 120, 10] :=
    ⟨[120], [97], [98], [99], ⟨[97, 32, 98, 32, 99], [[]], [], by decide, by decide⟩, [120], [], by decide,
      .inl (by decide)⟩
  refine ⟨rejected, (processMetadata_exact_iff _).2.1.mpr (.inr rejected) _ _ _ _ fun id leaf present => ?_⟩
  match id with
  | 0 => exact .inl (Option.some.inj present).symm
  | 1 => exact .inr ⟨entry, (Option.some.inj present) ▸ entry_isEntry⟩
  | id + 2 => cases present

/-- A leaf without a newline makes ProcessMetadata panic, and one whose second version only begins like the
first is recorded. -/
theorem malformed_leaves :
    (pairs.processMetadata .clean twoLeaves (leafAndEntry [97])).1 = .panic "index out of range" ∧
    (pairs.processMetadata .clean twoLeaves
      (leafAndEntry [97, 32, 98, 32, 99, 10, 97, 32, 98, 120, 32, 100, 10])).2.leafMetadata.row 0 =
        some ⟨[97], [98], [99], [100]⟩ ∧
    (¬ ∃ m, IsEntry [97] m) ∧ ¬ ∃ m, IsEntry [97, 32, 98, 32, 99, 10, 97, 32, 98, 120, 32, 100, 10] m := by
  refine ⟨by rfl, by rfl, ?_, ?_⟩
  · rintro ⟨m, entry⟩
    cases entry.parsed
  · rintro ⟨m, entry⟩
    obtain ⟨first, second, lines, -, others⟩ := entry.splits
    have split : ([97, 32, 98, 32, 99, 10, 97, 32, 98, 120, 32, 100, 10] : Bytes).splitOn 10 =
        [[97, 32, 98, 32, 99], [97, 32, 98, 120, 32, 100], []] := by decide
    obtain ⟨-, rfl⟩ : [97, 32, 98, 32, 99] = first ∧ [97, 32, 98, 120, 32, 100] = second := by
      simpa using split.symm.trans lines
    have fields : ([97, 32, 98, 120, 32, 100] : Bytes).splitOn 32 = [[97], [98, 120], [100]] := by decide
    have version : [98, 120] = m.version ++ goMod := by
      have same := fields.symm.trans others
      simp only [List.cons.injEq] at same
      exact same.2.1
    have lengths := congrArg List.length version
    simp [goMod] at lengths

end Exact

end Audit
