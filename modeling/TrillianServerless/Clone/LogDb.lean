import TrillianServerless.Shared.Table

set_option autoImplicit false

namespace LogDb

open Go Sql

def errNoDataFound : GoError := .text "no data found"

-- The gob encoding of a compact range is undone by its decoding and is left out.
structure StoredCheckpoint where
  data : Bytes
  compactRange : List Bytes
  deriving DecidableEq, Repr

/-- The tables of a cloned log. Checkpoints have their size as key. -/
structure Database where
  leaves : Table Bytes
  checkpoints : Table StoredCheckpoint

namespace Database

def empty : Database := ⟨.empty, .empty⟩

def writeLeaves (faults : Faults) (start : Nat) (leaves : List Bytes) (d : Database) :
    Except GoError Unit × Database :=
  let result := transact (.wrap "BeginTx: %w") faults (Table.counted start leaves) d.leaves
  (result.1, { d with leaves := result.2 })

/-- `scan` is the error of reading the largest size, if there is one. -/
def writeCheckpoint (faults : Faults) (scan : Option GoError) (size : Nat) (checkpoint : Bytes)
    (compactRange : List Bytes) (d : Database) : Except GoError Unit × Database :=
  match faults.begins, scan with
  | some _, _ => (.error (.text "BeginTx(): %v"), d)
  | none, some _ => (.error (.text "Scan(): %v"), d)
  | none, none =>
    if size ≤ d.checkpoints.max?.getD 0 then (.ok (), d)
    else
      let result := transact id faults [(size, ⟨checkpoint, compactRange⟩)] d.checkpoints
      (result.1, { d with checkpoints := result.2 })

def getLatestCheckpoint (fault : Option GoError) (d : Database) :
    Except GoError (Nat × Bytes × List Bytes) :=
  match fault, d.checkpoints.max? with
  | some _, _ => .error (.text "Scan(): %v")
  | none, none => .error errNoDataFound
  | none, some size =>
    match d.checkpoints.row size with
    | none => .error errNoDataFound
    | some cp => .ok (size, cp.data, cp.compactRange)

def head (fault : Option GoError) (d : Database) : Except GoError Nat :=
  match fault, d.leaves.max? with
  | some reason, _ => .error (.wrap "failed to get max revision: %w" reason)
  | none, none => .error errNoDataFound
  | none, some id => .ok id

end Database

section Writes

variable {faults : Faults} {d : Database}

theorem writeLeaves_whole_iff {start : Nat} {leaves : List Bytes} (length : leaves.length ≤ 2 ^ 64) :
    Whole (fun d' : Database => Stored (Table.counted start leaves) d'.leaves) d
        (d.writeLeaves faults start leaves) ↔
      faults.begins ≠ none ∨ faults.commits ≠ none ∨
        faults.Harmless (Table.counted start leaves) d.leaves := by
  rw [← transact_whole_iff (.wrap "BeginTx: %w") (Table.counted_nodup length)]
  exact whole_within Database.leaves (fun t => { d with leaves := t }) (fun _ => rfl) rfl _

/-- The checkpoint is stored, or one that is as large was. -/
def Database.Kept (size : Nat) (cp : StoredCheckpoint) (d d' : Database) : Prop :=
  Stored [(size, cp)] d'.checkpoints ∨ ∃ other, size ≤ other ∧ d.checkpoints.row other ≠ none

theorem kept_before_iff {size : Nat} (positive : 0 < size) :
    size ≤ d.checkpoints.max?.getD 0 ↔ ∃ other, size ≤ other ∧ d.checkpoints.row other ≠ none := by
  constructor
  · intro small
    cases max : d.checkpoints.max? with
    | none =>
      rw [max] at small
      exact absurd small (Nat.not_le.mpr positive)
    | some last =>
      rw [max] at small
      exact ⟨last, small, Table.max?_present max⟩
  · rintro ⟨other, small, present⟩
    obtain ⟨last, max, above, _⟩ := Table.le_max? present
    rw [max]
    exact Nat.le_trans small above

theorem writeCheckpoint_whole_iff {scan : Option GoError} {size : Nat} {checkpoint : Bytes}
    {compactRange : List Bytes} :
    Whole (d.Kept size ⟨checkpoint, compactRange⟩) d
        (d.writeCheckpoint faults scan size checkpoint compactRange) ↔
      faults.begins ≠ none ∨ scan ≠ none ∨
        (∃ other, size ≤ other ∧ d.checkpoints.row other ≠ none) ∨
        0 < size ∧ (faults.commits ≠ none ∨ faults.statement 0 = false) := by
  unfold Database.writeCheckpoint
  cases begins : faults.begins with
  | some reason => simp [Whole]
  | none =>
    cases scan with
    | some reason => simp [Whole]
    | none =>
      by_cases before : ∃ other, size ≤ other ∧ d.checkpoints.row other ≠ none
      · have small : size ≤ d.checkpoints.max?.getD 0 := by
          obtain ⟨other, above, present⟩ := before
          obtain ⟨last, max, upper, _⟩ := Table.le_max? present
          rw [max]
          exact Nat.le_trans above upper
        simp only [if_pos small]
        exact iff_of_true (.inl ⟨rfl, .inr before⟩) (.inr (.inr (.inl before)))
      · have free : d.checkpoints.row size = none := by
          by_contra present
          exact before ⟨size, Nat.le_refl _, present⟩
        rcases Nat.eq_zero_or_pos size with rfl | positive
        · simp only [if_pos (Nat.zero_le _)]
          refine iff_of_false ?_ (by simpa using before)
          rintro (⟨_, stored | earlier⟩ | ⟨⟨reason, failed⟩, _⟩)
          · have there := stored (0, ⟨checkpoint, compactRange⟩) (by simp)
            rw [free] at there
            cases there
          · exact before earlier
          · cases failed
        · have large : ¬ size ≤ d.checkpoints.max?.getD 0 := fun small =>
            before ((kept_before_iff positive).mp small)
          have kept : d.Kept size ⟨checkpoint, compactRange⟩ =
              fun d' => Stored [(size, ⟨checkpoint, compactRange⟩)] d'.checkpoints := by
            funext d'
            simp only [Database.Kept, before, or_false]
          have whole := @transact_whole_iff _ faults [(size, ⟨checkpoint, compactRange⟩)] d.checkpoints
            id (by simp)
          rw [harmless_single free, begins] at whole
          simp only [if_neg large, kept]
          rw [whole_within Database.checkpoints (fun t => { d with checkpoints := t }) (fun _ => rfl) rfl,
            whole]
          simp [before, positive]

-- A checkpoint goes into a free row or nowhere.
theorem writeCheckpoint_row {scan : Option GoError} {size : Nat} {checkpoint : Bytes}
    {compactRange : List Bytes} :
    (d.writeCheckpoint faults scan size checkpoint compactRange).2.leaves = d.leaves ∧
    ∀ id, (d.writeCheckpoint faults scan size checkpoint compactRange).2.checkpoints.row id =
        d.checkpoints.row id ∨
      id = size ∧ d.checkpoints.row id = none ∧
        (d.writeCheckpoint faults scan size checkpoint compactRange).2.checkpoints.row id =
          some ⟨checkpoint, compactRange⟩ := by
  unfold Database.writeCheckpoint transact
  cases faults.begins with
  | some reason => exact ⟨rfl, fun _ => .inl rfl⟩
  | none =>
    cases scan with
    | some reason => exact ⟨rfl, fun _ => .inl rfl⟩
    | none =>
      dsimp only
      split
      · exact ⟨rfl, fun _ => .inl rfl⟩
      · cases faults.commits with
        | some reason => exact ⟨rfl, fun _ => .inl rfl⟩
        | none =>
          refine ⟨rfl, fun id => ?_⟩
          simp only [Table.insertAll, Table.insert_row]
          by_cases stored : id = size ∧ faults.statement 0 = false ∧ d.checkpoints.row size = none
          · rw [if_pos stored]
            exact .inr ⟨stored.1, stored.1 ▸ stored.2.2, rfl⟩
          · rw [if_neg stored]
            exact .inl rfl

end Writes

end LogDb
