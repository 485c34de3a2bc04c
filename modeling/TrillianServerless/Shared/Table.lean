import Mathlib.Algebra.Order.Ring.Nat
import Mathlib.Data.List.Nodup
import Mathlib.Data.Nat.Find
import Mathlib.Logic.Function.Basic
import TrillianServerless.Shared.Go

set_option autoImplicit false

namespace Sql

open Go

/-- A table whose primary key is a number. -/
structure Table (Row : Type) where
  row : Nat → Option Row
  bound : Nat
  fits : ∀ id, bound ≤ id → row id = none

-- What goes wrong in a transaction: at its begin, at its statements by number, at its commit. A
-- statement also fails when its key is taken.
structure Faults where
  begins : Option GoError
  statement : Nat → Bool
  commits : Option GoError

def Faults.clean : Faults := ⟨none, fun _ => false, none⟩

variable {Row : Type}

namespace Table

def empty : Table Row := ⟨fun _ => none, 0, fun _ _ => rfl⟩

def set (t : Table Row) (id : Nat) (x : Row) : Table Row where
  row := Function.update t.row id (some x)
  bound := max t.bound (id + 1)
  fits other beyond := by
    rw [Function.update_of_ne (by omega)]
    exact t.fits other (by omega)

-- INSERT INTO, with the error thrown away as the callers of tx.Exec do.
def insert (t : Table Row) (fails : Bool) (id : Nat) (x : Row) : Table Row :=
  if fails = true ∨ t.row id ≠ none then t else t.set id x

def insertAll (fails : Nat → Bool) : Nat → List (Nat × Row) → Table Row → Table Row
  | _, [], t => t
  | i, r :: rest, t => insertAll fails (i + 1) rest (t.insert (fails i) r.1 r.2)

-- SELECT MAX(id).
def max? (t : Table Row) : Option Nat :=
  let id := Nat.findGreatest (fun id => (t.row id).isSome = true) t.bound
  if (t.row id).isSome then some id else none

-- SELECT ... WHERE id>=first AND id<stop ORDER BY id.
def select (t : Table Row) (first stop : Nat) : List Row :=
  (List.range' first (min stop t.bound - first)).filterMap t.row

/-- The rows are numbered from 0 on without a gap. -/
def Holds (t : Table Row) (rows : List Row) : Prop := ∀ id, t.row id = rows[id]?

section Insert

variable (t : Table Row)

theorem set_row (id other : Nat) (x : Row) :
    (t.set id x).row other = if other = id then some x else t.row other := Function.update_apply _ _ _ _

theorem insert_row (fails : Bool) (id other : Nat) (x : Row) :
    (t.insert fails id x).row other =
      if other = id ∧ fails = false ∧ t.row id = none then some x else t.row other := by
  unfold insert
  by_cases skip : fails = true ∨ t.row id ≠ none
  · rw [if_pos skip, if_neg]
    rintro ⟨_, works, free⟩
    rcases skip with broken | taken
    · rw [works] at broken
      cases broken
    · exact taken free
  · push Not at skip
    rw [if_neg (by simpa using skip), set_row]
    by_cases here : other = id
    · rw [if_pos here, if_pos ⟨here, by simpa using skip⟩]
    · rw [if_neg here, if_neg fun all => here all.1]

-- A statement does not touch the rows of others,
theorem insertAll_other (fails : Nat → Bool) (i : Nat) {rows : List (Nat × Row)} {id : Nat}
    (other : id ∉ rows.map Prod.fst) : (insertAll fails i rows t).row id = t.row id := by
  induction rows generalizing i t with
  | nil => rfl
  | cons r rest ih =>
    simp only [List.map_cons, List.mem_cons, not_or] at other
    rw [insertAll, ih _ _ other.2, insert_row, if_neg fun all => other.1 all.1]

/-- and a row is stored by its own statement or was there before. -/
theorem insertAll_listed (fails : Nat → Bool) (i : Nat) {rows : List (Nat × Row)}
    (distinct : (rows.map Prod.fst).Nodup) {j id : Nat} {x : Row} (listed : rows[j]? = some (id, x)) :
    (insertAll fails i rows t).row id =
      if fails (i + j) = false ∧ t.row id = none then some x else t.row id := by
  induction rows generalizing i j t with
  | nil => simp at listed
  | cons r rest ih =>
    rw [List.map_cons, List.nodup_cons] at distinct
    cases j with
    | zero =>
      obtain rfl : r = (id, x) := by simpa using listed
      rw [insertAll, insertAll_other _ _ _ distinct.1, insert_row]
      rw [Nat.add_zero]
      by_cases stored : fails i = false ∧ t.row id = none
      · rw [if_pos ⟨rfl, stored⟩, if_pos stored]
      · rw [if_neg fun all => stored all.2, if_neg stored]
    | succ j =>
      have later : rest[j]? = some (id, x) := by simpa using listed
      have apart : id ≠ r.1 := fun same =>
        distinct.1 (same ▸ List.mem_map_of_mem (List.mem_of_getElem? later))
      have kept : (t.insert (fails i) r.1 r.2).row id = t.row id := by
        rw [insert_row, if_neg fun all => apart all.1]
      rw [insertAll, ih _ _ distinct.2 later, kept, show i + 1 + j = i + (j + 1) by omega]

-- A row of the table was there before or is one of the list.
theorem insertAll_origin (fails : Nat → Bool) (i : Nat) {rows : List (Nat × Row)} {id : Nat} {x : Row}
    (present : (insertAll fails i rows t).row id = some x) : t.row id = some x ∨ (id, x) ∈ rows := by
  induction rows generalizing i t with
  | nil => exact .inl present
  | cons r rest ih =>
    rcases ih _ _ present with before | later
    · rw [insert_row] at before
      split at before
      next stored =>
        cases before
        exact .inr (by simp [stored.1])
      next => exact .inl before
    · exact .inr (List.mem_cons_of_mem _ later)

-- Without failures a row is there if it was, or is in the list.
theorem insertAll_present (i : Nat) {rows : List (Nat × Row)} {id : Nat} :
    (insertAll (fun _ => false) i rows t).row id ≠ none ↔ t.row id ≠ none ∨ id ∈ rows.map Prod.fst := by
  induction rows generalizing i t with
  | nil => simp [insertAll]
  | cons r rest ih =>
    rw [insertAll, ih, insert_row, List.map_cons, List.mem_cons]
    by_cases here : id = r.1
    · subst here
      by_cases free : t.row r.1 = none
      · simp [free]
      · simp [free]
    · simp [here]

end Insert

section Queries

variable {t : Table Row} {rows : List Row}

theorem max?_eq_some {id : Nat} (present : t.row id ≠ none) (last : ∀ other, id < other → t.row other = none) :
    t.max? = some id := by
  have inside : id < t.bound := by
    by_contra beyond
    exact present (t.fits id (by omega))
  have some' : (t.row id).isSome = true := Option.isSome_iff_ne_none.mpr present
  have found : Nat.findGreatest (fun id => (t.row id).isSome = true) t.bound = id := by
    refine Nat.findGreatest_eq_iff.mpr ⟨Nat.le_of_lt inside, fun _ => some', fun other more _ => ?_⟩
    simp [last other more]
  simp [max?, found, some']

theorem max?_eq_none (empty : ∀ id, t.row id = none) : t.max? = none := by
  simp [max?, empty]

theorem le_max? {id : Nat} (present : t.row id ≠ none) :
    ∃ last, t.max? = some last ∧ id ≤ last ∧ t.row last ≠ none := by
  let Present (other : Nat) : Prop := (t.row other).isSome = true
  have inside : id < t.bound := by
    by_contra beyond
    exact present (t.fits id (by omega))
  have there : Present id := Option.isSome_iff_ne_none.mpr present
  have last : Present (Nat.findGreatest Present t.bound) :=
    Nat.findGreatest_spec (Nat.le_of_lt inside) there
  exact ⟨_, if_pos last, Nat.le_findGreatest (Nat.le_of_lt inside) there,
    Option.isSome_iff_ne_none.mp last⟩

theorem max?_present {id : Nat} (max : t.max? = some id) : t.row id ≠ none := by
  unfold max? at max
  dsimp only at max
  split at max
  next found =>
    cases max
    exact Option.isSome_iff_ne_none.mp found
  next => cases max

theorem Holds.max? (holds : t.Holds rows) :
    t.max? = if rows.length = 0 then none else some (rows.length - 1) := by
  by_cases none : rows.length = 0
  · rw [if_pos none]
    refine max?_eq_none fun id => ?_
    rw [holds id, List.getElem?_eq_none (by omega)]
  · rw [if_neg none]
    refine max?_eq_some ?_ fun other more => ?_
    · rw [holds, List.getElem?_eq_getElem (by omega)]
      simp
    · rw [holds, List.getElem?_eq_none (by omega)]

theorem Holds.unique {other : List Row} (holds : t.Holds rows) (same : t.Holds other) : rows = other :=
  List.ext_getElem? fun id => (holds id).symm.trans (same id)

-- Rows that stay keep the largest key from falling.
theorem max?_mono {t' : Table Row} (stays : ∀ id, t.row id ≠ none → t'.row id ≠ none) :
    t.max?.getD 0 ≤ t'.max?.getD 0 := by
  cases max : t.max? with
  | none => exact Nat.zero_le _
  | some id =>
    obtain ⟨last, found, above, _⟩ := le_max? (stays id (max?_present max))
    rw [found]
    exact above

theorem select_eq (first stop : Nat) :
    t.select first stop = (List.range' first (stop - first)).filterMap t.row := by
  unfold select
  by_cases inside : stop ≤ t.bound
  · rw [Nat.min_eq_left inside]
  · rcases Nat.lt_or_ge first t.bound with low | high
    · have split : stop - first = (t.bound - first) + (stop - t.bound) := by omega
      have rest : (List.range' (first + 1 * (t.bound - first)) (stop - t.bound)).filterMap t.row = [] := by
        rw [List.filterMap_eq_nil_iff]
        intro id member
        rw [List.mem_range'_1] at member
        exact t.fits id (by omega)
      rw [Nat.min_eq_right (by omega), split, ← List.range'_append, List.filterMap_append, rest,
        List.append_nil]
    · have none : (List.range' first (stop - first)).filterMap t.row = [] := by
        rw [List.filterMap_eq_nil_iff]
        intro id member
        rw [List.mem_range'_1] at member
        exact t.fits id (by omega)
      rw [none, Nat.min_eq_right (by omega), show t.bound - first = 0 by omega]
      rfl

theorem Holds.select (holds : t.Holds rows) (first stop : Nat) :
    t.select first stop = (rows.drop first).take (stop - first) := by
  rw [select_eq]
  generalize stop - first = count
  induction count generalizing first with
  | zero => simp
  | succ count ih =>
    rw [List.range'_succ, List.filterMap_cons, holds first, ih (first + 1)]
    rcases Nat.lt_or_ge first rows.length with inside | beyond
    · rw [List.getElem?_eq_getElem inside]
      conv_rhs => rw [List.drop_eq_getElem_cons inside, List.take_succ_cons]
    · rw [List.getElem?_eq_none beyond, List.drop_eq_nil_of_le beyond,
        List.drop_eq_nil_of_le (by omega)]
      simp

end Queries

-- Rows with consecutive keys.
def numbered (first : Nat) (rows : List Row) : List (Nat × Row) :=
  rows.mapIdx fun i x => (first + i, x)

theorem numbered_keys (first : Nat) (rows : List Row) :
    (numbered first rows).map Prod.fst = List.range' first rows.length := by
  apply List.ext_getElem
  · simp [numbered]
  · intro i lower upper
    simp [numbered]

theorem numbered_nodup (first : Nat) (rows : List Row) : ((numbered first rows).map Prod.fst).Nodup := by
  rw [numbered_keys]
  exact List.nodup_range'

-- Rows whose keys are counted on from `start` in a machine word.
def counted (start : Nat) (rows : List Row) : List (Nat × Row) :=
  rows.mapIdx fun i x => ((i + start) % 2 ^ 64, x)

theorem counted_nodup {start : Nat} {rows : List Row} (length : rows.length ≤ 2 ^ 64) :
    ((counted start rows).map Prod.fst).Nodup := by
  have count : ((counted start rows).map Prod.fst).length = rows.length := by
    simp [counted]
  rw [List.nodup_iff_injective_getElem]
  intro i j same
  have lower : i.val < rows.length := count ▸ i.isLt
  have upper : j.val < rows.length := count ▸ j.isLt
  have keys : (i.val + start) % 2 ^ 64 = (j.val + start) % 2 ^ 64 := by
    simpa [counted] using same
  exact Fin.ext (by omega)

theorem counted_eq {start : Nat} {rows : List Row} (inside : start + rows.length ≤ 2 ^ 64) :
    counted start rows = numbered start rows := by
  apply List.ext_getElem
  · simp [counted, numbered]
  · intro i lower upper
    simp only [counted, List.length_mapIdx] at lower
    simp only [counted, numbered, List.getElem_mapIdx]
    rw [Nat.mod_eq_of_lt (by omega), Nat.add_comm]

theorem Holds.insertAll {t : Table Row} {rows : List Row} (holds : t.Holds rows) (i : Nat) (more : List Row) :
    (insertAll (fun _ => false) i (numbered rows.length more) t).Holds (rows ++ more) := by
  intro id
  by_cases listed : rows.length ≤ id ∧ id < rows.length + more.length
  · obtain ⟨j, rfl⟩ := Nat.exists_eq_add_of_le listed.1
    have inside : j < more.length := by omega
    have found : (numbered rows.length more)[j]? = some (rows.length + j, more[j]) := by
      simp [numbered, inside]
    rw [insertAll_listed t _ i (numbered_nodup _ _) found, holds, if_pos ⟨rfl, by simp⟩]
    simp [inside]
  · rw [insertAll_other, holds]
    · rcases Nat.lt_or_ge id rows.length with low | high
      · rw [List.getElem?_append_left low]
      · rw [List.getElem?_eq_none high, List.getElem?_eq_none (by simp; omega)]
    · rw [numbered_keys, List.mem_range'_1]
      omega

end Table

section Transactions

/-- A transaction that inserts rows into one table. -/
def transact (beginError : GoError → GoError) (faults : Faults) (rows : List (Nat × Row)) (t : Table Row) :
    Except GoError Unit × Table Row :=
  match faults.begins, faults.commits with
  | some reason, _ => (.error (beginError reason), t)
  | none, some reason => (.error reason, t)
  | none, none => (.ok (), t.insertAll faults.statement 0 rows)

def Stored (rows : List (Nat × Row)) (t : Table Row) : Prop := ∀ r ∈ rows, t.row r.1 = some r.2

/-- The work is done, or there is an error and nothing has changed. -/
def Whole {D : Type} (done : D → Prop) (d : D) (result : Except GoError Unit × D) : Prop :=
  (result.1 = .ok () ∧ done result.2) ∨ (∃ reason, result.1 = .error reason) ∧ result.2 = d

-- A table is a part of its database.
theorem whole_within {D T : Type} {done : T → Prop} {d : D} (get : D → T) (put : T → D)
    (found : ∀ t, get (put t) = t) (same : put (get d) = d) (result : Except GoError Unit × T) :
    Whole (fun d' => done (get d')) d (result.1, put result.2) ↔ Whole done (get d) result := by
  unfold Whole
  dsimp only
  rw [found]
  refine or_congr Iff.rfl (and_congr Iff.rfl ⟨fun unchanged => ?_, fun unchanged => ?_⟩)
  · rw [← unchanged, found]
  · rw [unchanged, same]

-- No statement fails, but for rows that were stored before.
def Faults.Harmless (faults : Faults) (rows : List (Nat × Row)) (t : Table Row) : Prop :=
  ∀ j id x, rows[j]? = some (id, x) → t.row id = some x ∨ t.row id = none ∧ faults.statement j = false

variable {faults : Faults} {rows : List (Nat × Row)} {t : Table Row}

theorem stored_insertAll_iff (distinct : (rows.map Prod.fst).Nodup) :
    Stored rows (t.insertAll faults.statement 0 rows) ↔ faults.Harmless rows t := by
  constructor
  · intro stored j id x listed
    have row := stored (id, x) (List.mem_of_getElem? listed)
    rw [Table.insertAll_listed t _ 0 distinct listed, Nat.zero_add] at row
    split at row
    next works => exact .inr ⟨works.2, works.1⟩
    next => exact .inl row
  · rintro harmless ⟨id, x⟩ member
    obtain ⟨j, listed⟩ := List.mem_iff_getElem?.mp member
    rw [Table.insertAll_listed t _ 0 distinct listed, Nat.zero_add]
    rcases harmless j id x listed with there | ⟨free, works⟩
    · rw [if_neg (by simp [there]), there]
    · rw [if_pos ⟨works, free⟩]

theorem harmless_single {id : Nat} {x : Row} (free : t.row id = none) :
    faults.Harmless [(id, x)] t ↔ faults.statement 0 = false := by
  constructor
  · intro harmless
    rcases harmless 0 id x rfl with there | ⟨_, works⟩
    · rw [free] at there
      cases there
    · exact works
  · intro works j id' x' listed
    cases j with
    | zero =>
      cases listed
      exact .inr ⟨free, works⟩
    | succ j => simp at listed

/-- A transaction is whole exactly when it does not come to its commit or no statement fails. -/
theorem transact_whole_iff (beginError : GoError → GoError) (distinct : (rows.map Prod.fst).Nodup) :
    Whole (Stored rows) t (transact beginError faults rows t) ↔
      faults.begins ≠ none ∨ faults.commits ≠ none ∨ faults.Harmless rows t := by
  unfold transact Whole
  cases begins : faults.begins with
  | some reason => simp
  | none =>
    cases commits : faults.commits with
    | some reason => simp
    | none => simp [stored_insertAll_iff distinct]

end Transactions

end Sql
