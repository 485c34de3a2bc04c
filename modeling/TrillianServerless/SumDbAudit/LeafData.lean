import TrillianServerless.SumDbAudit.Service

set_option autoImplicit false

namespace Audit

open Go

-- One turn of the loop of dataToLeaves: the pieces so far and the start of the next one.
def splitStep (data : Bytes) : List Bytes × Nat → Nat → List Bytes × Nat := fun (result, start) i =>
  if data[i]? = some 10 ∧ start < i ∧ data[i - 1]? = some 10 then
    (result ++ [(data.drop start).take (i - start)], i + 1)
  else (result, start)

def splitRange (data : Bytes) (state : List Bytes × Nat) (first count : Nat) : List Bytes × Nat :=
  (List.range' first count).foldl (splitStep data) state

theorem dataToLeaves_eq (data : Bytes) :
    dataToLeaves data =
      (splitRange data ([], 0) 0 data.length).1 ++ [data.drop (splitRange data ([], 0) 0 data.length).2] := by
  simp only [dataToLeaves, splitRange, List.range_eq_range']
  rfl

theorem splitRange_add (data : Bytes) (state : List Bytes × Nat) (first m n : Nat) :
    splitRange data state first (m + n) = splitRange data (splitRange data state first m) (first + m) n := by
  rw [splitRange, ← List.range'_append_1, List.foldl_append]
  rfl

theorem splitRange_succ (data : Bytes) (state : List Bytes × Nat) (first n : Nat) :
    splitRange data state first (n + 1) = splitStep data (splitRange data state first n) (first + n) := by
  simp [splitRange, List.range'_concat]

section Join

-- The pieces and the newlines between them are what has been read before the next piece.
def Consumed (data : Bytes) (read : Nat) (state : List Bytes × Nat) : Prop :=
  state.2 ≤ read ∧ state.1.flatMap (fun piece => piece ++ [10]) = data.take state.2

theorem splitStep_consumed {data : Bytes} {i : Nat} {state : List Bytes × Nat}
    (consumed : Consumed data i state) : Consumed data (i + 1) (splitStep data state i) := by
  obtain ⟨result, start⟩ := state
  obtain ⟨within, pieces⟩ := consumed
  simp only [splitStep]
  split
  case isFalse => exact ⟨by simp only at within; omega, pieces⟩
  case isTrue h =>
    obtain ⟨here, before, -⟩ := h
    refine ⟨le_refl _, ?_⟩
    have joined : data.take start ++ (data.drop start).take (i - start) = data.take i := by
      rw [← List.take_append_drop start (data.take i), List.take_take, List.drop_take,
        Nat.min_eq_left before.le]
    simp only [List.flatMap_append, List.flatMap_singleton, pieces, ← List.append_assoc, joined,
      List.take_add_one, here]
    rfl

theorem splitRange_consumed (data : Bytes) (n : Nat) : Consumed data n (splitRange data ([], 0) 0 n) := by
  induction n with
  | zero => exact ⟨le_refl _, rfl⟩
  | succ n ih =>
    rw [splitRange_succ, Nat.zero_add]
    exact splitStep_consumed ih

theorem intercalate_concat (pieces : List Bytes) (last : Bytes) :
    [10].intercalate (pieces ++ [last]) = pieces.flatMap (fun piece => piece ++ [10]) ++ last := by
  induction pieces with
  | nil => simp
  | cons piece rest ih =>
    rw [List.cons_append, List.intercalate_cons_of_ne_nil (by simp), ih]
    simp

theorem dataToLeaves_joined (data : Bytes) : [10].intercalate (dataToLeaves data) = data := by
  rw [dataToLeaves_eq, intercalate_concat, (splitRange_consumed data data.length).2, List.take_append_drop]

end Join

section Split

/-- A record as the log joins them: lines that each end in a newline, none of them blank. -/
structure IsRecord (record : Bytes) : Prop where
  ends : record.getLast? = some 10
  starts : record.head? ≠ some 10
  noBlank : ∀ i : Nat, record[i]? = some 10 → record[i + 1]? ≠ some 10

variable {data record rest : Bytes} {start : Nat}

-- Within a record no piece ends.
theorem splitRange_record (isRecord : IsRecord record) (here : data.drop start = record ++ rest)
    (result : List Bytes) {n : Nat} (within : n ≤ record.length) :
    splitRange data (result, start) start n = (result, start) := by
  induction n with
  | zero => rfl
  | succ n ih =>
    have inRecord : ∀ i, i < record.length → data[start + i]? = record[i]? := by
      intro i small
      rw [← List.getElem?_drop, here, List.getElem?_append_left small]
    rw [splitRange_succ, ih (by omega), splitStep, if_neg]
    rintro ⟨newline, after, before⟩
    obtain ⟨m, rfl⟩ : ∃ m, n = m + 1 := ⟨n - 1, by omega⟩
    rw [inRecord _ (by omega)] at newline
    rw [show start + (m + 1) - 1 = start + m by omega, inRecord _ (by omega)] at before
    exact isRecord.noBlank m before newline

-- The newline after a record ends its piece.
theorem splitRange_separator (isRecord : IsRecord record) (here : data.drop start = record ++ 10 :: rest)
    (result : List Bytes) :
    splitRange data (result, start) start (record.length + 1) =
      (result ++ [record], start + record.length + 1) := by
  have nonempty : 0 < record.length := List.length_pos_iff.mpr fun none => by
    simpa [none] using isRecord.ends
  have newline : data[start + record.length]? = some 10 := by
    rw [← List.getElem?_drop, here, List.getElem?_append_right (le_refl _)]
    simp
  have before : data[start + record.length - 1]? = some 10 := by
    rw [Nat.add_sub_assoc nonempty, ← List.getElem?_drop, here, List.getElem?_append_left (by omega),
      ← List.getLast?_eq_getElem?, isRecord.ends]
  rw [splitRange_succ, splitRange_record isRecord here result (le_refl _), splitStep,
    if_pos ⟨newline, by omega, before⟩, here]
  simp

theorem splitRange_records (result : List Bytes) (records : List Bytes) (last : Bytes)
    (isRecord : ∀ record ∈ records ++ [last], IsRecord record)
    (here : data.drop start = [10].intercalate (records ++ [last])) :
    splitRange data (result, start) start (data.length - start) =
      (result ++ records, data.length - last.length) := by
  induction records generalizing result start with
  | nil =>
    simp only [List.nil_append, List.intercalate_singleton] at here
    have size : data.length - start = last.length := by rw [← List.length_drop, here]
    have nonempty : last ≠ [] := fun none => by simpa [none] using (isRecord last (by simp)).ends
    have positive : 0 < last.length := List.length_pos_iff.mpr nonempty
    rw [size, @splitRange_record data last [] start (isRecord last (by simp)) (by simpa using here) result _
      (le_refl _)]
    simp only [List.append_nil, Prod.mk.injEq, true_and]
    omega
  | cons record records ih =>
    rw [List.cons_append, List.intercalate_cons_of_ne_nil (by simp), List.append_assoc,
      List.singleton_append] at here
    have later : data.drop (start + record.length + 1) = [10].intercalate (records ++ [last]) := by
      rw [Nat.add_assoc, ← List.drop_drop, here, List.drop_append]
      simp
    have size := congrArg List.length here
    simp only [List.length_drop, List.length_append, List.length_cons] at size
    rw [show data.length - start = record.length + 1 + (data.length - (start + record.length + 1)) by omega,
      splitRange_add, splitRange_separator (isRecord record (by simp)) here, ← Nat.add_assoc,
      ih (result ++ [record]) (fun r member => isRecord r (by simp at member ⊢; tauto)) later]
    simp

theorem dataToLeaves_records (records : List Bytes) (nonempty : records ≠ [])
    (isRecord : ∀ record ∈ records, IsRecord record) :
    dataToLeaves ([10].intercalate records) = records := by
  obtain ⟨records, last, rfl⟩ : ∃ before last, records = before ++ [last] :=
    ⟨records.dropLast, records.getLast nonempty, (List.dropLast_append_getLast nonempty).symm⟩
  rw [dataToLeaves_eq]
  have run := @splitRange_records ([10].intercalate (records ++ [last])) 0 [] records last isRecord (by simp)
  rw [Nat.sub_zero] at run
  rw [run]
  simp [intercalate_concat]

end Split

theorem dataToLeaves_exact :
    (∀ data : Bytes, [10].intercalate (dataToLeaves data) = data) ∧
      ∀ records : List Bytes, records ≠ [] → (∀ record ∈ records, IsRecord record) →
        dataToLeaves ([10].intercalate records) = records :=
  ⟨dataToLeaves_joined, dataToLeaves_records⟩

-- Two records of two lines each.
theorem dataToLeaves_exact_two :
    dataToLeaves ([10].intercalate [[97, 10, 98, 10], [99, 10]]) = [[97, 10, 98, 10], [99, 10]] :=
  dataToLeaves_exact.2 _ (by simp) (by
    intro record member
    simp only [List.mem_cons, List.not_mem_nil, or_false] at member
    obtain rfl | rfl := member
    · refine ⟨by decide, by decide, fun i => ?_⟩
      match i with
      | 0 | 1 | 2 | 3 => simp
      | i + 4 => simp
    · refine ⟨by decide, by decide, fun i => ?_⟩
      match i with
      | 0 | 1 => simp
      | i + 2 => simp)

end Audit
