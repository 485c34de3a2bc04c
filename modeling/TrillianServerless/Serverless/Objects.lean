import Mathlib.Data.List.AList
import TrillianServerless.Serverless.Layout

set_option autoImplicit false

namespace Serverless

open Go

/-- What a log has in a store of named objects, which are read and written as a whole. -/
abbrev Objects := AList fun _ : Path => Bytes

namespace Objects

-- The loop of ScanSequenced over a store that does not fail.
def scanFrom (s : Objects) : Nat → Nat → List Bytes
  | 0, _ => []
  | fuel + 1, n =>
    match s.lookup (.seq n) with
    | none => []
    | some entry => entry :: scanFrom s fuel (n + 1)

-- No more entries can follow one another than there are objects.
def scan (s : Objects) (first : Nat) : List Bytes := s.scanFrom s.keys.length first

/-- The entries are numbered from zero, and no other number is in use. -/
structure Sequences (entries : List Bytes) (s : Objects) : Prop where
  seqs : ∀ k (bound : k < entries.length), s.lookup (.seq k) = some entries[k]
  free : ∀ k, entries.length ≤ k → s.lookup (.seq k) = none

variable {entries : List Bytes} {s s' : Objects}

theorem sequences_empty : Sequences [] ∅ where
  seqs k bound := absurd bound (Nat.not_lt_zero k)
  free _ _ := rfl

theorem Sequences.same (sequences : Sequences entries s) (seq : ∀ k, s'.lookup (.seq k) = s.lookup (.seq k)) :
    Sequences entries s' where
  seqs k bound := by rw [seq, sequences.seqs k bound]
  free k beyond := by rw [seq, sequences.free k beyond]

theorem Sequences.append (sequences : Sequences entries s) {x : Bytes}
    (new : s'.lookup (.seq entries.length) = some x)
    (seq : ∀ k, k ≠ entries.length → s'.lookup (.seq k) = s.lookup (.seq k)) : Sequences (entries ++ [x]) s' where
  seqs k bound := by
    by_cases last : k = entries.length
    · subst last
      rw [new, List.getElem_concat_length rfl]
    · have before : k < entries.length := by
        rw [List.length_append, List.length_singleton] at bound
        omega
      rw [seq k last, sequences.seqs k before, List.getElem_append_left before]
  free k beyond := by
    rw [List.length_append, List.length_singleton] at beyond
    rw [seq k (by omega), sequences.free k (by omega)]

theorem Sequences.lt_iff (sequences : Sequences entries s) (k : Nat) :
    s.lookup (.seq k) ≠ none ↔ k < entries.length := by
  constructor
  · intro used
    by_contra beyond
    exact used (sequences.free k (by omega))
  · intro bound
    rw [sequences.seqs k bound]
    simp

theorem Sequences.scanFrom (sequences : Sequences entries s) {fuel k : Nat} (enough : entries.length - k ≤ fuel) :
    s.scanFrom fuel k = entries.drop k := by
  induction fuel generalizing k with
  | zero => rw [List.drop_eq_nil_of_le (by omega), Objects.scanFrom]
  | succ fuel ih =>
    rw [Objects.scanFrom]
    by_cases bound : k < entries.length
    · rw [sequences.seqs k bound]
      dsimp only
      rw [ih (by omega), List.drop_eq_getElem_cons bound]
    · rw [sequences.free k (by omega), List.drop_eq_nil_of_le (by omega)]

-- Each entry is an object of the store.
theorem Sequences.length_le (sequences : Sequences entries s) : entries.length ≤ s.keys.length := by
  have distinct : ((List.range entries.length).map Path.seq).Nodup :=
    List.Nodup.map (fun a b same => by injection same) List.nodup_range
  have inside : (List.range entries.length).map Path.seq ⊆ s.keys := by
    intro path member
    obtain ⟨k, less, rfl⟩ := List.mem_map.mp member
    by_contra absent
    have missing : s.lookup (.seq k) = none := AList.lookup_eq_none.mpr absent
    rw [sequences.seqs k (List.mem_range.mp less)] at missing
    cases missing
  simpa using (List.subperm_of_subset distinct inside).length_le

theorem Sequences.scan (sequences : Sequences entries s) (first : Nat) : s.scan first = entries.drop first := by
  have enough := sequences.length_le
  exact sequences.scanFrom (by omega)

end Objects

end Serverless
