import Mathlib.Data.List.Sort
import TrillianServerless.Shared.Json
import TrillianServerless.Shared.Paths

set_option autoImplicit false

/-!
# Patterns of package filepath on Unix

The only error of Match and Glob is a malformed pattern, which is `none` here.
-/

namespace Go

open Json

section Match

inductive GlobTerm where
  | star
  | any
  | byte (c : UInt8)
  | oneOf (negated : Bool) (ranges : List (Char × Char))
  deriving DecidableEq, Repr

-- getEsc: one character of a class; the class does not end with it.
def getEsc : Bytes → Option (Char × Bytes)
  | [] => none
  | c :: rest =>
    if c = 45 ∨ c = 93 then none
    else
      match if c = backslash then rest else c :: rest with
      | [] => none
      | c :: rest =>
        let (r, after) := decodeRune c rest
        if (r = replacementChar ∧ after.length = rest.length) ∨ after = [] then none else some (r, after)

-- A class has at least one range, and each range takes at least one byte of the pattern.
def globRanges : Nat → List (Char × Char) → Bytes → Option (List (Char × Char) × Bytes)
  | 0, _, _ => none
  | fuel + 1, ranges, pattern =>
    if pattern.head? = some 93 ∧ ranges ≠ [] then some (ranges, pattern.tail)
    else
      match getEsc pattern with
      | none => none
      | some (lo, rest) =>
        if rest.head? = some 45 then
          match getEsc rest.tail with
          | none => none
          | some (hi, rest) => globRanges fuel (ranges ++ [(lo, hi)]) rest
        else globRanges fuel (ranges ++ [(lo, lo)]) rest

def globTermsFrom : Nat → Bytes → Option (List GlobTerm)
  | _, [] => some []
  | 0, _ :: _ => none
  | fuel + 1, c :: rest =>
    if c = 42 then (globTermsFrom fuel rest).map (.star :: ·)
    else if c = 63 then (globTermsFrom fuel rest).map (.any :: ·)
    else if c = 91 then
      let negated := rest.head? = some 94
      match globRanges (fuel + 1) [] (if negated then rest.tail else rest) with
      | none => none
      | some (ranges, rest) => (globTermsFrom fuel rest).map (.oneOf negated ranges :: ·)
    else if c = backslash then
      match rest with
      | [] => none
      | c :: rest => (globTermsFrom fuel rest).map (.byte c :: ·)
    else (globTermsFrom fuel rest).map (.byte c :: ·)

def globTerms (pattern : Bytes) : Option (List GlobTerm) := globTermsFrom pattern.length pattern

-- A star stands for any bytes without a separator.
def globMatch : List GlobTerm → Bytes → Bool
  | [], name => name = []
  | .star :: terms, name =>
    (List.range (name.length + 1)).any fun k => slash ∉ name.take k && globMatch terms (name.drop k)
  | _ :: _, [] => false
  | .any :: terms, c :: rest => c ≠ slash && globMatch terms (decodeRune c rest).2
  | .byte b :: terms, c :: rest => c = b && globMatch terms rest
  | .oneOf negated ranges :: terms, c :: rest =>
    let (r, after) := decodeRune c rest
    (ranges.any fun range => range.1 ≤ r && r ≤ range.2) != negated && globMatch terms after

-- filepath.Match.
def matchName (pattern name : Bytes) : Option Bool := (globTerms pattern).map (globMatch · name)

def isMeta (c : UInt8) : Bool := c = 42 || c = 63 || c = 91 || c = backslash

def hasMeta (path : Bytes) : Bool := path.any isMeta

end Match

section Glob

/-- What the file system answers: whether a path exists, and the entries of a directory that can be read. -/
structure Listing where
  lstat : Bytes → Bool
  readdirnames : Bytes → Option (List Bytes)

-- filepath.Split.
def splitPath (path : Bytes) : Bytes × Bytes :=
  let file := (path.reverse.takeWhile (· ≠ slash)).reverse
  (path.take (path.length - file.length), file)

def cleanGlobPath (path : Bytes) : Bytes :=
  if path = [] then dot else if path = [slash] then path else path.dropLast

def globNames (dir pattern : Bytes) : List Bytes → Option (List Bytes)
  | [] => some []
  | n :: rest => do
    let matched ← matchName pattern n
    let found ← globNames dir pattern rest
    return if matched then joinPath [dir, n] :: found else found

-- A directory that cannot be read is skipped.
def globDir (fs : Listing) (dir pattern : Bytes) : Option (List Bytes) :=
  match fs.readdirnames dir with
  | none => some []
  | some names => globNames dir pattern (names.insertionSort fun a b => a ≤ b)

def globWithLimit (fs : Listing) : Nat → Bytes → Option (List Bytes)
  | 0, _ => none
  | depth + 1, pattern =>
    if (matchName pattern []).isNone then none
    else if hasMeta pattern = false then some (if fs.lstat pattern then [pattern] else [])
    else
      let (dir, file) := splitPath pattern
      let dir := cleanGlobPath dir
      if hasMeta dir = false then globDir fs dir file
      else if dir = pattern then none
      else
        match globWithLimit fs depth dir with
        | none => none
        | some dirs => (dirs.mapM (globDir fs · file)).map List.flatten

def pathSeparatorsLimit : Nat := 10000

-- filepath.Glob.
def glob (fs : Listing) (pattern : Bytes) : Option (List Bytes) := globWithLimit fs pathSeparatorsLimit pattern

end Glob

section Stem

-- A pattern that begins with plain letters and ends with its only star.
variable {stem : Bytes} (plain : hasMeta stem = false)

include plain

theorem globTermsFrom_stem {fuel : Nat} (enough : stem.length + 1 ≤ fuel) :
    globTermsFrom fuel (stem ++ [42]) = some (stem.map .byte ++ [.star]) := by
  induction stem generalizing fuel with
  | nil =>
    obtain ⟨fuel, rfl⟩ := Nat.exists_eq_succ_of_ne_zero (show fuel ≠ 0 by omega)
    simp [globTermsFrom]
  | cons c rest ih =>
    obtain ⟨fuel, rfl⟩ := Nat.exists_eq_succ_of_ne_zero (show fuel ≠ 0 by omega)
    simp only [hasMeta, List.any_cons, Bool.or_eq_false_iff, isMeta, decide_eq_false_iff_not] at plain
    obtain ⟨⟨⟨⟨noStar, noAny⟩, noClass⟩, noEscape⟩, later⟩ := plain
    have less : rest.length + 1 ≤ fuel := by
      rw [List.length_cons] at enough
      omega
    have tail := ih later less
    simp [globTermsFrom, noStar, noAny, noClass, noEscape, tail]

theorem matchName_stem (name : Bytes) :
    matchName (stem ++ [42]) name = some (globMatch (stem.map .byte ++ [.star]) name) := by
  rw [matchName, globTerms, globTermsFrom_stem plain (by simp)]
  rfl

omit plain

theorem globMatch_star (name : Bytes) : globMatch [.star] name = true ↔ slash ∉ name := by
  simp only [globMatch, List.any_eq_true, List.mem_range, Bool.and_eq_true, decide_eq_true_eq]
  constructor
  · rintro ⟨k, _, apart, rest⟩
    rwa [List.take_of_length_le (List.drop_eq_nil_iff.mp rest)] at apart
  · intro apart
    exact ⟨name.length, by omega, by rwa [List.take_length], List.drop_length⟩

theorem globMatch_stem (stem name : Bytes) :
    globMatch (stem.map .byte ++ [.star]) name = true ↔ ∃ rest, name = stem ++ rest ∧ slash ∉ rest := by
  induction stem generalizing name with
  | nil => simpa using globMatch_star name
  | cons b stem ih =>
    cases name with
    | nil => simp [globMatch]
    | cons c rest =>
      simp only [List.map_cons, List.cons_append, globMatch, Bool.and_eq_true, decide_eq_true_eq, ih,
        List.cons.injEq]
      constructor
      · rintro ⟨rfl, more, rfl, apart⟩
        exact ⟨more, ⟨rfl, rfl⟩, apart⟩
      · rintro ⟨more, ⟨rfl, rfl⟩, apart⟩
        exact ⟨rfl, more, rfl, apart⟩

theorem splitPath_file (dir : Bytes) {file : Bytes} (noSlash : slash ∉ file) :
    splitPath (dir ++ slash :: file) = (dir ++ [slash], file) := by
  have last : (dir ++ slash :: file).reverse.takeWhile (· ≠ slash) = file.reverse := by
    rw [List.reverse_append, List.reverse_cons, List.append_assoc, List.takeWhile_append_of_pos]
    · simp
    · intro c member
      simp only [ne_eq, decide_eq_true_eq]
      rintro rfl
      exact noSlash (List.mem_reverse.mp member)
  have length : (dir ++ slash :: file).length - file.length = (dir ++ [slash]).length := by
    simp
    omega
  simp only [splitPath, last, List.reverse_reverse, length]
  rw [show dir ++ slash :: file = dir ++ [slash] ++ file by simp, List.take_left]

theorem cleanGlobPath_dir {dir : Bytes} (nonempty : dir ≠ []) : cleanGlobPath (dir ++ [slash]) = dir := by
  have longer : dir ++ [slash] ≠ [slash] := by simpa using nonempty
  rw [cleanGlobPath, if_neg (by simp), if_neg longer, List.dropLast_concat]

theorem globNames_stem {stem : Bytes} (plain : hasMeta stem = false) (dir : Bytes) (names : List Bytes) :
    ∃ found, globNames dir (stem ++ [42]) names = some found ∧
      ∀ x, x ∈ found ↔ ∃ rest, stem ++ rest ∈ names ∧ slash ∉ rest ∧ x = joinPath [dir, stem ++ rest] := by
  induction names with
  | nil => exact ⟨[], rfl, by simp⟩
  | cons n others ih =>
    obtain ⟨found, same, members⟩ := ih
    refine ⟨_, by rw [globNames, matchName_stem plain, same]; rfl, fun x => ?_⟩
    by_cases matched : globMatch (stem.map .byte ++ [.star]) n = true
    · rw [if_pos matched, List.mem_cons, members]
      constructor
      · rintro (rfl | ⟨rest, member, apart, rfl⟩)
        · obtain ⟨rest, rfl, apart⟩ := (globMatch_stem stem n).mp matched
          exact ⟨rest, by simp, apart, rfl⟩
        · exact ⟨rest, by simp [member], apart, rfl⟩
      · rintro ⟨rest, member, apart, rfl⟩
        rcases List.mem_cons.mp member with rfl | later
        · exact .inl rfl
        · exact .inr ⟨rest, later, apart, rfl⟩
    · rw [if_neg matched, members]
      constructor
      · rintro ⟨rest, member, apart, rfl⟩
        exact ⟨rest, by simp [member], apart, rfl⟩
      · rintro ⟨rest, member, apart, rfl⟩
        rcases List.mem_cons.mp member with rfl | later
        · exact absurd ((globMatch_stem stem _).mpr ⟨rest, rfl, apart⟩) matched
        · exact ⟨rest, later, apart, rfl⟩

theorem isMeta_of_mem {path : Bytes} (plain : hasMeta path = false) {c : UInt8} (letter : c ∈ path) :
    isMeta c = false := by
  simpa using List.any_eq_false.mp plain c letter

theorem hasMeta_append (a b : Bytes) : hasMeta (a ++ b) = (hasMeta a || hasMeta b) := List.any_append

/-- Below a directory named in plain letters, a stem and a star find the entries that begin with the stem. -/
theorem glob_stem (fs : Listing) {dir stem : Bytes} (nonempty : dir ≠ []) (plainDir : hasMeta dir = false)
    (plain : hasMeta stem = false) (noSlash : slash ∉ stem) :
    ∃ found, glob fs (dir ++ slash :: (stem ++ [42])) = some found ∧
      ∀ x, x ∈ found ↔ ∃ names rest, fs.readdirnames dir = some names ∧ stem ++ rest ∈ names ∧ slash ∉ rest ∧
        x = joinPath [dir, stem ++ rest] := by
  have file : slash ∉ stem ++ [42] := by
    rw [List.mem_append, not_or]
    exact ⟨noSlash, by decide⟩
  have front : hasMeta (dir ++ slash :: stem) = false := by
    rw [hasMeta_append, plainDir, show hasMeta (slash :: stem) = hasMeta stem from rfl, plain]
    rfl
  have whole : dir ++ slash :: (stem ++ [42]) = (dir ++ slash :: stem) ++ [42] := by simp
  have formed : (matchName (dir ++ slash :: (stem ++ [42])) []).isNone = false := by
    rw [whole, matchName_stem front]
    rfl
  have starred : hasMeta (dir ++ slash :: (stem ++ [42])) = true := by
    rw [whole, hasMeta_append]
    simp [hasMeta, isMeta]
  have step : glob fs (dir ++ slash :: (stem ++ [42])) = globDir fs dir (stem ++ [42]) := by
    rw [glob, show pathSeparatorsLimit = 9999 + 1 from rfl, globWithLimit, if_neg (by simp [formed]),
      if_neg (by simp [starred])]
    simp only [splitPath_file dir file, cleanGlobPath_dir nonempty, plainDir, if_true]
  rw [step, globDir]
  cases listed : fs.readdirnames dir with
  | none => exact ⟨[], rfl, by simp⟩
  | some names =>
    obtain ⟨found, same, members⟩ := globNames_stem plain dir (names.insertionSort fun a b => a ≤ b)
    refine ⟨found, same, fun x => ?_⟩
    rw [members]
    simp

end Stem

end Go
