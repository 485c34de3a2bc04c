import TrillianServerless.Shared.Paths

set_option autoImplicit false

namespace Serverless

open Go

section Paths

def seqName : Bytes := [115, 101, 113]

-- The verb %02x.
def format02x (n : Nat) : Bytes := (formatUint 16 n).leftpad 2 48

def seqDirs (seq : Nat) : List Bytes :=
  [format02x (seq >>> 32), format02x (seq >>> 24 &&& 0xff), format02x (seq >>> 16 &&& 0xff),
    format02x (seq >>> 8 &&& 0xff)]

def seqPath (root : Bytes) (seq : Nat) : Bytes × Bytes :=
  (joinPath (root :: seqName :: seqDirs seq), format02x (seq &&& 0xff))

def tileName : Bytes := [116, 105, 108, 101]

-- The verb %04x.
def format04x (n : Nat) : Bytes := (formatUint 16 n).leftpad 4 48

def tileDirs (level index : Nat) : List Bytes :=
  [format02x level, format04x (index >>> 24), format02x (index >>> 16 &&& 0xff), format02x (index >>> 8 &&& 0xff)]

def tileSuffix (partialTileSize : Nat) : Bytes := if 0 < partialTileSize then 46 :: format02x partialTileSize else []

-- The name of a tile in its directory.
def tileBase (index partialTileSize : Nat) : Bytes := format02x (index &&& 0xff) ++ tileSuffix partialTileSize

-- The path that is built from the two parts.
def seqFile (root : Bytes) (seq : Nat) : Bytes := joinPath [(seqPath root seq).1, (seqPath root seq).2]

-- s[i] != os.PathSeparator for one place after another; the first one that differs ends it.
def separatorsAt (s : Bytes) : List Nat → Outcome Bool
  | [] => .ok true
  | i :: rest =>
    match s[i]? with
    | none => .panic "index out of range"
    | some c => if c = slash then separatorsAt s rest else .ok false

def seqSeparators : List Nat := [0, 3, 6, 9, 12]

def seqDigits (s : Bytes) : Bytes :=
  s.extract 1 3 ++ s.extract 4 6 ++ s.extract 7 9 ++ s.extract 10 12 ++ s.drop 13

def readSeq (s : Bytes) : Outcome Nat := do
  let separated ← separatorsAt s seqSeparators
  if separated then
    match parseUint 16 64 (seqDigits s) with
    | none => .error (.text "strconv.ParseUint")
    | some seq => .ok seq
  else .error (.text "seqPath format invalid %q")

def seqFromPath (root path : Bytes) : Outcome Nat :=
  let seqDir := joinPath [root, seqName]
  if seqDir.isPrefixOf path then readSeq (path.drop seqDir.length)
  else .error (.text "invalid seqPath %q, doesn't start with prefix %q")

theorem seqName_plain : PlainName seqName := ⟨by decide, by decide, by decide, by decide⟩

theorem leftpad_bounds {width n : Nat} {c : UInt8} (member : c ∈ (formatUint 16 n).leftpad width 48) :
    48 ≤ c ∧ c < 103 := by
  rw [List.leftpad, List.mem_append] at member
  rcases member with zero | digit
  · obtain rfl := List.eq_of_mem_replicate zero
    decide
  · exact formatUint_bounds (by decide) (by decide) c digit

theorem format02x_bounds {n : Nat} {c : UInt8} (member : c ∈ format02x n) : 48 ≤ c ∧ c < 103 :=
  leftpad_bounds member

theorem format02x_plain (n : Nat) : PlainName (format02x n) := by
  have nonempty : format02x n ≠ [] := by simp [format02x, List.leftpad, formatUint_ne_nil]
  have apart {c : UInt8} (low : c < 48) : c ∉ format02x n := fun member =>
    absurd (format02x_bounds member).1 (by simpa using low)
  refine ⟨nonempty, ?_, ?_, apart (by decide)⟩
  · intro same
    exact apart (show (46 : UInt8) < 48 by decide) (same ▸ List.mem_singleton.mpr rfl)
  · intro same
    exact apart (show (46 : UInt8) < 48 by decide) (same ▸ List.mem_cons_self)

def seqNames (seq : Nat) : List Bytes := seqDirs seq ++ [format02x (seq &&& 0xff)]

theorem seqFile_eq (root : Bytes) (seq : Nat) :
    seqFile root seq = joinPath [root, seqName] ++ below (seqNames seq) := by
  rw [seqFile, seqPath, seqNames]
  refine joinPath_file seqName_plain root (fun name member => ?_) (format02x_plain _)
  simp only [seqDirs, List.mem_cons, List.not_mem_nil, or_false] at member
  rcases member with rfl | rfl | rfl | rfl <;> exact format02x_plain _

theorem seqFromPath_below (root s : Bytes) : seqFromPath root (joinPath [root, seqName] ++ s) = readSeq s := by
  simp [seqFromPath]

theorem seqFromPath_elsewhere {root path : Bytes} (elsewhere : ∀ s, path ≠ joinPath [root, seqName] ++ s) :
    ∃ reason, seqFromPath root path = .error reason := by
  refine ⟨_, if_neg ?_⟩
  rw [List.isPrefixOf_iff_prefix]
  rintro ⟨s, same⟩
  exact elsewhere s same.symm

section Separators

variable {s : Bytes}

theorem separatorsAt_true {places : List Nat} :
    separatorsAt s places = .ok true ↔ ∀ i ∈ places, s[i]? = some slash := by
  induction places with
  | nil => simp [separatorsAt]
  | cons i rest ih =>
    rw [separatorsAt, List.forall_mem_cons]
    rcases here : s[i]? with _ | c
    · simp
    · by_cases sep : c = slash
      · simp [sep, ih]
      · simp [sep]

theorem separatorsAt_panic {places : List Nat} (ordered : places.Pairwise (· < ·)) :
    (∃ reason, separatorsAt s places = .panic reason) ↔
      ∃ i ∈ places, s.length ≤ i ∧ ∀ j ∈ places, j < i → s[j]? = some slash := by
  induction places with
  | nil => simp [separatorsAt]
  | cons i rest ih =>
    obtain ⟨first, ordered⟩ := List.pairwise_cons.mp ordered
    rw [separatorsAt]
    rcases here : s[i]? with _ | c
    · have short := List.getElem?_eq_none_iff.mp here
      refine iff_of_true ⟨_, rfl⟩ ⟨i, by simp, short, fun j member less => ?_⟩
      rcases List.mem_cons.mp member with rfl | later
      · exact absurd less (Nat.lt_irrefl _)
      · exact absurd (first j later) (by omega)
    · have inside := (List.getElem?_eq_some_iff.mp here).1
      by_cases sep : c = slash
      · subst sep
        simp only [if_true]
        rw [ih ordered]
        constructor
        · rintro ⟨k, member, short, before⟩
          exact ⟨k, by simp [member], short, List.forall_mem_cons.mpr ⟨fun _ => here, before⟩⟩
        · rintro ⟨k, member, short, before⟩
          rcases List.mem_cons.mp member with rfl | later
          · omega
          · exact ⟨k, later, short, fun j member => before j (by simp [member])⟩
      · refine iff_of_false (by simp [sep]) ?_
        rintro ⟨k, member, short, before⟩
        rcases List.mem_cons.mp member with rfl | later
        · omega
        · have same := before i (by simp) (first k later)
          rw [here] at same
          exact sep (Option.some.inj same)

end Separators

section Digits

def LowerHex (c : UInt8) : Prop := (48 ≤ c ∧ c ≤ 57) ∨ (97 ≤ c ∧ c ≤ 102)

theorem lowerHex_digitByte {d : Nat} (small : d < 16) : LowerHex (digitByte d) := by
  unfold LowerHex
  interval_cases d <;> decide

theorem LowerHex.digit {c : UInt8} (hex : LowerHex c) : ∃ d, d < 16 ∧ c = digitByte d := by
  rcases hex with ⟨low, high⟩ | ⟨low, high⟩
  · have low' : 48 ≤ c.toNat := low
    have high' : c.toNat ≤ 57 := high
    refine ⟨c.toNat - 48, by omega, ?_⟩
    rw [digitByte, if_pos (by omega), show 48 + (c.toNat - 48) = c.toNat by omega, UInt8.ofNat_toNat]
  · have low' : 97 ≤ c.toNat := low
    have high' : c.toNat ≤ 102 := high
    refine ⟨c.toNat - 87, by omega, ?_⟩
    rw [digitByte, if_neg (by omega), show 87 + (c.toNat - 87) = c.toNat by omega, UInt8.ofNat_toNat]

def digitPair (n : Nat) : Bytes := [digitByte (n / 16), digitByte (n % 16)]

theorem format02x_byte {n : Nat} (small : n < 256) : format02x n = digitPair n := by
  revert n
  decide +kernel

theorem format02x_long {n : Nat} (large : 256 ≤ n) :
    ∃ a b c rest, format02x n = a :: b :: c :: rest ∧ c ≠ slash := by
  have total : (formatUint 16 n).foldl (accumulate 16) (some 0) = some n :=
    accumulate_formatUint (by decide) (by decide) n
  have bound := accumulate_lt total
  have long : 3 ≤ (formatUint 16 n).length := by
    by_contra short
    have : 16 ^ (formatUint 16 n).length ≤ 16 ^ 2 := Nat.pow_le_pow_right (by decide) (by omega)
    omega
  have long' : 3 ≤ (format02x n).length := by
    rw [format02x, List.length_leftpad]
    omega
  match text : format02x n, long' with
  | a :: b :: c :: rest, _ =>
    refine ⟨a, b, c, rest, rfl, ?_⟩
    rintro rfl
    exact (format02x_plain n).noSlash (by simp [text])

def seqBytes (seq : Nat) : List Nat :=
  [seq / 2 ^ 32, seq / 2 ^ 24 % 256, seq / 2 ^ 16 % 256, seq / 2 ^ 8 % 256, seq % 256]

theorem seqNames_eq {seq : Nat} (small : seq < 2 ^ 40) : seqNames seq = (seqBytes seq).map digitPair := by
  have mask (n : Nat) : n &&& 0xff = n % 256 := Nat.and_two_pow_sub_one_eq_mod n 8
  simp only [seqNames, seqDirs, mask, Nat.shiftRight_eq_div_pow, List.cons_append, List.nil_append]
  rw [format02x_byte (by omega), format02x_byte (by omega), format02x_byte (by omega), format02x_byte (by omega),
    format02x_byte (by omega)]
  rfl

theorem seqNames_long {seq : Nat} (large : 2 ^ 40 ≤ seq) :
    ∃ c, c ≠ slash ∧ (below (seqNames seq))[3]? = some c ∧ (below (seqNames seq))[0]? = some slash := by
  obtain ⟨a, b, c, rest, text, apart⟩ := format02x_long (n := seq >>> 32) (by
    rw [Nat.shiftRight_eq_div_pow]
    omega)
  exact ⟨c, apart, by simp [seqNames, seqDirs, below, text], by simp [seqNames, seqDirs, below]⟩

theorem foldl_digitPair {x : Nat} (small : x < 256) (n : Nat) :
    (digitPair x).foldl (accumulate 16) (some n) = some (n * 256 + x) := by
  have first : x / 16 < 16 := by omega
  have second : x % 16 < 16 := by omega
  simp only [digitPair, List.foldl_cons, List.foldl_nil, accumulate, digitValue_digitByte first,
    digitValue_digitByte second, first, second, if_true, Option.some.injEq]
  omega

theorem readSeq_pairs {a b c d e : Nat} (small : ∀ x ∈ [a, b, c, d, e], x < 256) :
    readSeq (below ([a, b, c, d, e].map digitPair)) = .ok ((((a * 256 + b) * 256 + c) * 256 + d) * 256 + e) := by
  simp only [List.forall_mem_cons, List.not_mem_nil, false_imp_iff, implies_true, and_true] at small
  obtain ⟨a', b', c', d', e'⟩ := small
  have separated : separatorsAt (below ([a, b, c, d, e].map digitPair)) seqSeparators = .ok true := rfl
  have digits : seqDigits (below ([a, b, c, d, e].map digitPair)) =
      digitPair a ++ (digitPair b ++ (digitPair c ++ (digitPair d ++ digitPair e))) := rfl
  have parsed : parseUint 16 64 (digitPair a ++ (digitPair b ++ (digitPair c ++ (digitPair d ++ digitPair e)))) =
      some ((((a * 256 + b) * 256 + c) * 256 + d) * 256 + e) := by
    rw [parseUint, if_neg (by simp [digitPair])]
    simp only [List.foldl_append, foldl_digitPair, a', b', c', d', e']
    simp [Option.filter]
    omega
  rw [readSeq, separated, digits, Outcome.bind_ok, if_pos rfl, parsed]

end Digits

section Inverse

-- A number fills its digits' places only up to this size.
theorem readSeq_seqNames (seq : Nat) : readSeq (below (seqNames seq)) = .ok seq ↔ seq < 2 ^ 40 := by
  constructor
  · intro read
    by_contra large
    obtain ⟨c, apart, third, first⟩ := seqNames_long (Nat.le_of_not_lt large)
    have stops : separatorsAt (below (seqNames seq)) seqSeparators = .ok false := by
      simp [seqSeparators, separatorsAt, first, third, apart]
    rw [readSeq, stops] at read
    cases read
  · intro small
    rw [seqNames_eq small, seqBytes, readSeq_pairs (by simp; omega)]
    congr 1
    omega

/-- Some separator is missing because the string ends before it, where those before it are there. -/
def Truncated (s : Bytes) : Prop :=
  ∃ i ∈ seqSeparators, s.length ≤ i ∧ ∀ j ∈ seqSeparators, j < i → s[j]? = some slash

def Separated (s : Bytes) : Prop := ∀ i ∈ seqSeparators, s[i]? = some slash

/-- Five elements of two digits each. -/
def Canonical (s : Bytes) : Prop :=
  ∃ names : List Bytes, names.length = 5 ∧ (∀ name ∈ names, name.length = 2 ∧ ∀ c ∈ name, LowerHex c) ∧
    s = below names

theorem digitPair_facts {x : Nat} (small : x < 256) :
    (digitPair x).length = 2 ∧ ∀ c ∈ digitPair x, LowerHex c := by
  refine ⟨rfl, fun c member => ?_⟩
  rcases List.mem_cons.mp member with rfl | member
  · exact lowerHex_digitByte (by omega)
  · obtain rfl := List.mem_singleton.mp member
    exact lowerHex_digitByte (by omega)

theorem exists_digitPair {name : Bytes} (length : name.length = 2) (hex : ∀ c ∈ name, LowerHex c) :
    ∃ x, x < 256 ∧ name = digitPair x := by
  obtain ⟨a, b, rfl⟩ := List.length_eq_two.mp length
  obtain ⟨d, first, rfl⟩ := (hex a (by simp)).digit
  obtain ⟨e, second, rfl⟩ := (hex b (by simp)).digit
  refine ⟨16 * d + e, by omega, ?_⟩
  rw [digitPair, show (16 * d + e) / 16 = d by omega, show (16 * d + e) % 16 = e by omega]

theorem seqNames_canonical {seq : Nat} (small : seq < 2 ^ 40) : Canonical (below (seqNames seq)) := by
  rw [seqNames_eq small]
  refine ⟨_, rfl, fun name member => ?_, rfl⟩
  obtain ⟨x, inside, rfl⟩ := List.mem_map.mp member
  refine digitPair_facts ?_
  simp only [seqBytes, List.mem_cons, List.not_mem_nil, or_false] at inside
  omega

theorem Canonical.read {s : Bytes} (canonical : Canonical s) :
    ∃ seq, readSeq s = .ok seq ∧ below (seqNames seq) = s := by
  obtain ⟨names, length, each, rfl⟩ := canonical
  match names, length with
  | [n1, n2, n3, n4, n5], _ =>
    simp only [List.forall_mem_cons] at each
    obtain ⟨⟨l1, h1⟩, ⟨l2, h2⟩, ⟨l3, h3⟩, ⟨l4, h4⟩, ⟨l5, h5⟩, -⟩ := each
    obtain ⟨a, a', rfl⟩ := exists_digitPair l1 h1
    obtain ⟨b, b', rfl⟩ := exists_digitPair l2 h2
    obtain ⟨c, c', rfl⟩ := exists_digitPair l3 h3
    obtain ⟨d, d', rfl⟩ := exists_digitPair l4 h4
    obtain ⟨e, e', rfl⟩ := exists_digitPair l5 h5
    refine ⟨_, readSeq_pairs (by simp [a', b', c', d', e']), ?_⟩
    rw [seqNames_eq (by omega)]
    congr 2
    simp only [seqBytes, List.map_cons, List.map_nil, List.cons.injEq, and_true]
    refine ⟨?_, ?_, ?_, ?_, ?_⟩ <;> congr 1 <;> omega

def SafePath (root path : Bytes) : Prop :=
  (∃ reason, seqFromPath root path = .error reason) ∨
    ∃ seq, seqFromPath root path = .ok seq ∧ seqFile root seq = path

/-- After the directory of the sequenced entries the path does not break off before a separator, and where all
separators are in place it has the form of a sequence path or is no number. -/
structure FitPath (root path : Bytes) : Prop where
  whole : ∀ s, path = joinPath [root, seqName] ++ s → ¬ Truncated s
  canonical : ∀ s, path = joinPath [root, seqName] ++ s → Separated s →
    parseUint 16 64 (seqDigits s) = none ∨ Canonical s

theorem safePath_iff (root path : Bytes) : SafePath root path ↔ FitPath root path := by
  by_cases under : ∃ s, path = joinPath [root, seqName] ++ s
  · obtain ⟨s, rfl⟩ := under
    have places : seqSeparators.Pairwise (· < ·) := by decide
    rw [SafePath, seqFromPath_below]
    constructor
    · intro safe
      refine ⟨fun s' same truncated => ?_, fun s' same separated => ?_⟩
      · obtain rfl := List.append_cancel_left same
        obtain ⟨reason, panics⟩ := (separatorsAt_panic places).mpr truncated
        rw [readSeq, panics] at safe
        rcases safe with ⟨_, wrong⟩ | ⟨_, wrong, _⟩ <;> cases wrong
      · obtain rfl := List.append_cancel_left same
        rcases parsed : parseUint 16 64 (seqDigits s) with _ | seq
        · exact .inl rfl
        · right
          have read : readSeq s = .ok seq := by
            rw [readSeq, separatorsAt_true.mpr separated]
            simp [parsed]
          rw [read] at safe
          rcases safe with ⟨_, wrong⟩ | ⟨other, found, built⟩
          · cases wrong
          · obtain rfl := Outcome.ok.inj found
            rw [seqFile_eq] at built
            obtain rfl := List.append_cancel_left built
            exact seqNames_canonical ((readSeq_seqNames seq).mp read)
    · intro fit
      rcases checked : separatorsAt s seqSeparators with separated | reason | reason
      · cases separated with
        | false => exact .inl ⟨_, by rw [readSeq, checked]; rfl⟩
        | true =>
          rcases fit.canonical s rfl (separatorsAt_true.mp checked) with none | canonical
          · exact .inl ⟨.text "strconv.ParseUint", by rw [readSeq, checked]; simp [none]⟩
          · obtain ⟨seq, read, built⟩ := canonical.read
            exact .inr ⟨seq, read, by rw [seqFile_eq, built]⟩
      · exact .inl ⟨reason, by rw [readSeq, checked]; rfl⟩
      · exact absurd ((separatorsAt_panic places).mp ⟨reason, checked⟩) (fit.whole s rfl)
  · have elsewhere : ∀ s, path ≠ joinPath [root, seqName] ++ s := fun s same => under ⟨s, same⟩
    exact iff_of_true (.inl (seqFromPath_elsewhere elsewhere))
      ⟨fun s same => absurd same (elsewhere s), fun s same => absurd same (elsewhere s)⟩

/-- SeqFromPath inverts SeqPath on the numbers below 2^40, and is safe on a string exactly when that fits. -/
theorem seqFromPath_inverts_iff (root : Bytes) :
    (∀ seq, seq < 2 ^ 64 → (seqFromPath root (seqFile root seq) = .ok seq ↔ seq < 2 ^ 40)) ∧
      ∀ path, SafePath root path ↔ FitPath root path := by
  refine ⟨fun seq _ => ?_, safePath_iff root⟩
  rw [seqFile_eq, seqFromPath_below, readSeq_seqNames]

-- The number 2^40, and the directory of the sequenced entries itself.
theorem wide_number_lost : seqFromPath [47, 108] (seqFile [47, 108] (2 ^ 40)) ≠ .ok (2 ^ 40) ∧
    ¬ SafePath [47, 108] (joinPath [[47, 108], seqName]) := by
  constructor
  · rw [seqFile_eq, seqFromPath_below, Ne, readSeq_seqNames]
    decide
  · rw [safePath_iff]
    intro fit
    exact fit.whole [] (by simp) ⟨0, by decide, by decide, by decide⟩

end Inverse

end Paths

end Serverless
