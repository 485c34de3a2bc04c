import Mathlib.Tactic.IntervalCases
import TrillianServerless.Shared.Go

set_option autoImplicit false

namespace Go

def newline : UInt8 := 10

section Numbers

def digitByte (d : Nat) : UInt8 := UInt8.ofNat (if d < 10 then 48 + d else 87 + d)

def digitsFrom (base : Nat) : Nat → Nat → List Nat
  | 0, _ => []
  | fuel + 1, n => if n = 0 then [] else digitsFrom base fuel (n / base) ++ [n % base]

-- strconv.FormatUint, and the verbs %d and %x of an unsigned number.
def formatUint (base n : Nat) : Bytes :=
  if n = 0 then [48] else (digitsFrom base n n).map digitByte

def digitValue (c : UInt8) : Option Nat :=
  if 48 ≤ c ∧ c ≤ 57 then some (c.toNat - 48)
  else if 97 ≤ c ∧ c ≤ 122 then some (c.toNat - 87)
  else if 65 ≤ c ∧ c ≤ 90 then some (c.toNat - 55)
  else none

def accumulate (base : Nat) (total : Option Nat) (c : UInt8) : Option Nat :=
  match total, digitValue c with
  | some n, some d => if d < base then some (n * base + d) else none
  | _, _ => none

-- strconv.ParseUint for an explicit base.
def parseUint (base bits : Nat) (s : Bytes) : Option Nat :=
  if s = [] then none
  else (s.foldl (accumulate base) (some 0)).filter (· < 2 ^ bits)

theorem digitValue_digitByte {d : Nat} (small : d < 16) : digitValue (digitByte d) = some d := by
  interval_cases d <;> rfl

theorem digitsFrom_lt {base : Nat} (positive : 0 < base) (fuel n : Nat) :
    ∀ d ∈ digitsFrom base fuel n, d < base := by
  induction fuel generalizing n with
  | zero => simp [digitsFrom]
  | succ fuel ih =>
    intro d member
    simp only [digitsFrom] at member
    split at member
    · simp at member
    · rcases List.mem_append.mp member with earlier | last
      · exact ih _ d earlier
      · rw [List.mem_singleton.mp last]
        exact Nat.mod_lt n positive

theorem digitsFrom_head {base : Nat} (large : 1 < base) {fuel n : Nat} (enough : n ≤ fuel) (some' : n ≠ 0) :
    ∃ d ds, digitsFrom base fuel n = d :: ds ∧ d ≠ 0 := by
  induction fuel generalizing n with
  | zero => omega
  | succ fuel ih =>
    rw [digitsFrom, if_neg some']
    have smaller : n / base < n := Nat.div_lt_self (by omega) large
    by_cases last : n / base = 0
    · have none : digitsFrom base fuel (n / base) = [] := by
        rw [last]
        cases fuel <;> rfl
      have only : n % base = n := Nat.mod_eq_of_lt ((Nat.div_eq_zero_iff_lt (by omega)).mp last)
      exact ⟨n, [], by rw [none, only]; rfl, some'⟩
    · obtain ⟨d, ds, written, leading⟩ := ih (by omega) last
      exact ⟨d, ds ++ [n % base], by rw [written]; rfl, leading⟩

theorem accumulate_digits {base : Nat} (large : 1 < base) (small : base ≤ 16) (fuel n : Nat)
    (enough : n ≤ fuel) :
    ((digitsFrom base fuel n).map digitByte).foldl (accumulate base) (some 0) = some n := by
  induction fuel generalizing n with
  | zero =>
    obtain rfl : n = 0 := by omega
    rfl
  | succ fuel ih =>
    simp only [digitsFrom]
    split
    next zero => simp [zero]
    next nonzero =>
      have less : n / base < n := Nat.div_lt_self (by omega) large
      have rest := Nat.mod_lt n (show 0 < base by omega)
      rw [List.map_append, List.foldl_append, ih _ (by omega)]
      simp only [List.map_cons, List.map_nil, List.foldl_cons, List.foldl_nil, accumulate,
        digitValue_digitByte (show n % base < 16 by omega), rest, if_true, Option.some.injEq]
      rw [Nat.mul_comm]
      exact Nat.div_add_mod n base

theorem formatUint_ne_nil (base n : Nat) : formatUint base n ≠ [] := by
  rw [formatUint]
  split
  · simp
  next nonzero =>
    cases n with
    | zero => exact absurd rfl nonzero
    | succ n => simp [digitsFrom]

theorem accumulate_formatUint {base : Nat} (large : 1 < base) (small : base ≤ 16) (n : Nat) :
    (formatUint base n).foldl (accumulate base) (some 0) = some n := by
  rw [formatUint]
  split
  next zero =>
    have first : digitValue 48 = some 0 := rfl
    simp [accumulate, first, zero, show 0 < base by omega]
  next => exact accumulate_digits large small n n (Nat.le_refl _)

theorem parseUint_formatUint (base : Nat) {bits n : Nat} (large : 1 < base) (small : base ≤ 16)
    (fits : n < 2 ^ bits) : parseUint base bits (formatUint base n) = some n := by
  rw [parseUint, if_neg (formatUint_ne_nil base n), accumulate_formatUint large small n]
  simp [Option.filter, fits]

theorem parseUint_lt {base bits : Nat} {s : Bytes} {n : Nat} (parsed : parseUint base bits s = some n) :
    n < 2 ^ bits := by
  unfold parseUint at parsed
  split at parsed
  · cases parsed
  · simpa using (Option.filter_eq_some_iff.mp parsed).2

theorem accumulate_lt {base : Nat} {s : Bytes} {m n : Nat} (total : s.foldl (accumulate base) (some m) = some n) :
    n < (m + 1) * base ^ s.length := by
  induction s generalizing m with
  | nil =>
    obtain rfl := Option.some.inj total
    simp
  | cons c rest ih =>
    rw [List.foldl_cons] at total
    have fails : rest.foldl (accumulate base) none = none := by
      clear ih total
      induction rest with
      | nil => rfl
      | cons _ _ ih => exact ih
    cases value : digitValue c with
    | none => simp [accumulate, value, fails] at total
    | some d =>
      by_cases small : d < base
      · simp only [accumulate, value, small, if_true] at total
        calc n < (m * base + d + 1) * base ^ rest.length := ih total
          _ ≤ ((m + 1) * base) * base ^ rest.length := by
            refine Nat.mul_le_mul_right _ ?_
            rw [Nat.add_mul]
            omega
          _ = (m + 1) * base ^ (c :: rest).length := by
            rw [List.length_cons, pow_succ, Nat.mul_assoc, Nat.mul_comm base]
      · simp [accumulate, value, small, fails] at total

theorem digitByte_bounds {d : Nat} (small : d < 16) : 48 ≤ digitByte d ∧ digitByte d < 103 := by
  interval_cases d <;> decide

theorem formatUint_bounds {base n : Nat} (large : 1 < base) (small : base ≤ 16) :
    ∀ c ∈ formatUint base n, 48 ≤ c ∧ c < 103 := by
  intro c member
  rw [formatUint] at member
  split at member
  · rw [List.mem_singleton.mp member]
    decide
  · obtain ⟨d, found, rfl⟩ := List.mem_map.mp member
    exact digitByte_bounds (by have := digitsFrom_lt (by omega) _ _ d found; omega)

end Numbers

section Base64

def encodeSextet (v : Nat) : UInt8 :=
  UInt8.ofNat (if v < 26 then 65 + v else if v < 52 then 71 + v else if v < 62 then v - 4
    else if v = 62 then 43 else 47)

def decodeSextet (c : UInt8) : Option Nat :=
  if 65 ≤ c ∧ c ≤ 90 then some (c.toNat - 65)
  else if 97 ≤ c ∧ c ≤ 122 then some (c.toNat - 71)
  else if 48 ≤ c ∧ c ≤ 57 then some (c.toNat + 4)
  else if c = 43 then some 62
  else if c = 47 then some 63
  else none

def padByte : UInt8 := 61

-- base64.StdEncoding.EncodeToString.
def encodeBase64 : Bytes → Bytes
  | [] => []
  | [a] =>
    [encodeSextet (a.toNat / 4), encodeSextet (a.toNat % 4 * 16), padByte, padByte]
  | [a, b] =>
    [encodeSextet (a.toNat / 4), encodeSextet (a.toNat % 4 * 16 + b.toNat / 16),
      encodeSextet (b.toNat % 16 * 4), padByte]
  | a :: b :: c :: rest =>
    encodeSextet (a.toNat / 4) :: encodeSextet (a.toNat % 4 * 16 + b.toNat / 16) ::
      encodeSextet (b.toNat % 16 * 4 + c.toNat / 64) :: encodeSextet (c.toNat % 64) ::
      encodeBase64 rest

-- Padding ends the input; the unused bits of the last sextet are not looked at.
def decodeQuanta : Bytes → Option Bytes
  | [] => some []
  | a :: b :: c :: d :: rest =>
    match decodeSextet a, decodeSextet b, decodeSextet c, decodeSextet d with
    | some x, some y, some z, some w =>
      (decodeQuanta rest).map fun tail =>
        UInt8.ofNat (x * 4 + y / 16) :: UInt8.ofNat (y % 16 * 16 + z / 4) ::
          UInt8.ofNat (z % 4 * 64 + w) :: tail
    | some x, some y, some z, none =>
      if d = padByte ∧ rest = [] then
        some [UInt8.ofNat (x * 4 + y / 16), UInt8.ofNat (y % 16 * 16 + z / 4)]
      else none
    | some x, some y, none, _ =>
      if c = padByte ∧ d = padByte ∧ rest = [] then some [UInt8.ofNat (x * 4 + y / 16)] else none
    | _, _, _, _ => none
  | _ => none

def isLineBreak (c : UInt8) : Bool := c == 10 || c == 13

-- base64.StdEncoding.DecodeString: line breaks are skipped wherever they stand.
def decodeBase64 (s : Bytes) : Option Bytes := decodeQuanta (s.filter fun c => !isLineBreak c)

theorem decodeSextet_encodeSextet {v : Nat} (small : v < 64) :
    decodeSextet (encodeSextet v) = some v := by
  interval_cases v <;> rfl

theorem encodeSextet_bounds {v : Nat} (small : v < 64) :
    43 ≤ encodeSextet v ∧ encodeSextet v < 123 := by
  interval_cases v <;> decide

theorem forall_mem_encodeBase64 {P : UInt8 → Prop} (pad : P padByte) (sextet : ∀ v < 64, P (encodeSextet v))
    (s : Bytes) : ∀ c ∈ encodeBase64 s, P c := by
  fun_induction encodeBase64 s with
  | case1 => simp
  | case2 a =>
    have := a.toNat_lt
    simp only [List.forall_mem_cons]
    exact ⟨sextet _ (by omega), sextet _ (by omega), pad, pad, by simp⟩
  | case3 a b =>
    have := a.toNat_lt
    have := b.toNat_lt
    simp only [List.forall_mem_cons]
    exact ⟨sextet _ (by omega), sextet _ (by omega), sextet _ (by omega), pad, by simp⟩
  | case4 a b c rest ih =>
    have := a.toNat_lt
    have := b.toNat_lt
    have := c.toNat_lt
    simp only [List.forall_mem_cons]
    exact ⟨sextet _ (by omega), sextet _ (by omega), sextet _ (by omega), sextet _ (by omega), ih⟩

theorem encodeBase64_bounds (s : Bytes) : ∀ c ∈ encodeBase64 s, 43 ≤ c ∧ c < 123 :=
  forall_mem_encodeBase64 (by decide) (fun _ small => encodeSextet_bounds small) s

theorem decodeQuanta_encode (s : Bytes) : decodeQuanta (encodeBase64 s) = some s := by
  have pad : decodeSextet padByte = none := rfl
  have byte {c : UInt8} {n : Nat} (value : n = c.toNat) : UInt8.ofNat n = c := by
    rw [value, UInt8.ofNat_toNat]
  fun_induction encodeBase64 s with
  | case1 => rfl
  | case2 a =>
    have := a.toNat_lt
    simp only [decodeQuanta, pad, decodeSextet_encodeSextet (show a.toNat / 4 < 64 by omega),
      decodeSextet_encodeSextet (show a.toNat % 4 * 16 < 64 by omega), and_self, if_true]
    rw [byte (c := a) (by omega)]
  | case3 a b =>
    have := a.toNat_lt
    have := b.toNat_lt
    simp only [decodeQuanta, pad, decodeSextet_encodeSextet (show a.toNat / 4 < 64 by omega),
      decodeSextet_encodeSextet (show a.toNat % 4 * 16 + b.toNat / 16 < 64 by omega),
      decodeSextet_encodeSextet (show b.toNat % 16 * 4 < 64 by omega), and_self, if_true]
    rw [byte (c := a) (by omega), byte (c := b) (by omega)]
  | case4 a b c rest ih =>
    have := a.toNat_lt
    have := b.toNat_lt
    have := c.toNat_lt
    simp only [decodeQuanta, decodeSextet_encodeSextet (show a.toNat / 4 < 64 by omega),
      decodeSextet_encodeSextet (show a.toNat % 4 * 16 + b.toNat / 16 < 64 by omega),
      decodeSextet_encodeSextet (show b.toNat % 16 * 4 + c.toNat / 64 < 64 by omega),
      decodeSextet_encodeSextet (show c.toNat % 64 < 64 by omega), ih, Option.map_some]
    rw [byte (c := a) (by omega), byte (c := b) (by omega), byte (c := c) (by omega)]

theorem decodeBase64_encodeBase64 (s : Bytes) : decodeBase64 (encodeBase64 s) = some s := by
  have kept : (encodeBase64 s).filter (fun c => !isLineBreak c) = encodeBase64 s := by
    apply List.filter_eq_self.mpr
    intro c member
    have bounds := encodeBase64_bounds s c member
    have : 43 ≤ c.toNat := bounds.1
    simp only [isLineBreak, Bool.not_eq_true', Bool.or_eq_false_iff, beq_eq_false_iff_ne]
    constructor <;> (rintro rfl; revert this; decide)
  rw [decodeBase64, kept, decodeQuanta_encode]

theorem encodeBase64_eq_nil {s : Bytes} : encodeBase64 s = [] ↔ s = [] := by
  constructor
  · intro h
    have := decodeBase64_encodeBase64 s
    rw [h] at this
    exact (Option.some.inj this).symm
  · rintro rfl
    rfl

theorem decodeQuanta_eq_nil {s : Bytes} (decoded : decodeQuanta s = some []) : s = [] := by
  unfold decodeQuanta at decoded
  split at decoded
  · rfl
  · split at decoded
    · simp at decoded
    all_goals (first | (split at decoded <;> simp at decoded) | simp at decoded)
  · simp at decoded

-- Only line breaks decode to nothing.
theorem decodeBase64_eq_nil {s : Bytes} (decoded : decodeBase64 s = some []) :
    ∀ c ∈ s, isLineBreak c = true := by
  have none := decodeQuanta_eq_nil decoded
  simpa using none

theorem decodeSextet_ne_pad {c : UInt8} {v : Nat} (found : decodeSextet c = some v) : c ≠ padByte := by
  rintro rfl
  cases found

-- Every four characters stand for three bytes, less one for each pad character.
theorem decodeQuanta_length {s bytes : Bytes} (decoded : decodeQuanta s = some bytes) :
    s.length % 4 = 0 ∧ s.count padByte ≤ 2 ∧ bytes.length + s.count padByte = 3 * (s.length / 4) := by
  fun_induction decodeQuanta s generalizing bytes with
  | case1 =>
    obtain rfl := Option.some.inj decoded
    decide
  | case2 a b c d rest x y z w fourth third second first ih =>
    obtain ⟨tail, found, rfl⟩ := Option.map_eq_some_iff.mp decoded
    obtain ⟨quanta, pads, size⟩ := ih found
    simp only [List.length_cons, List.count_cons_of_ne (decodeSextet_ne_pad first),
      List.count_cons_of_ne (decodeSextet_ne_pad second), List.count_cons_of_ne (decodeSextet_ne_pad third),
      List.count_cons_of_ne (decodeSextet_ne_pad fourth)]
    omega
  | case3 a b c d rest x y z _ third second first ends =>
    obtain ⟨rfl, rfl⟩ := ends
    obtain rfl := Option.some.inj decoded
    simp [List.count_cons_of_ne (decodeSextet_ne_pad first), List.count_cons_of_ne (decodeSextet_ne_pad second),
      List.count_cons_of_ne (decodeSextet_ne_pad third)]
  | case5 a b c d rest x y _ second first ends =>
    obtain ⟨rfl, rfl, rfl⟩ := ends
    obtain rfl := Option.some.inj decoded
    simp [List.count_cons_of_ne (decodeSextet_ne_pad first), List.count_cons_of_ne (decodeSextet_ne_pad second)]
  | _ => cases decoded

-- The characters that DecodeString does not skip.
def base64Symbols (s : Bytes) : Bytes := s.filter fun c => !isLineBreak c

theorem decodeBase64_empty_iff {s bytes : Bytes} (decoded : decodeBase64 s = some bytes) :
    bytes = [] ↔ base64Symbols s = [] := by
  constructor
  · rintro rfl
    exact decodeQuanta_eq_nil decoded
  · intro none
    rw [base64Symbols] at none
    rw [decodeBase64, none] at decoded
    exact (Option.some.inj decoded).symm

theorem decodeBase64_hash_iff {s bytes : Bytes} (decoded : decodeBase64 s = some bytes) :
    bytes.length = 32 ↔ (base64Symbols s).length = 44 ∧ (base64Symbols s).count padByte = 1 := by
  have length := decodeQuanta_length decoded
  rw [base64Symbols]
  omega

end Base64

section Space

def isSpaceByte (c : UInt8) : Bool := c == 32 || (9 ≤ c && c ≤ 13)

-- How many bytes the white space character at the front takes up, in UTF-8.
def leadingSpace : Bytes → Nat
  | 0xC2 :: 0x85 :: _ => 2
  | 0xC2 :: 0xA0 :: _ => 2
  | 0xE1 :: 0x9A :: 0x80 :: _ => 3
  | 0xE2 :: 0x80 :: c :: _ => if (0x80 ≤ c ∧ c ≤ 0x8A) ∨ c = 0xA8 ∨ c = 0xA9 ∨ c = 0xAF then 3 else 0
  | 0xE2 :: 0x81 :: 0x9F :: _ => 3
  | 0xE3 :: 0x80 :: 0x80 :: _ => 3
  | c :: _ => if isSpaceByte c then 1 else 0
  | [] => 0

-- The same for the last character of a string that is given backwards.
def trailingSpace : Bytes → Nat
  | 0x85 :: 0xC2 :: _ => 2
  | 0xA0 :: 0xC2 :: _ => 2
  | 0x80 :: 0x9A :: 0xE1 :: _ => 3
  | c :: 0x80 :: 0xE2 :: _ =>
    if (0x80 ≤ c ∧ c ≤ 0x8A) ∨ c = 0xA8 ∨ c = 0xA9 ∨ c = 0xAF then 3
    else if isSpaceByte c then 1 else 0
  | 0x9F :: 0x81 :: 0xE2 :: _ => 3
  | 0x80 :: 0x80 :: 0xE3 :: _ => 3
  | c :: _ => if isSpaceByte c then 1 else 0
  | [] => 0

def trimWith (space : Bytes → Nat) : Nat → Bytes → Bytes
  | 0, s => s
  | fuel + 1, s => if space s = 0 then s else trimWith space fuel (s.drop (space s))

-- strings.TrimSpace.
def trimSpace (s : Bytes) : Bytes :=
  let front := trimWith leadingSpace s.length s
  (trimWith trailingSpace front.length front.reverse).reverse

theorem trimWith_of_zero {space : Bytes → Nat} {s : Bytes} (none : space s = 0) (fuel : Nat) :
    trimWith space fuel s = s := by
  cases fuel with
  | zero => rfl
  | succ fuel => simp [trimWith, none]

def Visible (c : UInt8) : Prop := 32 < c ∧ c < 128

theorem Visible.notSpace {c : UInt8} (visible : Visible c) : isSpaceByte c = false := by
  have lower : 32 < c.toNat := visible.1
  simp only [isSpaceByte, Bool.or_eq_false_iff, Bool.and_eq_false_iff, beq_eq_false_iff_ne,
    decide_eq_false_iff_not]
  constructor
  · rintro rfl
    exact absurd lower (by decide)
  · right
    intro le
    have : c.toNat ≤ 13 := le
    omega

theorem leadingSpace_visible {c : UInt8} {rest : Bytes} (visible : Visible c) :
    leadingSpace (c :: rest) = 0 := by
  have upper : c.toNat < 128 := visible.2
  unfold leadingSpace
  split <;> rename_i same <;> first
    | (obtain ⟨rfl, -⟩ := List.cons.inj same; exact absurd upper (by decide))
    | (obtain ⟨rfl, -⟩ := List.cons.inj same; simp [visible.notSpace])
    | simp at same

theorem trailingSpace_visible {c : UInt8} {rest : Bytes} (visible : Visible c) :
    trailingSpace (c :: rest) = 0 := by
  have upper : c.toNat < 128 := visible.2
  have low {d : UInt8} (high : 128 ≤ d.toNat) : c ≠ d := by
    rintro rfl
    omega
  have outside : ¬ ((0x80 ≤ c ∧ c ≤ 0x8A) ∨ c = 0xA8 ∨ c = 0xA9 ∨ c = 0xAF) := by
    rintro (⟨le, _⟩ | same | same | same)
    · have : 128 ≤ c.toNat := le
      omega
    all_goals exact low (by decide) same
  unfold trailingSpace
  split <;> rename_i same <;> first
    | (obtain ⟨rfl, -⟩ := List.cons.inj same; exact absurd upper (by decide))
    | (obtain ⟨rfl, -⟩ := List.cons.inj same; simp [outside, visible.notSpace])
    | simp at same

theorem trailingSpace_newline {c : UInt8} {rest : Bytes} (visible : Visible c) :
    trailingSpace (newline :: c :: rest) = 1 := by
  have upper : c.toNat < 128 := visible.2
  have low {d : UInt8} (high : 128 ≤ d.toNat) : c ≠ d := by
    rintro rfl
    omega
  unfold trailingSpace
  split <;> rename_i same <;> first
    | (obtain ⟨first, second⟩ := List.cons.inj same; exact absurd first (by decide))
    | (obtain ⟨-, second⟩ := List.cons.inj same
       exact absurd (List.cons.inj second).1 (low (by decide)))
    | (obtain ⟨rfl, -⟩ := List.cons.inj same; rfl)
    | simp at same

-- Only the final line break of a text with visible ends is trimmed.
theorem trimSpace_line {c d : UInt8} {body : Bytes} (first : body.head? = some c)
    (last : body.getLast? = some d) (front : Visible c) (back : Visible d) :
    trimSpace (body ++ [newline]) = body := by
  obtain ⟨rest, rfl⟩ : ∃ rest, body = c :: rest := by
    cases body with
    | nil => simp at first
    | cons b rest => exact ⟨rest, by simpa using first⟩
  obtain ⟨init, split⟩ : ∃ init, (c :: rest).reverse = d :: init := by
    rw [← List.head?_reverse] at last
    cases reversed : (c :: rest).reverse with
    | nil => simp at reversed
    | cons b init =>
      rw [reversed] at last
      exact ⟨init, by simpa using last⟩
  have leading : trimWith leadingSpace (c :: rest ++ [newline]).length (c :: rest ++ [newline]) =
      c :: rest ++ [newline] := by
    rw [List.cons_append]
    exact trimWith_of_zero (leadingSpace_visible front) _
  have trailing : (c :: rest ++ [newline]).reverse = newline :: d :: init := by
    rw [List.reverse_append, split]
    rfl
  rw [trimSpace, leading, trailing, List.length_append, List.length_singleton, trimWith,
    trailingSpace_newline back, if_neg (by decide), List.drop_one, List.tail_cons,
    trimWith_of_zero (trailingSpace_visible back), ← split, List.reverse_reverse]

theorem trimWith_space (space : Bytes → Nat) (empty : space [] = 0) {fuel : Nat} {s : Bytes}
    (enough : s.length ≤ fuel) : space (trimWith space fuel s) = 0 := by
  induction fuel generalizing s with
  | zero =>
    obtain rfl := List.length_eq_zero_iff.mp (Nat.le_zero.mp enough)
    exact empty
  | succ fuel ih =>
    rw [trimWith]
    split
    next none => exact none
    next some' => exact ih (by rw [List.length_drop]; omega)

theorem trailingSpace_space {c : UInt8} {rest : Bytes} (space : isSpaceByte c = true) :
    trailingSpace (c :: rest) ≠ 0 := by
  unfold trailingSpace
  split <;> rename_i same <;> first
    | decide
    | (obtain ⟨rfl, -⟩ := List.cons.inj same; exact if_pos space ▸ by decide)
    | (obtain ⟨rfl, -⟩ := List.cons.inj same; rw [if_pos space]; split <;> decide)
    | simp at same

theorem trimSpace_last {s : Bytes} {c : UInt8} (last : (trimSpace s).getLast? = some c) :
    isSpaceByte c = false := by
  rw [trimSpace, List.getLast?_reverse] at last
  cases trimmed : trimWith trailingSpace (trimWith leadingSpace s.length s).length
      (trimWith leadingSpace s.length s).reverse with
  | nil => simp [trimmed] at last
  | cons first rest =>
    have none := trimWith_space trailingSpace rfl
      (Nat.le_of_eq (trimWith leadingSpace s.length s).length_reverse)
    rw [trimmed] at none last
    obtain rfl : first = c := by simpa using last
    by_contra space
    exact trailingSpace_space (by simpa using space) none

end Space

end Go
