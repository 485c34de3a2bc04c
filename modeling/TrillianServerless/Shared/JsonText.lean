import Mathlib.Data.List.TakeWhile
import TrillianServerless.Shared.Json

set_option autoImplicit false

namespace Go

namespace Json

section Encoder

-- A character by its number.
def encodeUnicode (n : Nat) : Bytes :=
  [backslash, 117, digitByte (n / 4096 % 16), digitByte (n / 256 % 16), digitByte (n / 16 % 16), digitByte (n % 16)]

-- A character of a string: besides what JSON asks for, those that HTML and JavaScript care about are escaped.
def encodeChar (c : Char) : Bytes :=
  if c.toNat = 34 ∨ c.toNat = 92 then [backslash, UInt8.ofNat c.toNat]
  else if c.toNat = 10 then [backslash, 110]
  else if c.toNat = 13 then [backslash, 114]
  else if c.toNat = 9 then [backslash, 116]
  else if c.toNat < 32 ∨ c.toNat = 38 ∨ c.toNat = 60 ∨ c.toNat = 62 ∨ c.toNat = 0x2028 ∨ c.toNat = 0x2029 then
    encodeUnicode c.toNat
  else String.utf8EncodeChar c

def encodeText (s : String) : Bytes := quote :: s.toList.flatMap encodeChar ++ [quote]

def encodeArray (items : List Bytes) : Bytes := openBracket :: List.intercalate [comma] items ++ [closeBracket]

-- A [][]byte.
def encodeBytesList : Option (List (Option Bytes)) → Bytes
  | none => [110, 117, 108, 108]
  | some items => encodeArray (items.map encodeBytes)

def toBytesList : Json → Except GoError (Option (List (Option Bytes)))
  | .null => .ok none
  | .array items => (items.mapM toBytes).map some
  | _ => typeError

end Encoder

section Strings

theorem isHex_digitByte {n : Nat} (small : n < 16) : isHex (digitByte n) = true := by
  interval_cases n <;> decide

theorem getu4_encodeUnicode {n : Nat} (small : n < 65536) (rest : Bytes) :
    getu4 (encodeUnicode n ++ rest) = some (n, rest) := by
  have digit (d : Nat) : digitValue (digitByte (d % 16)) = some (d % 16) := digitValue_digitByte (Nat.mod_lt d (by decide))
  have below (d : Nat) : d % 16 < 16 := Nat.mod_lt d (by decide)
  have number : (((0 * 16 + n / 4096 % 16) * 16 + n / 256 % 16) * 16 + n / 16 % 16) * 16 + n % 16 = n := by omega
  have parsed : parseUint 16 16 [digitByte (n / 4096 % 16), digitByte (n / 256 % 16), digitByte (n / 16 % 16),
      digitByte (n % 16)] = some n := by
    simp only [parseUint, reduceCtorEq, if_false, List.foldl_cons, List.foldl_nil, accumulate, digit, below, if_true,
      number]
    exact Option.filter_some_pos (by simpa using small)
  simp only [encodeUnicode, List.cons_append, List.nil_append, getu4, and_self, if_true, parsed, Option.map_some]

theorem runeTail_succ {n r v : Nat} (small : v < 64) (rest : Bytes) :
    runeTail (n + 1) r (UInt8.ofNat (v + 128) :: rest) = runeTail n (r * 64 + v) rest := by
  have byte : (UInt8.ofNat (v + 128)).toNat = v + 128 := by
    rw [UInt8.toNat_ofNat']
    omega
  have inside : 128 ≤ UInt8.ofNat (v + 128) ∧ UInt8.ofNat (v + 128) < 192 := by
    rw [UInt8.le_iff_toNat_le, UInt8.lt_iff_toNat_lt, byte]
    exact ⟨Nat.le_add_left _ _, by change v + 128 < 192; omega⟩
  rw [runeTail, if_pos inside, byte, Nat.add_sub_cancel]

-- The branches of DecodeRune by the number of the first byte.
theorem decodeRune_ofNat {n : Nat} (small : n < 256) (rest : Bytes) :
    decodeRune (UInt8.ofNat n) rest =
      match (if n < 128 then some (n, rest) else if n < 194 then none
        else if n < 224 then runeTail 1 (n - 192) rest
        else if n < 240 then (runeTail 2 (n - 224) rest).filter fun r => 2048 ≤ r.1
        else if n < 245 then (runeTail 3 (n - 240) rest).filter fun r => 65536 ≤ r.1
        else none) with
      | some (r, after) => if r.isValidChar then (Char.ofNat r, after) else (replacementChar, rest)
      | none => (replacementChar, rest) := by
  have byte : (UInt8.ofNat n).toNat = n := by rw [UInt8.toNat_ofNat', Nat.mod_eq_of_lt small]
  simp only [decodeRune, UInt8.lt_iff_toNat_lt, byte]
  rfl

-- A character is read back from its bytes.
theorem decodeRune_utf8 (c : Char) (rest : Bytes) : ∃ b tail, String.utf8EncodeChar c = b :: tail ∧
    decodeRune b (tail ++ rest) = (c, rest) := by
  have valid : c.val.toNat.isValidChar := c.valid
  have back : Char.ofNat c.val.toNat = c := Char.ofNat_toNat c
  have bound : c.val.toNat < 1114112 := by
    rcases valid with low | high <;> omega
  have low (n : Nat) : n % 64 < 64 := Nat.mod_lt n (by decide)
  unfold String.utf8EncodeChar
  generalize c.val.toNat = v at *
  dsimp only
  split
  next ascii =>
    refine ⟨_, _, rfl, ?_⟩
    rw [decodeRune_ofNat (by omega), if_pos (by omega)]
    simp only [List.nil_append, if_pos valid, back]
  next =>
    split
    next =>
      refine ⟨_, _, rfl, ?_⟩
      have number : (v / 64 % 32 + 192 - 192) * 64 + v % 64 = v := by omega
      rw [decodeRune_ofNat (by omega), if_neg (by omega), if_neg (by omega), if_pos (by omega), List.singleton_append,
        runeTail_succ (low _), runeTail, number]
      simp only [if_pos valid, back]
    next =>
      split
      next =>
        refine ⟨_, _, rfl, ?_⟩
        have number : ((v / 4096 % 16 + 224 - 224) * 64 + v / 64 % 64) * 64 + v % 64 = v := by omega
        have large : decide (2048 ≤ v) = true := decide_eq_true (by omega)
        rw [decodeRune_ofNat (by omega), if_neg (by omega), if_neg (by omega), if_neg (by omega), if_pos (by omega),
          List.cons_append, List.singleton_append, runeTail_succ (low _), runeTail_succ (low _), runeTail, number]
        simp only [Option.filter_some, large, if_true, if_pos valid, back]
      next =>
        refine ⟨_, _, rfl, ?_⟩
        have number : (((v / 262144 % 8 + 240 - 240) * 64 + v / 4096 % 64) * 64 + v / 64 % 64) * 64 + v % 64 = v := by
          omega
        have large : decide (65536 ≤ v) = true := decide_eq_true (by omega)
        rw [decodeRune_ofNat (by omega), if_neg (by omega), if_neg (by omega), if_neg (by omega), if_neg (by omega),
          if_pos (by omega), List.cons_append, List.cons_append, List.singleton_append, runeTail_succ (low _),
          runeTail_succ (low _), runeTail_succ (low _), runeTail, number]
        simp only [Option.filter_some, large, if_true, if_pos valid, back]

theorem utf8EncodeChar_bytes (c : Char) :
    ∀ b ∈ String.utf8EncodeChar c, b.toNat = c.toNat ∨ 128 ≤ b.toNat := by
  have high (n : Nat) {m : Nat} (small : n < 128) (same : m = n + 128) : 128 ≤ (UInt8.ofNat m).toNat := by
    rw [UInt8.toNat_ofNat']
    omega
  have value : c.val.toNat = c.toNat := rfl
  unfold String.utf8EncodeChar
  rw [value]
  dsimp only
  split
  next ascii =>
    intro b inside
    rw [List.mem_singleton.mp inside, UInt8.toNat_ofNat']
    exact .inl (by omega)
  next =>
    split
    next =>
      simp only [List.forall_mem_cons]
      exact ⟨.inr (high (c.toNat / 64 % 32 + 64) (by omega) rfl), .inr (high _ (by omega) rfl), by simp⟩
    next =>
      split
      next =>
        simp only [List.forall_mem_cons]
        exact ⟨.inr (high (c.toNat / 4096 % 16 + 96) (by omega) rfl), .inr (high _ (by omega) rfl),
          .inr (high _ (by omega) rfl), by simp⟩
      next =>
        simp only [List.forall_mem_cons]
        exact ⟨.inr (high (c.toNat / 262144 % 8 + 112) (by omega) rfl), .inr (high _ (by omega) rfl),
          .inr (high _ (by omega) rfl), .inr (high _ (by omega) rfl), by simp⟩

theorem stringBody_visible {bytes : Bytes} (each : ∀ b ∈ bytes, 32 ≤ b.toNat ∧ b ≠ quote ∧ b ≠ backslash)
    (rest : Bytes) : stringBody (bytes ++ rest) = (stringBody rest).map fun r => (bytes ++ r.1, r.2) := by
  induction bytes with
  | nil => simp
  | cons b bytes ih =>
    obtain ⟨visible, noQuote, noEscape⟩ := each b (by simp)
    have later := ih fun d inside => each d (by simp [inside])
    have shown : ¬ b < 32 := by
      rw [UInt8.lt_iff_toNat_lt]
      exact Nat.not_lt.mpr visible
    rw [List.cons_append, stringBody.eq_def]
    dsimp only
    rw [if_neg noQuote, if_neg noEscape, if_neg shown, later, Option.map_map]
    rfl

theorem stringBody_escape {e : UInt8} (known : (escapes.lookup e).isSome) (rest : Bytes) :
    stringBody (backslash :: e :: rest) = (stringBody rest).map fun r => (backslash :: e :: r.1, r.2) := by
  have other : backslash ≠ quote := by decide
  rw [stringBody.eq_def]
  dsimp only
  rw [if_neg other, if_pos rfl, if_pos known]

theorem stringBody_unicode {h₀ h₁ h₂ h₃ : UInt8} (hex : (isHex h₀ && isHex h₁ && isHex h₂ && isHex h₃) = true)
    (rest : Bytes) : stringBody (backslash :: 117 :: h₀ :: h₁ :: h₂ :: h₃ :: rest) =
      (stringBody rest).map fun r => (backslash :: 117 :: h₀ :: h₁ :: h₂ :: h₃ :: r.1, r.2) := by
  have other : backslash ≠ quote := by decide
  have letter : (escapes.lookup 117).isSome = false := by decide
  rw [stringBody.eq_def]
  simp only [if_neg other, letter, hex, if_true, Bool.false_eq_true, if_false]

theorem stringBody_encodeUnicode (n : Nat) (rest : Bytes) : stringBody (encodeUnicode n ++ rest) =
    (stringBody rest).map fun r => (encodeUnicode n ++ r.1, r.2) := by
  have hex (d : Nat) : isHex (digitByte (d % 16)) = true := isHex_digitByte (Nat.mod_lt d (by decide))
  exact stringBody_unicode (by simp only [hex, Bool.and_self]) rest

theorem stringBody_encodeChar (c : Char) (rest : Bytes) : stringBody (encodeChar c ++ rest) =
    (stringBody rest).map fun r => (encodeChar c ++ r.1, r.2) := by
  unfold encodeChar
  split
  next special =>
    rcases special with same | same
    all_goals
      rw [same]
      exact stringBody_escape (by decide) rest
  next plain =>
    split
    · exact stringBody_escape (by decide) rest
    split
    · exact stringBody_escape (by decide) rest
    split
    · exact stringBody_escape (by decide) rest
    split
    · exact stringBody_encodeUnicode _ rest
    next others =>
      refine stringBody_visible (fun b inside => ?_) rest
      have byte := utf8EncodeChar_bytes c b inside
      refine ⟨by omega, ?_, ?_⟩
      · rintro rfl
        change 34 = _ ∨ 128 ≤ 34 at byte
        omega
      · rintro rfl
        change 92 = _ ∨ 128 ≤ 92 at byte
        omega

theorem stringBody_text (text : List Char) (rest : Bytes) :
    stringBody (text.flatMap encodeChar ++ quote :: rest) = some (text.flatMap encodeChar, rest) := by
  induction text with
  | nil =>
    rw [List.flatMap_nil, List.nil_append, stringBody.eq_def]
    exact if_pos rfl
  | cons c text ih => rw [List.flatMap_cons, List.append_assoc, stringBody_encodeChar, ih, Option.map_some]

theorem unquoteFrom_escape {e : UInt8} (fuel : Nat) (noNumber : e ≠ 117) (rest : Bytes) :
    unquoteFrom (fuel + 1) (backslash :: e :: rest) =
      Char.ofNat ((escapes.lookup e).getD e).toNat :: unquoteFrom fuel rest := by
  have short : getu4 (backslash :: e :: rest) = none := by
    unfold getu4
    split
    next b u _ _ _ _ _ same =>
      have second := (List.cons.inj (List.cons.inj same).2).1
      exact if_neg fun both => noNumber (second.trans both.2)
    next => rfl
  rw [unquoteFrom, if_pos rfl, short]

theorem unquoteFrom_encodeChar (fuel : Nat) (c : Char) (rest : Bytes) :
    unquoteFrom (fuel + 1) (encodeChar c ++ rest) = c :: unquoteFrom fuel rest := by
  have back : Char.ofNat c.toNat = c := Char.ofNat_toNat c
  have escape {e : UInt8} {n : Nat} (same : c.toNat = n) (noNumber : e ≠ 117)
      (stands : ((escapes.lookup e).getD e).toNat = n) :
      unquoteFrom (fuel + 1) (backslash :: e :: rest) = c :: unquoteFrom fuel rest := by
    rw [unquoteFrom_escape fuel noNumber, stands, ← same, back]
  unfold encodeChar
  split
  next special =>
    rcases special with same | same
    all_goals
      rw [same]
      exact escape same (by decide) (by decide)
  next plain =>
    split
    next same => exact escape same (by decide) (by decide)
    split
    next same => exact escape same (by decide) (by decide)
    split
    next same => exact escape same (by decide) (by decide)
    split
    next numbered =>
      have small : c.toNat < 65536 := by omega
      have read := getu4_encodeUnicode small rest
      have scalar : isSurrogate c.toNat = false := by
        unfold isSurrogate
        rw [Bool.and_eq_false_iff, decide_eq_false_iff_not, decide_eq_false_iff_not]
        omega
      obtain ⟨tail, text⟩ : ∃ tail, encodeUnicode c.toNat ++ rest = backslash :: tail := ⟨_, rfl⟩
      rw [text] at read ⊢
      rw [unquoteFrom.eq_def]
      dsimp only
      rw [if_pos rfl, read]
      simp only [scalar, Bool.false_eq_true, if_false, back]
    next others =>
      obtain ⟨b, tail, bytes, rune⟩ := decodeRune_utf8 c rest
      have byte := utf8EncodeChar_bytes c b (by simp [bytes])
      have noEscape : b ≠ backslash := by
        rintro rfl
        change 92 = _ ∨ 128 ≤ 92 at byte
        omega
      rw [bytes, List.cons_append, unquoteFrom.eq_def]
      dsimp only
      rw [if_neg noEscape, rune]

theorem encodeChar_length (c : Char) : 0 < (encodeChar c).length := by
  obtain ⟨b, tail, bytes, -⟩ := decodeRune_utf8 c []
  unfold encodeChar
  split_ifs
  all_goals simp [encodeUnicode, bytes]

theorem unquote_text (text : List Char) : unquote (text.flatMap encodeChar) = text := by
  have enough (text : List Char) : text.length ≤ (text.flatMap encodeChar).length := by
    induction text with
    | nil => exact Nat.le_refl 0
    | cons c text ih =>
      have some' := encodeChar_length c
      rw [List.flatMap_cons, List.length_append, List.length_cons]
      omega
  have read {fuel : Nat} (fits : text.length ≤ fuel) : unquoteFrom fuel (text.flatMap encodeChar) = text := by
    induction text generalizing fuel with
    | nil => cases fuel <;> rfl
    | cons c text ih =>
      obtain ⟨fuel, rfl⟩ : ∃ k, fuel = k + 1 := ⟨fuel - 1, by rw [List.length_cons] at fits; omega⟩
      rw [List.flatMap_cons, unquoteFrom_encodeChar, ih (Nat.le_of_succ_le_succ fits)]
  exact read (enough text)

theorem reads_encodeText (depth : Nat) (s : String) :
    Reads depth (encodeText s) (.string (s.toList.flatMap encodeChar)) := by
  refine ⟨⟨_, _, rfl, by decide⟩, fun rest _ => ?_⟩
  have body := stringBody_text s.toList rest
  rw [encodeText, List.cons_append, List.cons_append, value_scalar (by decide) (by decide), scalar, if_pos rfl,
    List.append_assoc, List.singleton_append, body, Option.map_some]

theorem toText_encodeText (old s : String) : toText old (.string (s.toList.flatMap encodeChar)) = .ok s := by
  rw [toText, unquote_text, String.ofList_toList]

end Strings

section Arrays

variable {depth : Nat}

theorem separated_items {texts : List Bytes} {vs : List Json} (reads : List.Forall₂ (Reads depth) texts vs)
    (some' : texts ≠ []) (rest : Bytes) {fuel : Nat} (enough : texts.length ≤ fuel) :
    separated (value depth) closeBracket fuel (List.intercalate [comma] texts ++ closeBracket :: rest) =
      some (vs, rest) := by
  induction reads generalizing fuel with
  | nil => exact absurd rfl some'
  | @cons text v texts vs first others ih =>
    obtain ⟨fuel, rfl⟩ : ∃ k, fuel = k + 1 := ⟨fuel - 1, by rw [List.length_cons] at enough; omega⟩
    cases others with
    | nil =>
      have read := first.value (closeBracket :: rest) ⟨_, _, rfl, .inr (.inr rfl)⟩
      simp [separated, List.intercalate, first.skipSpace, read, skipSpace_cons (by decide : isSpace closeBracket = false)]
    | @cons next v' texts vs second others =>
      have later := ih (by simp) (Nat.le_of_succ_le_succ enough)
      have read := first.value _ (.ofComma (List.intercalate [comma] (next :: texts) ++ closeBracket :: rest))
      have text : List.intercalate [comma] (text :: next :: texts) ++ closeBracket :: rest =
          text ++ comma :: (List.intercalate [comma] (next :: texts) ++ closeBracket :: rest) := by
        simp [List.intercalate]
      have more : comma ≠ closeBracket := by decide
      rw [text, separated, first.skipSpace, read]
      simp [skipSpace_cons (by decide : isSpace comma = false), more, later]

theorem Reads.length {text : Bytes} {v : Json} (reads : Reads depth text v) : 0 < text.length := by
  obtain ⟨c, rest, rfl, -⟩ := reads.visible
  exact Nat.succ_pos _

-- No value begins with the end of an array.
theorem Reads.noClose {c : UInt8} {text : Bytes} {v : Json} (reads : Reads depth (c :: text) v) : c ≠ closeBracket := by
  rintro rfl
  have none : scalar (closeBracket :: (text ++ [comma])) = none := by
    simp [scalar, closeBracket, quote, numberLiteral, sign, integer, digits, isDigit]
  have read := reads.value [comma] (.ofComma [])
  rw [List.cons_append, value_scalar (by decide) (by decide), none] at read
  cases read

theorem length_le_items {texts : List Bytes} {vs : List Json} (reads : List.Forall₂ (Reads depth) texts vs) :
    texts.length ≤ (List.intercalate [comma] texts).length := by
  induction reads with
  | nil => simp
  | @cons text v texts vs first others ih =>
    have some' := first.length
    cases texts with
    | nil =>
      simp [List.intercalate]
      omega
    | cons next texts =>
      simp only [List.intercalate, List.intersperse_cons_cons, List.flatten_cons, List.length_append,
        List.length_cons] at ih ⊢
      omega

theorem reads_encodeArray {texts : List Bytes} {vs : List Json} (reads : List.Forall₂ (Reads depth) texts vs) :
    Reads (depth + 1) (encodeArray texts) (.array vs) := by
  refine ⟨⟨_, _, rfl, by decide⟩, fun rest _ => ?_⟩
  have whole : encodeArray texts ++ rest =
      openBracket :: (List.intercalate [comma] texts ++ closeBracket :: rest) := by simp [encodeArray]
  have noObject : openBracket ≠ openBrace := by decide
  rw [whole, value, if_neg noObject, if_pos rfl]
  cases reads with
  | nil => simp [enclosed, List.intercalate, skipSpace_cons (by decide : isSpace closeBracket = false)]
  | @cons text v texts vs first others =>
    have fits := length_le_items (.cons first others)
    have read := fun fuel => @separated_items depth _ _ (.cons first others) (by simp) rest fuel
    obtain ⟨c, tail, body, visible, noClose⟩ : ∃ c tail, List.intercalate [comma] (text :: texts) = c :: tail ∧
        isSpace c = false ∧ c ≠ closeBracket := by
      obtain ⟨c, tail, rfl, visible⟩ := first.visible
      have noClose := first.noClose
      cases texts <;> exact ⟨c, _, rfl, visible, noClose⟩
    rw [body] at read fits ⊢
    rw [enclosed, List.cons_append, skipSpace_cons visible]
    dsimp only
    rw [if_neg noClose]
    have parsed := read ((tail ++ closeBracket :: rest).length + 1) (by simp at fits ⊢; omega)
    rw [List.cons_append] at parsed
    rw [parsed, Option.map_some]

theorem reads_encodeStruct {members : List (Bytes × Bytes)} {vs : List Json}
    (names : ∀ m ∈ members, ∀ c ∈ m.1, Plain c)
    (reads : List.Forall₂ (fun m v => Reads depth m.2 v) members vs) (some' : members ≠ []) :
    Reads (depth + 1) (encodeStruct members) (.object ((members.map Prod.fst).zip vs)) :=
  ⟨⟨_, _, rfl, by decide⟩, fun rest _ => value_encodeStruct names reads some' rest⟩

def ofBytesList : Option (List (Option Bytes)) → Json
  | none => .null
  | some items => .array (items.map ofBytes)

theorem reads_encodeBytesList (items : Option (List (Option Bytes))) :
    Reads (depth + 1) (encodeBytesList items) (ofBytesList items) := by
  cases items with
  | none => exact reads_encodeBytes (depth + 1) none
  | some items =>
    refine reads_encodeArray ?_
    rw [List.forall₂_map_left_iff, List.forall₂_map_right_iff, List.forall₂_same]
    exact fun bytes _ => reads_encodeBytes depth bytes

theorem toBytesList_ofBytesList (items : Option (List (Option Bytes))) :
    toBytesList (ofBytesList items) = .ok items := by
  cases items with
  | none => rfl
  | some items =>
    have read : (items.map ofBytes).mapM toBytes = .ok items := by
      induction items with
      | nil => rfl
      | cons bytes items ih =>
        rw [List.map_cons, List.mapM_cons, toBytes_ofBytes, ih]
        rfl
    rw [ofBytesList, toBytesList, read]
    rfl

-- Members under the names of fields are stored in these, one after the other.
theorem decodeStruct_named {A : Type} {known fields : List (Field A)} {members : List (Bytes × Json)} (a : A)
    (resolves : List.Forall₂ (fun f m => known.find? (fun g => equalFold g.name (unquote m.1)) = some f) fields
      members) :
    decodeStruct known a (.object members) =
      (fields.zip (members.map Prod.snd)).foldlM (fun a p => p.1.store a p.2) a := by
  rw [decodeStruct]
  induction resolves generalizing a with
  | nil => rfl
  | @cons f m fields members first others ih =>
    rw [List.foldlM_cons, List.map_cons, List.zip_cons_cons, List.foldlM_cons, decodeMember, first]
    dsimp only
    cases f.store a m.2 with
    | error reason => rfl
    | ok stored => exact ih stored

end Arrays

section Extent

/-- What is no part of a number that it follows. -/
def Follows (rest : Bytes) : Prop :=
  ∀ c after, rest = c :: after → isDigit c = false ∧ c ≠ 46 ∧ c ≠ 101 ∧ c ≠ 69

-- A literal with one more piece in front.
theorem extent_piece {piece tail : Bytes} (step : ∀ rest, stringBody (piece ++ rest) =
      (stringBody rest).map fun r => (piece ++ r.1, r.2))
    (later : ∀ {body rest : Bytes}, stringBody tail = some (body, rest) →
      tail = body ++ quote :: rest ∧ ∀ rest', stringBody (body ++ quote :: rest') = some (body, rest'))
    {body rest : Bytes} (read : stringBody (piece ++ tail) = some (body, rest)) :
    piece ++ tail = body ++ quote :: rest ∧ ∀ rest', stringBody (body ++ quote :: rest') = some (body, rest') := by
  rw [step] at read
  obtain ⟨⟨found, rest⟩, inner, same⟩ := Option.map_eq_some_iff.mp read
  obtain ⟨rfl, rfl⟩ := Prod.mk.inj same
  obtain ⟨rfl, again⟩ := later inner
  exact ⟨by rw [List.append_assoc], fun rest' => by rw [List.append_assoc, step, again, Option.map_some]⟩

theorem stringBody_extent {s body rest : Bytes} (read : stringBody s = some (body, rest)) :
    s = body ++ quote :: rest ∧ ∀ rest', stringBody (body ++ quote :: rest') = some (body, rest') := by
  have closed (rest' : Bytes) : stringBody (quote :: rest') = some ([], rest') := by
    rw [stringBody.eq_def]
    exact if_pos rfl
  induction s using stringBody.induct generalizing body rest with
  | case1 => cases read
  | case2 tail =>
    rw [closed] at read
    obtain ⟨rfl, rfl⟩ := Prod.mk.inj (Option.some.inj read)
    exact ⟨rfl, closed⟩
  | case3 other => cases read
  | case4 e tail known other ih => exact @extent_piece [backslash, e] tail (stringBody_escape known) ih _ _ read
  | case5 h₀ h₁ h₂ h₃ tail hex other letter ih => 
    exact @extent_piece [backslash, 117, h₀, h₁, h₂, h₃] tail (stringBody_unicode hex) ih _ _ read
  | case6 h₀ h₁ h₂ h₃ tail hex other letter =>
    rw [stringBody.eq_def] at read
    simp only [if_neg other, if_true, if_neg letter, if_neg hex] at read
    cases read
  | case7 tail short other letter =>
    rw [stringBody.eq_def] at read
    simp only [if_neg other, if_true, if_neg letter] at read
    cases read
  | case8 e tail letter number other =>
    rw [stringBody.eq_def] at read
    simp only [if_neg other, if_true, if_neg letter, if_neg number] at read
    cases read
  | case9 c tail noQuote noEscape hidden =>
    rw [stringBody.eq_def] at read
    simp only [if_neg noQuote, if_neg noEscape, if_pos hidden] at read
    cases read
  | case10 c tail noQuote noEscape visible ih =>
    refine @extent_piece [c] tail (stringBody_visible ?_) ih _ _ read
    intro b inside
    rw [List.mem_singleton.mp inside]
    exact ⟨Nat.not_lt.mp fun low => visible (UInt8.lt_iff_toNat_lt.mpr low), noQuote, noEscape⟩

theorem digits_extent {s ds rest : Bytes} (read : digits s = some (ds, rest)) :
    s = ds ++ rest ∧ ds ≠ [] ∧ (∀ c ∈ ds, isDigit c = true) ∧
      ∀ rest', (∀ c after, rest' = c :: after → isDigit c = false) → digits (ds ++ rest') = some (ds, rest') := by
  unfold digits at read
  split at read
  next => cases read
  next some' =>
    obtain ⟨rfl, rfl⟩ := Prod.mk.inj (Option.some.inj read)
    have each : ∀ c ∈ s.takeWhile isDigit, isDigit c = true := fun c inside => List.mem_takeWhile_imp inside
    refine ⟨List.takeWhile_append_dropWhile.symm, some', each, fun rest' stops => ?_⟩
    have none : rest'.takeWhile isDigit = [] ∧ rest'.dropWhile isDigit = rest' := by
      cases rest' with
      | nil => exact ⟨rfl, rfl⟩
      | cons c after => simp [stops c after rfl]
    rw [digits, List.takeWhile_append_of_pos each, List.dropWhile_append_of_pos each, none.1, none.2, List.append_nil,
      if_neg some']

theorem integer_extent {s whole rest : Bytes} (read : integer s = some (whole, rest)) :
    s = whole ++ rest ∧ (∃ c tail, whole = c :: tail ∧ isDigit c = true) ∧
      ∀ rest', (∀ c after, rest' = c :: after → isDigit c = false) → integer (whole ++ rest') = some (whole, rest') := by
  cases s with
  | nil => cases read
  | cons c s =>
    rw [integer] at read
    split at read
    next zero =>
      obtain ⟨rfl, rfl⟩ := Prod.mk.inj (Option.some.inj read)
      refine ⟨rfl, ⟨c, [], rfl, by rw [zero]; decide⟩, fun rest' _ => ?_⟩
      rw [List.singleton_append, integer, if_pos zero]
    next other =>
      obtain ⟨same, some', each, again⟩ := digits_extent read
      obtain ⟨d, ds, rfl⟩ := List.exists_cons_of_ne_nil some'
      obtain ⟨rfl, -⟩ := List.cons.inj same
      refine ⟨same, ⟨c, ds, rfl, each c (by simp)⟩, fun rest' stops => ?_⟩
      rw [List.cons_append, integer, if_neg other, ← List.cons_append, again rest' stops]

theorem fraction_extent {s part rest : Bytes} (read : fraction s = some (part, rest)) :
    s = part ++ rest ∧ (part = [] ∨ ∃ tail, part = 46 :: tail) ∧
      ∀ rest', (∀ c after, rest' = c :: after → isDigit c = false ∧ c ≠ 46) →
        fraction (part ++ rest') = some (part, rest') := by
  have absent (rest' : Bytes) (stops : ∀ c after, rest' = c :: after → isDigit c = false ∧ c ≠ 46) :
      fraction rest' = some ([], rest') := by
    cases rest' with
    | nil => rfl
    | cons c after => rw [fraction, if_neg (stops c after rfl).2]
  cases s with
  | nil =>
    obtain ⟨rfl, rfl⟩ := Prod.mk.inj (Option.some.inj read)
    exact ⟨rfl, .inl rfl, absent⟩
  | cons c s =>
    rw [fraction] at read
    split at read
    next point =>
      obtain ⟨⟨ds, after⟩, inner, same⟩ := Option.map_eq_some_iff.mp read
      obtain ⟨rfl, rfl⟩ := Prod.mk.inj same
      obtain ⟨rfl, -, -, again⟩ := digits_extent inner
      refine ⟨rfl, .inr ⟨ds, by rw [point]⟩, fun rest' stops => ?_⟩
      rw [List.cons_append, fraction, if_pos point, again rest' fun c after same => (stops c after same).1,
        Option.map_some]
    next =>
      obtain ⟨rfl, rfl⟩ := Prod.mk.inj (Option.some.inj read)
      exact ⟨rfl, .inl rfl, absent⟩

-- An exponent with a sign, and one without.
theorem exponent_signed {c d : UInt8} (letter : c = 101 ∨ c = 69) (sign : d = 43 ∨ d = 45) (s : Bytes) :
    exponent (c :: d :: s) = (digits s).map fun r => (c :: d :: r.1, r.2) := by
  simp only [exponent, if_pos letter, if_pos sign]
  rfl

theorem exponent_unsigned {c d : UInt8} (letter : c = 101 ∨ c = 69) (unsigned : ¬ (d = 43 ∨ d = 45)) (s : Bytes) :
    exponent (c :: d :: s) = (digits (d :: s)).map fun r => (c :: r.1, r.2) := by
  simp only [exponent, if_pos letter, if_neg unsigned]
  rfl

theorem exponent_extent {s power rest : Bytes} (read : exponent s = some (power, rest)) :
    s = power ++ rest ∧ (power = [] ∨ ∃ c tail, power = c :: tail ∧ (c = 101 ∨ c = 69)) ∧
      ∀ rest', Follows rest' → exponent (power ++ rest') = some (power, rest') := by
  have other {c : UInt8} (noLetter : ¬ (c = 101 ∨ c = 69)) (s : Bytes) : exponent (c :: s) = some ([], c :: s) := by
    simp only [exponent, if_neg noLetter]
  have absent (rest' : Bytes) (follows : Follows rest') : exponent rest' = some ([], rest') := by
    cases rest' with
    | nil => rfl
    | cons c after =>
      obtain ⟨-, -, noPower, noPower'⟩ := follows c after rfl
      exact other (by simp [noPower, noPower']) after
  cases s with
  | nil =>
    obtain ⟨rfl, rfl⟩ := Prod.mk.inj (Option.some.inj read)
    exact ⟨rfl, .inl rfl, absent⟩
  | cons c s =>
    by_cases letter : c = 101 ∨ c = 69
    · cases s with
      | nil =>
        simp only [exponent, if_pos letter] at read
        cases read
      | cons d s =>
        by_cases sign : d = 43 ∨ d = 45
        · rw [exponent_signed letter sign] at read
          obtain ⟨⟨ds, after⟩, inner, same⟩ := Option.map_eq_some_iff.mp read
          obtain ⟨rfl, rfl⟩ := Prod.mk.inj same
          obtain ⟨rfl, -, -, again⟩ := digits_extent inner
          refine ⟨rfl, .inr ⟨c, _, rfl, letter⟩, fun rest' follows => ?_⟩
          rw [List.cons_append, List.cons_append, exponent_signed letter sign,
            again rest' fun c after same => (follows c after same).1, Option.map_some]
        · rw [exponent_unsigned letter sign] at read
          obtain ⟨⟨ds, after⟩, inner, same⟩ := Option.map_eq_some_iff.mp read
          obtain ⟨rfl, rfl⟩ := Prod.mk.inj same
          obtain ⟨text, some', -, again⟩ := digits_extent inner
          obtain ⟨d', ds, rfl⟩ := List.exists_cons_of_ne_nil some'
          obtain ⟨rfl, -⟩ := List.cons.inj text
          refine ⟨by rw [text]; rfl, .inr ⟨c, _, rfl, letter⟩, fun rest' follows => ?_⟩
          rw [List.cons_append, List.cons_append, exponent_unsigned letter sign, ← List.cons_append,
            again rest' fun c after same => (follows c after same).1, Option.map_some]
    · rw [other letter] at read
      obtain ⟨rfl, rfl⟩ := Prod.mk.inj (Option.some.inj read)
      exact ⟨rfl, .inl rfl, absent⟩

theorem sign_extent (s : Bytes) : s = (sign s).1 ++ (sign s).2 ∧
    ((sign s).1 = [] ∨ (sign s).1 = [45]) := by
  cases s with
  | nil => exact ⟨rfl, .inl rfl⟩
  | cons c s =>
    by_cases minus : c = 45
    · simp [sign, minus]
    · simp [sign, minus]

theorem numberLiteral_extent {s literal rest : Bytes} (read : numberLiteral s = some (literal, rest)) :
    literal ≠ [] ∧ s = literal ++ rest ∧
      ∀ rest', Follows rest' → numberLiteral (literal ++ rest') = some (literal, rest') := by
  unfold numberLiteral at read
  obtain ⟨unsigned, first⟩ := sign_extent s
  generalize sign s = pair at *
  obtain ⟨minus, s'⟩ := pair
  dsimp only at read unsigned first
  obtain ⟨⟨whole, s₁⟩, integral, read⟩ := Option.bind_eq_some_iff.mp read
  obtain ⟨⟨part, s₂⟩, fractional, read⟩ := Option.bind_eq_some_iff.mp read
  obtain ⟨⟨power, s₃⟩, powered, read⟩ := Option.bind_eq_some_iff.mp read
  obtain ⟨rfl, rfl⟩ := Prod.mk.inj (Option.some.inj read)
  obtain ⟨rfl, ⟨c, tail, rfl, digit⟩, again₁⟩ := integer_extent integral
  obtain ⟨rfl, point, again₂⟩ := fraction_extent fractional
  obtain ⟨rfl, letter, again₃⟩ := exponent_extent powered
  refine ⟨by simp, by simp [unsigned], fun rest' follows => ?_⟩
  -- What comes after the fraction, and after the digits in front of it, is no part of these.
  have after₃ : ∀ d after, power ++ rest' = d :: after → isDigit d = false ∧ d ≠ 46 := by
    rcases letter with rfl | ⟨e, tail', rfl, letter⟩
    · exact fun d after same => ⟨(follows d after same).1, (follows d after same).2.1⟩
    · intro d after same
      obtain ⟨rfl, -⟩ := List.cons.inj same
      rcases letter with rfl | rfl <;> decide
  have after₂ : ∀ d after, part ++ (power ++ rest') = d :: after → isDigit d = false := by
    rcases point with rfl | ⟨tail', rfl⟩
    · exact fun d after same => (after₃ d after same).1
    · intro d after same
      obtain ⟨rfl, -⟩ := List.cons.inj same
      decide
  have signed : sign (minus ++ (c :: tail ++ (part ++ (power ++ rest')))) =
      (minus, c :: tail ++ (part ++ (power ++ rest'))) := by
    rcases first with rfl | rfl
    · have positive : c ≠ 45 := by
        rintro rfl
        exact absurd digit (by decide)
      simp [sign, positive]
    · simp [sign]
  have text : minus ++ (c :: tail) ++ part ++ power ++ rest' =
      minus ++ (c :: tail ++ (part ++ (power ++ rest'))) := by simp
  rw [text, numberLiteral, signed]
  dsimp only
  rw [again₁ _ after₂]
  simp [again₂ _ after₃, again₃ _ follows]

theorem keyword_extent {word s rest : Bytes} {v found : Json} (read : keyword word v s = some (found, rest)) :
    found = v ∧ s = word ++ rest ∧ ∀ rest', keyword word v (word ++ rest') = some (v, rest') := by
  unfold keyword at read
  split at read
  next here =>
    obtain ⟨rfl, rfl⟩ := Prod.mk.inj (Option.some.inj read)
    refine ⟨rfl, ?_, fun rest' => ?_⟩
    · conv_lhs => rw [← List.take_append_drop word.length s, here]
    · rw [keyword, List.take_left, List.drop_left, if_pos rfl]
  next => cases read

def IsNumber : Json → Prop
  | .number _ => True
  | _ => False

/-- The text of a value is the same value wherever else it stands, if it is no number that more digits follow. -/
def Stands (read : Bytes → Option (Json × Bytes)) (s : Bytes) (v : Json) (rest : Bytes) : Prop :=
  ∃ text, text ≠ [] ∧ s = text ++ rest ∧ ∀ rest', (IsNumber v → Follows rest') → read (text ++ rest') = some (v, rest')

theorem scalar_extent {s rest : Bytes} {v : Json} (read : scalar s = some (v, rest)) : Stands scalar s v rest := by
  cases s with
  | nil => cases read
  | cons c s =>
    rw [scalar] at read
    split at read
    next quoted =>
      obtain ⟨⟨body, after⟩, inner, same⟩ := Option.map_eq_some_iff.mp read
      obtain ⟨rfl, rfl⟩ := Prod.mk.inj same
      obtain ⟨rfl, again⟩ := stringBody_extent inner
      refine ⟨c :: (body ++ [quote]), by simp, by simp, fun rest' _ => ?_⟩
      rw [List.cons_append, List.append_assoc, List.singleton_append, scalar, if_pos quoted, again, Option.map_some]
    next noQuote =>
      -- The words stand in branches of their own, each by its first letter.
      have word {w : Bytes} {x : Json} (found : keyword w x (c :: s) = some (v, rest)) (some' : w ≠ [])
          (branch : ∀ tail, scalar (c :: tail) = keyword w x (c :: tail)) : Stands scalar (c :: s) v rest := by
        obtain ⟨rfl, text, again⟩ := keyword_extent found
        obtain ⟨d, w, rfl⟩ := List.exists_cons_of_ne_nil some'
        obtain ⟨rfl, -⟩ := List.cons.inj text
        refine ⟨c :: w, some', text, fun rest' _ => ?_⟩
        rw [List.cons_append, branch, ← List.cons_append, again]
      split at read
      next yes => exact word read (by simp) fun tail => by rw [scalar, if_neg noQuote, if_pos yes]
      next noTrue =>
        split at read
        next yes => exact word read (by simp) fun tail => by rw [scalar, if_neg noQuote, if_neg noTrue, if_pos yes]
        next noFalse =>
          split at read
          next yes =>
            exact word read (by simp) fun tail => by
              rw [scalar, if_neg noQuote, if_neg noTrue, if_neg noFalse, if_pos yes]
          next noNull =>
            obtain ⟨⟨literal, after⟩, inner, same⟩ := Option.map_eq_some_iff.mp read
            obtain ⟨rfl, rfl⟩ := Prod.mk.inj same
            obtain ⟨some', text, again⟩ := numberLiteral_extent inner
            refine ⟨literal, some', text, fun rest' follows => ?_⟩
            obtain ⟨d, literal, rfl⟩ := List.exists_cons_of_ne_nil some'
            obtain ⟨rfl, -⟩ := List.cons.inj text
            rw [List.cons_append, scalar, if_neg noQuote, if_neg noTrue, if_neg noFalse, if_neg noNull,
              ← List.cons_append, again rest' (follows trivial), Option.map_some]

-- Spaces in front of what is not one.
theorem skipSpace_extent {s : Bytes} {c : UInt8} {after : Bytes} (skipped : skipSpace s = c :: after) :
    ∃ spaces, s = spaces ++ c :: after ∧ (∀ b ∈ spaces, isSpace b = true) ∧ isSpace c = false := by
  refine ⟨s.takeWhile isSpace, ?_, fun b inside => List.mem_takeWhile_imp inside, ?_⟩
  · rw [← skipped, skipSpace, List.takeWhile_append_dropWhile]
  · have head := List.head?_dropWhile_not isSpace s
    rw [← skipSpace, skipped] at head
    simpa using head

theorem skipSpace_append {spaces : Bytes} {c : UInt8} (each : ∀ b ∈ spaces, isSpace b = true)
    (visible : isSpace c = false) (after : Bytes) : skipSpace (spaces ++ c :: after) = c :: after := by
  rw [skipSpace, List.dropWhile_append_of_pos each]
  exact skipSpace_cons visible after

theorem follows_spaces {spaces : Bytes} {c : UInt8} (each : ∀ b ∈ spaces, isSpace b = true) (after : Bytes)
    (stop : isDigit c = false ∧ c ≠ 46 ∧ c ≠ 101 ∧ c ≠ 69) : Follows (spaces ++ c :: after) := by
  have space : ∀ b, isSpace b = true → isDigit b = false ∧ b ≠ 46 ∧ b ≠ 101 ∧ b ≠ 69 := by
    intro b is
    simp only [isSpace, Bool.or_eq_true, beq_iff_eq] at is
    rcases is with ((rfl | rfl) | rfl) | rfl <;> decide
  intro d tail same
  cases spaces with
  | nil =>
    obtain ⟨rfl, -⟩ := List.cons.inj same
    exact stop
  | cons b spaces =>
    obtain ⟨rfl, -⟩ := List.cons.inj same
    exact space b (each b (by simp))

section Items

variable {A : Type} {item : Bytes → Option (A × Bytes)} {close : UInt8}

/-- An item that is read the same before any end. -/
def Settled (item : Bytes → Option (A × Bytes)) : Prop :=
  ∀ s a rest, item s = some (a, rest) →
    ∃ text, text ≠ [] ∧ s = text ++ rest ∧ ∀ rest', Follows rest' → item (text ++ rest') = some (a, rest')

theorem separated_round {s s₁ after : Bytes} {a : A} {d : UInt8} (found : item (skipSpace s) = some (a, s₁))
    (skipped : skipSpace s₁ = d :: after) (fuel : Nat) : separated item close (fuel + 1) s =
      if d = close then some ([a], after)
      else if d = comma then (separated item close fuel after).map fun r => (a :: r.1, r.2) else none := by
  rw [separated, found]
  simp only [Option.bind_eq_bind, Option.bind_some, skipped]
  cases separated item close fuel after <;> rfl

theorem separated_extent (settled : Settled item) (closes : isDigit close = false ∧ close ≠ 46 ∧ close ≠ 101 ∧ close ≠ 69)
    {fuel : Nat} {s : Bytes} {as : List A} {rest : Bytes} (read : separated item close fuel s = some (as, rest)) :
    ∃ text, text ≠ [] ∧ s = text ++ rest ∧ ∀ rest' fuel', text.length ≤ fuel' →
      separated item close fuel' (text ++ rest') = some (as, rest') := by
  induction fuel generalizing s as rest with
  | zero => cases read
  | succ fuel ih =>
    rw [separated] at read
    obtain ⟨⟨a, s₁⟩, found, later⟩ := Option.bind_eq_some_iff.mp read
    clear read
    obtain ⟨text, some', whole, again⟩ := settled _ _ _ found
    obtain ⟨c, text, rfl⟩ := List.exists_cons_of_ne_nil some'
    obtain ⟨spaces, rfl, each, visible⟩ := skipSpace_extent whole
    dsimp only at later
    cases skipped : skipSpace s₁ with
    | nil =>
      rw [skipped] at later
      cases later
    | cons d s₂ =>
      obtain ⟨spaces', rfl, each', visible'⟩ := skipSpace_extent skipped
      rw [skipped] at later
      dsimp only at later
      -- The item is read again before the same end.
      have front (after : Bytes) (stop : isDigit d = false ∧ d ≠ 46 ∧ d ≠ 101 ∧ d ≠ 69) :
          item (skipSpace (spaces ++ c :: (text ++ (spaces' ++ d :: after)))) = some (a, spaces' ++ d :: after) := by
        rw [skipSpace_append each visible, ← List.cons_append]
        exact again _ (follows_spaces each' after stop)
      split at later
      next closed =>
        obtain ⟨rfl, rfl⟩ := Prod.mk.inj (Option.some.inj later)
        refine ⟨spaces ++ c :: text ++ spaces' ++ [d], by simp, by simp, fun rest' fuel' enough => ?_⟩
        obtain ⟨k, rfl⟩ : ∃ k, fuel' = k + 1 := ⟨fuel' - 1, by simp at enough; omega⟩
        have text' : spaces ++ c :: text ++ spaces' ++ [d] ++ rest' =
            spaces ++ c :: (text ++ (spaces' ++ d :: rest')) := by simp
        rw [text', separated_round (front rest' (closed ▸ closes)) (skipSpace_append each' visible' rest'), if_pos closed]
      next open' =>
        split at later
        next more =>
          obtain ⟨⟨others, s₃⟩, inner, same⟩ := Option.bind_eq_some_iff.mp later
          obtain ⟨rfl, rfl⟩ := Prod.mk.inj (Option.some.inj same)
          obtain ⟨tail, -, rfl, again'⟩ := ih inner
          refine ⟨spaces ++ c :: text ++ spaces' ++ d :: tail, by simp, by simp, fun rest' fuel' enough => ?_⟩
          obtain ⟨k, rfl⟩ : ∃ k, fuel' = k + 1 := ⟨fuel' - 1, by simp at enough; omega⟩
          have text' : spaces ++ c :: text ++ spaces' ++ d :: tail ++ rest' =
              spaces ++ c :: (text ++ (spaces' ++ d :: (tail ++ rest'))) := by simp
          have rest'' := again' rest' k (by simp at enough; omega)
          rw [text', separated_round (front _ (by rw [more]; decide)) (skipSpace_append each' visible' _), if_neg open',
            if_pos more, rest'', Option.map_some]
        next => cases later

theorem enclosed_extent (settled : Settled item)
    (closes : isDigit close = false ∧ close ≠ 46 ∧ close ≠ 101 ∧ close ≠ 69) {s : Bytes} {as : List A} {rest : Bytes}
    (read : enclosed item close s = some (as, rest)) :
    ∃ text, s = text ++ rest ∧ ∀ rest', enclosed item close (text ++ rest') = some (as, rest') := by
  unfold enclosed at read
  cases skipped : skipSpace s with
  | nil =>
    rw [skipped] at read
    cases read
  | cons c after =>
    obtain ⟨spaces, rfl, each, visible⟩ := skipSpace_extent skipped
    rw [skipped] at read
    dsimp only at read
    split at read
    next closed =>
      obtain ⟨rfl, rfl⟩ := Prod.mk.inj (Option.some.inj read)
      refine ⟨spaces ++ [c], by simp, fun rest' => ?_⟩
      rw [List.append_assoc, List.singleton_append, enclosed, skipSpace_append each visible]
      exact if_pos closed
    next open' =>
      obtain ⟨text, some', whole, again⟩ := separated_extent settled closes read
      obtain ⟨d, text, rfl⟩ := List.exists_cons_of_ne_nil some'
      obtain ⟨rfl, tail⟩ := List.cons.inj whole
      refine ⟨spaces ++ c :: text, by rw [whole, List.append_assoc], fun rest' => ?_⟩
      rw [List.append_assoc, List.cons_append, enclosed, skipSpace_append each visible]
      dsimp only
      rw [if_neg open']
      exact again rest' _ (by simp)

end Items

theorem closers : (isDigit closeBrace = false ∧ closeBrace ≠ 46 ∧ closeBrace ≠ 101 ∧ closeBrace ≠ 69) ∧
    isDigit closeBracket = false ∧ closeBracket ≠ 46 ∧ closeBracket ≠ 101 ∧ closeBracket ≠ 69 := by decide

theorem member_settled {read : Bytes → Option (Json × Bytes)} (settled : Settled read) : Settled (member read) := by
  rintro s ⟨key, v⟩ rest found
  cases s with
  | nil => cases found
  | cons c s =>
    rw [member] at found
    split at found
    next quoted =>
      obtain ⟨⟨name, s₁⟩, body, later⟩ := Option.bind_eq_some_iff.mp found
      clear found
      obtain ⟨rfl, again⟩ := stringBody_extent body
      dsimp only at later
      cases skipped : skipSpace s₁ with
      | nil =>
        rw [skipped] at later
        cases later
      | cons d s₂ =>
        obtain ⟨spaces, rfl, each, visible⟩ := skipSpace_extent skipped
        rw [skipped] at later
        dsimp only at later
        split at later
        next parted =>
          obtain ⟨⟨w, s₃⟩, inner, same⟩ := Option.map_eq_some_iff.mp later
          obtain ⟨pair, rfl⟩ := Prod.mk.inj same
          obtain ⟨rfl, rfl⟩ := Prod.mk.inj pair
          obtain ⟨text, some', whole, again'⟩ := settled _ _ _ inner
          obtain ⟨e, text, rfl⟩ := List.exists_cons_of_ne_nil some'
          obtain ⟨spaces', rfl, each', visible'⟩ := skipSpace_extent whole
          refine ⟨c :: (name ++ quote :: (spaces ++ d :: (spaces' ++ e :: text))), by simp, by simp,
            fun rest' follows => ?_⟩
          have text' : c :: (name ++ quote :: (spaces ++ d :: (spaces' ++ e :: text))) ++ rest' =
              c :: (name ++ quote :: (spaces ++ d :: (spaces' ++ e :: (text ++ rest')))) := by simp
          have value := again' rest' follows
          rw [List.cons_append] at value
          rw [text', member, if_pos quoted, again]
          simp only [Option.bind_eq_bind, Option.bind_some, skipSpace_append each visible, if_pos parted,
            skipSpace_append each' visible', value, Option.map_some]
        next => cases later
    next => cases found

theorem scalar_stands {c : UInt8} {s rest : Bytes} {v : Json} (noObject : c ≠ openBrace) (noArray : c ≠ openBracket)
    (read : scalar (c :: s) = some (v, rest)) (depth : Nat) : Stands (value depth) (c :: s) v rest := by
  obtain ⟨text, some', whole, again⟩ := scalar_extent read
  obtain ⟨d, text, rfl⟩ := List.exists_cons_of_ne_nil some'
  obtain ⟨rfl, -⟩ := List.cons.inj whole
  refine ⟨_, some', whole, fun rest' follows => ?_⟩
  rw [List.cons_append, value_scalar noObject noArray, ← List.cons_append, again rest' follows]

theorem value_extent (depth : Nat) {s rest : Bytes} {v : Json} (read : value depth s = some (v, rest)) :
    Stands (value depth) s v rest := by
  induction depth generalizing s v rest with
  | zero => exact scalar_extent read
  | succ depth ih =>
    have settled : Settled (value depth) := fun s v rest read => by
      obtain ⟨text, some', whole, again⟩ := ih read
      exact ⟨text, some', whole, fun rest' follows => again rest' fun _ => follows⟩
    cases s with
    | nil => cases read
    | cons c s =>
      rw [value] at read
      split at read
      next object =>
        obtain ⟨⟨members, after⟩, inner, same⟩ := Option.map_eq_some_iff.mp read
        obtain ⟨rfl, rfl⟩ := Prod.mk.inj same
        obtain ⟨text, rfl, again⟩ := enclosed_extent (member_settled settled) closers.1 inner
        refine ⟨c :: text, by simp, rfl, fun rest' _ => ?_⟩
        rw [List.cons_append, value, if_pos object, again, Option.map_some]
      next noObject =>
        split at read
        next array =>
          obtain ⟨⟨items, after⟩, inner, same⟩ := Option.map_eq_some_iff.mp read
          obtain ⟨rfl, rfl⟩ := Prod.mk.inj same
          obtain ⟨text, rfl, again⟩ := enclosed_extent settled closers.2 inner
          refine ⟨c :: text, by simp, rfl, fun rest' _ => ?_⟩
          rw [List.cons_append, value, if_neg noObject, if_pos array, again, Option.map_some]
        next noArray => exact scalar_stands noObject noArray read (depth + 1)

-- The first byte tells whether a value is a number.
theorem scalar_isNumber {c : UInt8} {s rest : Bytes} {v : Json} (read : scalar (c :: s) = some (v, rest)) :
    IsNumber v ↔ ¬ (c = quote ∨ c = 116 ∨ c = 102 ∨ c = 110) := by
  have word {w : Bytes} {x : Json} (found : keyword w x (c :: s) = some (v, rest)) : v = x := (keyword_extent found).1
  rw [scalar] at read
  split at read
  next yes =>
    obtain ⟨⟨body, after⟩, -, same⟩ := Option.map_eq_some_iff.mp read
    obtain ⟨rfl, -⟩ := Prod.mk.inj same
    simp [IsNumber, yes]
  next noQuote =>
    split at read
    next yes => simp [IsNumber, word read, yes]
    next noTrue =>
      split at read
      next yes => simp [IsNumber, word read, yes]
      next noFalse =>
        split at read
        next yes => simp [IsNumber, word read, yes]
        next noNull =>
          obtain ⟨⟨literal, after⟩, -, same⟩ := Option.map_eq_some_iff.mp read
          obtain ⟨rfl, -⟩ := Prod.mk.inj same
          simp [IsNumber, noQuote, noTrue, noFalse, noNull]

theorem value_isNumber {depth : Nat} {c : UInt8} {s s' rest rest' : Bytes} {v v' : Json}
    (read : value depth (c :: s) = some (v, rest)) (read' : value depth (c :: s') = some (v', rest')) :
    IsNumber v ↔ IsNumber v' := by
  cases depth with
  | zero => exact (scalar_isNumber read).trans (scalar_isNumber read').symm
  | succ depth =>
    by_cases object : c = openBrace
    · rw [value, if_pos object] at read read'
      obtain ⟨_, -, same⟩ := Option.map_eq_some_iff.mp read
      obtain ⟨_, -, same'⟩ := Option.map_eq_some_iff.mp read'
      rw [← (Prod.mk.inj same).1, ← (Prod.mk.inj same').1]
      exact Iff.rfl
    by_cases array : c = openBracket
    · rw [value, if_neg object, if_pos array] at read read'
      obtain ⟨_, -, same⟩ := Option.map_eq_some_iff.mp read
      obtain ⟨_, -, same'⟩ := Option.map_eq_some_iff.mp read'
      rw [← (Prod.mk.inj same).1, ← (Prod.mk.inj same').1]
      exact Iff.rfl
    · rw [value_scalar object array] at read read'
      exact (scalar_isNumber read).trans (scalar_isNumber read').symm

-- The value would have ended where it has not, if it could be read from less.
theorem decodeNext_short {spaces text rest : Bytes} {c : UInt8} {v w : Json} (each : ∀ b ∈ spaces, isSpace b = true)
    (visible : isSpace c = false) (noNumber : ¬ IsNumber v)
    (whole : value maxNestingDepth (c :: (text ++ rest)) = some (v, rest)) {k : Nat} {after : Bytes}
    (early : value maxNestingDepth (skipSpace ((spaces ++ c :: (text ++ rest)).take k)) = some (w, after)) :
    spaces.length + (text.length + 1) ≤ k := by
  obtain ⟨piece, some', front, again⟩ := value_extent _ early
  obtain ⟨d, piece, rfl⟩ := List.exists_cons_of_ne_nil some'
  rw [List.cons_append] at front
  obtain ⟨spaces', left, each', visible'⟩ := skipSpace_extent front
  generalize cut : (spaces ++ c :: (text ++ rest)).drop k = last
  have raw : spaces' ++ d :: (piece ++ (after ++ last)) = spaces ++ c :: (text ++ rest) := by
    have joined := List.take_append_drop k (spaces ++ c :: (text ++ rest))
    rw [left, cut] at joined
    simpa using joined
  have skipped := congrArg skipSpace raw
  rw [skipSpace_append each visible, skipSpace_append each' visible'] at skipped
  obtain ⟨rfl, tails⟩ := List.cons.inj skipped
  rw [front] at early
  have number : IsNumber w → Follows (after ++ last) := fun number =>
    absurd ((value_isNumber early whole).mp number) noNumber
  have read := again _ number
  rw [List.cons_append, tails, whole] at read
  obtain ⟨-, rfl⟩ := Prod.mk.inj (Option.some.inj read)
  have lengths := congrArg List.length raw
  have kept := congrArg List.length left
  simp only [List.length_append, List.length_cons, List.length_take] at lengths kept
  omega

-- How far the first value of a text goes.
def extent (raw : Bytes) : Nat :=
  match value maxNestingDepth (skipSpace raw) with
  | some (_, rest) => raw.length - rest.length
  | none => 0

/-- A text that is cut off is read as the value it has, once all of the value is there, and not at all before. -/
theorem decodeNext_take {raw : Bytes} {v : Json} (read : decodeWhole raw = .ok v) (noNumber : ¬ IsNumber v) (k : Nat) :
    decodeNext (raw.take k) = if extent raw ≤ k then .ok v else .error syntaxError := by
  unfold decodeWhole at read
  split at read
  next w rest found =>
    split at read
    next =>
      obtain rfl := Except.ok.inj read
      have stop : extent raw = raw.length - rest.length := by rw [extent, found]
      obtain ⟨text, some', whole, again⟩ := value_extent _ found
      obtain ⟨c, text, rfl⟩ := List.exists_cons_of_ne_nil some'
      simp only [List.cons_append] at whole again
      rw [whole] at found
      obtain ⟨spaces, rfl, each, visible⟩ := skipSpace_extent whole
      have parts : spaces ++ c :: (text ++ rest) = (spaces ++ c :: text) ++ rest := by simp
      have length : (spaces ++ c :: text).length = spaces.length + (text.length + 1) := by simp
      rw [parts, List.length_append, Nat.add_sub_cancel, length, ← parts] at stop
      rw [stop]
      split
      next enough =>
        obtain ⟨rest', cut⟩ : ∃ rest', (spaces ++ c :: (text ++ rest)).take k = spaces ++ c :: (text ++ rest') := by
          rw [parts, List.take_append, List.take_of_length_le (by rw [length]; exact enough), List.append_assoc,
            List.cons_append]
          exact ⟨_, rfl⟩
        rw [decodeNext, cut, skipSpace_append each visible, again _ fun number => absurd number noNumber]
      next short =>
        rw [decodeNext]
        split
        next early => exact absurd (decodeNext_short each visible noNumber found early) short
        next => rfl
    next => cases read
  next => cases read

theorem decodeStruct_noNumber {A : Type} {fields : List (Field A)} {a a' : A} {v : Json}
    (decoded : decodeStruct fields a v = .ok a') : ¬ IsNumber v := by
  intro number
  cases v with
  | number literal => cases decoded
  | _ => exact number

theorem extent_le (raw : Bytes) : extent raw ≤ raw.length := by
  unfold extent
  split
  · exact Nat.sub_le _ _
  · exact Nat.zero_le _

end Extent

end Json

end Go
