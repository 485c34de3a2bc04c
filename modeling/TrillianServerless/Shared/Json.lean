import TrillianServerless.Shared.Text

set_option autoImplicit false

namespace Go

-- What encoding/json reads: numbers and strings are kept as the literals they stand as.
inductive Json where
  | null
  | bool (value : Bool)
  | number (literal : Bytes)
  | string (literal : Bytes)
  | array (items : List Json)
  | object (members : List (Bytes × Json))

namespace Json

section Scanner

def isSpace (c : UInt8) : Bool := c == 32 || c == 9 || c == 10 || c == 13

def skipSpace (s : Bytes) : Bytes := s.dropWhile isSpace

def isDigit (c : UInt8) : Bool := 48 ≤ c && c ≤ 57

def isHex (c : UInt8) : Bool := isDigit c || (97 ≤ c && c ≤ 102) || (65 ≤ c && c ≤ 70)

def quote : UInt8 := 34
def backslash : UInt8 := 92
def comma : UInt8 := 44
def colon : UInt8 := 58
def openBrace : UInt8 := 123
def closeBrace : UInt8 := 125
def openBracket : UInt8 := 91
def closeBracket : UInt8 := 93

-- What the letter after a backslash stands for.
def escapes : List (UInt8 × UInt8) :=
  [(34, 34), (92, 92), (47, 47), (98, 8), (102, 12), (110, 10), (114, 13), (116, 9)]

-- The literal up to its closing quote, and what follows.
def stringBody : Bytes → Option (Bytes × Bytes)
  | [] => none
  | c :: rest =>
    if c = quote then some ([], rest)
    else if c = backslash then
      match rest with
      | [] => none
      | e :: rest =>
        if (escapes.lookup e).isSome then (stringBody rest).map fun (body, rest) => (c :: e :: body, rest)
        else if e = 117 then
          match rest with
          | h₀ :: h₁ :: h₂ :: h₃ :: rest =>
            if isHex h₀ && isHex h₁ && isHex h₂ && isHex h₃ then
              (stringBody rest).map fun (body, rest) => (c :: e :: h₀ :: h₁ :: h₂ :: h₃ :: body, rest)
            else none
          | _ => none
        else none
    else if c < 32 then none
    else (stringBody rest).map fun (body, rest) => (c :: body, rest)

def digits (s : Bytes) : Option (Bytes × Bytes) :=
  if s.takeWhile isDigit = [] then none else some (s.takeWhile isDigit, s.dropWhile isDigit)

def sign : Bytes → Bytes × Bytes
  | c :: rest => if c = 45 then ([c], rest) else ([], c :: rest)
  | [] => ([], [])

-- A zero stands alone.
def integer : Bytes → Option (Bytes × Bytes)
  | c :: rest => if c = 48 then some ([c], rest) else digits (c :: rest)
  | [] => none

def fraction : Bytes → Option (Bytes × Bytes)
  | c :: rest => if c = 46 then (digits rest).map fun (ds, rest) => (c :: ds, rest) else some ([], c :: rest)
  | [] => some ([], [])

def exponent : Bytes → Option (Bytes × Bytes)
  | c :: rest =>
    if c = 101 ∨ c = 69 then
      let (plus, unsigned) := match rest with
        | d :: rest' => if d = 43 ∨ d = 45 then ([d], rest') else ([], d :: rest')
        | [] => ([], [])
      (digits unsigned).map fun (ds, rest) => (c :: plus ++ ds, rest)
    else some ([], c :: rest)
  | [] => some ([], [])

def numberLiteral (s : Bytes) : Option (Bytes × Bytes) := do
  let (minus, s) := sign s
  let (whole, s) ← integer s
  let (part, s) ← fraction s
  let (power, s) ← exponent s
  some (minus ++ whole ++ part ++ power, s)

def keyword (word : Bytes) (value : Json) (s : Bytes) : Option (Json × Bytes) :=
  if s.take word.length = word then some (value, s.drop word.length) else none

def scalar : Bytes → Option (Json × Bytes)
  | [] => none
  | c :: rest =>
    if c = quote then (stringBody rest).map fun (body, rest) => (.string body, rest)
    else if c = 116 then keyword [116, 114, 117, 101] (.bool true) (c :: rest)
    else if c = 102 then keyword [102, 97, 108, 115, 101] (.bool false) (c :: rest)
    else if c = 110 then keyword [110, 117, 108, 108] .null (c :: rest)
    else (numberLiteral (c :: rest)).map fun (literal, rest) => (.number literal, rest)

-- Items between commas up to `close`; each takes up a byte at least, so the length bounds the rounds.
def separated {A : Type} (item : Bytes → Option (A × Bytes)) (close : UInt8) : Nat → Bytes → Option (List A × Bytes)
  | 0, _ => none
  | fuel + 1, s => do
    let (a, s) ← item (skipSpace s)
    match skipSpace s with
    | [] => none
    | c :: rest =>
      if c = close then some ([a], rest)
      else if c = comma then do
        let (more, s) ← separated item close fuel rest
        some (a :: more, s)
      else none

def enclosed {A : Type} (item : Bytes → Option (A × Bytes)) (close : UInt8) (s : Bytes) : Option (List A × Bytes) :=
  match skipSpace s with
  | [] => none
  | c :: rest => if c = close then some ([], rest) else separated item close (rest.length + 1) (c :: rest)

def member (value : Bytes → Option (Json × Bytes)) : Bytes → Option ((Bytes × Json) × Bytes)
  | [] => none
  | c :: rest =>
    if c = quote then do
      let (key, s) ← stringBody rest
      match skipSpace s with
      | [] => none
      | d :: rest =>
        if d = colon then (value (skipSpace rest)).map fun (v, rest) => ((key, v), rest) else none
    else none

-- `depth` is how many arrays and objects may still be opened.
def value : Nat → Bytes → Option (Json × Bytes)
  | 0, s => scalar s
  | depth + 1, s =>
    match s with
    | [] => none
    | c :: rest =>
      if c = openBrace then
        (enclosed (member (value depth)) closeBrace rest).map fun (members, rest) => (.object members, rest)
      else if c = openBracket then
        (enclosed (value depth) closeBracket rest).map fun (items, rest) => (.array items, rest)
      else scalar (c :: rest)

def maxNestingDepth : Nat := 10000

def syntaxError : GoError := .text "json: syntax error"

-- json.NewDecoder(r).Decode takes one value and leaves the rest of the stream alone,
def decodeNext (s : Bytes) : Except GoError Json :=
  match value maxNestingDepth (skipSpace s) with
  | some (v, _) => .ok v
  | none => .error syntaxError

-- json.Unmarshal wants nothing but space after it.
def decodeWhole (s : Bytes) : Except GoError Json :=
  match value maxNestingDepth (skipSpace s) with
  | some (v, rest) => if skipSpace rest = [] then .ok v else .error syntaxError
  | none => .error syntaxError

end Scanner

section Strings

def replacementChar : Char := Char.ofNat 0xFFFD

def runeTail : Nat → Nat → Bytes → Option (Nat × Bytes)
  | 0, r, s => some (r, s)
  | _ + 1, _, [] => none
  | n + 1, r, c :: rest => if 128 ≤ c ∧ c < 192 then runeTail n (r * 64 + (c.toNat - 128)) rest else none

-- utf8.DecodeRune: a byte that begins no character is the replacement character by itself.
def decodeRune (c : UInt8) (rest : Bytes) : Char × Bytes :=
  let read :=
    if c < 128 then some (c.toNat, rest)
    else if c < 194 then none
    else if c < 224 then runeTail 1 (c.toNat - 192) rest
    else if c < 240 then (runeTail 2 (c.toNat - 224) rest).filter fun r => 2048 ≤ r.1
    else if c < 245 then (runeTail 3 (c.toNat - 240) rest).filter fun r => 65536 ≤ r.1
    else none
  match read with
  | some (r, after) => if r.isValidChar then (Char.ofNat r, after) else (replacementChar, rest)
  | none => (replacementChar, rest)

-- getu4: the number of a \u escape at the front.
def getu4 : Bytes → Option (Nat × Bytes)
  | b :: u :: h₀ :: h₁ :: h₂ :: h₃ :: rest =>
    if b = backslash ∧ u = 117 then (parseUint 16 16 [h₀, h₁, h₂, h₃]).map fun r => (r, rest) else none
  | _ => none

def isSurrogate (r : Nat) : Bool := 0xD800 ≤ r && r < 0xE000

-- utf16.DecodeRune
def decodeSurrogates (high low : Nat) : Option Char :=
  if high < 0xDC00 ∧ 0xDC00 ≤ low ∧ low < 0xE000 then
    some (Char.ofNat ((high - 0xD800) * 1024 + (low - 0xDC00) + 0x10000))
  else none

def unquoteFrom : Nat → Bytes → List Char
  | 0, _ => []
  | _ + 1, [] => []
  | fuel + 1, c :: rest =>
    if c = backslash then
      match getu4 (c :: rest) with
      | some (r, after) =>
        if isSurrogate r then
          match (getu4 after).bind fun (low, after) => (decodeSurrogates r low).map fun rune => (rune, after) with
          | some (rune, after) => rune :: unquoteFrom fuel after
          | none => replacementChar :: unquoteFrom fuel after
        else Char.ofNat r :: unquoteFrom fuel after
      | none =>
        match rest with
        | [] => []
        | e :: rest => Char.ofNat ((escapes.lookup e).getD e).toNat :: unquoteFrom fuel rest
    else
      let (r, rest) := decodeRune c rest
      r :: unquoteFrom fuel rest

-- The text of a string literal.
def unquote (literal : Bytes) : List Char := unquoteFrom literal.length literal

def bytesOf (text : List Char) : Bytes := text.flatMap String.utf8EncodeChar

-- The letters K and S have a fold outside ASCII each, the Kelvin sign and the long s.
def fold (c : Char) : Char :=
  if c.toNat = 0x212A then Char.ofNat 107 else if c.toNat = 0x17F then Char.ofNat 115 else c.toLower

def equalFold (name : String) (key : List Char) : Bool := name.toList.map fold = key.map fold

end Strings

section Fields

def typeError {A : Type} : Except GoError A :=
  .error (.text "json: cannot unmarshal %s into Go struct field %s of type %s")

-- A null leaves a number as it was.
def toUint (bits : Nat) (old : Nat) : Json → Except GoError Nat
  | .null => .ok old
  | .number literal => (parseUint 10 bits literal).elim typeError .ok
  | _ => typeError

def toText (old : String) : Json → Except GoError String
  | .null => .ok old
  | .string literal => .ok (String.ofList (unquote literal))
  | _ => typeError

def toBool (old : Bool) : Json → Except GoError Bool
  | .null => .ok old
  | .bool b => .ok b
  | _ => typeError

-- A []byte is a string in base64, or an array of its bytes; null makes it nil.
def toBytes : Json → Except GoError (Option Bytes)
  | .null => .ok none
  | .string literal =>
    match decodeBase64 (bytesOf (unquote literal)) with
    | some bytes => .ok (some bytes)
    | none => .error (.text "illegal base64 data at input byte %d")
  | .array items => do
    let bytes ← items.mapM (toUint 8 0)
    .ok (some (bytes.map UInt8.ofNat))
  | _ => typeError

structure Field (A : Type) where
  name : String
  store : A → Json → Except GoError A

-- Each member goes where its name says, those that name no field nowhere.
def decodeMember {A : Type} (fields : List (Field A)) (a : A) (m : Bytes × Json) : Except GoError A :=
  match fields.find? fun f => equalFold f.name (unquote m.1) with
  | some f => f.store a m.2
  | none => .ok a

def decodeStruct {A : Type} (fields : List (Field A)) (a : A) : Json → Except GoError A
  | .null => .ok a
  | .object members => members.foldlM (decodeMember fields) a
  | _ => typeError

/-- What every field keeps of a struct is kept when it is read. -/
theorem decodeStruct_keeps {A : Type} {fields : List (Field A)} (P : A → Prop)
    (each : ∀ f ∈ fields, ∀ a v a', f.store a v = .ok a' → P a → P a') {a a' : A} {v : Json}
    (decoded : decodeStruct fields a v = .ok a') (start : P a) : P a' := by
  unfold decodeStruct at decoded
  split at decoded
  · obtain rfl := Except.ok.inj decoded
    exact start
  next members =>
    induction members generalizing a with
    | nil =>
      obtain rfl := Except.ok.inj decoded
      exact start
    | cons m members ih =>
      rw [List.foldlM_cons] at decoded
      obtain ⟨b, stored, rest⟩ := except_bind_eq_ok.mp decoded
      refine ih ?_ rest
      unfold decodeMember at stored
      split at stored
      next f found => exact each f (List.mem_of_find?_eq_some found) a m.2 b stored start
      next =>
        obtain rfl := Except.ok.inj stored
        exact start
  · cases decoded

theorem toUint_lt {bits old n : Nat} {v : Json} (read : toUint bits old v = .ok n) (small : old < 2 ^ bits) :
    n < 2 ^ bits := by
  cases v with
  | null =>
    obtain rfl := Except.ok.inj read
    exact small
  | number literal =>
    rw [toUint] at read
    cases parsed : parseUint 10 bits literal with
    | none =>
      rw [parsed] at read
      cases read
    | some m =>
      rw [parsed] at read
      obtain rfl := Except.ok.inj read
      exact parseUint_lt parsed
  | bool b => cases read
  | string literal => cases read
  | array items => cases read
  | object members => cases read

end Fields

section Encoder

def encodeBytes : Option Bytes → Bytes
  | none => [110, 117, 108, 108]
  | some bytes => quote :: encodeBase64 bytes ++ [quote]

def encodeBool : Bool → Bytes
  | true => [116, 114, 117, 101]
  | false => [102, 97, 108, 115, 101]

def encodeMember (m : Bytes × Bytes) : Bytes := quote :: m.1 ++ quote :: colon :: m.2

def encodeStruct (members : List (Bytes × Bytes)) : Bytes :=
  openBrace :: List.intercalate [comma] (members.map encodeMember) ++ [closeBrace]

end Encoder

section Literals

-- A byte that stands for itself in a string literal.
def Plain (c : UInt8) : Prop := 32 ≤ c ∧ c < 128 ∧ c ≠ quote ∧ c ≠ backslash

instance (c : UInt8) : Decidable (Plain c) := inferInstanceAs (Decidable (_ ∧ _))

-- Evaluates the texts one by one; a bounded quantifier over bytes may be decided by running through all bytes.
theorem plain_of_all {A : Type} {text : A → Bytes} {names : List A}
    (checked : (names.all fun name => (text name).all fun c => decide (Plain c)) = true) :
    ∀ name ∈ names, ∀ c ∈ text name, Plain c := by
  intro name listed c member
  have body := List.all_eq_true.mp checked name listed
  exact of_decide_eq_true (List.all_eq_true.mp body c member)

theorem stringBody_plain {body : Bytes} (plain : ∀ c ∈ body, Plain c) (rest : Bytes) :
    stringBody (body ++ quote :: rest) = some (body, rest) := by
  induction body with
  | nil =>
    rw [List.nil_append, stringBody.eq_def]
    exact if_pos rfl
  | cons c body ih =>
    obtain ⟨low, -, noQuote, noEscape⟩ := plain c (by simp)
    have later := ih fun d inside => plain d (by simp [inside])
    have visible : ¬ c < 32 := UInt8.not_lt.mpr low
    rw [List.cons_append, stringBody.eq_def]
    dsimp only
    rw [if_neg noQuote, if_neg noEscape, if_neg visible, later, Option.map_some]

theorem decodeRune_ascii {c : UInt8} (ascii : c < 128) (rest : Bytes) :
    decodeRune c rest = (Char.ofNat c.toNat, rest) := by
  have small : c.toNat < 128 := ascii
  have valid : c.toNat.isValidChar := .inl (by omega)
  simp [decodeRune, ascii, valid]

theorem unquoteFrom_plain {body : Bytes} (plain : ∀ c ∈ body, Plain c) {fuel : Nat} (enough : body.length ≤ fuel) :
    unquoteFrom fuel body = body.map fun c => Char.ofNat c.toNat := by
  induction body generalizing fuel with
  | nil => cases fuel <;> rfl
  | cons c body ih =>
    obtain ⟨-, ascii, -, noEscape⟩ := plain c (by simp)
    match fuel, enough with
    | fuel + 1, enough =>
      have later := ih (fun d inside => plain d (by simp [inside])) (Nat.le_of_succ_le_succ enough)
      rw [unquoteFrom.eq_def]
      dsimp only
      rw [if_neg noEscape, decodeRune_ascii ascii, List.map_cons, later]

theorem unquote_plain {body : Bytes} (plain : ∀ c ∈ body, Plain c) :
    unquote body = body.map fun c => Char.ofNat c.toNat :=
  unquoteFrom_plain plain le_rfl

theorem bytesOf_unquote {body : Bytes} (plain : ∀ c ∈ body, Plain c) : bytesOf (unquote body) = body := by
  have ascii : ∀ n < 128, String.utf8EncodeChar (Char.ofNat n) = [UInt8.ofNat n] := by decide
  have encoded : ∀ c ∈ body, String.utf8EncodeChar (Char.ofNat c.toNat) = [c] := by
    intro c inside
    have small : c.toNat < 128 := (plain c inside).2.1
    rw [ascii _ small, UInt8.ofNat_toNat]
  rw [bytesOf, unquote_plain plain, List.flatMap_map, List.flatMap_congr encoded, List.flatMap_singleton']

theorem plain_encodeBase64 (bytes : Bytes) : ∀ c ∈ encodeBase64 bytes, Plain c := by
  apply forall_mem_encodeBase64
  · exact ⟨by decide, by decide, by decide, by decide⟩
  · intro v small
    unfold Plain
    interval_cases v <;> decide

theorem isDigit_formatUint (n : Nat) : ∀ c ∈ formatUint 10 n, isDigit c = true := by
  intro c inside
  rw [formatUint] at inside
  split at inside
  · rw [List.mem_singleton.mp inside]
    decide
  · obtain ⟨d, found, rfl⟩ := List.mem_map.mp inside
    have small : d < 10 := digitsFrom_lt (by decide) _ _ d found
    interval_cases d <;> decide

-- A zero in front is the whole number.
theorem formatUint_head {n : Nat} {rest : Bytes} (zero : formatUint 10 n = 48 :: rest) : rest = [] := by
  rw [formatUint] at zero
  split at zero
  · exact (List.cons.inj zero).2.symm
  next some' =>
    obtain ⟨d, ds, written, leading⟩ := digitsFrom_head (by decide : 1 < 10) (le_refl n) some'
    have small : d < 10 := digitsFrom_lt (by decide) n n d (by simp [written])
    rw [written, List.map_cons] at zero
    have first := (List.cons.inj zero).1
    interval_cases d <;> first | exact absurd rfl leading | exact absurd first (by decide)

end Literals

section Reading

-- What follows a value inside an object or an array.
def Ends (rest : Bytes) : Prop := ∃ c after, rest = c :: after ∧ (c = comma ∨ c = closeBrace ∨ c = closeBracket)

theorem Ends.stops {rest : Bytes} (ends : Ends rest) : ∃ c after, rest = c :: after ∧ isSpace c = false ∧
    isDigit c = false ∧ c ≠ 46 ∧ c ≠ 101 ∧ c ≠ 69 := by
  obtain ⟨c, after, rfl, rfl | rfl | rfl⟩ := ends <;>
    exact ⟨_, _, rfl, by decide, by decide, by decide, by decide, by decide⟩

/-- The text is read as the value, wherever it stands. -/
structure Reads (depth : Nat) (text : Bytes) (v : Json) : Prop where
  visible : ∃ c rest, text = c :: rest ∧ isSpace c = false
  value : ∀ rest, Ends rest → value depth (text ++ rest) = some (v, rest)

theorem skipSpace_cons {c : UInt8} (visible : isSpace c = false) (rest : Bytes) :
    skipSpace (c :: rest) = c :: rest := by
  simp [skipSpace, visible]

theorem Reads.skipSpace {depth : Nat} {text : Bytes} {v : Json} (reads : Reads depth text v) (rest : Bytes) :
    skipSpace (text ++ rest) = text ++ rest := by
  obtain ⟨c, tail, rfl, visible⟩ := reads.visible
  exact skipSpace_cons visible _

theorem value_scalar {c : UInt8} (noObject : c ≠ openBrace) (noArray : c ≠ openBracket) (depth : Nat) (rest : Bytes) :
    value depth (c :: rest) = scalar (c :: rest) := by
  cases depth with
  | zero => rfl
  | succ depth => rw [value, if_neg noObject, if_neg noArray]

theorem numberLiteral_formatUint (n : Nat) {rest : Bytes} (ends : Ends rest) :
    numberLiteral (formatUint 10 n ++ rest) = some (formatUint 10 n, rest) := by
  obtain ⟨d, after, rfl, -, noDigit, noPoint, noPower, noPower'⟩ := ends.stops
  have digit := isDigit_formatUint n
  have lone := fun tail => @formatUint_head n tail
  match number : formatUint 10 n with
  | [] => exact absurd number (formatUint_ne_nil 10 n)
  | c :: tail =>
    rw [number] at digit lone
    have unsigned : c ≠ 45 := by
      rintro rfl
      exact absurd (digit 45 (by simp)) (by decide)
    have whole : integer (c :: (tail ++ d :: after)) = some (c :: tail, d :: after) := by
      rw [integer]
      split
      next zero =>
        obtain rfl : tail = [] := lone tail (by rw [zero])
        rfl
      next =>
        have taken : (c :: (tail ++ d :: after)).takeWhile isDigit = c :: tail := by
          rw [← List.cons_append, List.takeWhile_append_of_pos digit]
          simp [noDigit]
        have dropped : (c :: (tail ++ d :: after)).dropWhile isDigit = d :: after := by
          rw [← List.cons_append, List.dropWhile_append_of_pos digit]
          simp [noDigit]
        rw [digits, taken, dropped]
        simp
    simp [numberLiteral, sign, unsigned, whole, fraction, exponent, noPoint, noPower, noPower']

theorem reads_formatUint (depth n : Nat) : Reads depth (formatUint 10 n) (.number (formatUint 10 n)) := by
  match number : formatUint 10 n with
  | [] => exact absurd number (formatUint_ne_nil 10 n)
  | c :: tail =>
    have digit : isDigit c = true := isDigit_formatUint n c (by simp [number])
    have other : ∀ d, isDigit d = false → c ≠ d := by
      rintro d no rfl
      rw [no] at digit
      cases digit
    have visible : isSpace c = false := by simp [isSpace, other 32 rfl, other 9 rfl, other 10 rfl, other 13 rfl]
    refine ⟨⟨c, tail, rfl, visible⟩, fun rest ends => ?_⟩
    have read := numberLiteral_formatUint n ends
    rw [number, List.cons_append] at read
    rw [List.cons_append, value_scalar (other _ rfl) (other _ rfl), scalar, if_neg (other _ rfl),
      if_neg (other _ rfl), if_neg (other _ rfl), if_neg (other _ rfl), read, Option.map_some]

def ofBytes : Option Bytes → Json
  | none => .null
  | some bytes => .string (encodeBase64 bytes)

theorem reads_encodeBytes (depth : Nat) (bytes : Option Bytes) : Reads depth (encodeBytes bytes) (ofBytes bytes) := by
  cases bytes with
  | none =>
    refine ⟨⟨_, _, rfl, by decide⟩, fun rest _ => ?_⟩
    rw [encodeBytes, List.cons_append, value_scalar (by decide) (by decide)]
    simp [scalar, quote, keyword, ofBytes]
  | some bytes =>
    refine ⟨⟨_, _, rfl, by decide⟩, fun rest _ => ?_⟩
    have body := stringBody_plain (plain_encodeBase64 bytes) rest
    rw [encodeBytes, List.cons_append, List.cons_append, value_scalar (by decide) (by decide), scalar, if_pos rfl,
      List.append_assoc, List.singleton_append, body, Option.map_some, ofBytes]

theorem reads_encodeBool (depth : Nat) (b : Bool) : Reads depth (encodeBool b) (.bool b) := by
  cases b
  all_goals
    refine ⟨⟨_, _, rfl, by decide⟩, fun rest _ => ?_⟩
    rw [encodeBool, List.cons_append, value_scalar (by decide) (by decide)]
    simp [scalar, quote, keyword]

theorem toBytes_ofBytes (bytes : Option Bytes) : toBytes (ofBytes bytes) = .ok bytes := by
  cases bytes with
  | none => rfl
  | some bytes => rw [ofBytes, toBytes, bytesOf_unquote (plain_encodeBase64 bytes), decodeBase64_encodeBase64]

theorem toUint_formatUint {bits n : Nat} (small : n < 2 ^ bits) (old : Nat) :
    toUint bits old (.number (formatUint 10 n)) = .ok n := by
  rw [toUint, parseUint_formatUint 10 (by decide) (by decide) small, Option.elim_some]

section Objects

variable {depth : Nat}

theorem member_encodeMember {m : Bytes × Bytes} {v : Json} (name : ∀ c ∈ m.1, Plain c) (reads : Reads depth m.2 v)
    {rest : Bytes} (ends : Ends rest) : member (value depth) (encodeMember m ++ rest) = some ((m.1, v), rest) := by
  have key := stringBody_plain name (colon :: (m.2 ++ rest))
  have text : encodeMember m ++ rest = quote :: (m.1 ++ quote :: colon :: (m.2 ++ rest)) := by simp [encodeMember]
  rw [text, member, if_pos rfl, key]
  simp [skipSpace_cons (by decide : isSpace colon = false), reads.skipSpace, reads.value rest ends]

theorem encodeMember_skipSpace (m : Bytes × Bytes) (rest : Bytes) :
    skipSpace (encodeMember m ++ rest) = encodeMember m ++ rest :=
  skipSpace_cons (by decide) _

theorem Ends.ofComma (rest : Bytes) : Ends (comma :: rest) := ⟨comma, rest, rfl, .inl rfl⟩

theorem Ends.ofBrace (rest : Bytes) : Ends (closeBrace :: rest) := ⟨closeBrace, rest, rfl, .inr (.inl rfl)⟩

theorem separated_members {members : List (Bytes × Bytes)} {vs : List Json}
    (names : ∀ m ∈ members, ∀ c ∈ m.1, Plain c)
    (reads : List.Forall₂ (fun m v => Reads depth m.2 v) members vs) (some' : members ≠ []) (rest : Bytes)
    {fuel : Nat} (enough : members.length ≤ fuel) :
    separated (member (value depth)) closeBrace fuel
        (List.intercalate [comma] (members.map encodeMember) ++ closeBrace :: rest) =
      some ((members.map Prod.fst).zip vs, rest) := by
  induction reads generalizing fuel with
  | nil => exact absurd rfl some'
  | @cons m v members vs first others ih =>
    match fuel, enough with
    | fuel + 1, enough =>
      have name := names m (by simp)
      match members with
      | [] =>
        obtain rfl := List.forall₂_nil_left_iff.mp others
        have read := member_encodeMember name first (.ofBrace rest)
        simp [separated, List.intercalate, encodeMember_skipSpace, read,
          skipSpace_cons (by decide : isSpace closeBrace = false)]
      | next :: members =>
        have later := ih (fun m' inside => names m' (by simp [inside])) (by simp) (Nat.le_of_succ_le_succ enough)
        have read := member_encodeMember name first
          (.ofComma (List.intercalate [comma] ((next :: members).map encodeMember) ++ closeBrace :: rest))
        have text : List.intercalate [comma] ((m :: next :: members).map encodeMember) ++ closeBrace :: rest =
            encodeMember m ++ comma :: (List.intercalate [comma] ((next :: members).map encodeMember) ++
              closeBrace :: rest) := by
          simp [List.intercalate]
        have more : comma ≠ closeBrace := by decide
        rw [text, separated, encodeMember_skipSpace, read]
        simp only [List.map_cons] at later
        simp [skipSpace_cons (by decide : isSpace comma = false), more, later]

theorem length_le_intercalate (members : List (Bytes × Bytes)) :
    members.length ≤ (List.intercalate [comma] (members.map encodeMember)).length := by
  induction members with
  | nil => simp
  | cons m members ih =>
    match members with
    | [] => simp [List.intercalate, encodeMember]
    | next :: members =>
      simp only [List.intercalate, List.map_cons, List.intersperse_cons_cons, List.flatten_cons, List.length_append,
        List.length_cons] at ih ⊢
      have some' : 0 < (encodeMember m).length := by simp [encodeMember]
      omega

theorem value_encodeStruct {members : List (Bytes × Bytes)} {vs : List Json}
    (names : ∀ m ∈ members, ∀ c ∈ m.1, Plain c)
    (reads : List.Forall₂ (fun m v => Reads depth m.2 v) members vs) (some' : members ≠ []) (rest : Bytes) :
    value (depth + 1) (encodeStruct members ++ rest) = some (.object ((members.map Prod.fst).zip vs), rest) := by
  have fits := length_le_intercalate members
  have read := fun fuel => @separated_members depth members vs names reads some' rest fuel
  have text : encodeStruct members ++ rest =
      openBrace :: (List.intercalate [comma] (members.map encodeMember) ++ closeBrace :: rest) := by
    simp [encodeStruct]
  obtain ⟨first, others, rfl⟩ := List.exists_cons_of_ne_nil some'
  obtain ⟨tail, body⟩ : ∃ tail, List.intercalate [comma] ((first :: others).map encodeMember) = quote :: tail := by
    cases others <;> exact ⟨_, rfl⟩
  rw [body] at read fits text
  have quoted : quote ≠ closeBrace := by decide
  rw [text, value, if_pos rfl, enclosed, List.cons_append, skipSpace_cons (by decide)]
  dsimp only
  rw [if_neg quoted]
  have parsed := read ((tail ++ closeBrace :: rest).length + 1) (by simp at fits ⊢; omega)
  rw [List.cons_append] at parsed
  rw [parsed, Option.map_some]

-- A struct of Go goes through a decoder as the object of its fields.
theorem decodeNext_encodeStruct {members : List (Bytes × Bytes)} {vs : List Json}
    (names : ∀ m ∈ members, ∀ c ∈ m.1, Plain c)
    (reads : List.Forall₂ (fun m v => Reads 9999 m.2 v) members vs) (some' : members ≠ []) :
    decodeNext (encodeStruct members) = .ok (.object ((members.map Prod.fst).zip vs)) := by
  have read := value_encodeStruct names reads some' []
  rw [List.append_nil] at read
  have visible : skipSpace (encodeStruct members) = encodeStruct members := skipSpace_cons (by decide) _
  have depth : maxNestingDepth = 9999 + 1 := rfl
  rw [decodeNext, visible, depth, read]

theorem decodeWhole_encodeStruct {members : List (Bytes × Bytes)} {vs : List Json}
    (names : ∀ m ∈ members, ∀ c ∈ m.1, Plain c)
    (reads : List.Forall₂ (fun m v => Reads 9999 m.2 v) members vs) (some' : members ≠ []) :
    decodeWhole (encodeStruct members) = .ok (.object ((members.map Prod.fst).zip vs)) := by
  have read := value_encodeStruct names reads some' []
  rw [List.append_nil] at read
  have visible : skipSpace (encodeStruct members) = encodeStruct members := skipSpace_cons (by decide) _
  have depth : maxNestingDepth = 9999 + 1 := rfl
  rw [decodeWhole, visible, depth, read]
  rfl

end Objects

-- A text that begins with a capital letter is no JSON.
theorem decodeWhole_letter {c : UInt8} (letter : 64 < c ∧ c < 91) (rest : Bytes) :
    decodeWhole (c :: rest) = .error syntaxError := by
  have other : ∀ d, ¬ (64 < d ∧ d < 91) → c ≠ d := by
    rintro d no rfl
    exact no letter
  have visible : isSpace c = false := by
    simp [isSpace, other 32 (by decide), other 9 (by decide), other 10 (by decide), other 13 (by decide)]
  have above : ¬ c ≤ 57 := UInt8.not_le.mpr (UInt8.lt_trans (by decide) letter.1)
  have number : numberLiteral (c :: rest) = none := by
    simp [numberLiteral, sign, integer, digits, isDigit, other 45 (by decide), other 48 (by decide), above]
  have read : value maxNestingDepth (c :: rest) = none := by
    rw [value_scalar (other _ (by decide)) (other _ (by decide)), scalar, if_neg (other _ (by decide)),
      if_neg (other _ (by decide)), if_neg (other _ (by decide)), if_neg (other _ (by decide)), number,
      Option.map_none]
  rw [decodeWhole, skipSpace_cons visible, read]

end Reading

end Json

end Go
