import TrillianServerless.Shared.Glob
import TrillianServerless.Serverless.FsStorage
import TrillianServerless.Serverless.SeqPaths

set_option autoImplicit false

namespace Serverless

namespace LogNames

open Go

section Names

def leavesName : Bytes := [108, 101, 97, 118, 101, 115]

def pendingName : Bytes := [112, 101, 110, 100, 105, 110, 103]

-- layout.CheckpointPath.
def checkpointPath : Bytes := [99, 104, 101, 99, 107, 112, 111, 105, 110, 116]

def tmpSuffix : Bytes := [46, 116, 109, 112]

def tempSuffix : Bytes := [46, 116, 101, 109, 112]

def linkSuffix : Bytes := [46, 108, 105, 110, 107]

-- The verb %x of a byte slice.
def hexBytes (b : Bytes) : Bytes := b.flatMap fun c => format02x c.toNat

def leafPath (root leafhash : Bytes) : Outcome (Bytes × Bytes) :=
  match leafhash with
  | a :: b :: c :: rest =>
    .ok (joinPath [root, leavesName, format02x a.toNat, format02x b.toNat, format02x c.toNat], hexBytes rest)
  | _ => .panic "index out of range"

def tilePath (root : Bytes) (level index partialTileSize : Nat) : Bytes × Bytes :=
  (joinPath (root :: tileName :: tileDirs level index), tileBase index partialTileSize)

-- leavesPendingPathFmt, with the hash filled in.
def pendingPath (leafhash : Bytes) : Bytes := leavesName ++ slash :: (pendingName ++ slash :: hexBytes leafhash)

def joinPair (p : Bytes × Bytes) : Bytes := joinPath [p.1, p.2]

-- The file that each path of the log stands for, as the functions of the storage build its name.
def fileName (root : Bytes) : Path → Outcome Bytes
  | .checkpoint => .ok (joinPath [root, checkpointPath])
  | .checkpointTmp => .ok (joinPath [root, checkpointPath] ++ tmpSuffix)
  | .seq n => .ok (joinPair (seqPath root n))
  | .leaf leafhash => do
    let p ← leafPath root leafhash
    return joinPair p
  | .leafTmp leafhash => do
    let p ← leafPath root leafhash
    return joinPair p ++ tmpSuffix
  | .pending leafhash => .ok (joinPath [root, pendingPath leafhash])
  | .tile level index size => .ok (joinPair (tilePath root level index size))
  | .tileTemp level index size => .ok (joinPair (tilePath root level index size) ++ tempSuffix)
  | .tileLink level index => .ok (joinPair (tilePath root level index 0) ++ linkSuffix)

end Names

section Digits

theorem accumulate_zeros (k : Nat) (s : Bytes) :
    (List.replicate k 48 ++ s).foldl (accumulate 16) (some 0) = s.foldl (accumulate 16) (some 0) := by
  induction k with
  | zero => rfl
  | succ k ih =>
    rw [List.replicate_succ, List.cons_append, List.foldl_cons]
    exact ih

-- The number can be read back from its digits, whatever width they are padded to.
theorem leftpad_injective {width m n : Nat}
    (same : (formatUint 16 m).leftpad width 48 = (formatUint 16 n).leftpad width 48) : m = n := by
  have read (k : Nat) : ((formatUint 16 k).leftpad width 48).foldl (accumulate 16) (some 0) = some k := by
    rw [List.leftpad, accumulate_zeros, accumulate_formatUint (by decide) (by decide)]
  have first := read m
  rw [same, read n] at first
  exact (Option.some.inj first).symm

theorem format02x_injective {m n : Nat} (same : format02x m = format02x n) : m = n := leftpad_injective same

theorem format04x_injective {m n : Nat} (same : format04x m = format04x n) : m = n := leftpad_injective same

theorem hexBytes_bounds {b : Bytes} {c : UInt8} (member : c ∈ hexBytes b) : 48 ≤ c ∧ c < 103 := by
  obtain ⟨x, _, digit⟩ := List.mem_flatMap.mp member
  exact format02x_bounds digit

theorem hexBytes_injective {a b : Bytes} (same : hexBytes a = hexBytes b) : a = b := by
  have pair (c : UInt8) : format02x c.toNat = digitPair c.toNat := format02x_byte c.toNat_lt
  induction a generalizing b with
  | nil =>
    cases b with
    | nil => rfl
    | cons d rest => simp [hexBytes, pair, digitPair] at same
  | cons c tail ih =>
    cases b with
    | nil => simp [hexBytes, pair, digitPair] at same
    | cons d rest =>
      have lengths : (format02x c.toNat).length = (format02x d.toNat).length := by rw [pair, pair]; rfl
      rw [hexBytes, List.flatMap_cons, hexBytes, List.flatMap_cons] at same
      obtain ⟨first, later⟩ := List.append_inj same lengths
      rw [UInt8.toNat_inj.mp (format02x_injective first), ih later]

end Digits

section Elements

/-- What stands first below the root. -/
inductive Family where
  | checkpoint
  | checkpointTmp
  | seq
  | leaves
  | tile
  deriving DecidableEq, Repr

def Family.name : Family → Bytes
  | .checkpoint => checkpointPath
  | .checkpointTmp => checkpointPath ++ tmpSuffix
  | .seq => seqName
  | .leaves => leavesName
  | .tile => tileName

theorem Family.name_injective {a b : Family} (same : a.name = b.name) : a = b := by
  revert same
  cases a <;> cases b <;> decide

theorem Family.name_plain (a : Family) : PlainName a.name := by
  cases a <;> exact ⟨by decide, by decide, by decide, by decide⟩

theorem leavesName_plain : PlainName leavesName := Family.name_plain .leaves

theorem tileName_plain : PlainName tileName := Family.name_plain .tile

def family : Path → Family
  | .checkpoint => .checkpoint
  | .checkpointTmp => .checkpointTmp
  | .seq _ => .seq
  | .leaf _ | .leafTmp _ | .pending _ => .leaves
  | .tile _ _ _ | .tileTemp _ _ _ | .tileLink _ _ => .tile

/-- The level and index of the tile that a file belongs to. -/
def tileAt : Path → Option (Nat × Nat)
  | .tile level index _ | .tileTemp level index _ | .tileLink level index => some (level, index)
  | _ => none

def suffixOf : Path → Bytes
  | .tile _ _ size => tileSuffix size
  | .tileTemp _ _ size => tileSuffix size ++ tempSuffix
  | .tileLink _ _ => linkSuffix
  | _ => []

def leafNames (leafhash suffix : Bytes) : List Bytes :=
  match leafhash with
  | a :: b :: c :: rest =>
    [format02x a.toNat, format02x b.toNat, format02x c.toNat, hexBytes rest ++ suffix]
  | _ => []

def tileNames (level index : Nat) (suffix : Bytes) : List Bytes :=
  tileDirs level index ++ [format02x (index &&& 0xff) ++ suffix]

/-- The names below the first one. -/
def inner : Path → List Bytes
  | .checkpoint | .checkpointTmp => []
  | .seq n => seqNames n
  | .leaf leafhash => leafNames leafhash []
  | .leafTmp leafhash => leafNames leafhash tmpSuffix
  | .pending leafhash => [pendingName, hexBytes leafhash]
  | .tile level index size => tileNames level index (tileSuffix size)
  | .tileTemp level index size => tileNames level index (tileSuffix size ++ tempSuffix)
  | .tileLink level index => tileNames level index linkSuffix

def elements (p : Path) : List Bytes := (family p).name :: inner p

/-- The values that the functions of the layout are given. -/
def Valid : Path → Prop
  | .checkpoint | .checkpointTmp => True
  | .seq n => n < 2 ^ 64
  | .leaf leafhash | .leafTmp leafhash | .pending leafhash => leafhash.length = 32
  | .tile level index size | .tileTemp level index size => level < 2 ^ 64 ∧ index < 2 ^ 64 ∧ size < 256
  | .tileLink level index => level < 2 ^ 64 ∧ index < 2 ^ 64

-- Hexadecimal digits, at least one.
def Digits (s : Bytes) : Prop := s ≠ [] ∧ ∀ c ∈ s, 48 ≤ c ∧ c < 103

theorem Digits.not_mem {s : Bytes} (digits : Digits s) {c : UInt8} (low : c < 48) : c ∉ s := fun member =>
  absurd (digits.2 c member).1 (by simpa using low)

theorem Digits.plain {s : Bytes} (digits : Digits s) {suffix : Bytes} (noSlash : slash ∉ suffix) :
    PlainName (s ++ suffix) := by
  obtain ⟨c, rest, rfl⟩ := List.exists_cons_of_ne_nil digits.1
  have apart : (46 : UInt8) ≠ c := fun same => digits.not_mem (show (46 : UInt8) < 48 by decide) (by simp [same])
  refine ⟨by simp, ?_, ?_, ?_⟩
  · intro same
    exact apart (List.cons.inj same).1.symm
  · intro same
    exact apart (List.cons.inj same).1.symm
  · rw [List.mem_append, not_or]
    exact ⟨digits.not_mem (by decide), noSlash⟩

theorem Digits.plain_alone {s : Bytes} (digits : Digits s) : PlainName s := by
  have whole : PlainName (s ++ []) := digits.plain (by simp)
  rwa [List.append_nil] at whole

theorem format02x_digits (n : Nat) : Digits (format02x n) :=
  ⟨(format02x_plain n).nonempty, fun _ member => format02x_bounds member⟩

theorem format04x_digits (n : Nat) : Digits (format04x n) :=
  ⟨by simp [format04x, List.leftpad, formatUint_ne_nil], fun _ member => leftpad_bounds member⟩

theorem hexBytes_digits {b : Bytes} (nonempty : b ≠ []) : Digits (hexBytes b) := by
  refine ⟨?_, fun _ member => hexBytes_bounds member⟩
  obtain ⟨c, rest, rfl⟩ := List.exists_cons_of_ne_nil nonempty
  simp [hexBytes, (format02x_digits c.toNat).1]

theorem dot_noSlash {rest : Bytes} (noSlash : slash ∉ rest) : slash ∉ (46 : UInt8) :: rest := by
  rw [List.mem_cons, not_or]
  exact ⟨by decide, noSlash⟩

theorem tileSuffix_noSlash (size : Nat) : slash ∉ tileSuffix size := by
  unfold tileSuffix
  split
  · exact dot_noSlash ((format02x_digits size).not_mem (by decide))
  · simp

theorem suffixOf_noSlash (p : Path) : slash ∉ suffixOf p := by
  cases p with
  | tile level index size => exact tileSuffix_noSlash size
  | tileTemp level index size =>
    rw [suffixOf, List.mem_append, not_or]
    exact ⟨tileSuffix_noSlash size, by decide⟩
  | tileLink level index => exact (show slash ∉ linkSuffix by decide)
  | _ => exact List.not_mem_nil

theorem seqNames_plain (n : Nat) : ∀ name ∈ seqNames n, PlainName name := by
  intro name member
  simp only [seqNames, seqDirs, List.cons_append, List.nil_append, List.mem_cons, List.not_mem_nil,
    or_false] at member
  rcases member with rfl | rfl | rfl | rfl | rfl <;> exact format02x_plain _

theorem tileDirs_plain (level index : Nat) : ∀ name ∈ tileDirs level index, PlainName name := by
  have wide : PlainName (format04x (index >>> 24)) := (format04x_digits _).plain_alone
  intro name member
  simp only [tileDirs, List.mem_cons, List.not_mem_nil, or_false] at member
  rcases member with rfl | rfl | rfl | rfl
  · exact format02x_plain _
  · exact wide
  · exact format02x_plain _
  · exact format02x_plain _

-- A hash of 32 bytes, taken apart as LeafPath does.
theorem hash_split {leafhash : Bytes} (valid : leafhash.length = 32) :
    ∃ a b c rest, leafhash = a :: b :: c :: rest ∧ rest ≠ [] := by
  match leafhash, valid with
  | a :: b :: c :: d :: rest, _ => exact ⟨a, b, c, d :: rest, rfl, by simp⟩

theorem tileNames_plain (level index : Nat) {suffix : Bytes} (noSlash : slash ∉ suffix) :
    ∀ name ∈ tileNames level index suffix, PlainName name := by
  intro name member
  rcases List.mem_append.mp member with dir | last
  · exact tileDirs_plain level index name dir
  · obtain rfl := List.mem_singleton.mp last
    exact (format02x_digits _).plain noSlash

theorem leafNames_plain {leafhash suffix : Bytes} (valid : leafhash.length = 32) (noSlash : slash ∉ suffix) :
    ∀ name ∈ leafNames leafhash suffix, PlainName name := by
  obtain ⟨a, b, c, rest, rfl, nonempty⟩ := hash_split valid
  intro name member
  simp only [leafNames, List.mem_cons, List.not_mem_nil, or_false] at member
  rcases member with rfl | rfl | rfl | rfl
  · exact format02x_plain _
  · exact format02x_plain _
  · exact format02x_plain _
  · exact (hexBytes_digits nonempty).plain noSlash

theorem inner_plain {p : Path} (valid : Valid p) : ∀ name ∈ inner p, PlainName name := by
  cases p with
  | checkpoint | checkpointTmp => simp [inner]
  | seq n => exact seqNames_plain n
  | leaf leafhash => exact leafNames_plain valid (by simp)
  | leafTmp leafhash => exact leafNames_plain valid (by decide)
  | pending leafhash =>
    obtain ⟨a, b, c, rest, rfl, _⟩ := hash_split valid
    have digits : PlainName (hexBytes (a :: b :: c :: rest)) := (hexBytes_digits (by simp)).plain_alone
    have pending : PlainName pendingName := ⟨by decide, by decide, by decide, by decide⟩
    simpa [inner] using ⟨pending, digits⟩
  | tile level index size => exact tileNames_plain level index (suffixOf_noSlash (.tile level index size))
  | tileTemp level index size => exact tileNames_plain level index (suffixOf_noSlash (.tileTemp level index size))
  | tileLink level index => exact tileNames_plain level index (suffixOf_noSlash (.tileLink level index))

theorem elements_plain {p : Path} (valid : Valid p) : ∀ name ∈ elements p, PlainName name := by
  rw [elements, List.forall_mem_cons]
  exact ⟨(family p).name_plain, inner_plain valid⟩

theorem splitOn_elements {p : Path} (valid : Valid p) :
    ([slash].intercalate (elements p)).splitOn slash = elements p := by
  have clean : ∀ name ∈ elements p, slash ∉ name := fun name member => (elements_plain valid name member).noSlash
  exact List.splitOn_intercalate slash clean (by simp [elements])

-- What is written after a file's name goes to its last element.
theorem joinPath_suffix (root : Bytes) {first : Bytes} (plain : PlainName first) {names : List Bytes}
    (plains : ∀ name ∈ names, PlainName name) {file : Bytes} (plainFile : PlainName file) (suffix : Bytes) :
    joinPath [joinPath (root :: first :: names), file] ++ suffix =
      joinPrefix root ++ [slash].intercalate (first :: (names ++ [file ++ suffix])) := by
  rw [joinPath_file plain root plains plainFile, joinPath_prefix root plain, intercalate_below]
  simp [below]

theorem tileFile_eq (root : Bytes) (level index size : Nat) (suffix : Bytes) :
    joinPair (tilePath root level index size) ++ suffix =
      joinPrefix root ++ [slash].intercalate (tileName :: tileNames level index (tileSuffix size ++ suffix)) := by
  have file := joinPath_suffix root tileName_plain (tileDirs_plain level index)
    ((format02x_digits (index &&& 0xff)).plain (tileSuffix_noSlash size)) suffix
  rw [List.append_assoc] at file
  exact file

theorem leafFile_eq (root : Bytes) {leafhash : Bytes} (valid : leafhash.length = 32) :
    ∃ p, leafPath root leafhash = .ok p ∧ ∀ suffix, joinPair p ++ suffix =
      joinPrefix root ++ [slash].intercalate (leavesName :: leafNames leafhash suffix) := by
  obtain ⟨a, b, c, rest, rfl, nonempty⟩ := hash_split valid
  have file : PlainName (hexBytes rest) := (hexBytes_digits nonempty).plain_alone
  refine ⟨_, rfl, fun suffix => ?_⟩
  exact joinPath_suffix root leavesName_plain (by simp [format02x_plain]) file suffix

/-- The name of each file is its elements below the root, joined as they stand. -/
theorem fileName_eq (root : Bytes) {p : Path} (valid : Valid p) :
    fileName root p = .ok (joinPrefix root ++ [slash].intercalate (elements p)) := by
  have checkpoint : joinPath [root, checkpointPath] = joinPrefix root ++ checkpointPath :=
    joinPath_prefix root (Family.name_plain .checkpoint)
  cases p with
  | checkpoint =>
    rw [fileName, checkpoint]
    rfl
  | checkpointTmp =>
    rw [fileName, checkpoint, List.append_assoc]
    rfl
  | seq n =>
    have dirs : ∀ name ∈ seqDirs n, PlainName name := fun name member =>
      seqNames_plain n name (List.mem_append_left _ member)
    have file := joinPath_suffix root seqName_plain dirs (format02x_plain (n &&& 0xff)) []
    rw [List.append_nil, List.append_nil] at file
    exact congrArg Outcome.ok file
  | leaf leafhash =>
    obtain ⟨pair, built, named⟩ := leafFile_eq root valid
    rw [fileName, built, Outcome.bind_ok, ← List.append_nil (joinPair pair), named]
    rfl
  | leafTmp leafhash =>
    obtain ⟨pair, built, named⟩ := leafFile_eq root valid
    rw [fileName, built, Outcome.bind_ok, named]
    rfl
  | pending leafhash =>
    have whole : pendingPath leafhash = [slash].intercalate [leavesName, pendingName, hexBytes leafhash] := by
      rw [intercalate_below]
      simp [below, pendingPath]
    have plains : ∀ name ∈ [pendingName, hexBytes leafhash], PlainName name :=
      inner_plain (p := .pending leafhash) valid
    rw [fileName, whole, joinPath_intercalate root leavesName_plain.nonempty,
      joinPath_elements root leavesName_plain plains]
    rfl
  | tile level index size =>
    have file := tileFile_eq root level index size []
    rw [List.append_nil, List.append_nil] at file
    exact congrArg Outcome.ok file
  | tileTemp level index size => exact congrArg Outcome.ok (tileFile_eq root level index size tempSuffix)
  | tileLink level index => exact congrArg Outcome.ok (tileFile_eq root level index 0 linkSuffix)

end Elements

section Injective

-- A suffix is told apart from the digits before it by the dot it begins with.
def Dotted (suffix : Bytes) : Prop := suffix = [] ∨ suffix.head? = some 46

theorem takeWhile_digits {s suffix : Bytes} (digits : Digits s) (dotted : Dotted suffix) :
    (s ++ suffix).takeWhile (· ≠ 46) = s := by
  have noDot : ∀ c ∈ s, decide (c ≠ 46) = true := by
    intro c member
    rw [decide_eq_true_iff]
    rintro rfl
    exact digits.not_mem (by decide) member
  rw [List.takeWhile_append_of_pos noDot]
  rcases dotted with rfl | dotted
  · simp
  · cases suffix with
    | nil => simp
    | cons c rest =>
      obtain rfl := Option.some.inj dotted
      simp

theorem digits_suffix_injective {a b s t : Bytes} (digits : Digits a) (digits' : Digits b) (dotted : Dotted s)
    (dotted' : Dotted t) (same : a ++ s = b ++ t) : a = b ∧ s = t := by
  have cut := congrArg (List.takeWhile (· ≠ 46)) same
  rw [takeWhile_digits digits dotted, takeWhile_digits digits' dotted'] at cut
  subst cut
  exact ⟨rfl, List.append_cancel_left same⟩

theorem tileSuffix_dotted (size : Nat) : Dotted (tileSuffix size) := by
  unfold tileSuffix
  split
  · exact .inr rfl
  · exact .inl rfl

theorem tileTemp_dotted (size : Nat) : Dotted (tileSuffix size ++ tempSuffix) := by
  unfold tileSuffix
  split <;> exact .inr rfl

theorem tileSuffix_injective {s t : Nat} (same : tileSuffix s = tileSuffix t) : s = t := by
  unfold tileSuffix at same
  split at same <;> split at same
  · exact format02x_injective (List.cons.inj same).2
  · cases same
  · cases same
  · omega

-- Letters after `f` are in no size.
theorem tileSuffix_low {size : Nat} {c : UInt8} (member : c ∈ tileSuffix size) : c < 103 := by
  unfold tileSuffix at member
  split at member
  · rcases List.mem_cons.mp member with rfl | digit
    · decide
    · exact (format02x_bounds digit).2
  · cases member

theorem tileSuffix_ne_temp (s t : Nat) : tileSuffix s ≠ tileSuffix t ++ tempSuffix := by
  intro same
  have letter : (116 : UInt8) ∈ tileSuffix s := by simp [same, tempSuffix]
  exact absurd (tileSuffix_low letter) (by decide)

theorem tileSuffix_ne_link (s : Nat) : tileSuffix s ≠ linkSuffix := by
  intro same
  have letter : (108 : UInt8) ∈ tileSuffix s := by simp [same, linkSuffix]
  exact absurd (tileSuffix_low letter) (by decide)

theorem temp_ne_link (s : Nat) : tileSuffix s ++ tempSuffix ≠ linkSuffix := by
  intro same
  have last := congrArg List.getLast? same
  simp [tempSuffix, linkSuffix] at last

theorem mask_eq_mod (n : Nat) : n &&& 0xff = n % 256 := Nat.and_two_pow_sub_one_eq_mod n 8

theorem tileNames_injective {level index level' index' : Nat} {suffix suffix' : Bytes} (dotted : Dotted suffix)
    (dotted' : Dotted suffix') (same : tileNames level index suffix = tileNames level' index' suffix') :
    level = level' ∧ index = index' ∧ suffix = suffix' := by
  simp only [tileNames, tileDirs, List.cons_append, List.nil_append, List.cons.injEq, and_true] at same
  obtain ⟨levels, first, second, third, last⟩ := same
  obtain ⟨fourth, suffixes⟩ :=
    digits_suffix_injective (format02x_digits _) (format02x_digits _) dotted dotted' last
  have first := format04x_injective first
  have second := format02x_injective second
  have third := format02x_injective third
  have fourth := format02x_injective fourth
  simp only [mask_eq_mod, Nat.shiftRight_eq_div_pow] at first second third fourth
  exact ⟨format02x_injective levels, by omega, suffixes⟩

theorem leafNames_injective {g h suffix suffix' : Bytes} (valid : g.length = 32) (valid' : h.length = 32)
    (dotted : Dotted suffix) (dotted' : Dotted suffix') (same : leafNames g suffix = leafNames h suffix') :
    g = h ∧ suffix = suffix' := by
  obtain ⟨a, b, c, rest, rfl, nonempty⟩ := hash_split valid
  obtain ⟨a', b', c', rest', rfl, nonempty'⟩ := hash_split valid'
  simp only [leafNames, List.cons.injEq, and_true] at same
  obtain ⟨first, second, third, last⟩ := same
  obtain ⟨digits, suffixes⟩ :=
    digits_suffix_injective (hexBytes_digits nonempty) (hexBytes_digits nonempty') dotted dotted' last
  rw [UInt8.toNat_inj.mp (format02x_injective first), UInt8.toNat_inj.mp (format02x_injective second),
    UInt8.toNat_inj.mp (format02x_injective third), hexBytes_injective digits]
  exact ⟨rfl, suffixes⟩

theorem seqNames_injective {m n : Nat} (same : seqNames m = seqNames n) : m = n := by
  simp only [seqNames, seqDirs, List.cons_append, List.nil_append, List.cons.injEq, and_true] at same
  obtain ⟨first, second, third, fourth, fifth⟩ := same
  have first := format02x_injective first
  have second := format02x_injective second
  have third := format02x_injective third
  have fourth := format02x_injective fourth
  have fifth := format02x_injective fifth
  simp only [mask_eq_mod, Nat.shiftRight_eq_div_pow] at first second third fourth fifth
  omega

theorem leafNames_length {leafhash : Bytes} (valid : leafhash.length = 32) (suffix : Bytes) :
    (leafNames leafhash suffix).length = 4 := by
  obtain ⟨a, b, c, rest, rfl, _⟩ := hash_split valid
  rfl

theorem tile_inner {p : Path} (tile : family p = .tile) :
    ∃ level index, tileAt p = some (level, index) ∧ Dotted (suffixOf p) ∧
      inner p = tileNames level index (suffixOf p) := by
  cases p with
  | tile level index size => exact ⟨level, index, rfl, tileSuffix_dotted size, rfl⟩
  | tileTemp level index size => exact ⟨level, index, rfl, tileTemp_dotted size, rfl⟩
  | tileLink level index => exact ⟨level, index, rfl, .inr rfl, rfl⟩
  | _ => cases tile

theorem family_of_tileAt {p : Path} {key : Nat × Nat} (here : tileAt p = some key) : family p = .tile := by
  cases p with
  | tile | tileTemp | tileLink => rfl
  | _ => cases here

theorem tile_injective {p q : Path} {key : Nat × Nat} (here : tileAt p = some key) (there : tileAt q = some key)
    (suffix : suffixOf p = suffixOf q) : p = q := by
  cases p with
  | tile level index size =>
    obtain rfl := Option.some.inj here
    cases q with
    | tile level' index' size' =>
      obtain ⟨rfl, rfl⟩ := Prod.mk.inj (Option.some.inj there)
      rw [tileSuffix_injective suffix]
    | tileTemp level' index' size' => exact absurd suffix (tileSuffix_ne_temp size size')
    | tileLink level' index' => exact absurd suffix (tileSuffix_ne_link size)
    | _ => cases there
  | tileTemp level index size =>
    obtain rfl := Option.some.inj here
    cases q with
    | tile level' index' size' => exact absurd suffix.symm (tileSuffix_ne_temp size' size)
    | tileTemp level' index' size' =>
      obtain ⟨rfl, rfl⟩ := Prod.mk.inj (Option.some.inj there)
      rw [tileSuffix_injective (List.append_cancel_right suffix)]
    | tileLink level' index' => exact absurd suffix (temp_ne_link size)
    | _ => cases there
  | tileLink level index =>
    obtain rfl := Option.some.inj here
    cases q with
    | tile level' index' size' => exact absurd suffix.symm (tileSuffix_ne_link size')
    | tileTemp level' index' size' => exact absurd suffix.symm (temp_ne_link size')
    | tileLink level' index' =>
      obtain ⟨rfl, rfl⟩ := Prod.mk.inj (Option.some.inj there)
      rfl
    | _ => cases there
  | _ => cases here

-- Below the directory of the leaves, the temporary files are told apart by their depth or their suffix.
theorem leaf_injective {p q : Path} (valid : Valid p) (valid' : Valid q) (here : family p = .leaves)
    (there : family q = .leaves) (same : inner p = inner q) : p = q := by
  have plain : Dotted [] := .inl rfl
  have tmp : Dotted tmpSuffix := .inr rfl
  have depth {g h suffix : Bytes} (valid : g.length = 32) : leafNames g suffix ≠ [pendingName, hexBytes h] := by
    intro same
    have lengths := congrArg List.length same
    rw [leafNames_length valid] at lengths
    cases lengths
  cases p with
  | leaf g =>
    cases q with
    | leaf h => rw [(leafNames_injective valid valid' plain plain same).1]
    | leafTmp h => exact absurd (leafNames_injective valid valid' plain tmp same).2 (by decide)
    | pending h => exact absurd same (depth valid)
    | _ => cases there
  | leafTmp g =>
    cases q with
    | leaf h => exact absurd (leafNames_injective valid valid' tmp plain same).2 (by decide)
    | leafTmp h => rw [(leafNames_injective valid valid' tmp tmp same).1]
    | pending h => exact absurd same (depth valid)
    | _ => cases there
  | pending g =>
    cases q with
    | leaf h => exact absurd same.symm (depth valid')
    | leafTmp h => exact absurd same.symm (depth valid')
    | pending h =>
      simp only [inner, List.cons.injEq, true_and, and_true] at same
      rw [hexBytes_injective same]
    | _ => cases there
  | _ => cases here

theorem elements_injective {p q : Path} (valid : Valid p) (valid' : Valid q) (same : elements p = elements q) :
    p = q := by
  obtain ⟨names, inside⟩ := List.cons.inj same
  have there := Family.name_injective names
  cases here : family p with
  | checkpoint =>
    rw [here] at there
    cases p <;> cases here
    cases q <;> cases there
    rfl
  | checkpointTmp =>
    rw [here] at there
    cases p <;> cases here
    cases q <;> cases there
    rfl
  | seq =>
    rw [here] at there
    cases p <;> cases here
    cases q <;> cases there
    rw [seqNames_injective inside]
  | leaves => exact leaf_injective valid valid' here (there.symm.trans here) inside
  | tile =>
    obtain ⟨level, index, at', dotted, names⟩ := tile_inner here
    obtain ⟨level', index', at'', dotted', names'⟩ := tile_inner (there.symm.trans here)
    rw [names, names'] at inside
    obtain ⟨rfl, rfl, suffix⟩ := tileNames_injective dotted dotted' inside
    exact tile_injective at' at'' suffix

/-- No two files of a log have the same name. -/
theorem fileName_injective (root : Bytes) {p q : Path} (valid : Valid p) (valid' : Valid q)
    (same : fileName root p = fileName root q) : p = q := by
  rw [fileName_eq root valid, fileName_eq root valid', Outcome.ok.injEq] at same
  have names := congrArg (List.splitOn slash) (List.append_cancel_left same)
  rw [splitOn_elements valid, splitOn_elements valid'] at names
  exact elements_injective valid valid' names

end Injective

section Pattern

-- The pattern that StoreTile lists the partial tiles of a full tile with.
def tilePattern (root : Bytes) (level index : Nat) : Bytes := joinPair (tilePath root level index 0) ++ [46, 42]

theorem formatUint_lowerHex {n : Nat} {c : UInt8} (member : c ∈ formatUint 16 n) : LowerHex c := by
  rw [formatUint] at member
  split at member
  · obtain rfl := List.mem_singleton.mp member
    exact .inl (by decide)
  · obtain ⟨d, found, rfl⟩ := List.mem_map.mp member
    exact lowerHex_digitByte (digitsFrom_lt (by decide) _ _ d found)

theorem leftpad_lowerHex {width n : Nat} {c : UInt8} (member : c ∈ (formatUint 16 n).leftpad width 48) :
    LowerHex c := by
  rw [List.leftpad, List.mem_append] at member
  rcases member with zero | digit
  · obtain rfl := List.eq_of_mem_replicate zero
    exact .inl (by decide)
  · exact formatUint_lowerHex digit

theorem lowerHex_noMeta {c : UInt8} (hex : LowerHex c) : isMeta c = false := by
  obtain ⟨d, small, rfl⟩ := hex.digit
  interval_cases d <;> decide

theorem tileDirs_noMeta {level index : Nat} {name : Bytes} (member : name ∈ tileName :: tileDirs level index)
    {c : UInt8} (letter : c ∈ name) : isMeta c = false := by
  simp only [tileDirs, List.mem_cons, List.not_mem_nil, or_false] at member
  rcases member with rfl | rfl | rfl | rfl | rfl
  · exact isMeta_of_mem (by decide) letter
  · exact lowerHex_noMeta (leftpad_lowerHex letter)
  · exact lowerHex_noMeta (leftpad_lowerHex letter)
  · exact lowerHex_noMeta (leftpad_lowerHex letter)
  · exact lowerHex_noMeta (leftpad_lowerHex letter)

variable {root : Bytes} (plain : hasMeta root = false)

include plain

theorem tileDir_noMeta (level index : Nat) : hasMeta (tilePath root level index 0).1 = false := by
  rw [hasMeta, List.any_eq_false]
  intro c member
  rw [Bool.not_eq_true]
  rw [tilePath, joinPath_elements root tileName_plain (tileDirs_plain level index), List.mem_append] at member
  rcases member with above | inside
  · rcases mem_joinPrefix above with letter | rfl | rfl
    · exact isMeta_of_mem plain letter
    · rfl
    · rfl
  · rcases mem_intercalate inside with rfl | ⟨name, found, letter⟩
    · rfl
    · exact tileDirs_noMeta found letter

omit plain in
theorem tilePattern_eq (level index : Nat) : tilePattern root level index =
    (tilePath root level index 0).1 ++ slash :: (format02x (index &&& 0xff) ++ [46] ++ [42]) := by
  rw [tilePattern, tileFile_eq, tilePath, joinPath_elements root tileName_plain (tileDirs_plain level index),
    tileNames, ← List.cons_append, intercalate_append_below (by simp)]
  simp [below, tileSuffix]

omit plain in
-- What the pattern finds beside the tile, joined to the directory.
theorem found_eq (level index : Nat) {rest : Bytes} (noSlash : slash ∉ rest) :
    joinPath [(tilePath root level index 0).1, format02x (index &&& 0xff) ++ [46] ++ rest] =
      joinPrefix root ++ [slash].intercalate (tileName :: tileNames level index (46 :: rest)) := by
  have file : PlainName (format02x (index &&& 0xff) ++ [46] ++ rest) := by
    rw [List.append_assoc]
    exact (format02x_digits _).plain (dot_noSlash noSlash)
  have joined := joinPath_suffix root tileName_plain (tileDirs_plain level index) file []
  rw [List.append_nil, List.append_nil] at joined
  rw [tilePath, joined, tileNames, List.append_assoc]
  rfl

/-- The pattern is well formed, and it finds what lies beside the tile under its name and a dot. -/
theorem glob_tilePattern (fs : Listing) (level index : Nat) :
    ∃ found, glob fs (tilePattern root level index) = some found ∧
      ∀ x, x ∈ found ↔ ∃ names rest, fs.readdirnames (tilePath root level index 0).1 = some names ∧
        format02x (index &&& 0xff) ++ 46 :: rest ∈ names ∧ slash ∉ rest ∧
        x = joinPrefix root ++ [slash].intercalate (tileName :: tileNames level index (46 :: rest)) := by
  have nonempty : (tilePath root level index 0).1 ≠ [] := by
    rw [tilePath, joinPath_elements root tileName_plain (tileDirs_plain level index), intercalate_below]
    simp [tileName]
  have stem : hasMeta (format02x (index &&& 0xff) ++ [46]) = false := by
    rw [hasMeta_append, show hasMeta [46] = false by decide, Bool.or_false, hasMeta, List.any_eq_false]
    intro c digit
    simp [lowerHex_noMeta (leftpad_lowerHex digit)]
  have noSlash : slash ∉ format02x (index &&& 0xff) ++ [46] := by
    rw [List.mem_append, not_or]
    exact ⟨(format02x_digits _).not_mem (by decide), by decide⟩
  obtain ⟨found, globbed, members⟩ := glob_stem fs nonempty (tileDir_noMeta plain level index) stem noSlash
  refine ⟨found, by rw [tilePattern_eq, globbed], fun x => ?_⟩
  rw [members]
  constructor
  · rintro ⟨names, rest, listed, member, apart, rfl⟩
    exact ⟨names, rest, listed, by simpa using member, apart, found_eq level index apart⟩
  · rintro ⟨names, rest, listed, member, apart, rfl⟩
    exact ⟨names, rest, listed, by simpa using member, apart, (found_eq level index apart).symm⟩

omit plain in
/-- A file of the log that has such a name belongs to that tile, and is not the full tile itself. -/
theorem fileName_beside {q : Path} (valid : Valid q) {level index : Nat} {rest : Bytes} (noSlash : slash ∉ rest) :
    fileName root q =
        .ok (joinPrefix root ++ [slash].intercalate (tileName :: tileNames level index (46 :: rest))) ↔
      tileAt q = some (level, index) ∧ suffixOf q = 46 :: rest := by
  have clean : ∀ name ∈ tileName :: tileNames level index (46 :: rest), slash ∉ name := by
    rw [List.forall_mem_cons]
    have plains := tileNames_plain level index (dot_noSlash noSlash)
    exact ⟨tileName_plain.noSlash, fun name member => (plains name member).noSlash⟩
  rw [fileName_eq root valid, Outcome.ok.injEq, List.append_cancel_left_eq]
  constructor
  · intro same
    have names := congrArg (List.splitOn slash) same
    rw [splitOn_elements valid, List.splitOn_intercalate slash clean (by simp)] at names
    obtain ⟨first, inside⟩ := List.cons.inj names
    obtain ⟨level', index', at', dotted, names⟩ := tile_inner (Family.name_injective first)
    rw [names] at inside
    obtain ⟨rfl, rfl, suffixes⟩ := tileNames_injective dotted (.inr rfl) inside
    exact ⟨at', suffixes⟩
  · rintro ⟨at', same⟩
    obtain ⟨level', index', at'', _, names⟩ := tile_inner (family_of_tileAt at')
    obtain ⟨rfl, rfl⟩ := Prod.mk.inj (Option.some.inj (at'.symm.trans at''))
    rw [elements, family_of_tileAt at', names, same]
    rfl

omit plain in
theorem mem_partialNames {q : Path} (valid : Valid q) (level index : Nat) :
    q ∈ partialNames level index ↔ tileAt q = some (level, index) ∧ suffixOf q ≠ [] := by
  have sizes (s : Nat) : tileSuffix s ≠ [] ↔ 0 < s := by simp [tileSuffix]
  simp only [partialNames, List.mem_append, List.mem_flatMap, List.mem_range, List.mem_cons, List.not_mem_nil,
    or_false]
  cases q with
  | tile l i s =>
    obtain ⟨_, _, small⟩ := valid
    simp only [Path.tile.injEq, reduceCtorEq, or_false, tileAt, Option.some.injEq, Prod.mk.injEq, suffixOf, sizes]
    constructor
    · rintro ⟨k, bound, rfl, rfl, rfl⟩
      exact ⟨⟨rfl, rfl⟩, by omega⟩
    · rintro ⟨⟨rfl, rfl⟩, positive⟩
      exact ⟨s - 1, by omega, rfl, rfl, by omega⟩
  | tileTemp l i s =>
    obtain ⟨_, _, small⟩ := valid
    simp only [Path.tileTemp.injEq, reduceCtorEq, false_or, tileAt, Option.some.injEq, Prod.mk.injEq, suffixOf]
    constructor
    · rintro (⟨k, bound, rfl, rfl, rfl⟩ | ⟨rfl, rfl, rfl⟩)
      · exact ⟨⟨rfl, rfl⟩, by simp [tempSuffix]⟩
      · exact ⟨⟨rfl, rfl⟩, by simp [tempSuffix]⟩
    · rintro ⟨⟨rfl, rfl⟩, _⟩
      by_cases zero : s = 0
      · exact .inr ⟨rfl, rfl, zero⟩
      · exact .inl ⟨s - 1, by omega, rfl, rfl, by omega⟩
  | tileLink l i => simp [tileAt, suffixOf, linkSuffix]
  | _ => simp [tileAt]

-- The directories hold those files of the log's tiles that are on its disk.
def Shows (root : Bytes) (d : LogDisk) (fs : Listing) : Prop :=
  ∀ q level index, Valid q → tileAt q = some (level, index) →
    (d.has q ↔ ∃ names, fs.readdirnames (tilePath root level index 0).1 = some names ∧
      format02x (index &&& 0xff) ++ suffixOf q ∈ names)

/-- On the names of the files, the pattern finds what StoreTile is modelled to relink. -/
theorem globPartials_refined {r : Root} (kind : r.glob = .plain) {d : LogDisk} {fs : Listing}
    (shown : Shows root d fs) (level index : Nat) :
    ∃ found partials, glob fs (tilePattern root level index) = some found ∧
      globPartials r level index d = .ok partials ∧
      ∀ q, Valid q → (q ∈ partials ↔ ∃ x ∈ found, fileName root q = .ok x) := by
  obtain ⟨found, globbed, members⟩ := glob_tilePattern plain fs level index
  refine ⟨found, _, globbed, by rw [globPartials, kind], fun q valid => ?_⟩
  rw [List.mem_filter, mem_partialNames valid]
  constructor
  · rintro ⟨⟨here, suffix⟩, has⟩
    obtain ⟨names, listed, member⟩ := (shown q level index valid here).mp has
    obtain ⟨_, _, _, dotted, inside⟩ := tile_inner (family_of_tileAt here)
    obtain ⟨c, rest, text⟩ := List.exists_cons_of_ne_nil suffix
    have noSlash := suffixOf_noSlash q
    rw [text] at dotted member noSlash
    obtain rfl : c = 46 := by simpa [Dotted] using dotted
    have apart : slash ∉ rest := fun member => noSlash (by simp [member])
    exact ⟨_, (members _).mpr ⟨names, rest, listed, member, apart, rfl⟩,
      (fileName_beside valid apart).mpr ⟨here, text⟩⟩
  · rintro ⟨x, member, named⟩
    obtain ⟨names, rest, listed, entry, apart, rfl⟩ := (members x).mp member
    obtain ⟨here, text⟩ := (fileName_beside valid apart).mp named
    exact ⟨⟨here, by simp [text]⟩, (shown q level index valid here).mpr ⟨names, listed, by rwa [text]⟩⟩

/-- In a root directory whose name is no pattern, the functions of the layout name no two files alike, nor do
the temporary files of the storage share a name with one another or with them, and the pattern of a full tile
finds nothing but files of that tile. -/
theorem names_never_collide :
    (∀ m n, m < 2 ^ 64 → n < 2 ^ 64 → seqPath root m = seqPath root n → m = n) ∧
      (∀ level index size level' index' size', level < 2 ^ 64 → index < 2 ^ 64 → size < 256 →
        level' < 2 ^ 64 → index' < 2 ^ 64 → size' < 256 →
        tilePath root level index size = tilePath root level' index' size' →
        level = level' ∧ index = index' ∧ size = size') ∧
      (∀ g h : Bytes, g.length = 32 → h.length = 32 → leafPath root g = leafPath root h → g = h) ∧
      (∀ p q, Valid p → Valid q → p ≠ q →
        ∃ a b, fileName root p = .ok a ∧ fileName root q = .ok b ∧ a ≠ b) ∧
      ∀ fs level index, level < 2 ^ 64 → index < 2 ^ 64 →
        ∃ found, glob fs (tilePattern root level index) = some found ∧ ∀ x ∈ found,
          (∃ rest, slash ∉ rest ∧ x = joinPair (tilePath root level index 0) ++ 46 :: rest) ∧
            ∀ q, Valid q → fileName root q = .ok x → tileAt q = some (level, index) := by
  refine ⟨fun m n _ _ same => ?_, fun level index size level' index' size' l i s l' i' s' same => ?_,
    fun g h valid valid' same => ?_, fun p q valid valid' apart => ?_, fun fs level index _ _ => ?_⟩
  · refine Path.seq.inj (fileName_injective root (p := .seq m) (q := .seq n) ‹_› ‹_› ?_)
    simp only [fileName, same]
  · refine Path.tile.inj (fileName_injective root (p := .tile level index size) (q := .tile level' index' size')
      ⟨l, i, s⟩ ⟨l', i', s'⟩ ?_)
    simp only [fileName, same]
  · refine Path.leaf.inj (fileName_injective root (p := .leaf g) (q := .leaf h) valid valid' ?_)
    simp only [fileName, same]
  · refine ⟨_, _, fileName_eq root valid, fileName_eq root valid', fun same => apart ?_⟩
    exact fileName_injective root valid valid'
      ((fileName_eq root valid).trans ((congrArg Outcome.ok same).trans (fileName_eq root valid').symm))
  · obtain ⟨found, globbed, members⟩ := glob_tilePattern plain fs level index
    refine ⟨found, globbed, fun x member => ?_⟩
    obtain ⟨names, rest, _, _, noSlash, rfl⟩ := (members x).mp member
    refine ⟨⟨rest, noSlash, ?_⟩, fun q valid named => ((fileName_beside valid noSlash).mp named).1⟩
    rw [tileFile_eq]
    rfl

omit plain in
theorem names_never_collide_log : hasMeta [47, 108, 111, 103] = false ∧
    ∃ a b, fileName [47, 108, 111, 103] (.tileTemp 0 5 0) = .ok a ∧
      fileName [47, 108, 111, 103] (.tileLink 0 5) = .ok b ∧ a ≠ b :=
  ⟨by decide, (@names_never_collide [47, 108, 111, 103] (by decide)).2.2.2.1 (.tileTemp 0 5 0)
    (.tileLink 0 5) ⟨by decide, by decide, by decide⟩ ⟨by decide, by decide⟩ (by decide)⟩

end Pattern

end LogNames

end Serverless
