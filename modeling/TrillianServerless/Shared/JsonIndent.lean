import Mathlib.Data.List.DropRight
import TrillianServerless.Shared.JsonText

set_option autoImplicit false

namespace Go

namespace Json

section Encoder

-- json.MarshalIndent with no prefix and an indent of one space.
def lineBreak (level : Nat) : Bytes := 10 :: List.replicate level 32

def indented (level : Nat) (texts : List Bytes) : Bytes :=
  List.intercalate [comma] (texts.map (lineBreak (level + 1) ++ ·)) ++ lineBreak level

def indentArray (level : Nat) (items : List Bytes) : Bytes :=
  if items = [] then [openBracket, closeBracket] else openBracket :: indented level items ++ [closeBracket]

def indentMember (m : Bytes × Bytes) : Bytes := quote :: m.1 ++ quote :: colon :: 32 :: m.2

def indentStruct (level : Nat) (members : List (Bytes × Bytes)) : Bytes :=
  openBrace :: indented level (members.map indentMember) ++ [closeBrace]

def indentBytesList (level : Nat) : Option (List (Option Bytes)) → Bytes
  | none => encodeBytes none
  | some items => indentArray level (items.map encodeBytes)

end Encoder

section Written

variable {A : Type}

/-- The text is read as one item, whatever follows that is no part of a number. -/
structure Written (item : Bytes → Option (A × Bytes)) (text : Bytes) (a : A) : Prop where
  visible : ∃ c rest, text = c :: rest ∧ isSpace c = false
  item : ∀ rest, Follows rest → item (text ++ rest) = some (a, rest)

theorem Reads.written {depth : Nat} {text : Bytes} {v : Json} (reads : Reads depth text v) :
    Written (Json.value depth) text v := by
  refine ⟨reads.visible, fun rest follows => ?_⟩
  obtain ⟨text', -, same, again⟩ := value_extent depth (reads.value [comma] (.ofComma []))
  rw [List.append_cancel_right same]
  exact again rest fun _ => follows

theorem lineBreak_spaces (level : Nat) : ∀ b ∈ lineBreak level, isSpace b = true := by
  intro b inside
  rcases List.mem_cons.mp inside with rfl | inside
  · rfl
  · rw [List.eq_of_mem_replicate inside]
    rfl

theorem Written.skipSpace {item : Bytes → Option (A × Bytes)} {text : Bytes} {a : A} (written : Written item text a)
    (level : Nat) (rest : Bytes) : skipSpace (lineBreak level ++ text ++ rest) = text ++ rest := by
  obtain ⟨c, tail, rfl, visible⟩ := written.visible
  rw [List.append_assoc]
  exact skipSpace_append (lineBreak_spaces level) visible _

theorem follows_cons {c : UInt8} (stop : isDigit c = false ∧ c ≠ 46 ∧ c ≠ 101 ∧ c ≠ 69) (rest : Bytes) :
    Follows (c :: rest) := follows_spaces (fun _ inside => absurd inside List.not_mem_nil) rest stop

variable {item : Bytes → Option (A × Bytes)} {close : UInt8}

theorem separated_indented {texts : List Bytes} {as : List A} (written : List.Forall₂ (Written item) texts as)
    (some' : texts ≠ []) (visible : isSpace close = false) (noComma : comma ≠ close) (level : Nat) (rest : Bytes)
    {fuel : Nat} (enough : texts.length ≤ fuel) :
    separated item close fuel (indented level texts ++ close :: rest) = some (as, rest) := by
  induction written generalizing fuel with
  | nil => exact absurd rfl some'
  | @cons text a texts as first others ih =>
    obtain ⟨fuel, rfl⟩ : ∃ k, fuel = k + 1 := ⟨fuel - 1, by rw [List.length_cons] at enough; omega⟩
    cases others with
    | nil =>
      have text' : indented level [text] ++ close :: rest =
          lineBreak (level + 1) ++ text ++ (lineBreak level ++ close :: rest) := by
        simp [indented, List.intercalate]
      have read : item (skipSpace (indented level [text] ++ close :: rest)) =
          some (a, lineBreak level ++ close :: rest) := by
        rw [text', first.skipSpace]
        exact first.item _ (follows_cons (by decide) _)
      rw [separated_round read (skipSpace_append (lineBreak_spaces level) visible rest), if_pos rfl]
    | @cons next a' texts as second others =>
      have later := ih (by simp) (Nat.le_of_succ_le_succ enough)
      have text' : indented level (text :: next :: texts) ++ close :: rest =
          lineBreak (level + 1) ++ text ++ comma :: (indented level (next :: texts) ++ close :: rest) := by
        simp [indented, List.intercalate]
      have read : item (skipSpace (indented level (text :: next :: texts) ++ close :: rest)) =
          some (a, comma :: (indented level (next :: texts) ++ close :: rest)) := by
        rw [text', first.skipSpace]
        exact first.item _ (follows_cons (by decide) _)
      rw [separated_round read (skipSpace_cons (by decide) _), if_neg noComma, if_pos rfl, later, Option.map_some]

theorem length_le_indented (level : Nat) (texts : List Bytes) : texts.length ≤ (indented level texts).length := by
  have each (texts : List Bytes) :
      texts.length ≤ (List.intercalate [comma] (texts.map (lineBreak (level + 1) ++ ·))).length := by
    induction texts with
    | nil => simp
    | cons text texts ih =>
      cases texts with
      | nil => simp [List.intercalate, lineBreak]
      | cons next texts =>
        simp only [List.intercalate, List.map_cons, List.intersperse_cons_cons, List.flatten_cons, List.length_append,
          List.length_cons, lineBreak] at ih ⊢
        omega
  rw [indented, List.length_append]
  exact Nat.le_add_right_of_le (each texts)

theorem separated_skipSpace (fuel : Nat) (s : Bytes) :
    separated item close fuel (skipSpace s) = separated item close fuel s := by
  cases fuel with
  | zero => rfl
  | succ fuel =>
    have again : skipSpace (skipSpace s) = skipSpace s := List.dropWhile_idempotent isSpace s
    rw [separated, again, separated]

theorem enclosed_indented {texts : List Bytes} {as : List A} (written : List.Forall₂ (Written item) texts as)
    (visible : isSpace close = false) (noComma : comma ≠ close) {c : UInt8} {tail : Bytes}
    (first : texts.head? = some (c :: tail)) (noClose : c ≠ close) (level : Nat) (rest : Bytes) :
    enclosed item close (indented level texts ++ close :: rest) = some (as, rest) := by
  cases written with
  | nil => cases first
  | @cons text a texts as starts others =>
    obtain rfl : text = c :: tail := Option.some.inj first
    obtain ⟨more, body, fits⟩ : ∃ more, indented level ((c :: tail) :: texts) ++ close :: rest =
        lineBreak (level + 1) ++ (c :: tail) ++ more ∧ texts.length ≤ more.length := by
      cases texts with
      | nil =>
        refine ⟨lineBreak level ++ close :: rest, ?_, Nat.zero_le _⟩
        simp [indented, List.intercalate]
      | cons next texts =>
        refine ⟨comma :: (indented level (next :: texts) ++ close :: rest), ?_, ?_⟩
        · simp [indented, List.intercalate]
        · have bound := length_le_indented level (next :: texts)
          simp only [List.length_cons, List.length_append] at bound ⊢
          omega
    have read := @separated_indented A item close _ _ (.cons starts others) (by simp) visible noComma level rest
      ((tail ++ more).length + 1) (by rw [List.length_cons, List.length_append]; omega)
    rw [body, ← separated_skipSpace, starts.skipSpace, List.cons_append] at read
    rw [enclosed, body, starts.skipSpace, List.cons_append]
    dsimp only
    rw [if_neg noClose, read]

end Written

section Values

variable {depth : Nat}

theorem Written.noClose {c : UInt8} {text : Bytes} {v : Json} (written : Written (value depth) (c :: text) v) :
    c ≠ closeBracket := by
  refine Reads.noClose ⟨written.visible, fun rest ends => written.item rest ?_⟩
  obtain ⟨d, after, rfl, -, stop⟩ := ends.stops
  exact follows_cons stop after

theorem written_indentArray {texts : List Bytes} {vs : List Json}
    (written : List.Forall₂ (Written (value depth)) texts vs) (level : Nat) :
    Written (value (depth + 1)) (indentArray level texts) (.array vs) := by
  have noObject : openBracket ≠ openBrace := by decide
  cases written with
  | nil =>
    refine ⟨⟨_, _, rfl, by decide⟩, fun rest _ => ?_⟩
    simp [indentArray, value, noObject, enclosed, skipSpace_cons (by decide : isSpace closeBracket = false)]
  | @cons text v texts vs first others =>
    have text' : indentArray level (text :: texts) = openBracket :: indented level (text :: texts) ++ [closeBracket] :=
      if_neg (by simp)
    rw [text']
    refine ⟨⟨_, _, rfl, by decide⟩, fun rest _ => ?_⟩
    obtain ⟨c, tail, rfl, -⟩ := first.visible
    have read := enclosed_indented (.cons first others) (by decide) (by decide) rfl first.noClose level rest
    rw [List.cons_append, List.cons_append, List.append_assoc, List.singleton_append, value, if_neg noObject, if_pos rfl,
      read, Option.map_some]

theorem written_indentMember {m : Bytes × Bytes} {v : Json} (name : ∀ c ∈ m.1, Plain c)
    (written : Written (value depth) m.2 v) : Written (member (value depth)) (indentMember m) (m.1, v) := by
  refine ⟨⟨_, _, rfl, by decide⟩, fun rest follows => ?_⟩
  have key := stringBody_plain name (colon :: 32 :: (m.2 ++ rest))
  have text : indentMember m ++ rest = quote :: (m.1 ++ quote :: colon :: 32 :: (m.2 ++ rest)) := by simp [indentMember]
  obtain ⟨c, tail, first, visible⟩ := written.visible
  have skipped : skipSpace (32 :: (m.2 ++ rest)) = m.2 ++ rest := by
    rw [first, List.cons_append]
    have space : ∀ b ∈ [(32 : UInt8)], isSpace b = true := by
      intro b inside
      rw [List.mem_singleton.mp inside]
      rfl
    exact skipSpace_append space visible _
  rw [text, member, if_pos rfl, key]
  simp [skipSpace_cons (by decide : isSpace colon = false), skipped, written.item rest follows]

theorem written_indentStruct {members : List (Bytes × Bytes)} {vs : List Json}
    (names : ∀ m ∈ members, ∀ c ∈ m.1, Plain c)
    (written : List.Forall₂ (fun m v => Written (value depth) m.2 v) members vs) (some' : members ≠ []) (level : Nat) :
    Written (value (depth + 1)) (indentStruct level members) (.object ((members.map Prod.fst).zip vs)) := by
  have each : List.Forall₂ (Written (member (value depth))) (members.map indentMember)
      ((members.map Prod.fst).zip vs) := by
    clear some'
    induction written with
    | nil => exact .nil
    | @cons m v members vs first others ih =>
      exact .cons (written_indentMember (names m (by simp)) first) (ih fun m' inside => names m' (by simp [inside]))
  refine ⟨⟨_, _, rfl, by decide⟩, fun rest _ => ?_⟩
  obtain ⟨m, others, rfl⟩ := List.exists_cons_of_ne_nil some'
  have read := @enclosed_indented _ _ closeBrace _ _ each (by decide) (by decide) quote _ rfl (by decide) level rest
  rw [indentStruct, List.cons_append, List.cons_append, List.append_assoc, List.singleton_append, value, if_pos rfl,
    read, Option.map_some]

theorem written_indentBytesList (level : Nat) (items : Option (List (Option Bytes))) :
    Written (value (depth + 1)) (indentBytesList level items) (ofBytesList items) := by
  cases items with
  | none => exact (reads_encodeBytes (depth + 1) none).written
  | some items =>
    refine written_indentArray ?_ level
    rw [List.forall₂_map_left_iff, List.forall₂_map_right_iff, List.forall₂_same]
    exact fun bytes _ => (reads_encodeBytes depth bytes).written

theorem Written.decodeWhole {text : Bytes} {v : Json} (written : Written (value maxNestingDepth) text v) :
    decodeWhole text = .ok v := by
  have read := written.item [] fun _ _ same => by cases same
  rw [List.append_nil] at read
  obtain ⟨c, tail, rfl, visible⟩ := written.visible
  rw [Json.decodeWhole, skipSpace_cons visible, read]
  rfl

end Values

end Json

end Go
