import TrillianServerless.Shared.Text
import TrillianServerless.Shared.PerfectNodes

set_option autoImplicit false

namespace Serverless

open Go Merkle

/-- api.Tile. A node that was never set is a nil slice, here `none`. -/
structure Tile where
  numLeaves : Nat
  nodes : List (Option Bytes)
  deriving DecidableEq, Repr

namespace Tile

def line (node : Option Bytes) : Bytes := encodeBase64 (node.getD [])

def marshalText (t : Tile) : Bytes :=
  formatUint 10 32 ++ [newline] ++ (formatUint 10 t.numLeaves ++ [newline]) ++
    t.nodes.flatMap fun node => line node ++ [newline]

def decodeNodes : List Bytes → Outcome (List (Option Bytes))
  | [] => .ok []
  | hash :: rest =>
    match decodeBase64 hash with
    | none => .error (.wrap "unable to parse nodehash on line %d; %w" (.text "illegal base64 data"))
    | some node => do
      let nodes ← decodeNodes rest
      return some node :: nodes

def unmarshalText (raw : Bytes) : Outcome Tile :=
  match (trimSpace raw).splitOn newline with
  | [] => .panic "index out of range [0] with length 0"
  | first :: rest =>
    match parseUint 10 16 first with
    | none => .error (.wrap "unable to parse hash size: %w" (.text "strconv.ParseUint"))
    | some hashSize =>
      if hashSize ≠ 32 then .error (.text "invalid hash size %d")
      else
        match rest with
        | [] => .panic "index out of range [1] with length 1"
        | second :: hashes =>
          match parseUint 10 16 second with
          | none => .error (.wrap "unable to parse numLeaves: %w" (.text "strconv.ParseUint"))
          | some numLeaves => do
            let nodes ← decodeNodes hashes
            return ⟨numLeaves, nodes⟩

-- Absent nodes read back as empty ones.
def readBack (t : Tile) : Tile := ⟨t.numLeaves, t.nodes.map fun node => some (node.getD [])⟩

def EndsFilled (t : Tile) : Prop := ∀ node, t.nodes.getLast? = some node → node.getD [] ≠ []

theorem decodeNodes_lines (nodes : List (Option Bytes)) :
    decodeNodes (nodes.map line) = .ok (nodes.map fun node => some (node.getD [])) := by
  induction nodes with
  | nil => rfl
  | cons node rest ih => simp [decodeNodes, line, decodeBase64_encodeBase64, ih]

theorem visible_of_bounds {c : UInt8} (lower : 43 ≤ c) (upper : c < 123) : Visible c := by
  have low : 43 ≤ c.toNat := lower
  have high : c.toNat < 123 := upper
  exact ⟨by show 32 < c.toNat; omega, by show c.toNat < 128; omega⟩

theorem line_visible {node : Option Bytes} {c : UInt8} (member : c ∈ line node) : Visible c :=
  visible_of_bounds (encodeBase64_bounds _ c member).1 (encodeBase64_bounds _ c member).2

theorem number_visible {n : Nat} {c : UInt8} (member : c ∈ formatUint 10 n) : Visible c := by
  have bounds := formatUint_bounds (by decide) (by decide) c member
  have low : 48 ≤ c.toNat := bounds.1
  have high : c.toNat < 103 := bounds.2
  exact ⟨by show 32 < c.toNat; omega, by show c.toNat < 128; omega⟩

theorem newline_not_mem {s : Bytes} (visible : ∀ c ∈ s, Visible c) : newline ∉ s := by
  intro member
  exact absurd (visible newline member).1 (by decide)

theorem intercalate_lines (first : Bytes) (lines : List Bytes) :
    (first ++ [newline]) ++ lines.flatMap (fun l => l ++ [newline]) =
      [newline].intercalate (first :: lines) ++ [newline] := by
  induction lines generalizing first with
  | nil => simp
  | cons second rest ih =>
    rw [List.flatMap_cons, ih second, List.intercalate_cons_cons]
    simp

def textLines (t : Tile) : List Bytes :=
  formatUint 10 32 :: formatUint 10 t.numLeaves :: t.nodes.map line

theorem marshalText_lines (t : Tile) :
    t.marshalText = [newline].intercalate t.textLines ++ [newline] := by
  rw [textLines, ← intercalate_lines, marshalText, List.flatMap_cons, List.flatMap_map]
  simp

theorem textLines_visible (t : Tile) : ∀ l ∈ t.textLines, ∀ c ∈ l, Visible c := by
  intro l member c inside
  simp only [textLines, List.mem_cons, List.mem_map] at member
  rcases member with rfl | rfl | ⟨node, _, rfl⟩
  · exact number_visible inside
  · exact number_visible inside
  · exact line_visible inside

theorem getLast?_intercalate (first last : Bytes) (lines : List Bytes)
    (ends : (first :: lines).getLast? = some last) (filled : last ≠ []) :
    ([newline].intercalate (first :: lines)).getLast? = last.getLast? := by
  induction lines generalizing first with
  | nil =>
    obtain rfl : first = last := by simpa using ends
    simp
  | cons second rest ih =>
    have tail := ih second (by simpa using ends)
    obtain ⟨c, final⟩ : ∃ c, last.getLast? = some c := ⟨_, List.getLast?_eq_some_getLast filled⟩
    rw [List.intercalate_cons_cons, List.getLast?_append, tail, final]
    rfl

theorem textLines_last {t : Tile} (ends : t.EndsFilled) :
    ∃ last, t.textLines.getLast? = some last ∧ last ≠ [] := by
  rcases List.eq_nil_or_concat t.nodes with none | ⟨init, node, split⟩
  · exact ⟨formatUint 10 t.numLeaves, by simp [textLines, none], formatUint_ne_nil 10 _⟩
  · refine ⟨line node, by simp [textLines, split, List.getLast?_cons], ?_⟩
    rw [line, Ne, encodeBase64_eq_nil]
    exact ends node (by simp [split])

theorem trimSpace_marshalText {t : Tile} (ends : t.EndsFilled) :
    trimSpace t.marshalText = [newline].intercalate t.textLines := by
  obtain ⟨last, final, filled⟩ := textLines_last ends
  have tail := getLast?_intercalate (formatUint 10 32) last _ final filled
  rw [marshalText_lines]
  apply trimSpace_line (c := 51) (d := last.getLast filled)
  · rw [textLines, List.intercalate_cons_cons]
    rfl
  · rw [textLines, tail, List.getLast?_eq_some_getLast]
  · exact ⟨by decide, by decide⟩
  · exact textLines_visible t last (List.mem_of_getLast? final) _ (List.getLast_mem filled)

theorem unmarshalText_marshalText {t : Tile} (small : t.numLeaves < 2 ^ 16) (ends : t.EndsFilled) :
    unmarshalText t.marshalText = .ok t.readBack := by
  have lines : (trimSpace t.marshalText).splitOn newline = t.textLines := by
    rw [trimSpace_marshalText ends, List.splitOn_intercalate]
    · exact fun l member => newline_not_mem (textLines_visible t l member)
    · exact List.cons_ne_nil _ _
  rw [unmarshalText, lines, textLines]
  simp only [parseUint_formatUint 10 (by decide) (by decide) (show 32 < 2 ^ 16 by decide),
    parseUint_formatUint 10 (by decide) (by decide) small, decodeNodes_lines]
  rfl

theorem intercalate_concat (init : List Bytes) (some' : init ≠ []) (last : Bytes) :
    [newline].intercalate (init ++ [last]) = [newline].intercalate init ++ newline :: last := by
  induction init with
  | nil => exact absurd rfl some'
  | cons first rest ih =>
    cases rest with
    | nil => simp
    | cons second rest =>
      have later := ih (List.cons_ne_nil _ _)
      rw [List.cons_append] at later
      rw [List.cons_append, List.cons_append, List.intercalate_cons_cons, later,
        List.intercalate_cons_cons]
      simp

theorem decodeNodes_ok {hashes : List Bytes} {nodes : List (Option Bytes)}
    (decoded : decodeNodes hashes = .ok nodes) :
    nodes = hashes.map decodeBase64 ∧ ∀ hash ∈ hashes, ∃ bytes, decodeBase64 hash = some bytes := by
  induction hashes generalizing nodes with
  | nil => exact ⟨(Outcome.ok.inj decoded).symm, by simp⟩
  | cons hash rest ih =>
    rw [decodeNodes] at decoded
    cases node : decodeBase64 hash with
    | none => simp [node] at decoded
    | some bytes =>
      rw [node] at decoded
      obtain ⟨later, ran, same⟩ := Outcome.bind_eq_ok.mp decoded
      obtain rfl := Outcome.ok.inj same
      obtain ⟨rfl, all⟩ := ih ran
      exact ⟨by rw [List.map_cons, node], by simpa [node] using all⟩

theorem unmarshalText_ok {raw : Bytes} {t : Tile} (read : unmarshalText raw = .ok t) :
    ∃ first second hashes, (trimSpace raw).splitOn newline = first :: second :: hashes ∧
      decodeNodes hashes = .ok t.nodes := by
  unfold unmarshalText at read
  split at read
  · cases read
  next first rest lines =>
    split at read
    · cases read
    · split at read
      · cases read
      · split at read
        · cases read
        next second hashes =>
          split at read
          · cases read
          · obtain ⟨nodes, decoded, same⟩ := Outcome.bind_eq_ok.mp read
            obtain rfl := Outcome.ok.inj same
            exact ⟨first, second, hashes, lines, decoded⟩

/-- The lines of a tile that was read end with a hash: what follows it is trimmed. -/
theorem unmarshalText_endsFilled {raw : Bytes} {t : Tile} (read : unmarshalText raw = .ok t) :
    t.EndsFilled := by
  obtain ⟨first, second, hashes, lines, decoded⟩ := unmarshalText_ok read
  obtain ⟨nodes, all⟩ := decodeNodes_ok decoded
  intro node last empty
  rcases List.eq_nil_or_concat hashes with rfl | ⟨init, hash, rfl⟩
  · simp [nodes] at last
  · obtain rfl : decodeBase64 hash = node := by simpa [nodes] using last
    obtain ⟨bytes, found⟩ := all hash (by simp)
    obtain rfl : bytes = [] := by simpa [found] using empty
    have text : trimSpace raw =
        [newline].intercalate (first :: second :: init) ++ newline :: hash := by
      have whole : [newline].intercalate ((trimSpace raw).splitOn newline) = trimSpace raw :=
        List.intercalate_splitOn newline
      rw [← whole, lines, List.concat_eq_append]
      exact intercalate_concat (first :: second :: init) (List.cons_ne_nil _ _) hash
    -- With nothing but line breaks after the line before it, the text would not be trimmed.
    have blank : ∀ c ∈ newline :: hash, isLineBreak c = true := by
      intro c member
      rcases List.mem_cons.mp member with rfl | inside
      · rfl
      · exact decodeBase64_eq_nil found c inside
    have final := List.getLast?_eq_some_getLast (List.cons_ne_nil newline hash)
    have trimmed := trimSpace_last (s := raw) (c := (newline :: hash).getLast (List.cons_ne_nil _ _))
      (by rw [text, List.getLast?_append, final]; rfl)
    have breaks := blank _ (List.getLast_mem (List.cons_ne_nil newline hash))
    simp only [isLineBreak, Bool.or_eq_true, beq_iff_eq] at breaks
    rcases breaks with same | same <;> rw [same] at trimmed <;> revert trimmed <;> decide

end Tile

end Serverless
