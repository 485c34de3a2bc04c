import TrillianServerless.Serverless.Client

set_option autoImplicit false

namespace Serverless

open Go Merkle

section Text

-- The lines that UnmarshalText looks at.
def rawLines (raw : Bytes) : List Bytes := (trimSpace raw).splitOn newline

namespace Tile

theorem decodeNodes_of_all {hashes : List Bytes} (all : ∀ hash ∈ hashes, (decodeBase64 hash).isSome) :
    decodeNodes hashes = .ok (hashes.map decodeBase64) := by
  induction hashes with
  | nil => rfl
  | cons hash rest ih =>
    obtain ⟨node, found⟩ := Option.isSome_iff_exists.mp (all hash (by simp))
    rw [decodeNodes, found, ih fun other member => all other (by simp [member])]
    simp [found]

theorem decodeNodes_ne_panic (hashes : List Bytes) (reason : String) :
    decodeNodes hashes ≠ .panic reason := by
  intro panics
  induction hashes with
  | nil => cases panics
  | cons hash rest ih =>
    rw [decodeNodes] at panics
    cases decoded : decodeBase64 hash with
    | none =>
      rw [decoded] at panics
      cases panics
    | some node =>
      rw [decoded] at panics
      rcases Outcome.bind_eq_panic.mp panics with later | ⟨_, _, last⟩
      · exact ih later
      · cases last

/-- A text that UnmarshalText takes: the hash size, the number of leaves, and a base64 line for each node. -/
structure Accepts (raw : Bytes) (numLeaves : Nat) (hashes : List Bytes) : Prop where
  lines : ∃ first second, rawLines raw = first :: second :: hashes ∧
    parseUint 10 16 first = some 32 ∧ parseUint 10 16 second = some numLeaves
  base64 : ∀ hash ∈ hashes, (decodeBase64 hash).isSome

theorem unmarshalText_eq_ok {raw : Bytes} {t : Tile} :
    unmarshalText raw = .ok t ↔
      ∃ hashes, Accepts raw t.numLeaves hashes ∧ t.nodes = hashes.map decodeBase64 := by
  constructor
  · intro read
    unfold unmarshalText at read
    split at read
    · cases read
    next first rest lines =>
      split at read
      · cases read
      next hashSize size =>
        split at read
        · cases read
        next same =>
          split at read
          · cases read
          next second hashes =>
            split at read
            · cases read
            next numLeaves count =>
              obtain ⟨nodes, decoded, made⟩ := Outcome.bind_eq_ok.mp read
              obtain rfl := Outcome.ok.inj made
              obtain ⟨values, all⟩ := decodeNodes_ok decoded
              obtain rfl : hashSize = 32 := not_not.mp same
              exact ⟨hashes, ⟨⟨first, second, lines, size, count⟩, fun hash member =>
                Option.isSome_iff_exists.mpr (all hash member)⟩, values⟩
  · rintro ⟨hashes, ⟨⟨first, second, lines, size, count⟩, all⟩, values⟩
    rw [rawLines] at lines
    rw [unmarshalText, lines]
    simp only [size, count, ne_eq, not_true_eq_false, if_false, decodeNodes_of_all all]
    rw [← values]
    rfl

/-- Only the missing second line makes it panic. -/
theorem unmarshalText_panics {raw : Bytes} :
    (∃ reason, unmarshalText raw = .panic reason) ↔
      ∃ first, rawLines raw = [first] ∧ parseUint 10 16 first = some 32 := by
  constructor
  · rintro ⟨reason, panics⟩
    unfold unmarshalText at panics
    split at panics
    next lines => exact absurd lines (List.splitOn_ne_nil _ _)
    next first rest lines =>
      split at panics
      · cases panics
      next hashSize size =>
        split at panics
        · cases panics
        next same =>
          obtain rfl : hashSize = 32 := not_not.mp same
          split at panics
          · exact ⟨first, lines, size⟩
          next second hashes =>
            split at panics
            · cases panics
            · rcases Outcome.bind_eq_panic.mp panics with decoding | ⟨_, _, last⟩
              · exact absurd decoding (decodeNodes_ne_panic hashes reason)
              · cases last
  · rintro ⟨first, lines, size⟩
    rw [rawLines] at lines
    exact ⟨"index out of range [1] with length 1", by rw [unmarshalText, lines]; simp [size]⟩

-- The receiver is assigned after the last line.
def unmarshalInto (raw : Bytes) : Eff Tile Unit := fun t =>
  match unmarshalText raw with
  | .ok tile => (.ok (), tile)
  | .error reason => (.error reason, t)
  | .panic reason => (.panic reason, t)

/-- What a reader of tiles relies on. -/
structure WellFormed (t : Tile) : Prop where
  nodes : ∀ node ∈ t.nodes, node.getD [] ≠ [] → (node.getD []).length = 32
  numLeaves : t.numLeaves ≤ 256
  length : t.nodes.length ≤ 2 * t.numLeaves - 1

structure SafeRead (raw : Bytes) (t : Tile) : Prop where
  calm : ∀ reason, (unmarshalInto raw t).1 ≠ .panic reason
  wellFormed : (unmarshalInto raw t).1 = .ok () → WellFormed (unmarshalInto raw t).2
  unchanged : ∀ reason, (unmarshalInto raw t).1 = .error reason → (unmarshalInto raw t).2 = t

-- The base64 text of 32 bytes, or of none.
def NodeLine (hash : Bytes) : Prop :=
  base64Symbols hash ≠ [] → (base64Symbols hash).length = 44 ∧ (base64Symbols hash).count padByte = 1

/-- The text is not the hash size alone, and if it has the form of a tile, then its numbers fit and each of its
node lines is blank or as long as a hash. -/
structure FitText (raw : Bytes) : Prop where
  second : ∀ first, rawLines raw = [first] → parseUint 10 16 first ≠ some 32
  fits : ∀ numLeaves hashes, Accepts raw numLeaves hashes → numLeaves ≤ 256 ∧
    hashes.length ≤ 2 * numLeaves - 1 ∧ ∀ hash ∈ hashes, NodeLine hash

theorem nodeLine_iff {hash : Bytes} (base64 : (decodeBase64 hash).isSome) :
    NodeLine hash ↔ ((decodeBase64 hash).getD [] ≠ [] → ((decodeBase64 hash).getD []).length = 32) := by
  obtain ⟨node, found⟩ := Option.isSome_iff_exists.mp base64
  rw [NodeLine, found, Option.getD_some, ← decodeBase64_hash_iff found, Ne, Ne, decodeBase64_empty_iff found]

theorem Accepts.wellFormed_iff {raw : Bytes} {numLeaves : Nat} {hashes : List Bytes}
    (accepts : Accepts raw numLeaves hashes) :
    WellFormed ⟨numLeaves, hashes.map decodeBase64⟩ ↔
      numLeaves ≤ 256 ∧ hashes.length ≤ 2 * numLeaves - 1 ∧ ∀ hash ∈ hashes, NodeLine hash := by
  have lines : (∀ node ∈ hashes.map decodeBase64, node.getD [] ≠ [] → (node.getD []).length = 32) ↔
      ∀ hash ∈ hashes, NodeLine hash := by
    rw [List.forall_mem_map]
    exact forall₂_congr fun hash member => (nodeLine_iff (accepts.base64 hash member)).symm
  constructor
  · intro well
    exact ⟨well.numLeaves, by simpa using well.length, lines.mp well.nodes⟩
  · rintro ⟨count, length, each⟩
    exact ⟨lines.mpr each, count, by simpa using length⟩

/-- Reading a text is safe exactly when it fits. -/
theorem safeRead_iff_fitText (raw : Bytes) (t : Tile) : SafeRead raw t ↔ FitText raw := by
  constructor
  · intro safe
    refine ⟨fun first lines size => ?_, fun numLeaves hashes accepts => ?_⟩
    · obtain ⟨reason, panics⟩ := unmarshalText_panics.mpr ⟨first, lines, size⟩
      exact safe.calm reason (by simp [unmarshalInto, panics])
    · have read : unmarshalText raw = .ok ⟨numLeaves, hashes.map decodeBase64⟩ :=
        unmarshalText_eq_ok.mpr ⟨hashes, accepts, rfl⟩
      have well := safe.wellFormed (by simp [unmarshalInto, read])
      rw [unmarshalInto, read] at well
      exact accepts.wellFormed_iff.mp well
  · intro fit
    rcases read : unmarshalText raw with tile | reason | reason
    · obtain ⟨hashes, accepts, nodes⟩ := unmarshalText_eq_ok.mp read
      have well := accepts.wellFormed_iff.mpr (fit.fits tile.numLeaves hashes accepts)
      rw [← nodes] at well
      exact ⟨by simp [unmarshalInto, read], fun _ => by simpa [unmarshalInto, read] using well,
        by simp [unmarshalInto, read]⟩
    · exact ⟨by simp [unmarshalInto, read], by simp [unmarshalInto, read], by simp [unmarshalInto, read]⟩
    · obtain ⟨first, lines, size⟩ := unmarshalText_panics.mp ⟨reason, read⟩
      exact absurd size (fit.second first lines)

-- The text 32 stops after the hash size; in the other one, 32\n1\nAAAA, the only node has three bytes.
theorem short_texts_unsafe : ¬ SafeRead [51, 50] ⟨0, []⟩ ∧
    ¬ SafeRead [51, 50, 10, 49, 10, 65, 65, 65, 65] ⟨0, []⟩ := by
  constructor
  · intro safe
    exact safe.calm "index out of range [1] with length 1" rfl
  · intro safe
    exact absurd ((safe.wellFormed rfl).nodes (some [0, 0, 0]) (by decide) (by decide)) (by decide)

end Tile

end Text

end Serverless
