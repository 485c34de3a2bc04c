import Mathlib.Data.List.Dedup
import Mathlib.Data.List.Infix
import TrillianServerless.Shared.SparseTree
import TrillianServerless.Packages.Merkle

set_option autoImplicit false

namespace Smt

open Go Sparse

-- node.ID of trillian: the bits of a path from the root.
abbrev ID := List Bool

def byteBits (b : UInt8) : List Bool := (List.range 8).map fun i => b.toNat.testBit (7 - i)

def bitsOf (path : Bytes) : ID := path.flatMap byteBits

def ID.new (path : Bytes) (bitLen : Nat) : ID := (bitsOf path).take bitLen

def ID.sibling (id : ID) : ID :=
  match id.getLast? with
  | none => []
  | some bit => id.dropLast ++ [!bit]

def bitsValue (bits : List Bool) : Nat := bits.foldl (fun n bit => 2 * n + bit.toNat) 0

-- The last byte of an ID, with its unused lower bits unset, and the number of bits that it uses.
def ID.lastByte (id : ID) : Nat × Nat :=
  let last := id.drop (8 * ((id.length - 1) / 8))
  (bitsValue last * 2 ^ (8 - last.length), last.length)

theorem byteBits_length (b : UInt8) : (byteBits b).length = 8 := by simp [byteBits]

theorem byteBits_injective {b c : UInt8} (same : byteBits b = byteBits c) : b = c := by
  apply UInt8.toNat_inj.mp
  apply Nat.eq_of_testBit_eq
  intro i
  by_cases low : i < 8
  · have bit := congrArg (fun bits => bits[7 - i]?) same
    simpa [byteBits, List.getElem?_map, List.getElem?_range (show 7 - i < 8 by omega), show 7 - (7 - i) = i by omega]
      using bit
  · have high (d : UInt8) : d.toNat.testBit i = false :=
      Nat.testBit_lt_two_pow (Nat.lt_of_lt_of_le d.toNat_lt (Nat.pow_le_pow_right (by decide) (by omega : 8 ≤ i)))
    rw [high, high]

theorem byteBits_surjective {bits : List Bool} (length : bits.length = 8) : ∃ b, byteBits b = bits := by
  match bits, length with
  | [b7, b6, b5, b4, b3, b2, b1, b0], _ =>
    refine ⟨.ofNat (bitsValue [b7, b6, b5, b4, b3, b2, b1, b0]), ?_⟩
    revert b7 b6 b5 b4 b3 b2 b1 b0
    decide

@[simp] theorem bitsOf_nil : bitsOf [] = [] := rfl

@[simp] theorem bitsOf_append (path more : Bytes) : bitsOf (path ++ more) = bitsOf path ++ bitsOf more := by
  simp [bitsOf]

@[simp] theorem bitsOf_length (path : Bytes) : (bitsOf path).length = 8 * path.length := by
  induction path with
  | nil => rfl
  | cons b rest ih =>
    have step : bitsOf (b :: rest) = byteBits b ++ bitsOf rest := rfl
    rw [step, List.length_append, byteBits_length, ih, List.length_cons]
    omega

theorem bitsOf_injective {path other : Bytes} (same : bitsOf path = bitsOf other) : path = other := by
  induction path generalizing other with
  | nil =>
    have length := congrArg List.length same
    simp only [bitsOf_length, List.length_nil] at length
    exact (List.length_eq_zero_iff.mp (by omega)).symm
  | cons b rest ih =>
    cases other with
    | nil => simpa using congrArg List.length same
    | cons c others =>
      have step (d : UInt8) (tail : Bytes) : bitsOf (d :: tail) = byteBits d ++ bitsOf tail := rfl
      rw [step, step] at same
      obtain ⟨first, later⟩ := List.append_inj same (by rw [byteBits_length, byteBits_length])
      rw [byteBits_injective first, ih later]

theorem bitsOf_surjective {n : Nat} {bits : ID} (length : bits.length = 8 * n) :
    ∃ path : Bytes, path.length = n ∧ bitsOf path = bits := by
  induction n generalizing bits with
  | zero => exact ⟨[], rfl, (List.length_eq_zero_iff.mp length).symm⟩
  | succ n ih =>
    have first : (bits.take 8).length = 8 := by
      rw [List.length_take]
      omega
    have others : (bits.drop 8).length = 8 * n := by
      rw [List.length_drop]
      omega
    obtain ⟨b, byte⟩ := byteBits_surjective first
    obtain ⟨rest, size, later⟩ := ih others
    refine ⟨b :: rest, by simp [size], ?_⟩
    have step : bitsOf (b :: rest) = byteBits b ++ bitsOf rest := rfl
    rw [step, byte, later, List.take_append_drop]

theorem bitsOf_take (path : Bytes) (n : Nat) : bitsOf (path.take n) = (bitsOf path).take (8 * n) := by
  rcases Nat.le_total n path.length with short | long
  · have split := bitsOf_append (path.take n) (path.drop n)
    rw [List.take_append_drop] at split
    rw [split, List.take_left' (by simp [short])]
  · rw [List.take_of_length_le long, List.take_of_length_le (by simp; omega)]

@[simp] theorem new_all (path : Bytes) : ID.new path (8 * path.length) = bitsOf path :=
  List.take_of_length_le (by simp)

theorem sibling_concat (id : ID) (bit : Bool) : ID.sibling (id ++ [bit]) = id ++ [!bit] := by
  simp [ID.sibling]

theorem sibling_sibling (id : ID) : id.sibling.sibling = id := by
  rcases List.eq_nil_or_concat id with rfl | ⟨id, bit, rfl⟩
  · rfl
  · simp [sibling_concat]

theorem sibling_length (id : ID) : id.sibling.length = id.length := by
  rcases List.eq_nil_or_concat id with rfl | ⟨id, bit, rfl⟩
  · rfl
  · simp [sibling_concat]

theorem sibling_ne {id : ID} (inner : id ≠ []) : id.sibling ≠ id := by
  rcases List.eq_nil_or_concat id with rfl | ⟨id, bit, rfl⟩
  · exact absurd rfl inner
  · cases bit <;> simp [sibling_concat]

theorem bitsValue_concat (bits : List Bool) (bit : Bool) :
    bitsValue (bits ++ [bit]) = 2 * bitsValue bits + bit.toNat := by
  simp [bitsValue]

-- The lowest bit in use is the last bit of the ID.
theorem lastByte_concat (id : ID) (bit : Bool) : ∃ high used, ID.lastByte (id ++ [bit]) =
    ((2 * high + bit.toNat) * 2 ^ (8 - used), used) ∧ 1 ≤ used ∧ used ≤ 8 := by
  have whole : 8 * (((id ++ [bit]).length - 1) / 8) ≤ id.length := by
    simp only [List.length_append, List.length_singleton, Nat.add_sub_cancel]
    omega
  refine ⟨bitsValue (id.drop (8 * (((id ++ [bit]).length - 1) / 8))),
    (id.drop (8 * (((id ++ [bit]).length - 1) / 8)) ++ [bit]).length, ?_, ?_⟩
  · rw [ID.lastByte, List.drop_append_of_le_length whole, bitsValue_concat]
  · simp only [List.length_append, List.length_singleton, Nat.add_sub_cancel, List.length_drop]
    omega

/-- The hasher of package coniks, with hashes of SHA-512/256. -/
structure Hasher where
  hashLeaf : Int → ID → Bytes → Bytes
  hashEmpty : Int → ID → Bytes
  hashChildren : Bytes → Bytes → Bytes
  leafSize : ∀ treeID id leaf, (hashLeaf treeID id leaf).length = 32
  emptySize : ∀ treeID id, (hashEmpty treeID id).length = 32
  childSize : ∀ left right, (hashChildren left right).length = 32

def Hasher.bitLen : Nat := 256

namespace Hasher

variable (h : Hasher) (treeID : Int)

-- The root hash of the map with the values `content` at its keys of `depth` bits.
def leafHashes (content : ID → Option Bytes) (id : ID) : Option Bytes := (content id).map (h.hashLeaf treeID id)

def rootHash (content : ID → Option Bytes) (depth : Nat) : Bytes :=
  hashAt h.hashChildren (h.hashEmpty treeID) (h.leafHashes treeID content) depth []

def IsHash (x : Bytes) : Prop :=
  (∃ id leaf, h.hashLeaf treeID id leaf = x) ∨ ∃ left right, h.hashChildren left right = x

/-- Hashing is free of collisions with the nodes of a map. HashChildren hashes its arguments one after the other, so it
tells apart only what they are together. -/
structure Binds (content : ID → Option Bytes) (depth : Nat) : Prop where
  leaves : ∀ id value, content id = some value → ∀ other, h.hashLeaf treeID id other = h.hashLeaf treeID id value →
    other = value
  nodes : ∀ k id x, id.length + k + 1 = depth →
    nodeAt h.hashChildren (h.hashEmpty treeID) (h.leafHashes treeID content) (k + 1) id = some x →
    ∀ left right, h.hashChildren left right = x → left ++ right =
      hashAt h.hashChildren (h.hashEmpty treeID) (h.leafHashes treeID content) k (id ++ [false]) ++
        hashAt h.hashChildren (h.hashEmpty treeID) (h.leafHashes treeID content) k (id ++ [true])
  inner : ∀ k id x, id.length + k + 1 = depth →
    nodeAt h.hashChildren (h.hashEmpty treeID) (h.leafHashes treeID content) (k + 1) id = some x →
    ∀ key leaf, h.hashLeaf treeID key leaf ≠ x
  empties : ∀ id left right, h.IsHash treeID left ∨ h.IsHash treeID right →
    h.hashChildren left right ≠ h.hashEmpty treeID id
  emptyLeaf : ∀ id key leaf, h.hashLeaf treeID key leaf ≠ h.hashEmpty treeID id

variable {h treeID}

theorem IsHash.size {x : Bytes} (hash : h.IsHash treeID x) : x.length = 32 := by
  rcases hash with ⟨id, leaf, rfl⟩ | ⟨left, right, rfl⟩
  · exact h.leafSize _ _ _
  · exact h.childSize _ _

theorem hashAt_size (content : ID → Option Bytes) (k : Nat) (id : ID) :
    (hashAt h.hashChildren (h.hashEmpty treeID) (h.leafHashes treeID content) k id).length = 32 := by
  cases node : nodeAt h.hashChildren (h.hashEmpty treeID) (h.leafHashes treeID content) k id with
  | none => simp [hashAt, node, h.emptySize]
  | some x =>
    rw [hashAt, node, Option.getD_some]
    cases k with
    | zero =>
      obtain ⟨value, -, rfl⟩ := Option.map_eq_some_iff.mp node
      exact h.leafSize _ _ _
    | succ k =>
      rw [nodeAt_some node]
      exact h.childSize _ _

theorem Binds.binding {content : ID → Option Bytes} {depth : Nat} (binds : h.Binds treeID content depth) :
    Binding h.hashChildren (h.hashEmpty treeID) (h.leafHashes treeID content) depth (h.IsHash treeID) where
  nodes k id x bound node left right hash same := by
    have whole := binds.nodes k id x bound node left right same
    rcases hash with leftHash | rightHash
    · exact List.append_inj whole (leftHash.size.trans (hashAt_size _ _ _).symm)
    · exact List.append_inj' whole (rightHash.size.trans (hashAt_size _ _ _).symm)
  empties id _ left right hash := binds.empties id left right hash

-- Where a path from a leaf to the root of a map goes.
theorem Binds.path {content : ID → Option Bytes} {depth : Nat} (binds : h.Binds treeID content depth) {bits : ID}
    {siblings : List Bytes} (length : siblings.length = bits.length) {k : Nat} (bound : bits.length + k = depth)
    {id : ID} {value : Bytes} (same : pathRoot h.hashChildren bits siblings (h.hashLeaf treeID id value) =
      h.rootHash treeID content depth) :
    h.hashLeaf treeID id value =
      hashAt h.hashChildren (h.hashEmpty treeID) (h.leafHashes treeID content) k bits := by
  have parents (left right : Bytes) : h.IsHash treeID (h.hashChildren left right) := .inr ⟨left, right, rfl⟩
  rw [rootHash, ← bound] at same
  exact binds.binding.path parents (.inl ⟨id, value, rfl⟩) length (by simpa using bound) same

theorem Binds.committed {content : ID → Option Bytes} {key : ID} (binds : h.Binds treeID content key.length)
    {siblings : List Bytes} (length : siblings.length = key.length) {value : Bytes}
    (same : pathRoot h.hashChildren key siblings (h.hashLeaf treeID key value) =
      h.rootHash treeID content key.length) : content key = some value := by
  have leaf := binds.path length (Nat.add_zero _) same
  rw [hashAt, nodeAt, leafHashes] at leaf
  cases found : content key with
  | none =>
    rw [found, Option.map_none, Option.getD_none] at leaf
    exact absurd leaf (binds.emptyLeaf _ _ _)
  | some other =>
    rw [found, Option.map_some, Option.getD_some] at leaf
    rw [binds.leaves key other found value leaf]

-- A leaf of a map is not above its lowest level.
theorem Binds.deep {content : ID → Option Bytes} {depth : Nat} (binds : h.Binds treeID content depth) {bits : ID}
    {siblings : List Bytes} (length : siblings.length = bits.length) (short : bits.length < depth) (id : ID)
    (value : Bytes) : pathRoot h.hashChildren bits siblings (h.hashLeaf treeID id value) ≠
      h.rootHash treeID content depth := by
  intro same
  obtain ⟨k, bound⟩ : ∃ k, bits.length + (k + 1) = depth := ⟨depth - bits.length - 1, by omega⟩
  have leaf := binds.path length bound same
  cases node : nodeAt h.hashChildren (h.hashEmpty treeID) (h.leafHashes treeID content) (k + 1) bits with
  | none =>
    rw [hashAt, node, Option.getD_none] at leaf
    exact binds.emptyLeaf _ _ _ leaf
  | some x =>
    rw [hashAt, node, Option.getD_some] at leaf
    exact binds.inner k bits x (by omega) node id value leaf

-- A hasher that can be evaluated: the first byte tells what was hashed.
def tagged : Hasher where
  hashLeaf _ _ leaf := Merkle.LogHasher.fit (0 :: leaf)
  hashEmpty _ _ := Merkle.LogHasher.fit [2]
  hashChildren left right := Merkle.LogHasher.fit (1 :: (left.take 15 ++ right.take 16))
  leafSize _ _ _ := Merkle.LogHasher.fit_length _
  emptySize _ _ := Merkle.LogHasher.fit_length _
  childSize := Merkle.LogHasher.padded.childSize

section Listing

variable (content : ID → Option Bytes) (keys : List ID)

-- The nodes above the keys of a map.
def paths : List ID := keys.flatMap List.inits

def number (id : ID) : Bytes :=
  Merkle.LogHasher.fit [1, UInt8.ofNat ((paths keys).idxOf id), UInt8.ofNat ((paths keys).idxOf id / 256)]

def numberOrEmpty (id : ID) : Bytes := if id ∈ paths keys then number keys id else Merkle.LogHasher.fit [2]

-- A hasher for a map with few keys: it numbers the nodes above them, and hashes all else alike.
def listing : Hasher where
  hashLeaf _ id leaf := if content id = some leaf then number keys id else Merkle.LogHasher.fit [3]
  hashEmpty _ _ := Merkle.LogHasher.fit [2]
  hashChildren left right :=
    match (paths keys).find? fun id =>
      left ++ right = numberOrEmpty keys (id ++ [false]) ++ numberOrEmpty keys (id ++ [true]) with
    | some id => number keys id
    | none => Merkle.LogHasher.fit [4]
  leafSize _ _ _ := by split <;> exact Merkle.LogHasher.fit_length _
  emptySize _ _ := Merkle.LogHasher.fit_length _
  childSize _ _ := by split <;> exact Merkle.LogHasher.fit_length _

/-- The keys of the map, each of `depth` bits. -/
structure Lists (depth : Nat) : Prop where
  listed : ∀ id, (content id).isSome ↔ id ∈ keys
  level : ∀ id ∈ keys, id.length = depth
  few : (paths keys).length < 65536

variable {content keys} {depth : Nat}

theorem fit_head {a b : UInt8} {x y : Bytes} (same : Merkle.LogHasher.fit (a :: x) = Merkle.LogHasher.fit (b :: y)) :
    a = b := by
  have head := congrArg List.head? same
  simpa [Merkle.LogHasher.fit] using head

theorem number_injective (few : (paths keys).length < 65536) {id other : ID} (inside : id ∈ paths keys)
    (inside' : other ∈ paths keys) (same : number keys id = number keys other) : id = other := by
  have low := List.idxOf_lt_length_of_mem inside
  have low' := List.idxOf_lt_length_of_mem inside'
  simp only [number, Merkle.LogHasher.fit] at same
  have bytes := congrArg (fun b : Bytes => (b[1]?, b[2]?)) same
  simp only [List.cons_append, List.take_succ_cons, List.getElem?_cons_succ, List.getElem?_cons_zero, Prod.mk.injEq, Option.some.injEq, ← UInt8.toNat_inj, UInt8.toNat_ofNat'] at bytes
  exact (List.idxOf_inj inside).mp (by omega)

theorem mem_paths {id : ID} : id ∈ paths keys ↔ ∃ key ∈ keys, id <+: key := by
  simp [paths, List.mem_inits]

theorem numberOrEmpty_size (id : ID) : (numberOrEmpty keys id).length = 32 := by
  unfold numberOrEmpty
  split <;> exact Merkle.LogHasher.fit_length _

theorem numberOrEmpty_inside {id : ID} (few : (paths keys).length < 65536) (inside : id ∈ paths keys) {other : ID}
    (same : numberOrEmpty keys other = numberOrEmpty keys id) : other = id := by
  rw [numberOrEmpty, numberOrEmpty, if_pos inside] at same
  split at same
  next there => exact number_injective few there inside same
  next => exact absurd (fit_head same) (by decide)

section Listed

variable (lists : Lists content keys depth) {treeID : Int}
include lists

theorem listing_child {id : ID} (inside : id ∈ paths keys) (inner : id.length < depth) :
    ∃ bit, id ++ [bit] ∈ paths keys := by
  obtain ⟨key, listed, rest, rfl⟩ := mem_paths.mp inside
  have length := lists.level _ listed
  cases rest with
  | nil => simp at length; omega
  | cons bit rest => exact ⟨bit, mem_paths.mpr ⟨_, listed, rest, by simp⟩⟩

theorem listing_parent {id : ID} (inside : id ∈ paths keys) (inner : id.length < depth) {left right : Bytes} :
    (listing content keys).hashChildren left right = number keys id ↔
      left ++ right = numberOrEmpty keys (id ++ [false]) ++ numberOrEmpty keys (id ++ [true]) := by
  have unique {other : ID} (same : numberOrEmpty keys (other ++ [false]) ++ numberOrEmpty keys (other ++ [true]) =
      numberOrEmpty keys (id ++ [false]) ++ numberOrEmpty keys (id ++ [true])) : other = id := by
    obtain ⟨first, second⟩ := List.append_inj same (by simp only [numberOrEmpty_size])
    obtain ⟨bit, child⟩ := listing_child lists inside inner
    cases bit
    · exact List.append_cancel_right (numberOrEmpty_inside lists.few child first)
    · exact List.append_cancel_right (numberOrEmpty_inside lists.few child second)
  simp only [listing]
  constructor
  · intro hashed
    split at hashed
    next other found =>
      have there := List.mem_of_find?_eq_some found
      obtain rfl := number_injective lists.few there inside hashed
      simpa using List.find?_some found
    next => exact absurd (fit_head hashed) (by decide)
  · intro same
    split
    next other found =>
      have here : left ++ right = numberOrEmpty keys (other ++ [false]) ++ numberOrEmpty keys (other ++ [true]) := by
        simpa using List.find?_some found
      rw [unique (here.symm.trans same)]
    next none => exact absurd same (by simpa using List.find?_eq_none.mp none id inside)

-- The nodes of the map are the ones above its keys.
theorem listing_node {k : Nat} {id : ID} (level : id.length + k = depth) :
    nodeAt (listing content keys).hashChildren ((listing content keys).hashEmpty treeID)
        ((listing content keys).leafHashes treeID content) k id =
      if id ∈ paths keys then some (number keys id) else none := by
  induction k generalizing id with
  | zero =>
    have leaf : id ∈ paths keys ↔ id ∈ keys := by
      rw [mem_paths]
      constructor
      · rintro ⟨key, listed, front⟩
        rwa [front.eq_of_length (by rw [lists.level key listed]; omega)]
      · intro listed
        exact ⟨id, listed, List.prefix_refl id⟩
    rw [nodeAt, leafHashes]
    cases found : content id with
    | none =>
      have absent : id ∉ keys := by rw [← lists.listed, found]; simp
      rw [if_neg (leaf.not.mpr absent), Option.map_none]
    | some value =>
      have there : id ∈ keys := by rw [← lists.listed, found]; rfl
      rw [if_pos (leaf.mpr there), Option.map_some]
      simp [listing, found]
  | succ k ih =>
    have child (bit : Bool) := @ih (id ++ [bit]) (by simp; omega)
    have hash (bit : Bool) : hashAt (listing content keys).hashChildren ((listing content keys).hashEmpty treeID)
        ((listing content keys).leafHashes treeID content) k (id ++ [bit]) = numberOrEmpty keys (id ++ [bit]) := by
      rw [hashAt, child, numberOrEmpty]
      split <;> rfl
    by_cases inside : id ∈ paths keys
    · rw [if_pos inside]
      obtain ⟨bit, there⟩ := listing_child lists inside (by omega)
      have some' := child bit
      rw [if_pos there] at some'
      cases node : nodeAt (listing content keys).hashChildren ((listing content keys).hashEmpty treeID)
          ((listing content keys).leafHashes treeID content) (k + 1) id with
      | none =>
        have none := nodeAt_eq_none.mp node
        cases bit
        · rw [none.1] at some'; cases some'
        · rw [none.2] at some'; cases some'
      | some x =>
        rw [nodeAt_some node, (listing_parent lists inside (by omega)).mpr (by rw [hash, hash])]
    · rw [if_neg inside, nodeAt_eq_none]
      have absent (bit : Bool) : id ++ [bit] ∉ paths keys := by
        intro there
        obtain ⟨key, listed, front⟩ := mem_paths.mp there
        exact inside (mem_paths.mpr ⟨key, listed, (List.prefix_append _ _).trans front⟩)
      rw [child, child, if_neg (absent _), if_neg (absent _)]
      exact ⟨rfl, rfl⟩

theorem listing_hashAt {k : Nat} {id : ID} (level : id.length + k = depth) :
    hashAt (listing content keys).hashChildren ((listing content keys).hashEmpty treeID)
        ((listing content keys).leafHashes treeID content) k id = numberOrEmpty keys id := by
  rw [hashAt, listing_node lists level, numberOrEmpty]
  split <;> rfl

theorem listing_inside {k : Nat} {id : ID} {x : Bytes} (level : id.length + k = depth)
    (node : nodeAt (listing content keys).hashChildren ((listing content keys).hashEmpty treeID)
      ((listing content keys).leafHashes treeID content) k id = some x) : id ∈ paths keys ∧ x = number keys id := by
  rw [listing_node lists level] at node
  split at node
  next inside => exact ⟨inside, (Option.some.inj node).symm⟩
  next => cases node

theorem listing_binds : (listing content keys).Binds treeID content depth where
  leaves id value found other same := by
    simp only [listing, found, Option.some.injEq] at same
    by_contra different
    rw [if_neg fun equal => different equal.symm] at same
    exact absurd (fit_head same) (by decide)
  nodes k id x level node left right hashed := by
    obtain ⟨inside, rfl⟩ := listing_inside lists (show id.length + (k + 1) = depth by omega) node
    rw [(listing_parent lists inside (by omega)).mp hashed, listing_hashAt lists (by simp; omega),
      listing_hashAt lists (by simp; omega)]
  inner k id x level node key leaf same := by
    obtain ⟨inside, rfl⟩ := listing_inside lists (show id.length + (k + 1) = depth by omega) node
    simp only [listing] at same
    split at same
    next found =>
      have listed : key ∈ keys := by rw [← lists.listed, found]; rfl
      have above := mem_paths.mpr ⟨key, listed, List.prefix_refl key⟩
      have length := lists.level key listed
      rw [number_injective lists.few above inside same] at length
      omega
    next => exact absurd (fit_head same) (by decide)
  empties id left right _ same := by
    simp only [listing] at same
    split at same
    · exact absurd (fit_head same) (by decide)
    · exact absurd (fit_head same) (by decide)
  emptyLeaf id key leaf same := by
    simp only [listing] at same
    split at same
    · exact absurd (fit_head same) (by decide)
    · exact absurd (fit_head same) (by decide)

end Listed

end Listing
end Hasher

structure Node where
  id : ID
  hash : Bytes
  deriving DecidableEq

def given (nodes : List Node) (id : ID) : Option Bytes := (nodes.find? fun n => n.id = id).map Node.hash

-- What an update does: the nodes that it sets, and the nodes that it returns.
structure Updated where
  set : List Node
  roots : List Node

/-- HStar3 of package smt, for an accessor whose Get does not depend on what was set. -/
structure HStar3 where
  Handle : Type
  new : List Node → (Bytes → Bytes → Bytes) → Nat → Nat → Except GoError Handle
  update : Handle → (ID → Bytes) → Except GoError Updated

/-- An update sets every node strictly below its top that is given or computed, with what Get returns for the siblings
that are not there, and returns the nodes at the top. -/
structure Updated.Computes (u : Updated) (combine : Bytes → Bytes → Bytes) (get : ID → Bytes) (nodes : List Node)
    (depth top : Nat) : Prop where
  set : ∀ id hash, ⟨id, hash⟩ ∈ u.set ↔
    top < id.length ∧ id.length ≤ depth ∧ nodeAt combine get (given nodes) (depth - id.length) id = some hash
  roots : ∀ id hash, ⟨id, hash⟩ ∈ u.roots ↔
    id.length = top ∧ nodeAt combine get (given nodes) (depth - top) id = some hash
  once : u.roots.Nodup

-- NewHStar3 takes distinct nodes of one depth, in any order.
structure Prepared (nodes : List Node) (depth top : Nat) : Prop where
  below : top ≤ depth
  depths : ∀ n ∈ nodes, n.id.length = depth
  distinct : (nodes.map Node.id).Nodup

structure HStar3.Lawful (smt : HStar3) : Prop where
  new : ∀ nodes combine depth top, (∃ hs, smt.new nodes combine depth top = .ok hs) ↔ Prepared nodes depth top
  update : ∀ nodes combine depth top hs get, smt.new nodes combine depth top = .ok hs →
    ∃ u, smt.update hs get = .ok u ∧ u.Computes combine get nodes depth top

theorem given_mem {nodes : List Node} {id : ID} {hash : Bytes} (found : given nodes id = some hash) :
    ⟨id, hash⟩ ∈ nodes := by
  obtain ⟨n, first, rfl⟩ := Option.map_eq_some_iff.mp found
  have same : n.id = id := by simpa using List.find?_some first
  have member := List.mem_of_find?_eq_some first
  rwa [← same]

theorem given_eq_some {nodes : List Node} (distinct : (nodes.map Node.id).Nodup) {id : ID} {hash : Bytes} :
    given nodes id = some hash ↔ ⟨id, hash⟩ ∈ nodes := by
  constructor
  · exact given_mem
  · intro member
    cases found : given nodes id with
    | none =>
      have missing := List.find?_eq_none.mp (Option.map_eq_none_iff.mp found) _ member
      simp at missing
    | some other =>
      have same := List.inj_on_of_nodup_map distinct (given_mem found) member rfl
      rw [(Node.mk.inj same).2]

theorem given_eq_none {nodes : List Node} {id : ID} : given nodes id = none ↔ ∀ n ∈ nodes, n.id ≠ id := by
  simp [given]

-- Nodes under one node at the top lead to this node alone.
theorem given_isSome {nodes : List Node} {id : ID} : (given nodes id).isSome ↔ id ∈ nodes.map Node.id := by
  rw [Option.isSome_iff_ne_none, Ne, given_eq_none, List.mem_map]
  push Not
  rfl

theorem Updated.Computes.root {u : Updated} {combine : Bytes → Bytes → Bytes} {get : ID → Bytes} {nodes : List Node}
    {depth top : Nat} (computes : u.Computes combine get nodes depth top) (prepared : Prepared nodes depth top)
    (some' : nodes ≠ []) {id : ID} (at' : id.length = top) (under : ∀ n ∈ nodes, id <+: n.id) :
    ∃ hash, nodeAt combine get (given nodes) (depth - top) id = some hash ∧ u.roots = [⟨id, hash⟩] := by
  obtain ⟨n, member⟩ := List.exists_mem_of_ne_nil nodes some'
  obtain ⟨bits, below⟩ := under n member
  have length : bits.length = depth - top := by
    have whole := congrArg List.length below
    rw [List.length_append, prepared.depths n member] at whole
    omega
  have found : given nodes (id ++ bits) = some n.hash := by
    rw [below]
    exact (given_eq_some prepared.distinct).mpr member
  have there := @nodeAt_path _ combine get _ _ _ _ found
  rw [length] at there
  refine ⟨_, there, ?_⟩
  have only : ∀ m ∈ u.roots,
      m = ⟨id, pathRoot combine bits (siblingsOf combine get (given nodes) id bits) n.hash⟩ := by
    intro m root
    obtain ⟨short, hashed⟩ := (computes.roots m.id m.hash).mp root
    obtain ⟨more, hash, -, leaf⟩ := nodeAt_below hashed
    -- Both nodes are the start of one leaf.
    have start : id <+: m.id ++ more := under _ (given_mem leaf)
    have same : id = m.id := (List.prefix_of_prefix_length_le start (List.prefix_append _ _) (by omega)).eq_of_length
      (by omega)
    rw [← same, there] at hashed
    rw [Option.some.inj hashed, same]
  have listed := (computes.roots id _).mpr ⟨at', there⟩
  apply List.perm_singleton.mp
  apply (List.perm_ext_iff_of_nodup computes.once (List.nodup_singleton _)).mpr
  intro m
  rw [List.mem_singleton]
  exact ⟨only m, fun same => same ▸ listed⟩

section Reference

variable (combine : Bytes → Bytes → Bytes) (get : ID → Bytes)

def levelUp (nodes : List Node) : List Node :=
  (nodes.map fun n => n.id.dropLast).dedup.map fun id =>
    ⟨id, combine (hashAt combine get (given nodes) 0 (id ++ [false]))
      (hashAt combine get (given nodes) 0 (id ++ [true]))⟩

def climb : Nat → List Node → Updated
  | 0, nodes => ⟨[], nodes⟩
  | levels + 1, nodes =>
    let above := climb levels (levelUp combine get nodes)
    ⟨nodes ++ above.set, above.roots⟩

def HStar3.reference : HStar3 where
  Handle := List Node × (Bytes → Bytes → Bytes) × Nat
  new nodes combine depth top :=
    if depth < top then .error (.text "top > depth: %d vs. %d")
    else if nodes.all fun n => n.id.length = depth then
      if (nodes.map Node.id).Nodup then .ok (nodes, combine, depth - top) else .error (.text "duplicate ID: %v")
    else .error (.text "upd #%d: invalid depth %d, want %d")
  update := fun (nodes, combine, levels) get => .ok (climb combine get levels nodes)

variable {combine get}

theorem levelUp_distinct (nodes : List Node) : ((levelUp combine get nodes).map Node.id).Nodup := by
  rw [levelUp, List.map_map]
  simpa [Function.comp_def] using List.nodup_dedup (nodes.map fun n => n.id.dropLast)

theorem mem_levelUp {nodes : List Node} {n : Node} (member : n ∈ levelUp combine get nodes) :
    ∃ child ∈ nodes, n.id = child.id.dropLast := by
  obtain ⟨id, listed, rfl⟩ := List.mem_map.mp member
  obtain ⟨child, below, rfl⟩ := List.mem_map.mp (List.mem_dedup.mp listed)
  exact ⟨child, below, rfl⟩

theorem levelUp_given {nodes : List Node} (inner : ∀ n ∈ nodes, n.id ≠ []) :
    given (levelUp combine get nodes) = nodeAt combine get (given nodes) 1 := by
  funext id
  cases parent : nodeAt combine get (given nodes) 1 id with
  | none =>
    obtain ⟨left, right⟩ := nodeAt_eq_none.mp parent
    apply given_eq_none.mpr
    intro n member same
    obtain ⟨child, below, dropped⟩ := mem_levelUp member
    have ends := List.dropLast_concat_getLast (inner child below)
    rw [← dropped, same] at ends
    cases bit : child.id.getLast (inner child below)
    · exact given_eq_none.mp left child below (by rw [← ends, bit])
    · exact given_eq_none.mp right child below (by rw [← ends, bit])
  | some hash =>
    have listed : id ∈ (nodes.map fun n => n.id.dropLast).dedup := by
      by_contra missing
      have absent (bit : Bool) : nodeAt combine get (given nodes) 0 (id ++ [bit]) = none := by
        apply given_eq_none.mpr
        intro n member same
        exact missing (List.mem_dedup.mpr (List.mem_map.mpr ⟨n, member, by rw [same, List.dropLast_concat]⟩))
      rw [nodeAt_eq_none.mpr ⟨absent false, absent true⟩] at parent
      cases parent
    rw [given_eq_some (levelUp_distinct nodes), nodeAt_some parent]
    exact List.mem_map.mpr ⟨id, listed, rfl⟩

theorem levelUp_prepared {nodes : List Node} {depth top : Nat} (prepared : Prepared nodes (depth + 1) top)
    (below : top ≤ depth) : Prepared (levelUp combine get nodes) depth top where
  below := below
  depths n member := by
    obtain ⟨child, there, dropped⟩ := mem_levelUp member
    simp [dropped, prepared.depths child there]
  distinct := levelUp_distinct nodes

theorem climb_computes {nodes : List Node} {levels top : Nat} (prepared : Prepared nodes (top + levels) top) :
    (climb combine get levels nodes).Computes combine get nodes (top + levels) top := by
  induction levels generalizing nodes with
  | zero =>
    refine ⟨?_, ?_, prepared.distinct.of_map⟩
    · intro id hash
      simp only [climb, List.not_mem_nil, false_iff]
      omega
    · intro id hash
      simp only [climb, Nat.add_zero, Nat.sub_self, nodeAt, given_eq_some prepared.distinct]
      exact ⟨fun member => ⟨prepared.depths _ member, member⟩, And.right⟩
  | succ levels ih =>
    have inner : ∀ n ∈ nodes, n.id ≠ [] := by
      intro n member none
      have length := prepared.depths n member
      rw [none, List.length_nil] at length
      omega
    have higher := ih (@levelUp_prepared combine get nodes _ top prepared (by omega))
    -- The level above is computed from these nodes.
    have lift (h : Nat) (id : ID) : nodeAt combine get (given (levelUp combine get nodes)) h id =
        nodeAt combine get (given nodes) (h + 1) id := by
      rw [levelUp_given inner, nodeAt_strata]
    refine ⟨?_, ?_, higher.once⟩
    · intro id hash
      simp only [climb, List.mem_append, higher.set, lift]
      by_cases lowest : id.length = top + (levels + 1)
      · simp only [lowest, Nat.sub_self, nodeAt, given_eq_some prepared.distinct,
          show top < top + (levels + 1) by omega, show ¬ top + (levels + 1) ≤ top + levels by omega,
          Nat.le_refl, true_and,
          false_and, or_false]
      · have absent : (⟨id, hash⟩ : Node) ∉ nodes := fun member => lowest (prepared.depths _ member)
        by_cases inside : id.length ≤ top + levels
        · have step : top + levels - id.length + 1 = top + (levels + 1) - id.length := by omega
          simp only [absent, false_or, step, inside, show id.length ≤ top + (levels + 1) by omega]
        · simp only [absent, false_or, inside, show ¬ id.length ≤ top + (levels + 1) by omega, false_and, and_false]
    · intro id hash
      have step : top + levels - top + 1 = top + (levels + 1) - top := by omega
      simp only [climb, higher.roots, lift, step]

theorem reference_new {nodes : List Node} {depth top : Nat} {hs : HStar3.reference.Handle} :
    HStar3.reference.new nodes combine depth top = .ok hs ↔
      Prepared nodes depth top ∧ hs = (nodes, combine, depth - top) := by
  simp only [HStar3.reference]
  constructor
  · intro ready
    split at ready
    next => cases ready
    next below =>
      split at ready
      next depths =>
        split at ready
        next distinct => exact ⟨⟨by omega, by simpa using depths, distinct⟩, (Except.ok.inj ready).symm⟩
        next => cases ready
      next => cases ready
  · rintro ⟨prepared, rfl⟩
    have depths : (nodes.all fun n => n.id.length = depth) = true := by simpa using prepared.depths
    rw [if_neg (Nat.not_lt.mpr prepared.below), if_pos depths, if_pos prepared.distinct]

theorem reference_lawful : HStar3.reference.Lawful where
  new nodes combine depth top :=
    ⟨fun ⟨_, ready⟩ => (reference_new.mp ready).1, fun prepared => ⟨_, reference_new.mpr ⟨prepared, rfl⟩⟩⟩
  update nodes combine depth top hs get ready := by
    obtain ⟨prepared, rfl⟩ := reference_new.mp ready
    obtain ⟨levels, rfl⟩ := Nat.exists_eq_add_of_le prepared.below
    refine ⟨_, rfl, ?_⟩
    rw [Nat.add_sub_cancel_left]
    exact climb_computes prepared

end Reference

end Smt
