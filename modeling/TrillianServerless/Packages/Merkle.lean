import TrillianServerless.Shared.Text
import TrillianServerless.Shared.TreeBinding

set_option autoImplicit false

namespace Merkle

open Go

/-- merkle.LogHasher with SHA-256 sized hashes. -/
structure LogHasher where
  emptyRoot : Bytes
  hashLeaf : Bytes → Bytes
  hashChildren : Bytes → Bytes → Bytes
  leafSize : ∀ entry, (hashLeaf entry).length = 32
  childSize : ∀ left right, (hashChildren left right).length = 32

namespace LogHasher

variable (h : LogHasher)

def leafOf (entries : List Bytes) (i : Nat) : Bytes := h.hashLeaf (entries.getD i [])

-- The hash of a complete node of the tree over `entries`, and the tree's root.
def logNode (entries : List Bytes) (id : NodeID) : Bytes :=
  nodeHash h.hashChildren (h.leafOf entries) id

def logRoot (entries : List Bytes) : Bytes :=
  treeHash h.hashChildren h.emptyRoot (entries.map h.hashLeaf)

theorem leafOf_getElem (entries : List Bytes) (i : Nat) (bound : i < (entries.map h.hashLeaf).length) :
    h.leafOf entries i = (entries.map h.hashLeaf)[i] := by
  have inside : i < entries.length := by simpa using bound
  simp [leafOf, inside]

theorem segment_leafOf (entries : List Bytes) (n : Nat) (bound : n ≤ entries.length) :
    segment (h.leafOf entries) 0 n = (entries.take n).map h.hashLeaf := by
  apply List.ext_getElem
  · simp [segment, bound]
  · intro i lower upper
    have inside : i < entries.length := by simp at upper; omega
    simp [segment, leafOf, inside]

theorem rangeRoot_logNode (entries : List Bytes) (empty : Bytes) :
    rangeRoot h.hashChildren empty ((cover 0 entries.length).map (h.logNode entries)) =
      treeHash h.hashChildren empty (entries.map h.hashLeaf) := by
  have root := rangeRoot_cover h.hashChildren (h.leafOf entries) empty (entries.map h.hashLeaf)
    (h.leafOf_getElem entries)
  rwa [List.length_map] at root

theorem logNode_append (entries more : List Bytes) {id : NodeID} (inside : id.stop ≤ entries.length) :
    h.logNode (entries ++ more) id = h.logNode entries id := by
  refine nodeHash_congr h.hashChildren inside fun j bound => ?_
  simp [leafOf, List.getElem?_append_left bound]

theorem logNode_length (entries : List Bytes) (id : NodeID) : (h.logNode entries id).length = 32 := by
  obtain ⟨level, index⟩ := id
  cases level with
  | zero => exact h.leafSize _
  | succ level => exact h.childSize _ _

theorem logNode_ne_nil (entries : List Bytes) (id : NodeID) : h.logNode entries id ≠ [] :=
  List.ne_nil_of_length_pos (by rw [h.logNode_length entries id]; decide)

def fit (bytes : Bytes) : Bytes := (bytes ++ List.replicate 32 0).take 32

theorem fit_length (bytes : Bytes) : (fit bytes).length = 32 := by
  simp [fit]

-- A hasher that can be evaluated: inputs are cut to size.
def padded : LogHasher where
  emptyRoot := fit []
  hashLeaf entry := fit (0 :: entry)
  hashChildren left right := fit (1 :: (left.take 15 ++ right.take 16))
  leafSize _ := fit_length _
  childSize _ _ := fit_length _

def numbered (kind : UInt8) (listed : List Bytes) (bytes : Bytes) : Bytes :=
  fit [kind, UInt8.ofNat (listed.idxOf bytes)]

-- A hasher that tells the listed strings apart and hashes all others alike.
def listing (leaves nodes : List Bytes) : LogHasher where
  emptyRoot := fit []
  hashLeaf entry := numbered 1 leaves entry
  hashChildren left right := numbered 2 nodes (left ++ right)
  leafSize _ := fit_length _
  childSize _ _ := fit_length _

theorem numbered_injective {kind : UInt8} {listed : List Bytes} (few : listed.length < 256)
    {bytes other : Bytes} (member : bytes ∈ listed)
    (same : numbered kind listed other = numbered kind listed bytes) : other = bytes := by
  have inside := List.idxOf_lt_length_of_mem member
  have bounded := listed.idxOf_le_length (a := other)
  have index : UInt8.ofNat (listed.idxOf other) = UInt8.ofNat (listed.idxOf bytes) := by
    simpa [numbered, fit] using same
  have number := congrArg UInt8.toNat index
  have size : UInt8.size = 256 := rfl
  rw [UInt8.toNat_ofNat_of_lt' (by omega), UInt8.toNat_ofNat_of_lt' (by omega)] at number
  exact ((List.idxOf_inj member).mp number.symm).symm

end LogHasher

end Merkle

namespace Checkpoints

open Go

-- log.Checkpoint of transparency-dev/formats.
structure Checkpoint where
  origin : String
  size : Nat
  hash : Bytes
  deriving DecidableEq, Repr

def asciiBytes (s : String) : Bytes := s.toList.map fun c => UInt8.ofNat c.toNat

end Checkpoints

namespace ProofPackage

open Go Merkle

/-- Package proof of transparency-dev/merkle. -/
structure Package where
  Nodes : Type
  inclusion : Nat → Nat → Except GoError Nodes
  consistency : Nat → Nat → Except GoError Nodes
  ids : Nodes → List NodeID
  rehash : Nodes → List Bytes → (Bytes → Bytes → Bytes) → Except GoError (List Bytes)
  verifyInclusion : LogHasher → Nat → Nat → Bytes → List Bytes → Bytes → Except GoError Unit
  verifyConsistency : LogHasher → Nat → Nat → List Bytes → Bytes → Bytes → Except GoError Unit

-- The nodes listed for a proof are complete ones, and rehashing their true hashes gives a proof that
-- the verifier accepts.
structure Lawful (pkg : Package) : Prop where
  inclusion : ∀ (h : LogHasher) (entries : List Bytes) (i : Nat), i < entries.length →
    ∃ nodes proof, pkg.inclusion i entries.length = .ok nodes ∧
      (∀ id ∈ pkg.ids nodes, id.Within 0 entries.length) ∧
      pkg.rehash nodes ((pkg.ids nodes).map (h.logNode entries)) h.hashChildren = .ok proof ∧
      pkg.verifyInclusion h i entries.length (h.leafOf entries i) proof (h.logRoot entries) = .ok ()
  consistency : ∀ (h : LogHasher) (entries : List Bytes) (s l : Nat), 0 < s → s ≤ l →
    l ≤ entries.length →
    ∃ nodes proof, pkg.consistency s l = .ok nodes ∧
      (∀ id ∈ pkg.ids nodes, id.Within 0 l) ∧
      pkg.rehash nodes ((pkg.ids nodes).map (h.logNode entries)) h.hashChildren = .ok proof ∧
      pkg.verifyConsistency h s l proof (h.logRoot (entries.take s)) (h.logRoot (entries.take l)) =
        .ok ()

/-- VerifyInclusion accepts the root that RFC 6962 computes along the path from the leaf. -/
def Package.ChecksInclusion (pkg : Package) : Prop :=
  ∀ (h : LogHasher) (i n : Nat) (leafHash : Bytes) (proof : List Bytes) (root : Bytes),
    pkg.verifyInclusion h i n leafHash proof root = .ok () →
      i < n ∧ inclusionRoot h.hashChildren n n i leafHash proof.reverse = some root

/-- VerifyConsistency accepts no smaller tree, and one of the same size only with the same root. -/
def Package.ChecksSizes (pkg : Package) : Prop :=
  ∀ (h : LogHasher) (s l : Nat) (proof : List Bytes) (root1 root2 : Bytes),
    pkg.verifyConsistency h s l proof root1 root2 = .ok () → s ≤ l ∧ (s = l → root1 = root2)

def regroup : List (List NodeID) → List Bytes → List (List Bytes)
  | [], _ => []
  | group :: groups, hashes => hashes.take group.length :: regroup groups (hashes.drop group.length)

theorem regroup_map (v : NodeID → Bytes) (groups : List (List NodeID)) :
    regroup groups (groups.flatten.map v) = groups.map (List.map v) := by
  induction groups with
  | nil => rfl
  | cons group groups ih =>
    rw [List.flatten_cons, List.map_append, regroup, List.take_left' (by simp),
      List.drop_left' (by simp), ih, List.map_cons]

def reference : Package where
  Nodes := List (List NodeID)
  inclusion i n :=
    if i < n then .ok ((inclusionSpans n 0 n i).reverse.map Span.nodes)
    else .error (.text "index %d out of bounds for tree size %d")
  consistency s l :=
    if l < s then .error (.text "tree size %d > %d")
    else if s = 0 ∨ s = l then .ok []
    else .ok ((consistencySpans l 0 l s true).reverse.map Span.nodes)
  ids := List.flatten
  rehash groups hashes hash :=
    if hashes.length = groups.flatten.length then .ok ((regroup groups hashes).map (rangeRoot hash []))
    else .error (.text "got %d hashes but expected %d")
  verifyInclusion h i n leafHash proof root :=
    if i < n ∧ inclusionRoot h.hashChildren n n i leafHash proof.reverse = some root then .ok ()
    else .error (.text "calculated root does not match expected root")
  verifyConsistency h s l proof root1 root2 :=
    if l < s then .error (.text "size2 (%d) < size1 (%d)")
    else if s = l then
      if proof = [] ∧ root1 = root2 then .ok () else .error (.text "root hashes do not match")
    else if s = 0 then
      if proof = [] then .ok () else .error (.text "expected empty proof")
    else if consistencyRoots h.hashChildren root1 l l s true proof.reverse = some (root1, root2) then
      .ok ()
    else .error (.text "calculated root does not match expected root")

section Reference

variable (h : LogHasher) (entries : List Bytes)

theorem rehash_spans (spans : List Span) (aligned : ∀ s ∈ spans, s.Aligned) :
    reference.rehash (spans.map Span.nodes)
        ((reference.ids (spans.map Span.nodes)).map (h.logNode entries)) h.hashChildren =
      .ok (spans.map (spanHash h.hashChildren (h.leafOf entries) [])) := by
  simp only [reference]
  rw [if_pos (List.length_map _), regroup_map, List.map_map, List.map_map]
  refine congrArg _ (List.map_congr_left fun s member => ?_)
  exact (aligned s member).rangeRoot h.hashChildren (h.leafOf entries) []

theorem spanHash_root {n : Nat} (positive : 0 < n) (bound : n ≤ entries.length) :
    spanHash h.hashChildren (h.leafOf entries) [] ⟨0, n⟩ = h.logRoot (entries.take n) := by
  rw [spanHash, h.segment_leafOf entries n bound, LogHasher.logRoot]
  apply treeHash_empty
  simp only [List.length_map, List.length_take]
  omega

theorem ids_spans {spans : List Span} {n : Nat}
    (inside : ∀ s ∈ spans, s.Aligned ∧ 0 ≤ s.start ∧ s.start + s.count ≤ 0 + n) :
    ∀ id ∈ reference.ids (spans.map Span.nodes), id.Within 0 n := by
  simp only [reference, List.mem_flatten, List.mem_map]
  rintro id ⟨_, ⟨s, member, rfl⟩, covered⟩
  have within := ((mem_cover_iff _ _ id).mp covered).1
  have bound := (inside s member).2.2
  exact ⟨Nat.zero_le _, by have := within.2; omega⟩

theorem reference_lawful : Lawful reference where
  inclusion h entries i bound := by
    have power : entries.length ≤ 2 ^ entries.length := Nat.le_of_lt Nat.lt_two_pow_self
    have inside := inclusionSpans_inside _ 0 _ i power bound (Nat.dvd_zero _)
    have root := inclusionRoot_spans h.hashChildren (h.leafOf entries) [] _ 0 _ i power bound
    have aligned : ∀ s ∈ (inclusionSpans entries.length 0 entries.length i).reverse, s.Aligned :=
      fun s member => (inside s (List.mem_reverse.mp member)).1
    refine ⟨_, _, if_pos bound, ids_spans fun s member => inside s (List.mem_reverse.mp member),
      rehash_spans h entries _ aligned, ?_⟩
    simp only [reference]
    rw [spanHash_root h entries (by omega) (Nat.le_refl _), List.take_length, Nat.zero_add] at root
    rw [if_pos ⟨bound, by rwa [List.map_reverse, List.reverse_reverse]⟩]
  consistency h entries s l positive order bound := by
    by_cases same : s = l
    · subst same
      refine ⟨[], [], ?_, by simp [reference], ?_, ?_⟩ <;> simp [reference, regroup]
    have power : l ≤ 2 ^ l := Nat.le_of_lt Nat.lt_two_pow_self
    have inside := consistencySpans_inside l 0 l s true power positive order (Nat.dvd_zero _)
    have oldRoot := spanHash_root h entries positive (Nat.le_trans order bound)
    have roots := consistencyRoots_spans h.hashChildren (h.leafOf entries) []
      (h.logRoot (entries.take s)) l 0 l s true power positive order fun _ => oldRoot.symm
    have aligned : ∀ span ∈ (consistencySpans l 0 l s true).reverse, span.Aligned :=
      fun span member => (inside span (List.mem_reverse.mp member)).1
    have listed : reference.consistency s l =
        .ok ((consistencySpans l 0 l s true).reverse.map Span.nodes) := by
      simp [reference, same, Nat.not_lt.mpr order, Nat.pos_iff_ne_zero.mp positive]
    refine ⟨_, _, listed, ids_spans fun span member => inside span (List.mem_reverse.mp member),
      rehash_spans h entries _ aligned, ?_⟩
    rw [oldRoot, spanHash_root h entries (by omega) bound] at roots
    simp only [reference, if_neg (Nat.not_lt.mpr order), if_neg same,
      if_neg (Nat.pos_iff_ne_zero.mp positive)]
    rw [if_pos (by rwa [List.map_reverse, List.reverse_reverse])]

theorem reference_checksInclusion : reference.ChecksInclusion := by
  intro h i n leafHash proof root accepted
  simp only [reference] at accepted
  split at accepted
  next checked => exact checked
  next => cases accepted

theorem reference_checksSizes : reference.ChecksSizes := by
  intro h s l proof root1 root2 accepted
  simp only [reference] at accepted
  split at accepted
  next => cases accepted
  next order =>
    refine ⟨Nat.not_lt.mp order, fun same => ?_⟩
    rw [if_pos same] at accepted
    split at accepted
    next equal => exact equal.2
    next => cases accepted

end Reference

end ProofPackage

namespace Merkle.LogHasher

open Go

variable {h : LogHasher}

/-- No other entry has the hash of an entry, and no other string that of a subtree over entries. -/
structure Binds (h : LogHasher) (entries : List Bytes) : Prop where
  leaves : ∀ entry ∈ entries, ∀ other, h.hashLeaf other = h.hashLeaf entry → other = entry
  nodes : Merkle.Binding h.hashChildren (h.leafOf entries) entries.length

theorem sized (h : LogHasher) (entries : List Bytes) :
    Sized h.hashChildren (h.leafOf entries) 32 :=
  ⟨fun _ => h.leafSize _, h.childSize⟩

theorem logRoot_take (h : LogHasher) (entries : List Bytes) {n : Nat} (positive : 0 < n)
    (bound : n ≤ entries.length) :
    h.logRoot (entries.take n) = spanHash h.hashChildren (h.leafOf entries) [] ⟨0, n⟩ :=
  (ProofPackage.spanHash_root h entries positive bound).symm

theorem rangeRoot_take (h : LogHasher) (entries : List Bytes) {n : Nat} (positive : 0 < n)
    (bound : n ≤ entries.length) :
    rangeRoot h.hashChildren [] ((cover 0 n).map (h.logNode entries)) =
      h.logRoot (entries.take n) := by
  have root := rangeRoot_cover_aligned h.hashChildren (h.leafOf entries) [] n 0 n (Nat.dvd_zero _)
    positive (Nat.le_of_lt Nat.lt_two_pow_self)
  rw [Nat.zero_add] at root
  rw [h.logRoot_take entries positive bound]
  exact root

theorem Binds.isPrefix_of_leaves {entries others : List Bytes} (binds : h.Binds entries)
    (bound : others.length ≤ entries.length)
    (leaves : ∀ i < others.length, h.leafOf others i = h.leafOf entries i) : others <+: entries := by
  rw [List.prefix_iff_eq_take]
  apply List.ext_getElem
  · simp [bound]
  · intro i inside _
    have known : i < entries.length := by omega
    rw [List.getElem_take]
    refine binds.leaves _ (List.getElem_mem _) _ ?_
    simpa [leafOf, inside, known] using leaves i inside

/-- Logs of which one root is that of a prefix of the other's entries agree on that prefix. -/
theorem Binds.isPrefix {entries others : List Bytes} (binds : h.Binds entries)
    (bound : others.length ≤ entries.length) (positive : 0 < others.length)
    (same : h.logRoot others = h.logRoot (entries.take others.length)) : others <+: entries := by
  have root := h.logRoot_take others positive (Nat.le_refl _)
  rw [List.take_length, same, h.logRoot_take entries positive bound] at root
  have leaves := spanHash_injective (h.sized entries) binds.nodes (h.sized others) (by omega) root.symm
  exact binds.isPrefix_of_leaves bound fun i inside => leaves i (Nat.zero_le _) (by omega)

/-- A leaf hash that is proven to be at a place of a log is that of the entry there. -/
theorem Binds.included {pkg : ProofPackage.Package} (checks : pkg.ChecksInclusion) {entries : List Bytes}
    (binds : h.Binds entries) {i n : Nat} {entry : Bytes} {proof : List Bytes} (length : entries.length = n)
    (accepted : pkg.verifyInclusion h i n (h.hashLeaf entry) proof (h.logRoot entries) = .ok ()) :
    ∃ inside : i < entries.length, entry = entries[i] := by
  subst length
  obtain ⟨inside, path⟩ := checks h i _ _ _ _ accepted
  have root := h.logRoot_take entries (n := entries.length) (by omega) (Nat.le_refl _)
  rw [List.take_length] at root
  rw [root] at path
  have leaf := inclusionRoot_binds (h.sized entries) binds.nodes (h.leafSize entry) (Nat.le_of_lt Nat.lt_two_pow_self)
    inside (by omega) path
  refine ⟨inside, binds.leaves _ (List.getElem_mem _) _ ?_⟩
  simpa [leafOf, inside] using leaf

-- It is enough that the entries are listed, and with every span of them its two halves.
theorem listing_binds_of {leaves nodes entries : List Bytes} (few : leaves.length < 256) (few' : nodes.length < 256)
    (listed : ∀ entry ∈ entries, entry ∈ leaves)
    (spans : ∀ s c, 1 < c → s + c ≤ entries.length →
      spanHash (listing leaves nodes).hashChildren ((listing leaves nodes).leafOf entries) [] ⟨s, splitPoint c⟩ ++
        spanHash (listing leaves nodes).hashChildren ((listing leaves nodes).leafOf entries) []
          ⟨s + splitPoint c, c - splitPoint c⟩ ∈ nodes) : (listing leaves nodes).Binds entries where
  leaves entry member other same := numbered_injective few (listed entry member) same
  nodes s c several inside x y same := by
    have upper : c ≤ 2 ^ (Nat.log 2 (c - 1) + 1) := by
      have := Nat.lt_pow_succ_log_self (by decide : 1 < 2) (c - 1)
      omega
    have root := same.trans (treeHash_segment _ _ _ _ (splitPoint_lt several) upper)
    exact numbered_injective few' (spans s c several inside) root

-- For two of them that is their pair.
theorem listing_binds {leaves nodes : List Bytes} (few : leaves.length < 256) (few' : nodes.length < 256)
    {a b : Bytes}
    (first : a ∈ leaves) (second : b ∈ leaves) (pair : numbered 1 leaves a ++ numbered 1 leaves b ∈ nodes)
    {entries : List Bytes} (front : entries <+: [a, b]) : (listing leaves nodes).Binds entries := by
  refine listing_binds_of few few' (fun entry member => ?_) fun s c several inside => ?_
  · rcases List.mem_pair.mp (front.subset member) with rfl | rfl
    · exact first
    · exact second
  · have length := front.length_le
    simp at length
    obtain rfl : s = 0 := by omega
    obtain rfl : c = 2 := by omega
    obtain rfl : entries = [a, b] := front.eq_of_length (by simp; omega)
    have split : splitPoint 2 = 2 ^ 0 := by decide
    have left : spanHash (listing leaves nodes).hashChildren ((listing leaves nodes).leafOf [a, b]) [] ⟨0, 2 ^ 0⟩ =
        numbered 1 leaves a := treeHash_single _ _ _
    have right : spanHash (listing leaves nodes).hashChildren ((listing leaves nodes).leafOf [a, b]) []
        ⟨0 + 2 ^ 0, 2 - 2 ^ 0⟩ = numbered 1 leaves b := treeHash_single _ _ _
    rw [split, left, right]
    exact pair

end Merkle.LogHasher

namespace ProofPackage

open Go Merkle

/-- VerifyConsistency accepts the roots of two logs without collisions only if the one starts the other. -/
def Package.SoundConsistency (pkg : Package) : Prop :=
  ∀ (h : LogHasher) (old new : List Bytes) (proof : List Bytes), h.Binds old → h.Binds new → 0 < old.length →
    pkg.verifyConsistency h old.length new.length proof (h.logRoot old) (h.logRoot new) = .ok () → old <+: new

theorem reference_soundConsistency : reference.SoundConsistency := by
  intro h old new proof binds binds' positive accepted
  simp only [reference] at accepted
  split at accepted
  next => cases accepted
  next order =>
    have order := Nat.le_of_not_lt order
    split at accepted
    next same =>
      split at accepted
      next equal => exact binds'.isPrefix order positive (by rw [same, List.take_length]; exact equal.2)
      next => cases accepted
    next less =>
      rw [if_neg (by omega)] at accepted
      split at accepted
      next found =>
        have root := h.logRoot_take old positive (Nat.le_refl _)
        have root' := h.logRoot_take new (Nat.lt_of_lt_of_le positive order) (Nat.le_refl _)
        rw [List.take_length] at root root'
        rw [root, root'] at found
        have leaves := consistencyRoots_binds (h.sized new) binds'.nodes binds.nodes (h.sized old)
          (Nat.le_of_lt Nat.lt_two_pow_self) positive order (by omega) (by omega) found
        exact binds'.isPrefix_of_leaves order fun i inside => leaves i (Nat.zero_le _) (by omega)
      next => cases accepted

end ProofPackage
