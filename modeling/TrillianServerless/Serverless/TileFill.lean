import TrillianServerless.Serverless.Ranges

set_option autoImplicit false

namespace Serverless

open Go Merkle

namespace Tile

theorem setNode_slot (t : Tile) (id : NodeID) (hash : Bytes) (s : Nat) :
    (t.setNode id hash).nodes[s]? =
      if s = slotOf id then some (some hash)
      else if s < t.nodes.length then t.nodes[s]?
      else if s ≤ slotOf id then some none else none := by
  have slot : tileNodeKey (nodeCoordsToTileAddress id.level id.index).nodeLevel
      (nodeCoordsToTileAddress id.level id.index).nodeIndex = slotOf id := rfl
  simp only [setNode, slot]
  by_cases here : s = slotOf id
  · subst here
    rw [List.getElem?_set_self (by simp; omega), if_pos rfl]
  · rw [List.getElem?_set_ne (fun same => here same.symm), if_neg here, List.getElem?_append]
    by_cases inside : s < t.nodes.length
    · rw [if_pos inside, if_pos inside]
    · rw [if_neg inside, if_neg inside, List.getElem?_replicate]
      congr 1
      exact propext ⟨fun _ => by omega, fun _ => by omega⟩

theorem setNode_length (t : Tile) (id : NodeID) (hash : Bytes) :
    (t.setNode id hash).nodes.length = max t.nodes.length (slotOf id + 1) := by
  have slot : tileNodeKey (nodeCoordsToTileAddress id.level id.index).nodeLevel
      (nodeCoordsToTileAddress id.level id.index).nodeIndex = slotOf id := rfl
  simp only [setNode, slot, List.length_set, List.length_append, List.length_replicate]
  omega

theorem setNode_numLeaves (t : Tile) (id : NodeID) (hash : Bytes) :
    (t.setNode id hash).numLeaves =
      if id.level % 8 = 0 then max t.numLeaves (tileStop id) else t.numLeaves := by
  simp only [setNode, nodeCoordsToTileAddress, tileStop]
  by_cases leaf : id.level % 8 = 0
  · simp only [leaf, true_and, if_true, Nat.sub_zero, pow_zero, Nat.mul_one]
    split <;> omega
  · simp [leaf]

theorem endsFilled_iff (t : Tile) :
    t.EndsFilled ↔ ∀ node, t.nodes[t.nodes.length - 1]? = some node → node.getD [] ≠ [] := by
  simp [EndsFilled, List.getLast?_eq_getElem?]

theorem setNode_endsFilled {t : Tile} (ends : t.EndsFilled) (id : NodeID) {hash : Bytes}
    (filled : hash ≠ []) : (t.setNode id hash).EndsFilled := by
  rw [endsFilled_iff] at ends ⊢
  intro node last
  rw [setNode_length, setNode_slot] at last
  split at last
  · obtain rfl := Option.some.inj last
    exact filled
  · split at last
    next inside =>
      rw [show max t.nodes.length (slotOf id + 1) - 1 = t.nodes.length - 1 by omega] at last
      exact ends node last
    next here outside => omega

theorem fresh_endsFilled : Tile.fresh.EndsFilled := by
  intro node last
  simp [fresh] at last

def fill (t : Tile) (visits : List Compact.Visit) : Tile :=
  visits.foldl (fun t node => t.setNode node.1 node.2) t

@[simp] theorem fill_nil (t : Tile) : t.fill [] = t := rfl

@[simp] theorem fill_cons (t : Tile) (node : Compact.Visit) (rest : List Compact.Visit) :
    t.fill (node :: rest) = (t.setNode node.1 node.2).fill rest := rfl

theorem fill_endsFilled {t : Tile} (ends : t.EndsFilled) {visits : List Compact.Visit}
    (filled : ∀ node ∈ visits, node.2 ≠ []) : (t.fill visits).EndsFilled := by
  induction visits generalizing t with
  | nil => exact ends
  | cons node rest ih =>
    exact ih (setNode_endsFilled ends node.1 (filled node (by simp)))
      fun other member => filled other (by simp [member])

-- A slot that is not visited keeps its node, or is an absent one between the others.
theorem fill_other (t : Tile) {visits : List Compact.Visit} {s : Nat}
    (apart : ∀ node ∈ visits, slotOf node.1 ≠ s) :
    (t.fill visits).nodes[s]? = t.nodes[s]? ∨
      (t.nodes[s]? = none ∧ (t.fill visits).nodes[s]? = some none) := by
  induction visits generalizing t with
  | nil => exact Or.inl rfl
  | cons node rest ih =>
    have here : s ≠ slotOf node.1 := fun same => apart node (by simp) same.symm
    have set := setNode_slot t node.1 node.2 s
    rw [if_neg here] at set
    rcases ih (t.setNode node.1 node.2) fun other member => apart other (by simp [member]) with
      same | ⟨missing, filled⟩
    · rw [fill_cons, same, set]
      split
      · exact Or.inl rfl
      next outside =>
        have absent : t.nodes[s]? = none := List.getElem?_eq_none (by omega)
        split
        · exact Or.inr ⟨absent, rfl⟩
        · exact Or.inl absent.symm
    · rw [set] at missing
      split at missing
      next inside => exact absurd missing (by simp [inside])
      next outside => exact Or.inr ⟨List.getElem?_eq_none (by omega), filled⟩

theorem fill_visited (t : Tile) {visits : List Compact.Visit} {node : Compact.Visit}
    (member : node ∈ visits) (distinct : (visits.map fun node => slotOf node.1).Nodup) :
    (t.fill visits).nodes[slotOf node.1]? = some (some node.2) := by
  induction visits generalizing t with
  | nil => simp at member
  | cons first rest ih =>
    rw [List.map_cons, List.nodup_cons] at distinct
    rcases List.mem_cons.mp member with rfl | later
    · have apart : ∀ other ∈ rest, slotOf other.1 ≠ slotOf node.1 := fun other member same =>
        distinct.1 (List.mem_map.mpr ⟨other, member, same⟩)
      have set := setNode_slot t node.1 node.2 (slotOf node.1)
      rw [if_pos rfl] at set
      rcases fill_other (t.setNode node.1 node.2) apart with same | ⟨missing, _⟩
      · rw [fill_cons, same, set]
      · rw [set] at missing
        cases missing
    · exact ih _ later distinct.2

theorem fill_length (t : Tile) {visits : List Compact.Visit} {count : Nat}
    (base : t.nodes.length ≤ count) (slots : ∀ node ∈ visits, slotOf node.1 < count)
    (reached : t.nodes.length = count ∨ ∃ node ∈ visits, slotOf node.1 + 1 = count) :
    (t.fill visits).nodes.length = count := by
  induction visits generalizing t with
  | nil =>
    rcases reached with same | ⟨node, member, _⟩
    · exact same
    · simp at member
  | cons first rest ih =>
    have length := setNode_length t first.1 first.2
    have slot := slots first (by simp)
    refine ih (t.setNode first.1 first.2) (by omega) (fun node member => slots node (by simp [member])) ?_
    rcases reached with same | ⟨node, member, last⟩
    · exact Or.inl (by omega)
    · rcases List.mem_cons.mp member with rfl | later
      · exact Or.inl (by omega)
      · exact Or.inr ⟨node, later, last⟩

theorem fill_numLeaves (t : Tile) {visits : List Compact.Visit} {count : Nat}
    (base : t.numLeaves ≤ count) (stops : ∀ node ∈ visits, tileStop node.1 ≤ count)
    (reached : t.numLeaves = count ∨
      ∃ node ∈ visits, node.1.level % 8 = 0 ∧ tileStop node.1 = count) :
    (t.fill visits).numLeaves = count := by
  induction visits generalizing t with
  | nil =>
    rcases reached with same | ⟨node, member, _⟩
    · exact same
    · simp at member
  | cons first rest ih =>
    have leaves := setNode_numLeaves t first.1 first.2
    have stop := stops first (by simp)
    have bounded : (t.setNode first.1 first.2).numLeaves ≤ count := by
      rw [leaves]
      split <;> omega
    refine ih (t.setNode first.1 first.2) bounded (fun node member => stops node (by simp [member])) ?_
    rcases reached with same | ⟨node, member, level, last⟩
    · left
      rw [leaves]
      split <;> omega
    · rcases List.mem_cons.mp member with rfl | later
      · left
        rw [leaves, if_pos level]
        omega
      · exact Or.inr ⟨node, later, level, last⟩

end Tile

section Contents

variable (v : NodeID → Bytes) (key : TileKey)

/-- The tile has every node that its first `count` leaves complete. -/
def Tile.HasNodes (count : Nat) (t : Tile) : Prop :=
  ∀ id, tileOf id = key → tileStop id ≤ count → t.nodes[slotOf id]? = some (some (v id))

/-- The tile as Integrate makes it: these nodes and no others. -/
structure Tile.Holds (count : Nat) (t : Tile) : Prop where
  numLeaves : t.numLeaves = count
  length : t.nodes.length = 2 * count - 1
  hasNodes : t.HasNodes v key count
  noMore : ∀ s node, t.nodes[s]? = some node → node.getD [] ≠ [] →
    ∃ id, tileOf id = key ∧ tileStop id ≤ count ∧ slotOf id = s

def tileLeaf (j : Nat) : NodeID := ⟨8 * key.1, 256 * key.2 + j⟩

variable {v key}

variable (key) in
theorem tileLeaf_facts {j : Nat} (bound : j < 256) :
    tileOf (tileLeaf key j) = key ∧ tileStop (tileLeaf key j) = j + 1 ∧
      slotOf (tileLeaf key j) = 2 * j := by
  have level : 8 * key.1 % 8 = 0 := Nat.mul_mod_right 8 key.1
  have quotient : (256 * key.2 + j) / 256 = key.2 := by omega
  have remainder : (256 * key.2 + j) % 256 = j := by omega
  refine ⟨?_, ?_, ?_⟩
  · simp [tileOf, nodeCoordsToTileAddress, tileLeaf, level, quotient]
  · simp [tileStop, tileLeaf, level, remainder]
  · simp [slotOf, nodeCoordsToTileAddress, tileNodeKey, tileLeaf, level, remainder]

theorem Tile.HasNodes.readBack {count : Nat} {t : Tile} (has : t.HasNodes v key count) :
    t.readBack.HasNodes v key count := by
  intro id tile inside
  simp [Tile.readBack, has id tile inside]

theorem Tile.Holds.readBack {count : Nat} {t : Tile} (holds : t.Holds v key count) :
    t.readBack.Holds v key count where
  numLeaves := holds.numLeaves
  length := by simp [Tile.readBack, holds.length]
  hasNodes := holds.hasNodes.readBack
  noMore s node found filled := by
    simp only [Tile.readBack, List.getElem?_map, Option.map_eq_some_iff] at found
    obtain ⟨original, at', rfl⟩ := found
    exact holds.noMore s original at' filled

theorem Tile.fresh_holds : Tile.fresh.Holds v key 0 where
  numLeaves := rfl
  length := rfl
  hasNodes id _ inside := by
    have positive : 0 < tileStop id := Nat.mul_pos (Nat.succ_pos _) (Nat.two_pow_pos _)
    omega
  noMore s node found := by simp [Tile.fresh] at found

theorem Tile.Holds.endsFilled {count : Nat} {t : Tile} (holds : t.Holds v key count)
    (bound : count ≤ 256) (filled : ∀ id, v id ≠ []) : t.EndsFilled := by
  rw [Tile.endsFilled_iff]
  intro node last
  rw [holds.length] at last
  cases count with
  | zero =>
    rw [List.getElem?_eq_none (by rw [holds.length])] at last
    cases last
  | succ count =>
    obtain ⟨tile, stop, slot⟩ := tileLeaf_facts key (show count < 256 by omega)
    have leaf := holds.hasNodes (tileLeaf key count) tile (by omega)
    rw [slot] at leaf
    rw [show 2 * (count + 1) - 1 - 1 = 2 * count by omega, leaf] at last
    obtain rfl := Option.some.inj last
    exact filled _

theorem Tile.Holds.node_eq {count : Nat} {t t' : Tile} (holds : t.Holds v key count)
    (holds' : t'.Holds v key count) {s : Nat} {a b : Option Bytes} (left : t.nodes[s]? = some a)
    (right : t'.nodes[s]? = some b) (filled : a.getD [] ≠ []) : a = b := by
  obtain ⟨id, tile, inside, rfl⟩ := holds.noMore s a left filled
  rw [holds.hasNodes id tile inside] at left
  rw [holds'.hasNodes id tile inside] at right
  exact Option.some.inj (left.symm.trans right)

/-- The text of a tile is determined by what it holds. -/
theorem Tile.Holds.marshalText_eq {count : Nat} {t t' : Tile} (holds : t.Holds v key count)
    (holds' : t'.Holds v key count) : t.marshalText = t'.marshalText := by
  have lines : t.nodes.map Tile.line = t'.nodes.map Tile.line := by
    apply List.ext_getElem
    · rw [List.length_map, List.length_map, holds.length, holds'.length]
    · intro s lower upper
      rw [List.length_map] at lower upper
      have left : t.nodes[s]? = some t.nodes[s] := List.getElem?_eq_getElem _
      have right : t'.nodes[s]? = some t'.nodes[s] := List.getElem?_eq_getElem _
      rw [List.getElem_map, List.getElem_map]
      by_cases emptyLeft : (t.nodes[s]).getD [] = []
      · by_cases emptyRight : (t'.nodes[s]).getD [] = []
        · rw [Tile.line, Tile.line, emptyLeft, emptyRight]
        · rw [holds'.node_eq holds right left emptyRight]
      · rw [holds.node_eq holds' left right emptyLeft]
  rw [Tile.marshalText_lines, Tile.marshalText_lines, Tile.textLines, Tile.textLines, lines,
    holds.numLeaves, holds'.numLeaves]

end Contents

-- The visits that fall into one tile.
def visitsOf (visits : List Compact.Visit) (key : TileKey) : List Compact.Visit :=
  visits.filter fun node => tileOf node.1 = key

section Filled

variable {v : NodeID → Bytes} {n e : Nat} {visits : List Compact.Visit} {key : TileKey}

theorem mem_visitsOf {node : Compact.Visit} :
    node ∈ visitsOf visits key ↔ node ∈ visits ∧ tileOf node.1 = key := by
  simp [visitsOf]

theorem visitsOf_slots (visited : Visited visits (Gained n e) v) :
    ((visitsOf visits key).map fun node => slotOf node.1).Nodup := by
  have ids : ((visitsOf visits key).map Prod.fst).Nodup :=
    visited.once.sublist (List.filter_sublist.map _)
  have slots : (((visitsOf visits key).map Prod.fst).map slotOf).Nodup := by
    refine ids.map_on fun a left b right same => ?_
    obtain ⟨node, inside, rfl⟩ := List.mem_map.mp left
    obtain ⟨other, inside', rfl⟩ := List.mem_map.mp right
    exact slot_injective ((mem_visitsOf.mp inside).2.trans (mem_visitsOf.mp inside').2.symm) same
  rwa [List.map_map] at slots

theorem visitsOf_gained (visited : Visited visits (Gained n e) v) {node : Compact.Visit}
    (member : node ∈ visitsOf visits key) :
    tileOf node.1 = key ∧ node.2 = v node.1 ∧ tileCount key n < tileStop node.1 ∧
      tileStop node.1 ≤ tileCount key e := by
  obtain ⟨inside, rfl⟩ := mem_visitsOf.mp member
  obtain ⟨⟨after, before⟩, value⟩ := (visited.complete node.1 node.2).mp inside
  have outside := mt (stop_le_iff node.1 n).mpr (Nat.not_le.mpr after)
  exact ⟨rfl, value, by omega, (stop_le_iff node.1 e).mp before⟩

theorem lastLeaf_gained {key : TileKey} (more : tileCount key n < tileCount key e) :
    Gained n e (tileLeaf key (tileCount key e - 1)) := by
  have bound := tileCount_le key e
  obtain ⟨tile, stop, _⟩ := tileLeaf_facts key (show tileCount key e - 1 < 256 by omega)
  refine ⟨Nat.lt_of_not_le fun before => ?_, ?_⟩
  · rw [stop_le_iff, tile, stop] at before
    omega
  · rw [stop_le_iff, tile, stop]
    omega

-- A tile that gains a node gains its last leaf.
theorem visitsOf_last (visited : Visited visits (Gained n e) v)
    (more : tileCount key n < tileCount key e) :
    ∃ node ∈ visitsOf visits key, node.1 = tileLeaf key (tileCount key e - 1) ∧
      tileStop node.1 = tileCount key e ∧ slotOf node.1 + 1 = 2 * tileCount key e - 1 := by
  have bound := tileCount_le key e
  obtain ⟨tile, stop, slot⟩ := tileLeaf_facts key (show tileCount key e - 1 < 256 by omega)
  refine ⟨(tileLeaf key (tileCount key e - 1), v (tileLeaf key (tileCount key e - 1))), ?_, rfl,
    by dsimp only; omega, by dsimp only; omega⟩
  exact mem_visitsOf.mpr ⟨(visited.complete _ _).mpr ⟨lastLeaf_gained more, rfl⟩, tile⟩

theorem visitsOf_some (visited : Visited visits (Gained n e) v) :
    visitsOf visits key ≠ [] ↔ tileCount key n < tileCount key e := by
  constructor
  · intro some'
    obtain ⟨first, member⟩ := List.exists_mem_of_ne_nil _ some'
    obtain ⟨_, _, more, inside⟩ := visitsOf_gained visited member
    omega
  · intro more
    obtain ⟨node, member, _⟩ := visitsOf_last visited more
    exact List.ne_nil_of_mem member

theorem fill_hasNodes (visited : Visited visits (Gained n e) v) {t : Tile}
    (has : t.HasNodes v key (tileCount key n)) :
    (t.fill (visitsOf visits key)).HasNodes v key (tileCount key e) := by
  intro id tile inside
  by_cases old : tileStop id ≤ tileCount key n
  · have found := has id tile old
    have apart : ∀ node ∈ visitsOf visits key, slotOf node.1 ≠ slotOf id := by
      intro node member same
      obtain ⟨own, _, more, _⟩ := visitsOf_gained visited member
      rw [slot_injective (own.trans tile.symm) same] at more
      omega
    rcases t.fill_other apart with same | ⟨missing, _⟩
    · rw [same, found]
    · rw [found] at missing
      cases missing
  · have gained : Gained n e id := by
      refine ⟨Nat.lt_of_not_le fun before => ?_, ?_⟩
      · rw [stop_le_iff, tile] at before
        omega
      · rw [stop_le_iff, tile]
        exact inside
    have member : (id, v id) ∈ visitsOf visits key :=
      mem_visitsOf.mpr ⟨(visited.complete _ _).mpr ⟨gained, rfl⟩, tile⟩
    have found := t.fill_visited member (visitsOf_slots visited)
    exact found

theorem fill_count (visited : Visited visits (Gained n e) v)
    (more : tileCount key n < tileCount key e) {t : Tile} (bound : t.numLeaves ≤ tileCount key e) :
    (t.fill (visitsOf visits key)).numLeaves = tileCount key e := by
  obtain ⟨node, member, leaf, stop, _⟩ := visitsOf_last visited more
  refine t.fill_numLeaves bound (fun other inside => (visitsOf_gained visited inside).2.2.2)
    (Or.inr ⟨node, member, ?_, stop⟩)
  rw [leaf]
  exact Nat.mul_mod_right 8 key.1

/-- A tile that holds the nodes of an old log, or of some log up to the new one, is filled to one that
holds those of the new log. -/
theorem fill_holds (visited : Visited visits (Gained n e) v)
    (more : tileCount key n < tileCount key e) {t : Tile} {count : Nat}
    (lower : tileCount key n ≤ count) (upper : count ≤ tileCount key e)
    (holds : t.Holds v key count) :
    (t.fill (visitsOf visits key)).Holds v key (tileCount key e) where
  numLeaves := fill_count visited more (by rw [holds.numLeaves]; exact upper)
  length := by
    obtain ⟨node, member, _, _, slot⟩ := visitsOf_last visited more
    refine t.fill_length (by rw [holds.length]; omega) (fun other inside => ?_)
      (Or.inr ⟨node, member, slot⟩)
    exact slot_lt (visitsOf_gained visited inside).2.2.2
  hasNodes := fill_hasNodes visited fun id tile inside =>
    holds.hasNodes id tile (Nat.le_trans inside lower)
  noMore s node found filled := by
    by_cases visitedSlot : ∃ other ∈ visitsOf visits key, slotOf other.1 = s
    · obtain ⟨other, member, slot⟩ := visitedSlot
      obtain ⟨tile, _, _, inside⟩ := visitsOf_gained visited member
      exact ⟨other.1, tile, inside, slot⟩
    · rcases t.fill_other fun other member same => visitedSlot ⟨other, member, same⟩ with
        same | ⟨_, absent⟩
      · rw [same] at found
        obtain ⟨id, tile, inside, slot⟩ := holds.noMore s node found filled
        exact ⟨id, tile, inside.trans upper, slot⟩
      · rw [absent] at found
        obtain rfl := Option.some.inj found
        exact (filled rfl).elim

end Filled

section Reading

variable {W : Type} {getTile : GetTileFunc W} {w : W} {base : TileKey → Tile}

-- What Visit starts a tile from.
def ReadsAs (getTile : GetTileFunc W) (w : W) (key : TileKey) (tile : Tile) : Prop :=
  getTile key.1 key.2 w = (.ok tile, w) ∨
    (getTile key.1 key.2 w = (.error .notExist, w) ∧ tile = Tile.fresh)

theorem visit_run (m : TileMap) (node : Compact.Visit)
    (reads : ReadsAs getTile w (tileOf node.1) (base (tileOf node.1))) :
    visit getTile m node w = (.ok (m.insert (tileOf node.1)
      (((m.lookup (tileOf node.1)).getD (base (tileOf node.1))).setNode node.1 node.2)), w) := by
  cases cached : m.lookup (tileOf node.1) with
  | some tile => simp [visit, cached]
  | none =>
    rcases reads with read | ⟨missing, fresh⟩
    · simp [visit, cached, read]
    · simp [visit, cached, missing, fresh, GoError.isNotExist]

variable (base) in
theorem visitAll_run (m : TileMap) {visits : List Compact.Visit}
    (reads : ∀ node ∈ visits, ReadsAs getTile w (tileOf node.1) (base (tileOf node.1))) :
    ∃ m', visitAll getTile m visits w = (.ok m', w) ∧ ∀ key, m'.lookup key =
      if visitsOf visits key = [] then m.lookup key
      else some (((m.lookup key).getD (base key)).fill (visitsOf visits key)) := by
  induction visits generalizing m with
  | nil => exact ⟨m, rfl, fun key => by simp [visitsOf]⟩
  | cons node rest ih =>
    have first := visit_run m node (reads node (by simp))
    obtain ⟨m', ran, lookups⟩ := ih (m.insert (tileOf node.1)
      (((m.lookup (tileOf node.1)).getD (base (tileOf node.1))).setNode node.1 node.2))
      fun other member => reads other (by simp [member])
    refine ⟨m', by rw [visitAll, Eff.bind_of_ok first, ran], fun key => ?_⟩
    rw [lookups key]
    by_cases own : tileOf node.1 = key
    · subst own
      have split : visitsOf (node :: rest) (tileOf node.1) =
          node :: visitsOf rest (tileOf node.1) := by simp [visitsOf]
      rw [AList.lookup_insert, split]
      cases visitsOf rest (tileOf node.1) <;> simp
    · have split : visitsOf (node :: rest) key = visitsOf rest key := by simp [visitsOf, own]
      rw [AList.lookup_insert_ne (fun same => own same.symm), split]

end Reading

end Serverless
