import TrillianServerless.Serverless.History
import TrillianServerless.Serverless.Objects

set_option autoImplicit false

namespace Serverless

open Go Merkle Checkpoints

/-- What comes back of a Go string that was made a string of the browser. -/
structure JsStrings where
  through : Bytes → Bytes
  ascii : ∀ s, (∀ c ∈ s, c < 128) → through s = s

-- The items of sessionStorage that are below the log's root.
abbrev WebStore := Objects

-- The store, and the stores before each item that was set, from the last to the first.
structure WebWorld where
  store : WebStore
  past : List WebStore

def WebWorld.states (w : WebWorld) : List WebStore := w.store :: w.past

/-- The storage of one page, with its hint for the next number. -/
structure Page where
  store : WebStore
  nextSeq : Nat

namespace Web

section Storage

variable (js : JsStrings)

def set (k : Path) (v : Bytes) : Eff WebWorld Unit := fun w =>
  (.ok (), ⟨w.store.insert k (js.through v), w.store :: w.past⟩)

def createExclusive (k : Path) (v : Bytes) : Eff WebWorld Unit := fun w =>
  if (w.store.lookup k).isSome then (.error .exist, w) else set js k v w

def scanSequenced (first : Nat) : WebWorld → (List Bytes × Option GoError) × WebWorld := fun w =>
  ((w.store.scan first, none), w)

def getTile (level index logSize : Nat) : Eff WebWorld Tile := fun w =>
  match w.store.lookup (.tile level index (partialTileSize level index logSize)) with
  | none => (.error .notExist, w)
  | some t => ((Tile.unmarshalText t).wrap "failed to parse tile: %w", w)

def storeTile (level index : Nat) (tile : Tile) : Eff WebWorld Unit :=
  if tile.numLeaves = 0 ∨ 256 < tile.numLeaves then
    Eff.fail (.text "tileSize %d must be > 0 and <= 256")
  else
    (createExclusive js (.tile level index (tile.numLeaves % 256)) tile.marshalText).wrap
      "failed to write temporary tile file: %w"

def storage : Storage WebWorld where
  getTile := getTile
  storeTile := storeTile js
  scanSequenced := scanSequenced

end Storage

section Sequence

variable (js : JsStrings)

-- Queue, for the SHA-256 of the leaf.
def queue (digest leaf : Bytes) (p : Page) : Page :=
  if (p.store.lookup (.pending digest)).isSome then p
  else { p with store := p.store.insert (.pending digest) (js.through leaf) }

def deletePending (digest : Bytes) (p : Page) : Page := { p with store := p.store.erase (.pending digest) }

-- The leaf's number is written down, unless that was done in the meantime.
def indexLeaf (c : SequenceCall) (p : Page) : SequenceResult × Page :=
  if (p.store.lookup (.leaf c.leafhash)).isSome then
    ((0, some (.wrap "couldn't create temporary leafhash file: %w" .exist)), p)
  else
    ((p.nextSeq, none),
      { p with store := p.store.insert (.leaf c.leafhash) (js.through (formatUint 16 p.nextSeq)) })

-- A number that is in use is skipped; no more than there are items can be.
def assign (c : SequenceCall) : Nat → Page → SequenceResult × Page
  | 0, p => ((0, some (.text "no sequence number is free")), p)
  | fuel + 1, p =>
    if (p.store.lookup (.seq p.nextSeq)).isSome then assign c fuel { p with nextSeq := (p.nextSeq + 1) % 2 ^ 64 }
    else indexLeaf js c { p with store := p.store.insert (.seq p.nextSeq) (js.through c.leaf) }

def sequence (c : SequenceCall) (p : Page) : SequenceResult × Page :=
  match p.store.lookup (.leaf c.leafhash) with
  | some seqString =>
    match parseUint 16 64 seqString with
    | none => ((0, some (.text "strconv.ParseUint")), p)
    | some origSeq => ((origSeq, some errDupeLeaf), p)
  | none => assign js c (p.store.keys.length + 1) p

end Sequence

section Release

variable (deps : Deps) (js : JsStrings) (h : LogHasher) (opens : Bytes → Checkpoint) (signs : Checkpoint → Bytes)

-- Without a checkpoint the log starts from scratch.
def checkpointOf (s : WebStore) : Checkpoint :=
  match s.lookup .checkpoint with
  | none => ⟨"", 0, []⟩
  | some raw => opens raw

def integrateFrom (order : List TileEntry → List TileEntry) (s : WebStore) :
    Outcome (Option Checkpoint) × WebWorld :=
  integrate deps (storage js) h order (checkpointOf opens s) ⟨s, []⟩

def writeReturned (newCp : Option Checkpoint) : Eff WebWorld (Option Checkpoint) :=
  match newCp with
  | none => pure none
  | some cp => do
    set js .checkpoint (signs cp)
    return some cp

/-- Integrate from the checkpoint that was written last, then WriteCheckpoint, as the page does. -/
def release (order : List TileEntry → List TileEntry) (s : WebStore) : Outcome (Option Checkpoint) × WebWorld :=
  (do
    let newCp ← integrate deps (storage js) h order (checkpointOf opens s)
    writeReturned js signs newCp) ⟨s, []⟩

/-- How a page uses its log. It may be closed, or Integrate fail, in the middle of a release, and is then loaded
again with the checkpoint that is there. -/
inductive PageStep : Page → Page → Prop
  | queue (p : Page) (digest leaf : Bytes) : PageStep p (queue js digest leaf p)
  | deletePending (p : Page) (digest : Bytes) : PageStep p (deletePending digest p)
  | sequence (p : Page) (c : SequenceCall) : PageStep p (sequence js c p).2
  | load (p : Page) : PageStep p { p with nextSeq := (checkpointOf opens p.store).size }
  | release (p : Page) (order : List TileEntry → List TileEntry) (permutes : ∀ es, (order es).Perm es)
      (s : WebStore) (left : s ∈ (release deps js h opens signs order p.store).2.states) :
      PageStep p { p with store := s }

def emptyPage : Page := ⟨∅, 0⟩

end Release

section Holding

variable {js : JsStrings} {h : LogHasher} {entries : List Bytes} {n : Nat} {s : WebStore}

/-- A store with its entries, and with the tree of the first `n` of them. Runs that were given up may have stored
tiles of the tree of more of them. -/
structure Holding (h : LogHasher) (entries : List Bytes) (n : Nat) (s : WebStore) : Prop where
  sequences : s.Sequences entries
  tiles : ∀ level index size raw, s.lookup (.tile level index size) = some raw →
    ∃ (t : Tile) (count : Nat), raw = t.marshalText ∧ t.Holds (h.logNode entries) (level, index) count ∧
      0 < count ∧ count ≤ tileCount (level, index) entries.length ∧ size = count % 256
  present : ∀ key : TileKey, 0 < tileCount key n → s.lookup (.tile key.1 key.2 (tileCount key n % 256)) ≠ none
  order : n ≤ entries.length

theorem Holding.empty (h : LogHasher) : Holding h [] 0 ∅ where
  sequences := Objects.sequences_empty
  tiles _ _ _ _ found := by cases found
  present key some' := by simp [tileCount] at some'
  order := Nat.le_refl 0

theorem Holding.scanSequenced (holding : Holding h entries n s) (first : Nat) (past : List WebStore) :
    scanSequenced first ⟨s, past⟩ = ((entries.drop first, none), ⟨s, past⟩) := by
  rw [Web.scanSequenced, holding.sequences.scan]

/-- What Integrate starts a tile from: nodes of the log, at least as many as the tile has at size `n`. -/
theorem Holding.base (holding : Holding h entries n s) (past : List WebStore) (key : TileKey) :
    ∃ (t : Tile) (count : Nat), ReadsAs (fun l i => getTile l i n) (⟨s, past⟩ : WebWorld) key t ∧
      t.Holds (h.logNode entries) key count ∧ tileCount key n ≤ count ∧ count ≤ tileCount key entries.length := by
  obtain ⟨level, index⟩ := key
  cases found : s.lookup (.tile level index (partialTileSize level index n)) with
  | none =>
    refine ⟨Tile.fresh, 0, .inr ⟨by simp [getTile, found], rfl⟩, Tile.fresh_holds, ?_, Nat.zero_le _⟩
    by_contra more
    rw [partialTileSize_eq (by omega)] at found
    exact holding.present (level, index) (by omega) found
  | some raw =>
    obtain ⟨t, count, rfl, holds, positive, bound, size⟩ := holding.tiles level index _ raw found
    have limit := tileCount_le (level, index) entries.length
    have parsed := holds.parsed (by omega)
    refine ⟨t.readBack, count, .inl (by simp [getTile, found, parsed]), holds.readBack, ?_, bound⟩
    have small := tileCount_le (level, index) n
    by_cases none : tileCount (level, index) n = 0
    · omega
    · rw [partialTileSize_eq (by omega)] at size
      omega

theorem Holding.correct (holding : Holding h entries n s) (past : List WebStore) :
    TilesCorrect (fun l i => getTile l i n) (⟨s, past⟩ : WebWorld) n (h.logNode entries) := by
  refine tilesCorrect_of_base fun key => ?_
  obtain ⟨t, count, reads, holds, lower, _⟩ := holding.base past key
  exact ⟨t, count, reads, holds, lower⟩

end Holding

section Stores

variable (js : JsStrings)

theorem marshalText_ascii (t : Tile) : ∀ c ∈ t.marshalText, c < 128 := by
  intro c inside
  have lineBreak : newline < 128 := by decide
  simp only [Tile.marshalText, List.mem_append, List.mem_flatMap, List.mem_singleton] at inside
  rcases inside with ((number | rfl) | number | rfl) | ⟨node, -, hash | rfl⟩
  · exact (Tile.number_visible number).2
  · exact lineBreak
  · exact (Tile.number_visible number).2
  · exact lineBreak
  · exact (Tile.line_visible hash).2
  · exact lineBreak

def put (s : WebStore) (x : TileEntry) : WebStore := s.insert (tilePath x) x.2.marshalText

theorem storeTile_free {x : TileEntry} (sizes : 0 < x.2.numLeaves ∧ x.2.numLeaves ≤ 256) {w : WebWorld}
    (free : w.store.lookup (tilePath x) = none) :
    storeTile js x.1.1 x.1.2 x.2 w = (.ok (), ⟨put w.store x, w.store :: w.past⟩) := by
  have text := js.ascii _ (marshalText_ascii x.2)
  rw [tilePath] at free
  rw [storeTile, if_neg (by omega)]
  simp [Eff.wrap, createExclusive, set, free, text, put, tilePath]

theorem storeTile_taken {x : TileEntry} (sizes : 0 < x.2.numLeaves ∧ x.2.numLeaves ≤ 256) {w : WebWorld}
    (taken : w.store.lookup (tilePath x) ≠ none) :
    storeTile js x.1.1 x.1.2 x.2 w = (.error (.wrap "failed to write temporary tile file: %w" .exist), w) := by
  have there : (w.store.lookup (.tile x.1.1 x.1.2 (x.2.numLeaves % 256))).isSome :=
    Option.isSome_iff_ne_none.mpr taken
  rw [storeTile, if_neg (by omega)]
  simp [Eff.wrap, createExclusive, there]

theorem put_other {x : TileEntry} {p : Path} (other : p ≠ tilePath x) (s : WebStore) :
    (put s x).lookup p = s.lookup p :=
  AList.lookup_insert_ne other

theorem puts_other {es : List TileEntry} {p : Path} (other : ∀ x ∈ es, p ≠ tilePath x) (s : WebStore) :
    (es.foldl put s).lookup p = s.lookup p := by
  induction es generalizing s with
  | nil => rfl
  | cons x es ih =>
    rw [List.foldl_cons, ih fun y member => other y (by simp [member]), put_other (other x (by simp))]

theorem puts_foreign (es : List TileEntry) {p : Path} (foreign : tileKeyOf p = none) (s : WebStore) :
    (es.foldl put s).lookup p = s.lookup p := by
  refine puts_other (fun x _ same => ?_) s
  rw [same, tileKeyOf_tilePath] at foreign
  cases foreign

theorem puts_own {es : List TileEntry} (distinct : DistinctKeys es) {x : TileEntry} (member : x ∈ es) (s : WebStore) :
    (es.foldl put s).lookup (tilePath x) = some x.2.marshalText := by
  induction es generalizing s with
  | nil => cases member
  | cons y es ih =>
    obtain ⟨fresh, later⟩ := List.nodup_cons.mp distinct
    rcases List.mem_cons.mp member with rfl | member
    · have others : ∀ z ∈ es, tilePath x ≠ tilePath z := by
        intro z inside same
        have key : x.1 = z.1 := by simpa using congrArg tileKeyOf same
        exact fresh (key ▸ List.mem_map_of_mem inside)
      rw [List.foldl_cons, puts_other others, put, AList.lookup_insert]
    · exact ih later member _

/-- How storing tiles ends: they are stored up to the first that is there already. -/
structure StoresUpTo {A : Type} (a : A) (es done : List TileEntry) (w : WebWorld) (result : Outcome A × WebWorld) :
    Prop where
  front : done <+: es
  free : ∀ x ∈ done, w.store.lookup (tilePath x) = none
  store : result.2.store = done.foldl put w.store
  states : ∀ s ∈ result.2.states, s ∈ w.past ∨ ∃ front, front <+: done ∧ s = front.foldl put w.store
  ends : result.1 = .ok a ∧ done = es ∨
    (∃ reason, result.1 = .error reason) ∧ ∃ x ∈ es, w.store.lookup (tilePath x) ≠ none

theorem storeTiles_run {es : List TileEntry} (distinct : DistinctKeys es)
    (sizes : ∀ x ∈ es, 0 < x.2.numLeaves ∧ x.2.numLeaves ≤ 256) (w : WebWorld) :
    ∃ done, StoresUpTo () es done w (storeTiles (storage js) es w) := by
  induction es generalizing w with
  | nil => exact ⟨[], List.prefix_refl _, by simp, rfl, fun s state => by
      rcases List.mem_cons.mp state with rfl | old
      · exact .inr ⟨[], List.prefix_refl _, rfl⟩
      · exact .inl old, .inl ⟨rfl, rfl⟩⟩
  | cons x es ih =>
    obtain ⟨fresh, later⟩ := List.nodup_cons.mp distinct
    have others : ∀ y ∈ es, tilePath y ≠ tilePath x := by
      intro y inside same
      have key : y.1 = x.1 := by simpa using congrArg tileKeyOf same
      exact fresh (key ▸ List.mem_map_of_mem inside)
    by_cases free : w.store.lookup (tilePath x) = none
    · have first := storeTile_free js (sizes x (by simp)) free
      obtain ⟨done, stores⟩ := ih later (fun y inside => sizes y (by simp [inside]))
        ⟨put w.store x, w.store :: w.past⟩
      have kept : ∀ y ∈ es, (put w.store x).lookup (tilePath y) = w.store.lookup (tilePath y) :=
        fun y inside => put_other (others y inside) w.store
      have ran : storeTiles (storage js) (x :: es) w =
          storeTiles (storage js) es ⟨put w.store x, w.store :: w.past⟩ :=
        Eff.bind_of_ok (Eff.wrap_eq_ok.mpr first)
      rw [ran]
      refine ⟨x :: done, List.cons_prefix_cons.mpr ⟨rfl, stores.front⟩, fun y inside => ?_, stores.store,
        fun s state => ?_, ?_⟩
      · rcases List.mem_cons.mp inside with rfl | inside
        · exact free
        · rw [← kept y (stores.front.subset inside)]
          exact stores.free y inside
      · rcases stores.states s state with old | ⟨front, before, rfl⟩
        · rcases List.mem_cons.mp old with rfl | old
          · exact .inr ⟨[], List.nil_prefix, rfl⟩
          · exact .inl old
        · exact .inr ⟨x :: front, List.cons_prefix_cons.mpr ⟨rfl, before⟩, rfl⟩
      · rcases stores.ends with ⟨ok, rfl⟩ | ⟨failed, y, inside, taken⟩
        · exact .inl ⟨ok, rfl⟩
        · exact .inr ⟨failed, y, by simp [inside], by rwa [← kept y inside]⟩
    · have first := storeTile_taken js (sizes x (by simp)) free
      have ran : storeTiles (storage js) (x :: es) w = (.error _, w) :=
        Eff.bind_of_error (Eff.wrap_of_error first)
      rw [ran]
      refine ⟨[], List.nil_prefix, by simp, rfl, fun s state => ?_, .inr ⟨⟨_, rfl⟩, x, by simp, free⟩⟩
      rcases List.mem_cons.mp state with rfl | old
      · exact .inr ⟨[], List.prefix_refl _, rfl⟩
      · exact .inl old

theorem StoresUpTo.returns {es done : List TileEntry} {w : WebWorld}
    (stores : StoresUpTo () es done w (storeTiles (storage js) es w)) {A : Type} (a : A) :
    StoresUpTo a es done w ((do
      storeTiles (storage js) es
      return a : Eff WebWorld A) w) := by
  rcases ran : storeTiles (storage js) es w with ⟨out, w'⟩
  rw [ran] at stores
  rcases stores.ends with ⟨ok, all⟩ | ⟨⟨reason, failed⟩, taken⟩
  · obtain rfl : out = .ok () := ok
    rw [Eff.bind_of_ok ran]
    exact ⟨stores.front, stores.free, stores.store, stores.states, .inl ⟨rfl, all⟩⟩
  · obtain rfl : out = .error reason := failed
    rw [Eff.bind_of_error ran]
    exact ⟨stores.front, stores.free, stores.store, stores.states, .inr ⟨⟨reason, rfl⟩, taken⟩⟩

end Stores

section Runs

variable {deps : Deps} (js : JsStrings) {h : LogHasher} {entries : List Bytes} {cp : Checkpoint} {s : WebStore}

/-- Integrate comes to storing the dirty tiles, which have all nodes of the log. -/
theorem Holding.runs (lawful : Compact.Lawful deps.compact) (holding : Holding h entries cp.size s) :
    ∃ es, Dirty (h.logNode entries) cp.size entries.length es ∧
      (∀ x ∈ es, x.2.Holds (h.logNode entries) x.1 (tileCount x.1 entries.length)) ∧
      ∀ order, integrate deps (storage js) h order cp ⟨s, []⟩ =
        if entries.length = cp.size then (.ok none, ⟨s, []⟩)
        else (do
          storeTiles (storage js) (order es)
          return some ⟨"", entries.length, h.logRoot entries⟩ : Eff WebWorld (Option Checkpoint)) ⟨s, []⟩ := by
  have total : cp.size + (entries.drop cp.size).length = entries.length := by
    rw [List.length_drop]
    have := holding.order
    omega
  choose base count reads holds lower upper using fun key => holding.base [] key
  have extends' := logNode_extends_drop h holding.order
  obtain ⟨visits, m, visited, found, runs⟩ := integrate_dirty (storage js) base lawful (holding.correct [])
    (holding.scanSequenced cp.size []) extends' fun key _ => reads key
  rw [total] at visited runs
  have dirty := found.dirty visited (h.logNode_ne_nil _) fun key _ =>
    ⟨(reads key).hasNodes (holding.correct []), by rw [(holds key).numLeaves]; exact upper key,
      (holds key).endsFilled (Nat.le_trans (upper key) (tileCount_le _ _)) (h.logNode_ne_nil _)⟩
  refine ⟨m.entries, dirty, fun x member => ?_, fun order => ?_⟩
  · rw [(found.mem member).2]
    exact fill_holds visited (dirty.more x member) (lower x.1) (upper x.1) (holds x.1)
  · have none : (entries.drop cp.size).length = 0 ↔ entries.length = cp.size := by omega
    rw [runs order]
    by_cases all : entries.length = cp.size
    · rw [if_pos (none.mpr all), if_pos all]
    · have some' : entries ≠ [] := by
        rintro rfl
        exact all (Nat.le_zero.mp holding.order).symm
      rw [if_neg (mt none.mp all), if_neg all, logRoot_cover h some']

end Runs

section Kept

variable {js : JsStrings} {h : LogHasher} {entries : List Bytes} {n : Nat} {s s' : WebStore}

theorem Holding.same (holding : Holding h entries n s) (seq : ∀ k, s'.lookup (.seq k) = s.lookup (.seq k))
    (tile : ∀ level index size, s'.lookup (.tile level index size) = s.lookup (.tile level index size)) :
    Holding h entries n s' where
  sequences := holding.sequences.same seq
  tiles level index size raw found := holding.tiles level index size raw (by rwa [tile] at found)
  present key some' := by
    rw [tile]
    exact holding.present key some'
  order := holding.order

theorem Holding.append (holding : Holding h entries n s) {x : Bytes}
    (new : s'.lookup (.seq entries.length) = some x)
    (seq : ∀ k, k ≠ entries.length → s'.lookup (.seq k) = s.lookup (.seq k))
    (tile : ∀ level index size, s'.lookup (.tile level index size) = s.lookup (.tile level index size)) :
    Holding h (entries ++ [x]) n s' where
  sequences := holding.sequences.append new seq
  tiles level index size raw found := by
    rw [tile] at found
    obtain ⟨t, count, text, holds, positive, bound, named⟩ := holding.tiles level index size raw found
    have more : tileCount (level, index) entries.length ≤ tileCount (level, index) (entries ++ [x]).length :=
      tileCount_mono _ (by simp)
    exact ⟨t, count, text, holds.append [x] bound, positive, Nat.le_trans bound more, named⟩
  present key some' := by
    rw [tile]
    exact holding.present key some'
  order := by
    have := holding.order
    rw [List.length_append]
    omega

/-- Tiles of the whole log may be stored at any time, -/
theorem Holding.puts (holding : Holding h entries n s) {es : List TileEntry}
    (dirty : Dirty (h.logNode entries) n entries.length es)
    (holds : ∀ x ∈ es, x.2.Holds (h.logNode entries) x.1 (tileCount x.1 entries.length)) {done : List TileEntry}
    (some' : done ⊆ es) (distinct : DistinctKeys done) : Holding h entries n (done.foldl put s) where
  sequences := holding.sequences.same fun _ => puts_foreign done rfl s
  tiles level index size raw found := by
    by_cases own : ∃ x ∈ done, tilePath x = .tile level index size
    · obtain ⟨x, member, path⟩ := own
      rw [← path, puts_own distinct member s] at found
      obtain ⟨rfl, rfl, rfl⟩ := Path.tile.inj path
      have positive := (dirty.sizes (some' member)).1
      rw [dirty.numLeaves x (some' member)] at positive
      exact ⟨x.2, _, (Option.some.inj found).symm, holds x (some' member), positive, Nat.le_refl _,
        by rw [dirty.numLeaves x (some' member)]⟩
    · push Not at own
      rw [puts_other fun x member same => own x member same.symm] at found
      exact holding.tiles level index size raw found
  present key some'' := by
    by_cases own : ∃ x ∈ done, tilePath x = .tile key.1 key.2 (tileCount key n % 256)
    · obtain ⟨x, member, path⟩ := own
      rw [← path, puts_own distinct member s]
      simp
    · push Not at own
      rw [puts_other fun x member same => own x member same.symm]
      exact holding.present key some''
  order := holding.order

/-- and with all of them the tree is that of all entries. -/
theorem Holding.settled (holding : Holding h entries n s) {es : List TileEntry}
    (dirty : Dirty (h.logNode entries) n entries.length es)
    (holds : ∀ x ∈ es, x.2.Holds (h.logNode entries) x.1 (tileCount x.1 entries.length)) {done : List TileEntry}
    (all : done.Perm es) : Holding h entries entries.length (done.foldl put s) := by
  have distinct : DistinctKeys done := (all.map Sigma.fst).nodup_iff.mpr dirty.distinct
  have kept := holding.puts dirty holds all.subset distinct
  refine ⟨kept.sequences, kept.tiles, fun key some' => ?_, Nat.le_refl _⟩
  by_cases more : tileCount key n < tileCount key entries.length
  · obtain ⟨x, member, rfl⟩ := dirty.all key more
    have stored := puts_own distinct (all.symm.subset member) s
    rw [tilePath, dirty.numLeaves x member] at stored
    rw [stored]
    simp
  · have same : tileCount key n = tileCount key entries.length := by
      have := tileCount_mono key holding.order
      omega
    rw [← same] at some' ⊢
    exact kept.present key some'

end Kept

end Web

end Serverless
