import TrillianServerless.SumDbAudit.PipelineRun

set_option autoImplicit false

namespace Audit

open Go Sql Merkle Runs

-- The leaf tiles that a goroutine has hashes of.
def Stage.passed (tiles : Nat) : Stage → Nat
  | start offset | fill offset | receive offset _ _ | write offset _ => offset
  | send offset _ => offset + 1
  | done => tiles

namespace Service

variable (s : Service)

/-- The hashes in the row of a leaf tile are the record hashes of its leaves. -/
def RecordsMatch (db : Database) (offset : Nat) : Prop :=
  ∃ leaves, db.leafBlock (s.tileWidth * offset) s.tileWidth = .ok leaves ∧
    db.tile none s.height 0 offset = .ok (leaves.map s.hasher.hashLeaf)

/-- What the leaf level has done: rows stay, and new ones are made of the leaves. -/
structure LeafLevel (d : Database) (n : Nat) (p : Pipeline) : Prop where
  shape : s.Shape n 0 (p.stage 0)
  leaves : p.db.leaves = d.leaves
  kept : ∀ o blob, d.tiles s.height 0 o = some blob → p.db.tiles s.height 0 o = some blob
  fresh : ∀ o blob, p.db.tiles s.height 0 o = some blob → d.tiles s.height 0 o = some blob ∨ s.RecordsMatch p.db o
  hashes : ∀ o hashes, p.stage 0 = .write o hashes →
    ∃ leaves, d.leafBlock (s.tileWidth * o) s.tileWidth = .ok leaves ∧ hashes = leaves.map s.hasher.hashLeaf
  stored : p.err = none → ∀ o < (p.stage 0).passed (s.tileCount n 0), p.db.tiles s.height 0 o ≠ none
  back : p.returned = some (.ok ()) → p.err = none ∧ p.stage 0 = .done

end Service

section Steps

variable {s : Service} {d : Database} {n : Nat} {p p' : Pipeline}

theorem leafBlock_congr {db db' : Database} (same : db'.leaves = db.leaves) (start count : Nat) :
    db'.leafBlock start count = db.leafBlock start count := by
  unfold Database.leafBlock
  rw [same]

theorem tile_congr {db db' : Database} {level o : Nat}
    (same : db'.tiles s.height level o = db.tiles s.height level o) :
    db'.tile none s.height level o = db.tile none s.height level o := by
  unfold Database.tile
  rw [same]

theorem Service.RecordsMatch.congr {db db' : Database} {o : Nat} (leaves : db'.leaves = db.leaves)
    (same : db'.tiles s.height 0 o = db.tiles s.height 0 o) (held : s.RecordsMatch db o) : s.RecordsMatch db' o := by
  obtain ⟨rows, block, tile⟩ := held
  exact ⟨rows, (leafBlock_congr leaves _ _).trans block, (tile_congr same).trans tile⟩

-- A row that was made of leaves holds their hashes.
theorem recordsMatch_written {db : Database} {o : Nat} {leaves : List Bytes}
    (block : db.leafBlock (s.tileWidth * o) s.tileWidth = .ok leaves)
    (row : db.tiles s.height 0 o = some (((leaves.map s.hasher.hashLeaf).map LogHasher.fit).flatten)) :
    s.RecordsMatch db o := by
  have sized := leafHashes_sized s leaves
  have length : leaves.length = s.tileWidth := by
    unfold Database.leafBlock at block
    dsimp only at block
    split at block
    · cases block
    next length =>
      obtain rfl := Except.ok.inj block
      exact not_not.mp length
  refine ⟨leaves, block, ?_⟩
  unfold Database.tile
  rw [row, map_fit sized]
  exact splitTile_flatten sized (by rw [List.length_map, length]; rfl)

theorem Service.LeafLevel.init (d : Database) (n : Nat) : s.LeafLevel d n (.init d) where
  shape := Nat.zero_le _
  leaves := rfl
  kept _ _ row := row
  fresh _ _ row := .inl row
  hashes _ _ writing := by cases writing
  stored _ _ none := absurd none (Nat.not_lt_zero _)
  back returned := by cases returned

/-- The tables after a step: leaves and rows stay, and a new row of a leaf tile is made of its leaves. -/
theorem Service.LeafLevel.tables (held : s.LeafLevel d n p) {level : Nat} (move : s.Move n level p p') :
    p'.db.leaves = d.leaves ∧
      (∀ o, p.db.tiles s.height 0 o ≠ none → p'.db.tiles s.height 0 o = p.db.tiles s.height 0 o) ∧
      ∀ o blob, p'.db.tiles s.height 0 o = some blob → d.tiles s.height 0 o = some blob ∨ s.RecordsMatch p'.db o := by
  have frame := move.frame
  have leaves := frame.leaves.trans held.leaves
  refine ⟨leaves, fun o row => ?_, fun o blob row => ?_⟩
  · exact (move.tiles 0 o).resolve_right fun added => row added.1
  · rcases move.tiles 0 o with same | ⟨-, hashes, ⟨rfl, writing⟩, -, added⟩
    · rw [same] at row
      exact (held.fresh o blob row).imp_right fun old => old.congr frame.leaves same
    · obtain ⟨rows, block, rfl⟩ := held.hashes o hashes writing
      exact .inr (recordsMatch_written ((leafBlock_congr leaves _ _).trans block) added)

-- What the leaf level is about to write are hashes of leaves.
theorem Service.LeafLevel.writes (held : s.LeafLevel d n p) (move : s.Move n 0 p p') {o : Nat} {hashes : List Bytes}
    (writing : p'.stage 0 = .write o hashes) :
    ∃ leaves, d.leafBlock (s.tileWidth * o) s.tileWidth = .ok leaves ∧ hashes = leaves.map s.hasher.hashLeaf := by
  cases move with
  | load at' read =>
    simp only [Pipeline.goto, Function.update_self, Stage.write.injEq] at writing
    obtain ⟨rfl, rfl⟩ := writing
    exact ⟨_, (leafBlock_congr held.leaves _ _).symm.trans read, rfl⟩
  | finish | missing | found | known | store | push => simp [Pipeline.goto] at writing
  | fail | reject => simp [Pipeline.fail, Pipeline.goto] at writing
  | take at' | last at' =>
    have shape := held.shape
    rw [at'] at shape
    exact absurd rfl shape.1
  | crash => exact held.hashes o hashes writing

-- A tile that the leaf level passes on is stored.
theorem Service.LeafLevel.passes (held : s.LeafLevel d n p) (move : s.Move n 0 p p') (none : p'.err = none) {o : Nat}
    (below : o < (p'.stage 0).passed (s.tileCount n 0)) :
    o < (p.stage 0).passed (s.tileCount n 0) ∨ p'.db.tiles s.height 0 o ≠ Option.none := by
  cases move with
  | finish at' last =>
    rw [at']
    simp only [Pipeline.goto, Function.update_self, Stage.passed] at below ⊢
    exact .inl (Nat.lt_of_lt_of_le below last)
  | missing at' =>
    rw [at']
    simp only [Pipeline.goto, Function.update_self, if_true] at below
    exact .inl below
  | found at' more upper => exact absurd rfl upper
  | @known offset hashes root at' more leaves read =>
    rw [at']
    simp only [Pipeline.goto, Function.update_self, Stage.passed] at below ⊢
    rcases Nat.lt_succ_iff_lt_or_eq.mp below with earlier | rfl
    · exact .inl earlier
    · refine .inr fun unset => ?_
      rw [tile_missing unset] at read
      cases read
  | load at' =>
    rw [at']
    simp only [Pipeline.goto, Function.update_self, Stage.passed] at below ⊢
    exact .inl below
  | @store offset hashes root db at' written =>
    rw [at']
    simp only [Pipeline.goto, Function.update_self, Stage.passed] at below ⊢
    rcases Nat.lt_succ_iff_lt_or_eq.mp below with earlier | rfl
    · exact .inl earlier
    · obtain ⟨-, -, rfl⟩ := setTile_inserted written
      simp
  | push at' =>
    rw [at']
    simp only [Pipeline.goto, Function.update_self, Stage.passed] at below ⊢
    exact .inl below
  | fail | reject => simp [Pipeline.fail] at none
  | take at' | last at' =>
    have shape := held.shape
    rw [at'] at shape
    exact absurd rfl shape.1
  | crash => exact .inl below

theorem Service.LeafLevel.work (held : s.LeafLevel d n p) (now : p.returned = none) {level : Nat}
    (move : s.Move n level p p') : s.LeafLevel d n p' := by
  obtain ⟨leaves, rows, fresh⟩ := held.tables move
  have frame := move.frame
  have kept : ∀ o blob, d.tiles s.height 0 o = some blob → p'.db.tiles s.height 0 o = some blob := by
    intro o blob row
    have before := held.kept o blob row
    rw [rows o (by rw [before]; exact Option.some_ne_none _), before]
  have keeps : ∀ o, p.db.tiles s.height 0 o ≠ none → p'.db.tiles s.height 0 o ≠ none := by
    intro o row
    rwa [rows o row]
  have back : p'.returned = some (.ok ()) → p'.err = none ∧ p'.stage 0 = .done := by
    intro returned
    rcases frame.returned with same | ⟨⟨reason, crashed⟩, -⟩
    · rw [same, now] at returned
      cases returned
    · rw [crashed] at returned
      cases returned
  have clean : p'.err = none → p.err = none := fun none => by_contra fun err => frame.err err none
  by_cases other : level ≠ 0
  · have stage := frame.stages 0 other.symm
    refine ⟨stage ▸ held.shape, leaves, kept, fresh, stage ▸ held.hashes, fun none o below => ?_, back⟩
    rw [stage] at below
    exact keeps o (held.stored (clean none) o below)
  obtain rfl := not_not.mp other
  refine ⟨move.shape held.shape, leaves, kept, fresh, fun o hashes => held.writes move, fun none o below => ?_, back⟩
  rcases held.passes move none below with earlier | row
  · exact keeps o (held.stored (clean none) o earlier)
  · exact row

theorem Service.LeafLevel.step (held : s.LeafLevel d n p) {e : PipelineEvent} (stepped : s.PipelineStep n p e p') :
    s.LeafLevel d n p' := by
  obtain ⟨now, ⟨-, -, rfl⟩ | ⟨level, fault, -, -, worked⟩ | ⟨-, all, rfl⟩⟩ := pipelineStep_cases stepped
  · exact { held with }
  · exact held.work now (work_move worked)
  · refine { held with back := fun returned => ⟨?_, all 0 (goroutines_pos n)⟩ }
    cases err : p.err with
    | none => rfl
    | some reason =>
      simp only [err] at returned
      cases returned

/-- When hashTiles has returned nil, the leaf tiles match exactly if those did that were there before. -/
theorem Service.LeafLevel.match_iff (held : s.LeafLevel d n p) (returned : p.returned = some (.ok ())) :
    (∀ o < n / s.tileWidth, s.RecordsMatch p.db o) ↔
      ∀ o < n / s.tileWidth, d.tiles s.height 0 o ≠ none → s.RecordsMatch d o := by
  have same : ∀ o, d.tiles s.height 0 o ≠ none → d.tiles s.height 0 o = p.db.tiles s.height 0 o := by
    intro o row
    obtain ⟨blob, found⟩ := Option.ne_none_iff_exists'.mp row
    rw [found, held.kept o blob found]
  constructor
  · intro matches' o complete row
    exact (matches' o complete).congr held.leaves.symm (same o row)
  · intro before o complete
    obtain ⟨none, finished⟩ := held.back returned
    obtain ⟨blob, row⟩ := Option.ne_none_iff_exists'.mp (held.stored none o (by rw [finished]; exact complete))
    rcases held.fresh o blob row with old | new
    · have present : d.tiles s.height 0 o ≠ Option.none := by
        rw [old]
        exact Option.some_ne_none _
      exact (before o complete present).congr held.leaves (same o present).symm
    · exact new

/-- A call that returns nil leaves the record hashes of the leaves in every complete leaf tile exactly if the tiles
that were stored before it held them. -/
theorem hashTiles_detects_iff (s : Service) (checkpoint : Checkpoint) (d : Database) (p : Pipeline)
    (reached : Reaches (s.PipelineStep checkpoint.n) (fun _ => True) (.init d) p)
    (returned : p.returned = some (.ok ())) :
    (∀ o < checkpoint.n / s.tileWidth, s.RecordsMatch p.db o) ↔
      ∀ o < checkpoint.n / s.tileWidth, d.tiles s.height 0 o ≠ none → s.RecordsMatch d o :=
  (reached.keeps (s.LeafLevel d checkpoint.n) (.init d checkpoint.n)
    fun _ stepped held => held.step stepped).match_iff returned

-- Four records in tiles of two, and no tiles before the call.
theorem hashTiles_detects_four :
    ∃ p, Reaches (pairs.PipelineStep 4) (fun _ => True)
        (.init { Database.empty with leaves := leafRows pairLeaves }) p ∧ p.returned = some (.ok ()) ∧
      ∀ o < 2, pairs.RecordsMatch p.db o := by
  obtain ⟨p, reached, returned⟩ := returns_nil (s := pairs) Compact.reference_lawful
    (nofun : pairs.FullRows { Database.empty with leaves := leafRows pairLeaves }) leavesReady_four (by
    rintro ⟨level, o, -, blob, stored, -⟩
    cases stored)
  have reached := reached.mono fun _ _ => trivial
  refine ⟨p, reached, returned, ?_⟩
  exact (hashTiles_detects_iff pairs (pairNote [1, 2, 3, 4] (by decide)) _ p reached returned).mpr
    fun o _ row => absurd rfl row

-- The first leaf tile is stored with other hashes than its records have.
def staleTile : Database where
  leaves := leafRows pairLeaves
  tiles h l o := if h = 1 ∧ l = 0 ∧ o = 0 then some (List.replicate 64 0) else none
  checkpoints := []
  leafMetadata := .empty

/-- hashTiles takes the hashes from the stored tile, never looks at its leaves, and returns nil. -/
theorem stale_tile_accepted :
    ∃ p, Reaches (pairs.PipelineStep 4) (fun _ => True) (.init staleTile) p ∧ p.returned = some (.ok ()) ∧
      ¬ pairs.RecordsMatch staleTile 0 ∧ ¬ pairs.RecordsMatch p.db 0 := by
  have rows : pairs.FullRows staleTile := by
    intro level o blob stored
    simp only [staleTile] at stored
    split at stored
    · cases stored
      decide
    · cases stored
  have same : ¬ pairs.Disagrees staleTile 4 := by
    rintro ⟨level, o, -, blob, stored, -⟩
    simp [staleTile] at stored
  obtain ⟨p, reached, returned⟩ := returns_nil (s := pairs) Compact.reference_lawful rows
    (fun o below _ => leavesReady_four o below rfl) same
  have differs : ¬ pairs.RecordsMatch staleTile 0 := by
    rintro ⟨leaves, block, tile⟩
    have zeros : staleTile.tile none pairs.height 0 0 = .ok [List.replicate 32 0, List.replicate 32 0] := by decide
    rw [zeros] at tile
    have records : staleTile.leafBlock (pairs.tileWidth * 0) pairs.tileWidth = .ok [[1, 10], [2, 10]] := by rfl
    obtain rfl := Except.ok.inj (records.symm.trans block)
    exact absurd (Outcome.ok.inj tile) (by decide)
  have held := reached.keeps (pairs.LeafLevel staleTile 4) (.init staleTile 4)
    fun _ stepped held => held.step stepped
  refine ⟨p, reached.mono fun _ _ => trivial, returned, differs, fun after => differs ?_⟩
  exact after.congr held.leaves.symm (held.kept 0 _ rfl).symm

end Steps

end Audit
