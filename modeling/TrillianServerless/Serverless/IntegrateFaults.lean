import TrillianServerless.Serverless.Integrate

set_option autoImplicit false

namespace Serverless

open Go Merkle Checkpoints

section Tiles

variable {W : Type} {I : W → Prop} {P : String → Prop} {getTile : GetTileFunc W} (deps : Deps) (h : LogHasher)

-- Whatever each read of a tile keeps is kept.
section Kept

variable (tiles : ∀ level index, Eff.Keeps I (getTile level index))
include tiles

theorem cachedTile_kept (key : TileKey) :
    Eff.Keeps (fun s : Session W => I s.world) (cachedTile getTile key) := by
  intro s held
  have kept := tiles key.1 key.2 s.world held
  unfold cachedTile
  cases s.cache.tiles key with
  | some tile => exact held
  | none => rcases read : getTile key.1 key.2 s.world with ⟨_ | _ | _, w⟩ <;> rw [read] at kept <;> exact kept

theorem getNode_kept (id : NodeID) : Eff.Keeps (fun s : Session W => I s.world) (getNode getTile id) := by
  intro s held
  unfold getNode
  split
  · exact held
  · exact (cachedTile_kept tiles (tileOf id)).bind (fun _ => Eff.keeps_lift _) s held

theorem fetchRangeNodes_kept (size : Nat) : Eff.Keeps I (fetchRangeNodes deps size getTile) :=
  fun w held => Eff.Keeps.each (getNode_kept tiles) (deps.compact.rangeNodes 0 size) ⟨w, .empty⟩ held

theorem visit_kept (m : TileMap) (node : Compact.Visit) : Eff.Keeps I (visit getTile m node) := by
  intro w held
  have kept := tiles (tileOf node.1).1 (tileOf node.1).2 w held
  unfold visit
  dsimp only
  cases m.lookup (tileOf node.1) with
  | some tile => exact held
  | none =>
    rcases read : getTile (tileOf node.1).1 (tileOf node.1).2 w with ⟨_ | reason | _, w'⟩ <;> rw [read] at kept
    · exact kept
    · dsimp only
      split <;> exact kept
    · exact kept

theorem visitAll_kept (nodes : List Compact.Visit) (m : TileMap) : Eff.Keeps I (visitAll getTile m nodes) := by
  induction nodes generalizing m with
  | nil => exact Eff.keeps_pure m
  | cons node rest ih => exact (visit_kept tiles m node).bind ih

theorem appendEntries_kept (entries : List Bytes) (r : Compact.Range) (m : TileMap) :
    Eff.Keeps I (appendEntries deps h getTile r m entries) := by
  induction entries generalizing r m with
  | nil => exact Eff.keeps_pure _
  | cons entry rest ih => exact (visitAll_kept tiles _ m).bind fun m' => ih _ m'

end Kept

-- For the stored range a tile that cannot be read is an error,
section Panics

variable (tiles : ∀ level index, Eff.Keeps I (getTile level index))
  (only : ∀ level index, Eff.PanicsOnly I P (getTile level index))
include tiles only

omit tiles in
theorem cachedTile_panicsOnly (key : TileKey) :
    Eff.PanicsOnly (fun s : Session W => I s.world) P (cachedTile getTile key) := by
  intro s held reason panics
  have here := only key.1 key.2 s.world held
  unfold cachedTile at panics
  cases cached : s.cache.tiles key with
  | some tile => simp [cached] at panics
  | none =>
    rcases read : getTile key.1 key.2 s.world with ⟨_ | _ | other, w⟩ <;> rw [read] at here <;>
      simp only [cached, read, reduceCtorEq, Outcome.panic.injEq] at panics
    exact panics ▸ here other rfl

theorem getNode_panicsOnly (id : NodeID) :
    Eff.PanicsOnly (fun s : Session W => I s.world) P (getNode getTile id) := by
  intro s held reason panics
  unfold getNode at panics
  split at panics
  · cases panics
  · exact (cachedTile_panicsOnly only (tileOf id)).bind (cachedTile_kept tiles _)
      (fun _ => Eff.panicsOnly_ofExcept _) s held reason panics

theorem fetchRangeNodes_panicsOnly (size : Nat) : Eff.PanicsOnly I P (fetchRangeNodes deps size getTile) :=
  fun w held => Eff.PanicsOnly.each (getNode_kept tiles) (getNode_panicsOnly tiles only)
    (deps.compact.rangeNodes 0 size) ⟨w, .empty⟩ held

-- for a node that is set it is a panic, unless it does not exist.
variable (refused : ∀ level index w reason, I w → (getTile level index w).1 = .error reason →
  reason.isNotExist = false → P "panic(err)")
include refused

omit tiles in
theorem visit_panicsOnly (m : TileMap) (node : Compact.Visit) : Eff.PanicsOnly I P (visit getTile m node) := by
  intro w held reason panics
  have here := only (tileOf node.1).1 (tileOf node.1).2 w held
  have failed := refused (tileOf node.1).1 (tileOf node.1).2 w
  unfold visit at panics
  cases known : m.lookup (tileOf node.1) with
  | some tile => simp [known] at panics
  | none =>
    rcases read : getTile (tileOf node.1).1 (tileOf node.1).2 w with ⟨_ | err | other, w'⟩ <;>
      rw [read] at here failed <;> simp only [known, read] at panics
    · cases panics
    · split at panics
      · cases panics
      next unread =>
        obtain rfl := Outcome.panic.inj panics
        exact failed err held rfl (by simpa using unread)
    · obtain rfl := Outcome.panic.inj panics
      exact here other rfl

theorem visitAll_panicsOnly (nodes : List Compact.Visit) (m : TileMap) :
    Eff.PanicsOnly I P (visitAll getTile m nodes) := by
  induction nodes generalizing m with
  | nil => exact Eff.panicsOnly_pure m
  | cons node rest ih => exact (visit_panicsOnly only refused m node).bind (visit_kept tiles m node) ih

theorem appendEntries_panicsOnly (entries : List Bytes) (r : Compact.Range) (m : TileMap) :
    Eff.PanicsOnly I P (appendEntries deps h getTile r m entries) := by
  induction entries generalizing r m with
  | nil => exact Eff.panicsOnly_pure _
  | cons entry rest ih =>
    exact (visitAll_panicsOnly tiles only refused _ m).bind (visitAll_kept tiles _ m) fun m' => ih _ m'

end Panics

end Tiles

section Runs

variable {W : Type} {I J : W → Prop} {P : String → Prop} (deps : Deps) (st : Storage W) (h : LogHasher)
  {order : List TileEntry → List TileEntry} {cp : Checkpoint} {w w' : W}
  (tiles : ∀ level index, Eff.Keeps I (st.getTile level index cp.size))
include tiles

theorem loadBase_kept : Eff.Keeps I (loadBase deps st h cp) := by
  refine ((fetchRangeNodes_kept deps tiles cp.size).wrap _).bind fun hashes => ?_
  refine ((Eff.keeps_lift _).wrap _).bind fun base => ?_
  exact ((Eff.keeps_lift _).wrap _).bind fun _ => Eff.keeps_pure base

theorem scanEntries_kept (scans : ∀ w, I w → I (st.scanSequenced cp.size w).2) :
    Eff.Keeps I (scanEntries deps st h cp) := by
  intro w held
  refine (appendEntries_kept deps h tiles _ _ _).bind (fun added => ?_) _ (scans w held)
  dsimp only
  split
  · exact Eff.keeps_lift _
  · exact Eff.keeps_pure _

omit tiles in
theorem publish_kept (stores : ∀ level index tile, Eff.Keeps I (st.storeTile level index tile))
    (extension : Compact.Extension) (m : TileMap) : Eff.Keeps I (publish deps st h order extension m) := by
  have all : ∀ es : List TileEntry, Eff.Keeps I (storeTiles st es) := by
    intro es
    induction es with
    | nil => exact Eff.keeps_pure ()
    | cons entry rest ih => exact ((stores _ _ _).wrap _).bind fun _ => ih
  unfold publish
  split
  · exact Eff.keeps_lift _
  · exact ((Eff.keeps_lift _).wrap _).bind fun _ => (all _).bind fun _ => Eff.keeps_pure _

theorem integrate_kept (scans : ∀ w, I w → I (st.scanSequenced cp.size w).2)
    (stores : ∀ level index tile, Eff.Keeps I (st.storeTile level index tile)) :
    Eff.Keeps I (integrate deps st h order cp) := by
  refine (loadBase_kept deps st h tiles).bind fun base =>
    (scanEntries_kept deps st h tiles scans).bind fun scanned => ?_
  unfold mergeScanned
  split
  · exact Eff.keeps_pure none
  · exact (visitAll_kept tiles _ _).bind fun m => publish_kept deps st h stores _ m

omit tiles in
theorem scanEntries_without (empty : (st.scanSequenced cp.size w).1.1 = []) :
    scanEntries deps st h cp w = match (st.scanSequenced cp.size w).1.2 with
      | some reason => (.error (.wrap "error while integrating: %w" reason), (st.scanSequenced cp.size w).2)
      | none => (.ok (deps.compact.newEmptyRange cp.size, ∅, 0), (st.scanSequenced cp.size w).2) := by
  unfold scanEntries
  dsimp only
  rw [empty]
  rcases (st.scanSequenced cp.size w).1.2 with _ | reason <;> rfl

/-- Without new entries nothing is done after the scan. -/
theorem integrate_without_entries
    (scans : ∀ w, I w → (st.scanSequenced cp.size w).1.1 = [] ∧ J (st.scanSequenced cp.size w).2)
    (weaker : ∀ w, I w → J w) (held : I w) : J (integrate deps st h order cp w).2 ∧
      ∀ newCp, (integrate deps st h order cp w).1 ≠ .ok (some newCp) := by
  have middle := loadBase_kept deps st h tiles w held
  unfold integrate
  rw [Eff.bind_run]
  rcases loaded : loadBase deps st h cp w with ⟨base | _ | _, w1⟩ <;> rw [loaded] at middle
  · obtain ⟨empty, kept⟩ := scans w1 middle
    dsimp only
    rw [Eff.bind_run, scanEntries_without deps st h empty]
    rcases (st.scanSequenced cp.size w1).1.2 with _ | reason
    · refine ⟨kept, fun newCp published => ?_⟩
      cases published
    · refine ⟨kept, fun newCp published => ?_⟩
      cases published
  · refine ⟨weaker w1 middle, fun newCp published => ?_⟩
    cases published
  · refine ⟨weaker w1 middle, fun newCp published => ?_⟩
    cases published

/-- Only when it has found no entry, and no error, is there no checkpoint. -/
theorem integrate_none (held : I w) (ran : integrate deps st h order cp w = (.ok none, w')) :
    ∃ w1, I w1 ∧ (st.scanSequenced cp.size w1).1 = ([], none) := by
  have middle := loadBase_kept deps st h tiles w held
  obtain ⟨base, w1, loaded, ran⟩ := Eff.bind_eq_ok.mp ran
  rw [loaded] at middle
  obtain ⟨⟨added, m, n⟩, w2, scanned, merged⟩ := Eff.bind_eq_ok.mp ran
  obtain ⟨⟨added', m'⟩, w3, -, last⟩ := Eff.bind_eq_ok.mp scanned
  refine ⟨w1, middle, ?_⟩
  cases err : (st.scanSequenced cp.size w1).1.2 with
  | some reason => simp [err] at last
  | none =>
    have count : (st.scanSequenced cp.size w1).1.1.length = n := by
      simp only [err, Eff.pure_run, Prod.mk.injEq, Outcome.ok.injEq] at last
      exact last.1.2.2
    by_cases zero : n = 0
    · rw [zero, List.length_eq_zero_iff] at count
      exact Prod.ext count err
    · dsimp only at merged
      rw [mergeScanned, if_neg zero] at merged
      obtain ⟨m'', w4, -, published⟩ := Eff.bind_eq_ok.mp merged
      rw [publish] at published
      cases failed : (deps.compact.appendRange h.hashChildren base added).err with
      | some reason => simp [failed] at published
      | none =>
        simp only [failed] at published
        obtain ⟨root, w5, -, stored⟩ := Eff.bind_eq_ok.mp published
        obtain ⟨_, w6, -, result⟩ := Eff.bind_eq_ok.mp stored
        cases result

-- What Integrate does with the range of the stored log.
def extendBase (order : List TileEntry → List TileEntry) (cp : Checkpoint) (base : Compact.Range) :
    Eff W (Option Checkpoint) := do
  let scanned ← scanEntries deps st h cp
  mergeScanned deps st h order cp base scanned.1 scanned.2.1 scanned.2.2

omit tiles in
theorem integrate_panics {reason : String} (panics : (integrate deps st h order cp w).1 = .panic reason) :
    (storedRange deps st cp w).1 = .panic reason ∨
      ∃ hashes w1 base, storedRange deps st cp w = (.ok hashes, w1) ∧
        (extendBase deps st h order cp base w1).1 = .panic reason := by
  rcases whole : integrate deps st h order cp w with ⟨result, final⟩
  rw [whole] at panics
  obtain rfl : result = .panic reason := panics
  rcases Eff.bind_eq_panic whole with loading | ⟨base, w1, loaded, later⟩
  · refine .inl ?_
    rcases Eff.bind_eq_panic loading with fetching | ⟨hashes, w2, -, rest⟩
    · rw [Eff.wrap_eq_panic.mp fetching]
    · rcases Eff.bind_eq_panic rest with ranging | ⟨made, w3, -, rest⟩
      · exact absurd (congrArg Prod.fst (Eff.wrap_eq_panic.mp ranging)) (Outcome.ofExcept_ne_panic _ _)
      · rcases Eff.bind_eq_panic rest with rooting | ⟨root, w4, -, last⟩
        · exact absurd (congrArg Prod.fst (Eff.wrap_eq_panic.mp rooting)) (Outcome.ofExcept_ne_panic _ _)
        · cases last
  · obtain ⟨hashes, w2, fetched, rest⟩ := Eff.bind_eq_ok.mp loaded
    obtain ⟨made, w3, ranged, rest⟩ := Eff.bind_eq_ok.mp rest
    obtain ⟨root, w4, rooted, last⟩ := Eff.bind_eq_ok.mp rest
    obtain rfl := (Prod.mk.inj (Eff.wrap_eq_ok.mp ranged)).2
    obtain rfl := (Prod.mk.inj (Eff.wrap_eq_ok.mp rooted)).2
    obtain rfl := (Prod.mk.inj last).2
    exact .inr ⟨hashes, w2, base, Eff.wrap_eq_ok.mp fetched, congrArg Prod.fst later⟩

theorem extendBase_panicsOnly (only : ∀ level index, Eff.PanicsOnly I P (st.getTile level index cp.size))
    (refused : ∀ level index w reason, I w → (st.getTile level index cp.size w).1 = .error reason →
      reason.isNotExist = false → P "panic(err)")
    (scans : ∀ w, I w → I (st.scanSequenced cp.size w).2)
    (stores : ∀ level index tile w reason, (st.storeTile level index tile w).1 ≠ .panic reason)
    (base : Compact.Range) : Eff.PanicsOnly I P (extendBase deps st h order cp base) := by
  have scanning : Eff.PanicsOnly I P (scanEntries deps st h cp) := by
    intro w held
    refine (appendEntries_panicsOnly deps h tiles only refused _ _ _).bind (appendEntries_kept deps h tiles _ _ _)
      (fun added => ?_) _ (scans w held)
    dsimp only
    split
    · exact Eff.panicsOnly_fail _
    · exact Eff.panicsOnly_pure _
  -- Storing changes the tiles, so that what held up to there is given up.
  have storing : ∀ es : List TileEntry, Eff.PanicsOnly (fun _ => True) P (storeTiles st es) := by
    intro es
    induction es with
    | nil => exact Eff.panicsOnly_pure ()
    | cons entry rest ih =>
      refine Eff.PanicsOnly.bind (fun _ held => held) (Eff.PanicsOnly.wrap ?_ _) fun _ => ih
      exact fun w _ reason panics => absurd panics (stores _ _ _ w reason)
  refine scanning.bind (scanEntries_kept deps st h tiles scans) fun scanned => ?_
  unfold mergeScanned
  split
  · exact Eff.panicsOnly_pure none
  · refine (visitAll_panicsOnly tiles only refused _ _).bind (visitAll_kept tiles _ _) fun m => ?_
    unfold publish
    split
    · exact Eff.panicsOnly_fail _
    · refine ((Eff.panicsOnly_ofExcept _).wrap _).bind ((Eff.keeps_lift _).wrap _) fun root => ?_
      intro w _
      exact (storing _).bind (fun _ held => held) (fun _ => Eff.panicsOnly_pure _) w trivial

end Runs

end Serverless
