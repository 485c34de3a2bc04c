import TrillianServerless.SumDbAudit.PipelineBalance

set_option autoImplicit false

namespace Audit

open Go Sql Merkle Runs

namespace Stage

-- How many roots a goroutine has sent and how many it has received.
def sent (tiles : Nat) : Stage → Nat
  | start offset | fill offset | receive offset _ _ | write offset _ | send offset _ => offset
  | done => tiles

def taken (width tiles : Nat) : Stage → Nat
  | start offset | fill offset => offset * width
  | receive offset _ inHashes => offset * width + inHashes.length
  | write offset _ | send offset _ => (offset + 1) * width
  | done => tiles * width

end Stage

namespace Service

variable (s : Service) (d : Database) (n : Nat)

/-- A tile is stored and was not in disagreement with those below it. -/
structure TileDone (db : Database) (level offset : Nat) : Prop where
  stored : db.tiles s.height level offset ≠ none
  agrees : ∀ below, level = below + 1 → s.Agrees d below offset

-- What a goroutine has read so far is right.
def StageOk (db : Database) (level : Nat) : Stage → Prop
  | .start offset => offset ≤ s.tileCount n level
  | .fill offset => level = 0 ∧ offset < s.tileCount n level ∧ db.tiles s.height level offset = none
  | .receive offset stored inHashes =>
    ∃ below, level = below + 1 ∧ offset < s.tileCount n level ∧ inHashes.length < s.tileWidth ∧
      inHashes = (List.range' (offset * s.tileWidth) inHashes.length).map (s.root d below) ∧
      (stored = none ∧ db.tiles s.height level offset = none ∨
        stored = some (s.content d level offset) ∧ db.tiles s.height level offset ≠ none ∧
          inHashes = (s.content d level offset).take inHashes.length)
  | .write offset hashes =>
    offset < s.tileCount n level ∧ hashes = s.content d level offset ∧ db.tiles s.height level offset = none
  | .send offset root =>
    offset < s.tileCount n level ∧ root = s.root d level offset ∧ s.TileDone d db level offset
  | .done => True

/-- Tiles of the database are those it started with and tiles with the right hashes. -/
structure DbOk (db : Database) : Prop where
  leaves : db.leaves = d.leaves
  kept : ∀ level offset, d.tiles s.height level offset ≠ none →
    db.tiles s.height level offset = d.tiles s.height level offset
  rows : ∀ level offset blob, db.tiles s.height level offset = some blob →
    blob.length = s.tileWidth * hashLenBytes ∧ s.chunks blob = s.content d level offset

-- How many roots of a level have been received.
def received (p : Pipeline) (level : Nat) : Nat :=
  if level + 1 < s.goroutines n then (p.stage (level + 1)).taken s.tileWidth (s.tileCount n (level + 1)) else 0

/-- A call in which no goroutine has failed. Roots were sent in order and are received in order. -/
structure Running (p : Pipeline) : Prop where
  err : p.err = none
  launched : p.started ≤ s.goroutines n
  idle : ∀ level, p.started ≤ level → p.stage level = .start 0
  db : s.DbOk d p.db
  stages : ∀ level, s.StageOk d n p.db level (p.stage level)
  tiles : ∀ level, ∀ o < (p.stage level).sent (s.tileCount n level), s.TileDone d p.db level o
  channels : ∀ level < s.goroutines n,
    (List.range (s.received n p level)).map (s.root d level) ++ p.roots level =
      (List.range ((p.stage level).sent (s.tileCount n level))).map (s.root d level)
  back : p.returned ≠ none →
    p.returned = some (.ok ()) ∧ ∀ level < s.goroutines n, p.stage level = .done

end Service

section Steps

variable {s : Service} {d : Database} {n : Nat}

theorem Service.TileDone.frame {db db' : Database} {level offset : Nat} (tile : s.TileDone d db level offset)
    (same : db'.tiles s.height level offset = db.tiles s.height level offset) : s.TileDone d db' level offset where
  stored := same ▸ tile.stored
  agrees := tile.agrees

theorem stageOk_frame {db db' : Database} {level : Nat} {stage : Stage} (ok : s.StageOk d n db level stage)
    (same : ∀ o, db'.tiles s.height level o = db.tiles s.height level o) : s.StageOk d n db' level stage := by
  cases stage with
  | start offset => exact ok
  | fill offset => exact ⟨ok.1, ok.2.1, (same offset).trans ok.2.2⟩
  | receive offset stored inHashes =>
    simp only [Service.StageOk, same offset] at ok ⊢
    exact ok
  | write offset hashes => exact ⟨ok.1, ok.2.1, (same offset).trans ok.2.2⟩
  | send offset root => exact ⟨ok.1, ok.2.1, ok.2.2.frame (same offset)⟩
  | done => trivial

theorem Service.DbOk.missing {db : Database} (ok : s.DbOk d db) {level offset : Nat}
    (missing : db.tiles s.height level offset = none) : d.tiles s.height level offset = none := by
  by_contra stored
  exact stored ((ok.kept level offset stored).symm.trans missing)

theorem Service.DbOk.read {db : Database} (ok : s.DbOk d db) {level offset : Nat}
    (stored : db.tiles s.height level offset ≠ none) :
    db.tile none s.height level offset = .ok (s.content d level offset) := by
  obtain ⟨blob, found⟩ := Option.ne_none_iff_exists'.mp stored
  obtain ⟨full, hashes⟩ := ok.rows level offset blob found
  unfold Database.tile
  rw [found, ← hashes]
  exact splitTile_chunks full

/-- The goroutine of a level goes on to another stage; the rest of the call stays as it is. -/
theorem Service.Running.move {p : Pipeline} (run : s.Running d n p) (now : p.returned = none) {level : Nat}
    (inside : level < p.started) {stage : Stage} {db : Database} {roots : Nat → List Bytes} (dbOk : s.DbOk d db)
    (others : ∀ l, l ≠ level → ∀ o, db.tiles s.height l o = p.db.tiles s.height l o)
    (ok : s.StageOk d n db level stage)
    (tiles : ∀ o < stage.sent (s.tileCount n level), s.TileDone d db level o)
    (above : (List.range (s.received n p level)).map (s.root d level) ++ roots level =
      (List.range (stage.sent (s.tileCount n level))).map (s.root d level))
    (below : ∀ l, l + 1 = level →
      (List.range (stage.taken s.tileWidth (s.tileCount n level))).map (s.root d l) ++ roots l =
        (List.range ((p.stage l).sent (s.tileCount n l))).map (s.root d l))
    (rest : ∀ l, l ≠ level → l + 1 ≠ level → roots l = p.roots l) :
    s.Running d n { p with db := db, stage := Function.update p.stage level stage, roots := roots } where
  err := run.err
  launched := run.launched
  idle l later := by
    have other : l ≠ level := by
      dsimp only at later
      omega
    dsimp only
    rw [Function.update_of_ne other]
    exact run.idle l later
  db := dbOk
  stages l := by
    dsimp only
    by_cases here : l = level
    · subst here
      rwa [Function.update_self]
    · rw [Function.update_of_ne here]
      exact stageOk_frame (run.stages l) (others l here)
  tiles l o := by
    dsimp only
    by_cases here : l = level
    · subst here
      rw [Function.update_self]
      exact tiles o
    · rw [Function.update_of_ne here]
      exact fun sent => (run.tiles l o sent).frame (others l here o)
  channels l bound := by
    by_cases here : l = level
    · subst here
      have same : s.received n { p with db := db, stage := Function.update p.stage l stage, roots := roots } l =
          s.received n p l := by
        simp only [Service.received, Function.update_of_ne (Nat.succ_ne_self l)]
      rw [same]
      simp only [Function.update_self]
      exact above
    · simp only [Function.update_of_ne here]
      by_cases next : l + 1 = level
      · subst next
        have bounded : l + 1 < s.goroutines n := Nat.lt_of_lt_of_le inside run.launched
        simp only [Service.received, if_pos bounded, Function.update_self]
        exact below l rfl
      · simp only [Service.received, Function.update_of_ne next, rest l here next]
        exact run.channels l bound
  back returned := absurd now returned

/-- Nothing is sent or received in a step of this kind. -/
theorem Service.Running.quiet {p : Pipeline} (run : s.Running d n p) (now : p.returned = none) {level : Nat}
    (inside : level < p.started) {stage : Stage} {db : Database} (dbOk : s.DbOk d db)
    (others : ∀ l, l ≠ level → ∀ o, db.tiles s.height l o = p.db.tiles s.height l o)
    (keeps : ∀ o, p.db.tiles s.height level o ≠ none → db.tiles s.height level o = p.db.tiles s.height level o)
    (ok : s.StageOk d n db level stage)
    (sent : stage.sent (s.tileCount n level) = (p.stage level).sent (s.tileCount n level))
    (taken : level ≠ 0 → stage.taken s.tileWidth (s.tileCount n level) =
      (p.stage level).taken s.tileWidth (s.tileCount n level)) :
    s.Running d n { p with db := db, stage := Function.update p.stage level stage } := by
  have bound : level < s.goroutines n := Nat.lt_of_lt_of_le inside run.launched
  refine run.move now inside dbOk others ok ?_ ?_ ?_ fun _ _ _ => rfl
  · intro o below
    rw [sent] at below
    have tile := run.tiles level o below
    exact tile.frame (keeps o tile.stored)
  · rw [sent]
    exact run.channels level bound
  · rintro l rfl
    have channel := run.channels l (by omega)
    rw [Service.received, if_pos bound] at channel
    rw [taken (Nat.succ_ne_zero l)]
    exact channel

theorem passRoot_eq (lawful : Compact.Lawful s.pkg) (p : Pipeline) (level offset : Nat) {hashes : List Bytes}
    (length : hashes.length = s.tileWidth) :
    s.passRoot level offset hashes p = p.goto level (.send offset (s.rootOver hashes)) := by
  unfold Service.passRoot
  rw [tileRoot_ok lawful offset length]

theorem readTile_running (lawful : Compact.Lawful s.pkg) {p : Pipeline} (run : s.Running d n p)
    (now : p.returned = none) {level offset : Nat} (inside : level < p.started)
    (at' : p.stage level = .start offset) (more : offset < s.tileCount n level) :
    s.Running d n (s.readTile level offset p) := by
  unfold Service.readTile
  by_cases missing : p.db.tiles s.height level offset = none
  · rw [tile_missing missing]
    simp only [if_true]
    refine run.quiet now inside run.db (fun _ _ _ => rfl) (fun _ _ => rfl) ?_ ?_ fun upper => ?_
    · by_cases leaves : level = 0
      · rw [if_pos leaves]
        exact ⟨leaves, more, missing⟩
      · rw [if_neg leaves]
        obtain ⟨below, rfl⟩ := Nat.exists_eq_succ_of_ne_zero leaves
        exact ⟨below, rfl, more, width_pos s, rfl, .inl ⟨rfl, missing⟩⟩
    · rw [at']
      split <;> rfl
    · rw [at', if_neg upper]
      rfl
  · rw [run.db.read missing]
    dsimp only
    by_cases leaves : level = 0
    · subst leaves
      rw [if_pos rfl, passRoot_eq lawful _ _ _ (content_length 0 offset)]
      refine run.quiet now inside run.db (fun _ _ _ => rfl) (fun _ _ => rfl) ?_ (by rw [at']; rfl) (absurd rfl)
      exact ⟨more, rfl, missing, nofun⟩
    · rw [if_neg leaves]
      refine run.quiet now inside run.db (fun _ _ _ => rfl) (fun _ _ => rfl) ?_ (by rw [at']; rfl)
        fun _ => by rw [at']; rfl
      obtain ⟨below, rfl⟩ := Nat.exists_eq_succ_of_ne_zero leaves
      exact ⟨below, rfl, more, width_pos s, rfl, .inr ⟨rfl, missing, rfl⟩⟩

/-- All leaves of a tile are there and are hashed, or the level fails. -/
theorem readLeaves_cases (s : Service) (level offset : Nat) (p : Pipeline) :
    s.Covered p.db.leaves 0 offset ∧
        s.readLeaves level offset p = p.goto level (.write offset (s.tileHashes p.db.leaves 0 offset)) ∨
      ¬ s.Covered p.db.leaves 0 offset ∧ ∃ reason, s.readLeaves level offset p = p.fail level reason := by
  unfold Service.readLeaves
  by_cases covered : s.Covered p.db.leaves 0 offset
  · have block := leafBlock_eq covered
    cases read : p.db.leafBlock (s.tileWidth * offset) s.tileWidth with
    | error reason =>
      rw [read] at block
      cases block
    | ok leaves =>
      rw [read] at block
      have hashes : leaves.map s.hasher.hashLeaf = s.tileHashes p.db.leaves 0 offset := Except.ok.inj block
      exact .inl ⟨covered, by rw [← hashes]⟩
  · obtain ⟨reason, read⟩ := leafBlock_short covered
    exact .inr ⟨covered, _, by rw [read]⟩

theorem readLeaves_running {p : Pipeline} (run : s.Running d n p) (now : p.returned = none) {level offset : Nat}
    (inside : level < p.started) (at' : p.stage level = .fill offset) :
    s.Running d n (s.readLeaves level offset p) ∨
      (s.readLeaves level offset p).err ≠ none ∧ ¬ s.LeavesReady d n := by
  have ok := run.stages level
  rw [at'] at ok
  obtain ⟨rfl, more, missing⟩ := ok
  rcases readLeaves_cases s 0 offset p with ⟨-, goes⟩ | ⟨covered, reason, fails⟩
  · rw [goes]
    have hashes : s.tileHashes p.db.leaves 0 offset = s.content d 0 offset := by
      simp only [Service.content, run.db.missing missing]
      rw [run.db.leaves]
    refine .inl (run.quiet now inside run.db (fun _ _ _ => rfl) (fun _ _ => rfl) ?_ (by rw [at']; rfl) (absurd rfl))
    exact ⟨more, hashes, missing⟩
  · rw [fails]
    refine .inr ⟨by simp [Pipeline.fail, run.err], fun ready => covered ?_⟩
    rw [run.db.leaves]
    exact ready offset (by rwa [tileCount_eq, span_zero] at more) (run.db.missing missing)

theorem writeTile_running (lawful : Compact.Lawful s.pkg) (rows : s.FullRows d) {p : Pipeline}
    (run : s.Running d n p) (now : p.returned = none) {level offset : Nat} {hashes : List Bytes}
    (inside : level < p.started) (at' : p.stage level = .write offset hashes) :
    s.Running d n (s.writeTile level offset hashes p) := by
  have ok := run.stages level
  rw [at'] at ok
  obtain ⟨more, rfl, missing⟩ := ok
  have sized := content_sized (s := s) rows level offset
  have length := content_length (s := s) (d := d) level offset
  have full : (s.content d level offset).flatten.length = s.tileWidth * hashLenBytes := by
    rw [flatten_sized sized, length]
    rfl
  unfold Service.writeTile Database.setTile
  rw [map_fit sized, if_neg (by rw [full]; exact not_not_intro rfl), missing]
  dsimp only
  rw [passRoot_eq lawful _ _ _ length]
  refine run.quiet now inside ⟨run.db.leaves, ?_, ?_⟩ ?_ ?_ ?_ (by rw [at']; rfl) fun _ => by rw [at']; rfl
  · intro l o stored
    have other : ¬ (s.height = s.height ∧ l = level ∧ o = offset) := by
      rintro ⟨-, rfl, rfl⟩
      exact stored (run.db.missing missing)
    exact (if_neg other).trans (run.db.kept l o stored)
  · intro l o blob stored
    dsimp only at stored
    split at stored
    next here =>
      obtain ⟨-, rfl, rfl⟩ := here
      cases stored
      exact ⟨full, chunks_flatten sized length⟩
    next => exact run.db.rows l o blob stored
  · intro l other o
    exact if_neg fun here => other here.2.1
  · intro o stored
    refine if_neg ?_
    rintro ⟨-, -, rfl⟩
    exact stored missing
  · refine ⟨more, rfl, by simp, ?_⟩
    rintro below rfl
    exact agrees_missing (run.db.missing missing)

theorem sendRoot_running {p p' : Pipeline} (run : s.Running d n p) (now : p.returned = none) {level offset : Nat}
    {root : Bytes} (inside : level < p.started) (at' : p.stage level = .send offset root)
    (sent : s.sendRoot level offset root p = some p') : s.Running d n p' := by
  have ok := run.stages level
  rw [at'] at ok
  obtain ⟨more, rfl, tile⟩ := ok
  unfold Service.sendRoot at sent
  split at sent
  next =>
    cases sent
    have bound : level < s.goroutines n := Nat.lt_of_lt_of_le inside run.launched
    have channel := run.channels level bound
    rw [at'] at channel
    refine run.move now inside run.db (fun _ _ _ => rfl) more ?_ ?_ ?_ fun l other _ =>
      Function.update_of_ne other _ _
    · intro o below
      rcases Nat.lt_succ_iff_lt_or_eq.mp below with earlier | rfl
      · exact run.tiles level o (by rw [at']; exact earlier)
      · exact tile
    · rw [Function.update_self, ← List.append_assoc, channel]
      simp [Stage.sent, List.range_succ]
    · rintro l rfl
      have input := run.channels l (by omega)
      rw [Service.received, if_pos bound, at'] at input
      rw [Function.update_of_ne (by omega)]
      exact input
  next => cases sent

/-- The next root is the one of the next tile below. -/
theorem next_root {p : Pipeline} (run : s.Running d n p) {below offset : Nat} {stored : Option (List Bytes)}
    {inHashes rest : List Bytes} {hash : Bytes} (bound : below + 1 < s.goroutines n)
    (at' : p.stage (below + 1) = .receive offset stored inHashes) (queue : p.roots below = hash :: rest) :
    hash = s.root d below (offset * s.tileWidth + inHashes.length) ∧
      (List.range (offset * s.tileWidth + inHashes.length + 1)).map (s.root d below) ++ rest =
        (List.range ((p.stage below).sent (s.tileCount n below))).map (s.root d below) := by
  have channel := run.channels below (by omega)
  rw [Service.received, if_pos bound, at', queue] at channel
  have head := congrArg (fun hashes => hashes[offset * s.tileWidth + inHashes.length]?) channel
  have value : hash = s.root d below (offset * s.tileWidth + inHashes.length) := by
    have inside : offset * s.tileWidth + inHashes.length < (p.stage below).sent (s.tileCount n below) := by
      have length := congrArg List.length channel
      simp [Stage.taken] at length
      omega
    simpa [Stage.taken, inside] using head
  refine ⟨value, ?_⟩
  rw [← channel, Stage.taken, List.range_succ, List.map_append, List.append_assoc, value]
  rfl

-- Every stage after a root was received has sent as much as before.
theorem received_running {p : Pipeline} (run : s.Running d n p) (now : p.returned = none) {below offset : Nat}
    {stored : Option (List Bytes)} {inHashes rest : List Bytes} (inside : below + 1 < p.started)
    (bound : below + 1 < s.goroutines n) (at' : p.stage (below + 1) = .receive offset stored inHashes)
    (others : (List.range (offset * s.tileWidth + inHashes.length + 1)).map (s.root d below) ++ rest =
      (List.range ((p.stage below).sent (s.tileCount n below))).map (s.root d below)) (stage : Stage)
    (fine : s.StageOk d n p.db (below + 1) stage) (sent : stage.sent (s.tileCount n (below + 1)) = offset)
    (took : stage.taken s.tileWidth (s.tileCount n (below + 1)) = offset * s.tileWidth + inHashes.length + 1) :
    s.Running d n (Pipeline.goto { p with roots := Function.update p.roots below rest } (below + 1) stage) := by
  refine run.move now inside run.db (fun _ _ _ => rfl) fine ?_ ?_ ?_ fun l _ other =>
    Function.update_of_ne (by omega) _ _
  · intro o earlier
    exact run.tiles _ o (by rwa [at', ← sent])
  · have channel := run.channels (below + 1) bound
    rw [at'] at channel
    dsimp only
    rw [Function.update_of_ne (Nat.succ_ne_self below), sent]
    exact channel
  · intro l next
    obtain rfl : l = below := by omega
    dsimp only
    rw [took, Function.update_self]
    exact others

theorem takeRoot_running (lawful : Compact.Lawful s.pkg) {p p' : Pipeline} (run : s.Running d n p)
    (now : p.returned = none) {level offset : Nat} {stored : Option (List Bytes)} {inHashes : List Bytes}
    (inside : level < p.started) (at' : p.stage level = .receive offset stored inHashes)
    (taken : s.takeRoot level offset stored inHashes p = some p') :
    s.Running d n p' ∨
      p'.err ≠ none ∧ ∃ below, ∃ o < s.tileCount n (below + 1), ¬ s.Agrees d below o := by
  have ok := run.stages level
  rw [at'] at ok
  obtain ⟨below, rfl, more, few, hashes, old⟩ := ok
  have bound : below + 1 < s.goroutines n := Nat.lt_of_lt_of_le inside run.launched
  obtain ⟨hash, rest, queue, received⟩ := takeRoot_cases taken
  rw [Nat.add_sub_cancel] at queue received
  obtain ⟨value, others⟩ := next_root run bound at' queue
  have longer : inHashes ++ [hash] =
      (List.range' (offset * s.tileWidth) (inHashes.length + 1)).map (s.root d below) := by
    rw [List.range'_concat, List.map_append, ← hashes, value]
    simp
  have goes := received_running run now inside bound at' others
  rcases received with ⟨db, present, differs, rfl⟩ | ⟨same, received⟩
  · rcases old with ⟨missing, -⟩ | ⟨held, -, -⟩
    · rw [missing] at present
      cases present
    obtain rfl := Option.some.inj (held.symm.trans present)
    refine .inr ⟨by simp [Pipeline.fail, run.err], below, offset, more, fun agrees => differs ?_⟩
    rw [agrees, Service.childRoots, value]
    simp [few]
  -- The tile that is stored has the hashes received so far, this one among them.
  have old' : stored = none ∧ p.db.tiles s.height (below + 1) offset = none ∨
      stored = some (s.content d (below + 1) offset) ∧ p.db.tiles s.height (below + 1) offset ≠ none ∧
        inHashes ++ [hash] = (s.content d (below + 1) offset).take (inHashes.length + 1) := by
    rcases old with missing | ⟨held, present, matched⟩
    · exact .inl missing
    refine .inr ⟨held, present, ?_⟩
    rw [List.take_add_one, same _ held, ← matched]
    rfl
  refine .inl ?_
  rcases received with ⟨room, rfl⟩ | ⟨full, rfl, rfl⟩ | ⟨full, ⟨db, held⟩, rfl⟩
  · refine goes _ ⟨below, rfl, more, ?_, ?_, ?_⟩ rfl ?_
    · simpa using room
    · simpa using longer
    · simpa using old'
    · simp [Stage.taken, Nat.add_assoc]
  · rcases old' with ⟨-, missing⟩ | ⟨wrong, -⟩
    swap
    · cases wrong
    rw [show inHashes.length + 1 = s.tileWidth by omega] at longer
    refine goes _ ⟨more, ?_, missing⟩ rfl ?_
    · rw [longer]
      exact (agrees_missing (run.db.missing missing)).symm
    · rw [Stage.taken, Nat.succ_mul]
      omega
  · rcases old' with ⟨wrong, -⟩ | ⟨-, present, all⟩
    · rw [wrong] at held
      cases held
    have last : inHashes.length + 1 = s.tileWidth := by omega
    rw [last] at longer
    rw [last, ← content_length (s := s) (d := d) (below + 1) offset, List.take_length] at all
    have agrees : s.Agrees d below offset := by
      rw [Service.Agrees, ← all]
      exact longer
    rw [all, passRoot_eq lawful _ _ _ (content_length _ _)]
    refine goes _ ⟨more, rfl, present, ?_⟩ rfl ?_
    · intro other next
      obtain rfl : below = other := by omega
      exact agrees
    · rw [Stage.taken, Nat.succ_mul]
      omega

end Steps

section Whole

variable {s : Service} {d : Database} {n : Nat}

-- What can stop a call: an operation that fails, leaves or tiles.
def Service.Trouble (s : Service) (d : Database) (n : Nat) : Prop :=
  ¬ s.LeavesReady d n ∨ ∃ below, ∃ o < s.tileCount n (below + 1), ¬ s.Agrees d below o

structure Service.Failed (s : Service) (p : Pipeline) : Prop where
  err : p.err ≠ none
  rows : s.FullRows p.db
  back : ∀ result, p.returned = some result → ∃ reason, result = .error reason

theorem Service.Running.rows {p : Pipeline} (run : s.Running d n p) : s.FullRows p.db :=
  fun level offset blob stored => (run.db.rows level offset blob stored).1

theorem work_running (lawful : Compact.Lawful s.pkg) (rows : s.FullRows d) {p p' : Pipeline}
    (run : s.Running d n p) (now : p.returned = none) {level : Nat} {fault : Option GoError}
    (inside : level < p.started) (worked : s.work n level fault p = some p') :
    s.Running d n p' ∨ p'.err ≠ none ∧ (fault ≠ none ∨ s.Trouble d n) := by
  have failed : ∀ reason, (p.fail level reason).err ≠ none := by simp [Pipeline.fail]
  unfold Service.work at worked
  split at worked
  next _ offset at' =>
    split at worked
    next more =>
      split at worked
      · cases worked
        exact .inr ⟨failed _, .inl (Option.some_ne_none _)⟩
      · cases worked
        exact .inl (readTile_running lawful run now inside at' more)
    next last =>
      cases worked
      have ok := run.stages level
      rw [at'] at ok
      obtain rfl : offset = s.tileCount n level := Nat.le_antisymm ok (Nat.not_lt.mp last)
      exact .inl (run.quiet now inside run.db (fun _ _ _ => rfl) (fun _ _ => rfl) trivial (by rw [at']; rfl)
        fun _ => by rw [at']; rfl)
  next =>
    cases worked
    exact .inr ⟨failed _, .inl (Option.some_ne_none _)⟩
  next offset at' =>
    cases worked
    exact (readLeaves_running run now inside at').imp_right fun short => ⟨short.1, .inr (.inl short.2)⟩
  next _ offset stored inHashes at' =>
    exact (takeRoot_running lawful run now inside at' worked).imp_right fun differs =>
      ⟨differs.1, .inr (.inr differs.2)⟩
  next =>
    cases worked
    exact .inr ⟨failed _, .inl (Option.some_ne_none _)⟩
  next offset hashes at' =>
    cases worked
    exact .inl (writeTile_running lawful rows run now inside at')
  next _ offset root at' => exact .inl (sendRoot_running run now inside at' worked)
  next => cases worked

/-- A step keeps a call running, unless something goes wrong in it. -/
theorem step_running (lawful : Compact.Lawful s.pkg) (rows : s.FullRows d) {p p' : Pipeline} {e : PipelineEvent}
    (run : s.Running d n p) (stepped : s.PipelineStep n p e p') :
    s.Running d n p' ∨ s.Failed p' ∧ (¬ e.Clean ∨ s.Trouble d n) := by
  obtain ⟨now, ⟨rfl, more, rfl⟩ | ⟨level, fault, rfl, inside, worked⟩ | ⟨rfl, finished, rfl⟩⟩ :=
    pipelineStep_cases stepped
  · exact .inl { run with launched := more, idle := fun l later => run.idle l (Nat.le_of_succ_le later) }
  · have move := work_move worked
    refine (work_running lawful rows run now inside worked).imp_right fun ⟨err, cause⟩ =>
      ⟨⟨err, move.fullRows run.rows, ?_⟩, cause⟩
    intro result back
    rw [move.returned run.rows, now] at back
    cases back
  · exact .inl { run with back := fun _ => ⟨by simp [run.err], finished⟩ }

theorem step_failed {p p' : Pipeline} {e : PipelineEvent} (failed : s.Failed p)
    (stepped : s.PipelineStep n p e p') : s.Failed p' := by
  obtain ⟨now, ⟨-, -, rfl⟩ | ⟨level, fault, -, -, worked⟩ | ⟨-, -, rfl⟩⟩ := pipelineStep_cases stepped
  · exact { failed with }
  · have move := work_move worked
    refine ⟨move.frame.err failed.err, move.fullRows failed.rows, fun result back => ?_⟩
    rw [move.returned failed.rows, now] at back
    cases back
  · refine { failed with back := fun result back => ?_ }
    obtain ⟨reason, first⟩ := Option.ne_none_iff_exists'.mp failed.err
    simp only [first] at back
    exact ⟨_, (Option.some.inj back).symm⟩

theorem init_running (rows : s.FullRows d) : s.Running d n (.init d) where
  err := rfl
  launched := Nat.zero_le _
  idle _ _ := rfl
  db := ⟨rfl, fun _ _ _ => rfl, fun level offset blob stored =>
    ⟨rows level offset blob stored, (content_stored stored).symm⟩⟩
  stages _ := Nat.zero_le _
  tiles _ _ none := absurd none (Nat.not_lt_zero _)
  channels level _ := by
    unfold Service.received
    split <;> simp [Pipeline.init, Stage.taken, Stage.sent]
  back returned := absurd rfl returned

/-- An entry of a stored tile above the leaves is not the root of the tile below it. -/
def Service.Disagrees (s : Service) (d : Database) (n : Nat) : Prop :=
  ∃ level, ∃ o < n / s.span (level + 1), ∃ blob, d.tiles s.height (level + 1) o = some blob ∧
    ∃ i < s.tileWidth, (s.chunks blob)[i]? ≠ some (s.root d level (o * s.tileWidth + i))

/-- Every entry of a complete tile above the leaves is the root of the tile below it. -/
def Service.RootsStored (s : Service) (db : Database) (n : Nat) : Prop :=
  ∀ level, ∀ o < n / s.span (level + 1), ∃ blob, db.tiles s.height (level + 1) o = some blob ∧
    ∀ i < s.tileWidth, ∃ child, db.tiles s.height level (o * s.tileWidth + i) = some child ∧
      (s.chunks blob)[i]? = some (s.rootOver (s.chunks child))

theorem childRoots_entry {level o i : Nat} (inside : i < s.tileWidth) :
    (s.childRoots d level o)[i]? = some (s.root d level (o * s.tileWidth + i)) := by
  simp [Service.childRoots, inside]

theorem disagrees_iff :
    s.Disagrees d n ↔ ∃ below, ∃ o < s.tileCount n (below + 1), ¬ s.Agrees d below o := by
  simp only [tileCount_eq]
  constructor
  · rintro ⟨level, o, complete, blob, stored, i, inside, differs⟩
    refine ⟨level, o, complete, fun agrees => differs ?_⟩
    rw [← content_stored stored, agrees, childRoots_entry inside]
  · rintro ⟨level, o, complete, differs⟩
    cases stored : d.tiles s.height (level + 1) o with
    | none => exact absurd (agrees_missing stored) differs
    | some blob =>
      refine ⟨level, o, complete, blob, stored, ?_⟩
      by_contra same
      push Not at same
      refine differs (List.ext_getElem? fun i => ?_)
      rw [content_stored stored]
      by_cases inside : i < s.tileWidth
      · rw [same i inside, childRoots_entry inside]
      · rw [List.getElem?_eq_none (by rw [chunks_length]; omega),
          List.getElem?_eq_none (by simp [Service.childRoots]; omega)]

/-- Once all goroutines are done every complete tile is stored over its children. -/
theorem Service.Running.rootsStored {p : Pipeline} (run : s.Running d n p)
    (finished : ∀ level < s.goroutines n, p.stage level = .done) : s.RootsStored p.db n := by
  have done : ∀ level, ∀ o < n / s.span level, s.TileDone d p.db level o := by
    intro level o complete
    refine run.tiles level o ?_
    rw [finished level (complete_level complete), Stage.sent, tileCount_eq]
    exact complete
  intro level o complete
  have tile := done (level + 1) o complete
  obtain ⟨blob, stored⟩ := Option.ne_none_iff_exists'.mp tile.stored
  refine ⟨blob, stored, fun i inside => ?_⟩
  have below : o * s.tileWidth + i < n / s.span level := by
    have tiles : (o + 1) * s.tileWidth ≤ n / s.span level := by
      rw [span_succ, ← Nat.div_div_eq_div_mul] at complete
      exact Nat.le_trans (Nat.mul_le_mul_right _ complete) (Nat.div_mul_le_self _ _)
    rw [Nat.succ_mul] at tiles
    omega
  obtain ⟨child, found⟩ := Option.ne_none_iff_exists'.mp (done level _ below).stored
  refine ⟨child, found, ?_⟩
  rw [(run.db.rows _ _ _ stored).2, (run.db.rows _ _ _ found).2, tile.agrees level rfl, childRoots_entry inside]
  rfl

theorem clean_running (lawful : Compact.Lawful s.pkg) (rows : s.FullRows d) (ready : s.LeavesReady d n)
    (same : ¬ s.Disagrees d n) {p p' : Pipeline} {e : PipelineEvent} (run : s.Running d n p) (clean : e.Clean)
    (stepped : s.PipelineStep n p e p') : s.Running d n p' := by
  rcases step_running lawful rows run stepped with next | ⟨-, fault | short | differs⟩
  · exact next
  · exact absurd clean fault
  · exact absurd ready short
  · exact absurd (disagrees_iff.mpr differs) same

-- While nothing fails all levels stay in balance.
theorem clean_balanced (lawful : Compact.Lawful s.pkg) (rows : s.FullRows d) (ready : s.LeavesReady d n)
    (same : ¬ s.Disagrees d n) {p p' : Pipeline} {e : PipelineEvent} (held : s.Running d n p ∧ s.Balanced n p)
    (clean : e.Clean) (stepped : s.PipelineStep n p e p') : s.Running d n p' ∧ s.Balanced n p' := by
  have next := clean_running lawful rows ready same held.1 clean stepped
  exact ⟨next, held.2.step ⟨stepped, fun level fails => absurd next.err (fails_err stepped fails)⟩⟩

theorem running_or_failed (lawful : Compact.Lawful s.pkg) (rows : s.FullRows d) {Allowed : PipelineEvent → Prop}
    {p : Pipeline} (reached : Reaches (s.PipelineStep n) Allowed (.init d) p) : s.Running d n p ∨ s.Failed p := by
  refine reached.keeps (fun p => s.Running d n p ∨ s.Failed p) (.inl (init_running rows)) ?_
  rintro p e p' - stepped (run | failed)
  · exact (step_running lawful rows run stepped).imp_right And.left
  · exact .inr (step_failed failed stepped)

/-- A call in which nothing fails can be run to its end, and returns nil. -/
theorem returns_nil (lawful : Compact.Lawful s.pkg) (rows : s.FullRows d) (ready : s.LeavesReady d n)
    (same : ¬ s.Disagrees d n) :
    ∃ p, Reaches (s.PipelineStep n) PipelineEvent.Clean (.init d) p ∧ p.returned = some (.ok ()) := by
  obtain ⟨p, reached, stuck, run, held⟩ := exists_stuck (Nat.lt_wfRel.wf)
    (fun p => s.Running d n p ∧ s.Balanced n p) (s.pipelineLeft n)
    (fun clean stepped now => ⟨clean_balanced lawful rows ready same now clean stepped,
      step_lowers now.2.launched now.2.shapes stepped⟩)
    (.init d) ⟨init_running rows, .init d⟩
  exact ⟨p, reached, (run.back (held.never_stuck stuck)).1⟩

/-- However the goroutines are scheduled, a call in which nothing fails comes to an end with all tiles stored,
and one over a tile that does not fit those below it never ends well. -/
theorem hashTiles_pipeline (s : Service) (lawful : Compact.Lawful s.pkg) (checkpoint : Checkpoint) (d : Database)
    (rows : s.FullRows d) :
    (s.LeavesReady d checkpoint.n → ¬ s.Disagrees d checkpoint.n →
      (∀ run : Nat → Pipeline, run 0 = .init d →
        ¬ ∀ i, ∃ e, PipelineEvent.Clean e ∧ s.PipelineStep checkpoint.n (run i) e (run (i + 1))) ∧
      ∀ p, Reaches (s.PipelineStep checkpoint.n) PipelineEvent.Clean (.init d) p →
        (Stuck (s.PipelineStep checkpoint.n) PipelineEvent.Clean p → p.returned ≠ none) ∧
        ∀ result, p.returned = some result → result = .ok () ∧ s.RootsStored p.db checkpoint.n) ∧
    (s.Disagrees d checkpoint.n → ∀ p, Reaches (s.PipelineStep checkpoint.n) (fun _ => True) (.init d) p →
      ∀ result, p.returned = some result → ∃ reason, result = .error reason) := by
  constructor
  · intro ready same
    refine ⟨no_endless_call d, fun p reached => ?_⟩
    · obtain ⟨run, held⟩ := reached.keeps (fun p => s.Running d checkpoint.n p ∧ s.Balanced checkpoint.n p)
        ⟨init_running rows, .init d⟩ fun clean stepped now => clean_balanced lawful rows ready same now clean stepped
      refine ⟨held.never_stuck, fun result back => ?_⟩
      obtain ⟨ok, finished⟩ := run.back (by rw [back]; exact Option.some_ne_none _)
      rw [back] at ok
      exact ⟨Option.some.inj ok, run.rootsStored finished⟩
  · intro differs p reached result back
    rcases running_or_failed lawful rows reached with run | failed
    · obtain ⟨-, finished⟩ := run.back (by rw [back]; exact Option.some_ne_none _)
      obtain ⟨below, o, complete, wrong⟩ := disagrees_iff.mp differs
      have tile := run.tiles (below + 1) o (by
        rw [finished _ (complete_level (by rwa [← tileCount_eq]))]
        exact complete)
      exact absurd (tile.agrees below rfl) wrong
    · exact failed.back result back

-- Four records in tiles of two, without tiles and with a tile of zeros above the leaves.
theorem leavesReady_four : pairs.LeavesReady { Database.empty with leaves := leafRows pairLeaves } 4 := by
  intro o below _ i _ inside
  have total : i < pairLeaves.length := by
    have tile : (o + 1) * pairs.span 0 ≤ 2 * pairs.span 0 := Nat.mul_le_mul_right _ below
    exact Nat.lt_of_lt_of_le inside tile
  exact fun missing => by simp [leafRows, total] at missing

theorem hashTiles_pipeline_four :
    (∀ p, Reaches (pairs.PipelineStep 4) PipelineEvent.Clean
        (.init { Database.empty with leaves := leafRows pairLeaves }) p →
      Stuck (pairs.PipelineStep 4) PipelineEvent.Clean p → p.returned ≠ none) ∧
    ∀ p, Reaches (pairs.PipelineStep 4) (fun _ => True)
        (.init { Database.empty with
          leaves := leafRows pairLeaves
          tiles := fun h l o => if h = 1 ∧ l = 1 ∧ o = 0 then some (List.replicate 64 0) else none }) p →
      ∀ result, p.returned = some result → ∃ reason, result = .error reason := by
  constructor
  · intro p reached
    refine (((hashTiles_pipeline pairs Compact.reference_lawful (pairNote [1, 2, 3, 4] (by decide))
      { Database.empty with leaves := leafRows pairLeaves } nofun).1 leavesReady_four ?_).2 p reached).1
    rintro ⟨level, o, -, blob, stored, -⟩
    cases stored
  · refine (hashTiles_pipeline pairs Compact.reference_lawful (pairNote [1, 2, 3, 4] (by decide)) _ ?_).2 ?_
    · intro level o blob stored
      dsimp only at stored
      split at stored
      · cases stored
        decide
      · cases stored
    · refine ⟨0, 0, by decide, List.replicate 64 0, rfl, 0, by decide, fun same => ?_⟩
      -- The hash of two children starts with another byte.
      rw [Service.root, Service.rootOver, treeHash_split _ _
        (by rw [List.length_map, content_length]; decide)] at same
      cases congrArg (fun hash : Option Bytes => hash.bind List.head?) same

end Whole

end Audit
