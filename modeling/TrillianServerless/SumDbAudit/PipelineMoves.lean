import TrillianServerless.SumDbAudit.Pipeline

set_option autoImplicit false

namespace Audit

open Go Sql Merkle

namespace Stage

-- A bound on the steps of a goroutine that are left.
def left (width tiles : Nat) : Stage → Nat
  | start offset => (tiles - offset) * (width + 4) + 1
  | fill offset => (tiles - offset) * (width + 4)
  | receive offset _ inHashes => (tiles - offset) * (width + 4) - inHashes.length
  | write offset _ => (tiles - offset) * (width + 4) - (width + 1)
  | send offset _ => (tiles - offset) * (width + 4) - (width + 2)
  | done => 0

end Stage

-- Where an operation of the database can fail.
def Stage.Busy (tiles : Nat) : Stage → Prop
  | start offset => offset < tiles
  | fill _ | write _ _ => True
  | receive _ _ _ | send _ _ | done => False

/-- What a step of a goroutine can do. -/
inductive Service.Move (s : Service) (n level : Nat) (p : Pipeline) : Pipeline → Prop
  | finish {offset : Nat} (at' : p.stage level = .start offset) (last : s.tileCount n level ≤ offset) :
      Move s n level p (p.goto level .done)
  -- The tile is not stored, or it is, and is compared with what comes from below.
  | missing {offset : Nat} (at' : p.stage level = .start offset) (more : offset < s.tileCount n level)
      (unset : p.db.tiles s.height level offset = none) :
      Move s n level p (p.goto level (if level = 0 then .fill offset else .receive offset none []))
  | found {offset : Nat} {hashes : List Bytes} (at' : p.stage level = .start offset)
      (more : offset < s.tileCount n level) (upper : level ≠ 0) :
      Move s n level p (p.goto level (.receive offset (some hashes) []))
  | known {offset : Nat} {hashes : List Bytes} {root : Bytes} (at' : p.stage level = .start offset)
      (more : offset < s.tileCount n level) (leaves : level = 0)
      (read : p.db.tile none s.height level offset = .ok hashes) :
      Move s n level p (p.goto level (.send offset root))
  | load {offset : Nat} {leaves : List Bytes} (at' : p.stage level = .fill offset)
      (read : p.db.leafBlock (s.tileWidth * offset) s.tileWidth = .ok leaves) :
      Move s n level p (p.goto level (.write offset (leaves.map s.hasher.hashLeaf)))
  | take {offset : Nat} {stored : Option (List Bytes)} {inHashes rest : List Bytes} {hash : Bytes}
      (at' : p.stage level = .receive offset stored inHashes) (queue : p.roots (level - 1) = hash :: rest)
      (room : inHashes.length + 1 < s.tileWidth) :
      Move s n level p (Pipeline.goto { p with roots := Function.update p.roots (level - 1) rest } level
        (.receive offset stored (inHashes ++ [hash])))
  | last {offset : Nat} {stored : Option (List Bytes)} {inHashes rest : List Bytes} {hash : Bytes} {stage : Stage}
      (at' : p.stage level = .receive offset stored inHashes) (queue : p.roots (level - 1) = hash :: rest)
      (full : s.tileWidth ≤ inHashes.length + 1)
      (next : stage = .write offset (inHashes ++ [hash]) ∨ ∃ root, stage = .send offset root) :
      Move s n level p (Pipeline.goto { p with roots := Function.update p.roots (level - 1) rest } level stage)
  | store {offset : Nat} {hashes : List Bytes} {root : Bytes} {db : Database}
      (at' : p.stage level = .write offset hashes)
      (written : Database.setTile s.height level offset (hashes.map LogHasher.fit).flatten p.db = (.ok (), db)) :
      Move s n level p (Pipeline.goto { p with db } level (.send offset root))
  | push {offset : Nat} {root : Bytes} (at' : p.stage level = .send offset root)
      (room : (p.roots level).length < s.tileWidth) :
      Move s n level p { p.goto level (.start (offset + 1)) with
        roots := Function.update p.roots level (p.roots level ++ [root]) }
  -- An operation fails, before or after the tile was stored.
  | fail {reason : GoError} {db : Database} (busy : (p.stage level).Busy (s.tileCount n level))
      (written : db = p.db ∨ ∃ offset hashes, p.stage level = .write offset hashes ∧
        Database.setTile s.height level offset (hashes.map LogHasher.fit).flatten p.db = (.ok (), db)) :
      Move s n level p (Pipeline.fail { p with db } level reason)
  | reject {offset : Nat} {stored : Option (List Bytes)} {inHashes rest : List Bytes} {hash : Bytes}
      {reason : GoError} (at' : p.stage level = .receive offset stored inHashes)
      (queue : p.roots (level - 1) = hash :: rest) :
      Move s n level p (Pipeline.fail { p with roots := Function.update p.roots (level - 1) rest } level reason)
  -- A row is too short for a tile.
  | crash {offset : Nat} {blob : Bytes} {reason : String} (stored : p.db.tiles s.height level offset = some blob)
      (short : blob.length < s.tileWidth * hashLenBytes) : Move s n level p (p.crash reason)

/-- How far a goroutine can be. -/
def Service.Shape (s : Service) (n level : Nat) : Stage → Prop
  | .start offset => offset ≤ s.tileCount n level
  | .fill offset => level = 0 ∧ offset < s.tileCount n level
  | .receive offset _ inHashes => level ≠ 0 ∧ offset < s.tileCount n level ∧ inHashes.length < s.tileWidth
  | .write offset _ | .send offset _ => offset < s.tileCount n level
  | .done => True

section Steps

variable {s : Service} {n level : Nat} {p p' : Pipeline}

-- What a level does with a root that it receives.
theorem takeRoot_cases {p p' : Pipeline} {level offset : Nat} {stored : Option (List Bytes)}
    {inHashes : List Bytes} (taken : s.takeRoot level offset stored inHashes p = some p') :
    ∃ hash rest, p.roots (level - 1) = hash :: rest ∧
      ((∃ db, stored = some db ∧ db[inHashes.length]? ≠ some hash ∧
        p' = Pipeline.fail { p with roots := Function.update p.roots (level - 1) rest } level
          (.text "got diffence in hash at L=%d, O=%d, leaf=%d")) ∨
      (∀ db, stored = some db → db[inHashes.length]? = some hash) ∧
        (inHashes.length + 1 < s.tileWidth ∧
          p' = Pipeline.goto { p with roots := Function.update p.roots (level - 1) rest } level
            (.receive offset stored (inHashes ++ [hash])) ∨
        s.tileWidth ≤ inHashes.length + 1 ∧ stored = none ∧
          p' = Pipeline.goto { p with roots := Function.update p.roots (level - 1) rest } level
            (.write offset (inHashes ++ [hash])) ∨
        s.tileWidth ≤ inHashes.length + 1 ∧ (∃ db, stored = some db) ∧
          p' = s.passRoot level offset (inHashes ++ [hash])
            { p with roots := Function.update p.roots (level - 1) rest })) := by
  unfold Service.takeRoot at taken
  split at taken
  next => cases taken
  next hash rest queue =>
    refine ⟨hash, rest, queue, ?_⟩
    dsimp only at taken
    split at taken
    next differs =>
      cases taken
      cases stored with
      | none => cases differs
      | some db => exact .inl ⟨db, rfl, by simpa using differs, rfl⟩
    next same =>
      refine .inr ⟨fun db held => by simpa [held] using same, ?_⟩
      split at taken
      next room =>
        cases taken
        exact .inl ⟨room, rfl⟩
      next full =>
        split at taken
        next db =>
          cases taken
          exact .inr (.inr ⟨Nat.le_of_not_lt full, ⟨db, rfl⟩, rfl⟩)
        next =>
          cases taken
          exact .inr (.inl ⟨Nat.le_of_not_lt full, rfl, rfl⟩)

theorem passRoot_cases (level offset : Nat) (hashes : List Bytes) (p : Pipeline) :
    (∃ root, s.passRoot level offset hashes p = p.goto level (.send offset root)) ∨
      ∃ reason, s.passRoot level offset hashes p = p.fail level reason := by
  unfold Service.passRoot Service.tileRoot
  split
  next root _ => exact .inl ⟨root, rfl⟩
  next reason _ => exact .inr ⟨reason, rfl⟩
  next reason panics => split at panics <;> cases panics

theorem readTile_move {offset : Nat} (at' : p.stage level = .start offset) (more : offset < s.tileCount n level) :
    s.Move n level p (s.readTile level offset p) := by
  unfold Service.readTile
  cases read : p.db.tile none s.height level offset with
  | ok hashes =>
    dsimp only
    by_cases leaves : level = 0
    · rw [if_pos leaves]
      rcases passRoot_cases level offset hashes p with ⟨root, passed⟩ | ⟨reason, failed⟩
      · rw [passed]
        exact .known at' more leaves read
      · rw [failed]
        exact .fail (by rw [at']; exact more) (.inl rfl)
    · rw [if_neg leaves]
      exact .found at' more leaves
  | error reason =>
    unfold Database.tile at read
    split at read
    next => contradiction
    next unset =>
      cases read
      simp only [if_true]
      exact .missing at' more unset
    next => unfold Database.splitTile at read; split at read <;> cases read
  | panic reason =>
    unfold Database.tile at read
    split at read
    next => contradiction
    next => cases read
    next blob stored =>
      unfold Database.splitTile at read
      split at read
      next short => exact .crash stored short
      next => cases read

theorem readLeaves_move {offset : Nat} (at' : p.stage level = .fill offset) :
    s.Move n level p (s.readLeaves level offset p) := by
  unfold Service.readLeaves
  split
  · exact .fail (by rw [at']; trivial) (.inl rfl)
  next leaves read => exact .load at' read

theorem takeRoot_move {offset : Nat} {stored : Option (List Bytes)} {inHashes : List Bytes}
    (at' : p.stage level = .receive offset stored inHashes)
    (taken : s.takeRoot level offset stored inHashes p = some p') : s.Move n level p p' := by
  obtain ⟨hash, rest, queue, ⟨-, -, -, rfl⟩ | ⟨-, ⟨room, rfl⟩ | ⟨full, -, rfl⟩ | ⟨full, -, rfl⟩⟩⟩ :=
    takeRoot_cases taken
  · exact .reject at' queue
  · exact .take at' queue room
  · exact .last at' queue full (.inl rfl)
  · rcases passRoot_cases level offset (inHashes ++ [hash])
      { p with roots := Function.update p.roots (level - 1) rest } with ⟨root, passed⟩ | ⟨reason, failed⟩
    · rw [passed]
      exact .last at' queue full (.inr ⟨root, rfl⟩)
    · rw [failed]
      exact .reject at' queue

theorem writeTile_move {offset : Nat} {hashes : List Bytes} (at' : p.stage level = .write offset hashes) :
    s.Move n level p (s.writeTile level offset hashes p) := by
  have busy : (p.stage level).Busy (s.tileCount n level) := by rw [at']; trivial
  unfold Service.writeTile
  split
  next db written =>
    rcases passRoot_cases level offset hashes { p with db } with ⟨root, passed⟩ | ⟨reason, failed⟩
    · rw [passed]
      exact .store at' written
    · rw [failed]
      exact .fail busy (.inr ⟨offset, hashes, at', written⟩)
  next reason db failed =>
    obtain rfl : db = p.db := by
      unfold Database.setTile at failed
      split at failed
      · cases failed
        rfl
      · split at failed <;> cases failed
        rfl
    exact .fail busy (.inl rfl)
  next reason db panics =>
    unfold Database.setTile at panics
    split at panics
    · cases panics
    · split at panics <;> cases panics

theorem sendRoot_move {offset : Nat} {root : Bytes} (at' : p.stage level = .send offset root)
    (sent : s.sendRoot level offset root p = some p') : s.Move n level p p' := by
  unfold Service.sendRoot at sent
  split at sent
  next room =>
    cases sent
    exact .push at' room
  next => cases sent

theorem work_move {fault : Option GoError} (worked : s.work n level fault p = some p') : s.Move n level p p' := by
  unfold Service.work at worked
  split at worked
  next _ offset at' =>
    split at worked
    next more =>
      split at worked
      · cases worked
        exact .fail (by rw [at']; exact more) (.inl rfl)
      · cases worked
        exact readTile_move at' more
    next last =>
      cases worked
      exact .finish at' (Nat.not_lt.mp last)
  next offset reason at' =>
    cases worked
    exact .fail (by rw [at']; trivial) (.inl rfl)
  next offset at' =>
    cases worked
    exact readLeaves_move at'
  next _ offset stored inHashes at' => exact takeRoot_move at' worked
  next offset hashes reason at' =>
    cases worked
    exact .fail (by rw [at']; trivial) (.inl rfl)
  next offset hashes at' =>
    cases worked
    exact writeTile_move at'
  next _ offset root at' => exact sendRoot_move at' worked
  next => cases worked

/-- What a step leaves as it is. -/
structure Service.Framed (s : Service) (level : Nat) (p p' : Pipeline) : Prop where
  started : p'.started = p.started
  err : p.err ≠ none → p'.err ≠ none
  stages : ∀ l, l ≠ level → p'.stage l = p.stage l
  roots : ∀ l, l ≠ level → l ≠ level - 1 → p'.roots l = p.roots l
  leaves : p'.db.leaves = p.db.leaves
  returned : p'.returned = p.returned ∨ (∃ reason, p'.returned = some (.panic reason)) ∧ ∃ offset blob,
    p.db.tiles s.height level offset = some blob ∧ blob.length < s.tileWidth * hashLenBytes

-- A row of a tile that a step adds.
theorem setTile_inserted {height l o : Nat} {hashes : Bytes} {d d' : Database}
    (written : Database.setTile height l o hashes d = (.ok (), d')) :
    hashes.length = 2 ^ height * hashLenBytes ∧ d.tiles height l o = none ∧
      d' = { d with
        tiles := fun h l' o' => if h = height ∧ l' = l ∧ o' = o then some hashes else d.tiles h l' o' } := by
  unfold Database.setTile at written
  split at written
  · cases written
  next wide =>
    split at written
    · cases written
    next unset =>
      cases written
      exact ⟨not_not.mp wide, unset, rfl⟩

theorem Service.Move.frame (move : s.Move n level p p') : s.Framed level p p' := by
  have others : ∀ (q : Pipeline) (stage : Stage), q.stage = p.stage →
      ∀ l, l ≠ level → (q.goto level stage).stage l = p.stage l := by
    intro q stage same l other
    rw [← same]
    exact Function.update_of_ne other _ _
  have failed : ∀ (q : Pipeline) (reason : GoError), (q.fail level reason).err ≠ none := by simp [Pipeline.fail]
  cases move with
  | finish | missing | found | known | load => exact ⟨rfl, id, others _ _ rfl, fun _ _ _ => rfl, rfl, .inl rfl⟩
  | take | last =>
    exact ⟨rfl, id, others _ _ rfl, fun _ _ away => Function.update_of_ne away _ _, rfl, .inl rfl⟩
  | store at' written =>
    obtain ⟨-, -, rfl⟩ := setTile_inserted written
    exact ⟨rfl, id, others _ _ rfl, fun _ _ _ => rfl, rfl, .inl rfl⟩
  | push => exact ⟨rfl, id, others p _ rfl, fun _ away _ => Function.update_of_ne away _ _, rfl, .inl rfl⟩
  | fail busy written =>
    refine ⟨rfl, fun _ => failed _ _, others _ _ rfl, fun _ _ _ => rfl, ?_, .inl rfl⟩
    rcases written with rfl | ⟨offset, hashes, -, written⟩
    · rfl
    · obtain ⟨-, -, rfl⟩ := setTile_inserted written
      rfl
  | reject =>
    exact ⟨rfl, fun _ => failed _ _, others _ _ rfl, fun _ _ away => Function.update_of_ne away _ _, rfl, .inl rfl⟩
  | crash stored short => exact ⟨rfl, id, fun _ _ => rfl, fun _ _ _ => rfl, rfl, .inr ⟨⟨_, rfl⟩, _, _, stored, short⟩⟩

/-- A step adds at most the tile that its level writes. -/
theorem Service.Move.tiles (move : s.Move n level p p') (l o : Nat) :
    p'.db.tiles s.height l o = p.db.tiles s.height l o ∨
      p.db.tiles s.height l o = none ∧ ∃ hashes, (l = level ∧ p.stage level = .write o hashes) ∧
        (hashes.map LogHasher.fit).flatten.length = s.tileWidth * hashLenBytes ∧
        p'.db.tiles s.height l o = some (hashes.map LogHasher.fit).flatten := by
  have added : ∀ {offset : Nat} {hashes : List Bytes} {db : Database}, p.stage level = .write offset hashes →
      Database.setTile s.height level offset (hashes.map LogHasher.fit).flatten p.db = (.ok (), db) →
      db.tiles s.height l o = p.db.tiles s.height l o ∨
        p.db.tiles s.height l o = none ∧ ∃ hashes, (l = level ∧ p.stage level = .write o hashes) ∧
          (hashes.map LogHasher.fit).flatten.length = s.tileWidth * hashLenBytes ∧
          db.tiles s.height l o = some (hashes.map LogHasher.fit).flatten := by
    intro offset hashes db at' written
    obtain ⟨wide, unset, rfl⟩ := setTile_inserted written
    by_cases here : l = level ∧ o = offset
    · obtain ⟨rfl, rfl⟩ := here
      exact .inr ⟨unset, hashes, ⟨rfl, at'⟩, wide, if_pos ⟨rfl, rfl, rfl⟩⟩
    · exact .inl (if_neg fun same => here same.2)
  cases move with
  | store at' written => exact added at' written
  | fail busy written =>
    rcases written with rfl | ⟨offset, hashes, at', written⟩
    · exact .inl rfl
    · exact added at' written
  | _ => exact .inl rfl

theorem Service.Move.fullRows (rows : s.FullRows p.db) (move : s.Move n level p p') :
    s.FullRows p'.db := by
  intro l o blob stored
  rcases move.tiles l o with same | ⟨-, new, -, wide, found⟩
  · exact rows l o blob (same ▸ stored)
  · rw [found] at stored
    cases stored
    exact wide

theorem Service.Move.returned (rows : s.FullRows p.db) (move : s.Move n level p p') :
    p'.returned = p.returned := by
  rcases move.frame.returned with same | ⟨-, offset, blob, stored, short⟩
  · exact same
  · rw [rows level offset blob stored] at short
    exact absurd short (Nat.lt_irrefl _)

theorem tiles_left {tiles offset : Nat} (width : Nat) (more : offset < tiles) :
    (tiles - (offset + 1)) * width + width = (tiles - offset) * width := by
  rw [← Nat.succ_mul, show (tiles - (offset + 1)).succ = tiles - offset by omega]

theorem Service.Move.lowers (move : s.Move n level p p') (shape : s.Shape n level (p.stage level)) :
    (p'.stage level).left s.tileWidth (s.tileCount n level) < (p.stage level).left s.tileWidth (s.tileCount n level) ∨
      ∃ reason, p' = p.crash reason ∧
        ∃ offset blob, p.db.tiles s.height level offset = some blob ∧ blob.length < s.tileWidth * hashLenBytes := by
  cases move with
  | crash stored short => exact .inr ⟨_, rfl, _, _, stored, short⟩
  | finish at' last =>
    refine .inl ?_
    simp [Pipeline.goto, at', Stage.left]
  | missing at' more unset =>
    refine .inl ?_
    rw [at']
    simp only [Pipeline.goto, Function.update_self]
    split <;> simp [Stage.left]
  | found at' more upper =>
    refine .inl ?_
    simp [Pipeline.goto, at', Stage.left]
  | known at' more leaves read =>
    have room := tiles_left (s.tileWidth + 4) more
    refine .inl ?_
    simp only [Pipeline.goto, at', Function.update_self, Stage.left]
    omega
  | load at' read =>
    rw [at'] at shape
    have room := tiles_left (s.tileWidth + 4) shape.2
    refine .inl ?_
    simp only [Pipeline.goto, at', Function.update_self, Stage.left]
    omega
  | take at' queue few =>
    rw [at'] at shape
    have room := tiles_left (s.tileWidth + 4) shape.2.1
    refine .inl ?_
    simp only [Pipeline.goto, at', Function.update_self, Stage.left, List.length_append, List.length_singleton]
    omega
  | last at' queue full next =>
    rw [at'] at shape
    have room := tiles_left (s.tileWidth + 4) shape.2.1
    have few := shape.2.2
    refine .inl ?_
    rcases next with rfl | ⟨root, rfl⟩
    all_goals
      simp only [Pipeline.goto, at', Function.update_self, Stage.left]
      omega
  | store at' written =>
    rw [at'] at shape
    have room := tiles_left (s.tileWidth + 4) shape
    refine .inl ?_
    simp only [Pipeline.goto, at', Function.update_self, Stage.left]
    omega
  | push at' few =>
    rw [at'] at shape
    have room := tiles_left (s.tileWidth + 4) shape
    refine .inl ?_
    simp only [Pipeline.goto, at', Function.update_self, Stage.left]
    omega
  | fail busy written =>
    refine .inl ?_
    simp only [Pipeline.fail, Pipeline.goto, Function.update_self, Stage.left]
    cases at' : p.stage level with
    | start offset => simp
    | fill offset =>
      rw [at'] at shape
      have room := tiles_left (s.tileWidth + 4) shape.2
      dsimp only
      omega
    | write offset hashes =>
      rw [at'] at shape
      have room := tiles_left (s.tileWidth + 4) shape
      dsimp only
      omega
    | receive | send | done => simp [at', Stage.Busy] at busy
  | reject at' queue =>
    rw [at'] at shape
    have room := tiles_left (s.tileWidth + 4) shape.2.1
    have few := shape.2.2
    refine .inl ?_
    simp only [Pipeline.fail, Pipeline.goto, at', Function.update_self, Stage.left]
    omega

theorem Service.Move.shape (move : s.Move n level p p') (shape : s.Shape n level (p.stage level)) :
    s.Shape n level (p'.stage level) := by
  cases move with
  | finish at' last => simp [Pipeline.goto, Service.Shape]
  | missing at' more unset =>
    simp only [Pipeline.goto, Function.update_self]
    split
    next leaves => exact ⟨leaves, more⟩
    next upper => exact ⟨upper, more, width_pos s⟩
  | found at' more upper =>
    simp only [Pipeline.goto, Function.update_self]
    exact ⟨upper, more, width_pos s⟩
  | known at' more leaves read => simpa [Pipeline.goto, Service.Shape] using more
  | load at' read =>
    rw [at'] at shape
    simpa [Pipeline.goto, Service.Shape] using shape.2
  | take at' queue few =>
    rw [at'] at shape
    simp only [Pipeline.goto, Function.update_self]
    exact ⟨shape.1, shape.2.1, by simpa using few⟩
  | last at' queue full next =>
    rw [at'] at shape
    rcases next with rfl | ⟨root, rfl⟩
    · simpa [Pipeline.goto, Service.Shape] using shape.2.1
    · simpa [Pipeline.goto, Service.Shape] using shape.2.1
  | store at' written =>
    rw [at'] at shape
    simpa [Pipeline.goto, Service.Shape] using shape
  | push at' few =>
    rw [at'] at shape
    simp only [Pipeline.goto, Function.update_self]
    exact Nat.succ_le_of_lt shape
  | fail | reject => simp [Pipeline.fail, Pipeline.goto, Service.Shape]
  | crash => exact shape

-- What a step finds and what it leaves.
theorem pipelineStep_cases {e : PipelineEvent} (stepped : s.PipelineStep n p e p') :
    p.returned = none ∧
      ((e = .launch ∧ p.started < s.goroutines n ∧ p' = { p with started := p.started + 1 }) ∨
      (∃ level fault, e = .work level fault ∧ level < p.started ∧ s.work n level fault p = some p') ∨
      (e = .wait ∧ (∀ level < s.goroutines n, p.stage level = .done) ∧ p' = { p with
        returned := some (match p.err with
          | none => .ok ()
          | some reason => .error (.wrap "failed to hash: %w" reason)) })) := by
  unfold Service.PipelineStep Service.pipelineStep at stepped
  split at stepped
  next => cases stepped
  next now =>
    obtain ⟨more, same⟩ := Option.ite_none_right_eq_some.mp stepped
    exact ⟨now, .inl ⟨rfl, more, (Option.some.inj same).symm⟩⟩
  next level fault now =>
    obtain ⟨inside, worked⟩ := Option.ite_none_right_eq_some.mp stepped
    exact ⟨now, .inr (.inl ⟨level, fault, rfl, inside, worked⟩)⟩
  next now =>
    obtain ⟨⟨-, all⟩, same⟩ := Option.ite_none_right_eq_some.mp stepped
    refine ⟨now, .inr (.inr ⟨rfl, ?_, (Option.some.inj same).symm⟩)⟩
    intro level inside
    have done := all level inside
    split at done
    next at' => exact at'
    next => cases done

/-- A goroutine can go on unless it has finished, waits for a root or waits for room. -/
theorem blocked_cases (blocked : s.work n level none p = none) :
    p.stage level = .done ∨
      (∃ offset stored inHashes, p.stage level = .receive offset stored inHashes ∧ p.roots (level - 1) = []) ∨
      ∃ offset root, p.stage level = .send offset root ∧ s.tileWidth ≤ (p.roots level).length := by
  unfold Service.work at blocked
  cases at' : p.stage level with
  | start offset =>
    simp only [at'] at blocked
    split at blocked <;> cases blocked
  | fill offset => simp [at'] at blocked
  | receive offset stored inHashes =>
    simp only [at', Service.takeRoot] at blocked
    split at blocked
    next empty => exact .inr (.inl ⟨offset, stored, inHashes, rfl, empty⟩)
    next =>
      split at blocked
      · cases blocked
      · split at blocked
        · cases blocked
        · split at blocked <;> cases blocked
  | write offset hashes => simp [at'] at blocked
  | send offset root =>
    simp only [at', Service.sendRoot] at blocked
    split at blocked
    · cases blocked
    next full => exact .inr (.inr ⟨offset, root, rfl, Nat.not_lt.mp full⟩)
  | done => exact .inl rfl

end Steps

end Audit
