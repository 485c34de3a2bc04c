import TrillianServerless.SumDbAudit.PipelineRun

set_option autoImplicit false

namespace Audit

open Go Sql Merkle Runs

namespace Service

variable (s : Service)

-- What a goroutine holds are hashes of stored leaves, and where it is going to write nothing is stored.
def StageSound (db : Database) (level : Nat) : Stage → Prop
  | .start _ | .done => True
  | .fill offset => db.tiles s.height level offset = none
  | .receive offset stored inHashes =>
    inHashes = (List.range' (offset * s.tileWidth) inHashes.length).map (s.tileNode db.leaves level) ∧
      (stored = none ∧ db.tiles s.height level offset = none ∨
        stored = some (s.tileHashes db.leaves level offset) ∧ s.Covered db.leaves level offset)
  | .write offset hashes =>
    hashes = s.tileHashes db.leaves level offset ∧ s.Covered db.leaves level offset ∧
      db.tiles s.height level offset = none
  | .send offset root => root = s.tileNode db.leaves (level + 1) offset ∧ s.Covered db.leaves level offset

/-- The roots that one level sends to the next come in order, and belong to tiles of stored leaves. -/
structure Flows (t : Table Bytes) (n level : Nat) (sender receiver : Stage) (roots : List Bytes) : Prop where
  order : roots = (List.range' (receiver.taken s.tileWidth (s.tileCount n (level + 1))) roots.length).map
    (s.tileNode t (level + 1))
  covered : ∀ o < receiver.taken s.tileWidth (s.tileCount n (level + 1)) + roots.length, s.Covered t level o
  sent : sender ≠ .done → sender.sent (s.tileCount n level) =
    receiver.taken s.tileWidth (s.tileCount n (level + 1)) + roots.length

/-- A call over tiles of stored leaves, in which levels may have failed. Channels matter while they are read. -/
structure Sound (d : Database) (n : Nat) (p : Pipeline) : Prop where
  launched : p.started ≤ s.goroutines n
  shapes : ∀ level, s.Shape n level (p.stage level)
  tables : p.db = { d with tiles := p.db.tiles }
  added : ∀ h l o, p.db.tiles h l o = d.tiles h l o ∨
    (h = s.height ∧ o < s.tileCount n l) ∧ d.tiles h l o = none
  tilesOk : s.TilesOk p.db
  stages : ∀ level, s.StageSound p.db level (p.stage level)
  channels : ∀ level, p.stage (level + 1) ≠ .done →
    s.Flows d.leaves n level (p.stage level) (p.stage (level + 1)) (p.roots level)
  finished : ∀ level, p.stage (level + 1) = .done →
    ∀ o < s.tileCount n (level + 1) * s.tileWidth, s.Covered d.leaves level o
  back : p.returned ≠ none → ∀ level < s.goroutines n, p.stage level = .done

end Service

section Steps

variable {s : Service} {d : Database} {n level : Nat} {p p' : Pipeline}

theorem Service.Sound.leaves (sound : s.Sound d n p) : p.db.leaves = d.leaves := by rw [sound.tables]

theorem stageSound_frame {db db' : Database} {stage : Stage} (sound : s.StageSound db level stage)
    (leaves : db'.leaves = db.leaves) (same : ∀ o, db'.tiles s.height level o = db.tiles s.height level o) :
    s.StageSound db' level stage := by
  cases stage with
  | start | done => trivial
  | fill offset => exact (same offset).trans sound
  | receive offset stored inHashes =>
    simp only [Service.StageSound, leaves, same] at sound ⊢
    exact sound
  | write offset hashes =>
    simp only [Service.StageSound, leaves, same] at sound ⊢
    exact sound
  | send offset root =>
    simp only [Service.StageSound, leaves] at sound ⊢
    exact sound

/-- The goroutine of a level goes on to another stage, and its channels change with it. -/
theorem Service.Sound.move (sound : s.Sound d n p) (now : p.returned = none) {stage : Stage}
    {roots : Nat → List Bytes} (started : p'.started = p.started)
    (stages : p'.stage = Function.update p.stage level stage) (channels : p'.roots = roots)
    (returned : p'.returned = p.returned) (shape : s.Shape n level stage) (tables : p'.db = { d with tiles := p'.db.tiles })
    (added : ∀ h l o, p'.db.tiles h l o = d.tiles h l o ∨ (h = s.height ∧ o < s.tileCount n l) ∧ d.tiles h l o = none)
    (tilesOk : s.TilesOk p'.db)
    (others : ∀ l, l ≠ level → ∀ o, p'.db.tiles s.height l o = p.db.tiles s.height l o)
    (own : s.StageSound p'.db level stage)
    (rest : ∀ l, l ≠ level → l + 1 ≠ level → roots l = p.roots l)
    (above : p.stage (level + 1) ≠ .done → s.Flows d.leaves n level stage (p.stage (level + 1)) (roots level))
    (below : ∀ b, b + 1 = level → stage ≠ .done → s.Flows d.leaves n b (p.stage b) stage (roots b))
    (ends : ∀ b, b + 1 = level → stage = .done →
      ∀ o < s.tileCount n (b + 1) * s.tileWidth, s.Covered d.leaves b o) : s.Sound d n p' := by
  subst channels
  have here : p'.stage level = stage := by rw [stages, Function.update_self]
  have other : ∀ l, l ≠ level → p'.stage l = p.stage l := fun l away => by rw [stages, Function.update_of_ne away]
  have leaves : p'.db.leaves = p.db.leaves := by rw [tables, sound.leaves]
  refine ⟨by rw [started]; exact sound.launched, fun l => ?_, tables, added, tilesOk, fun l => ?_, fun l => ?_,
    fun l => ?_, fun back => absurd (returned.trans now) back⟩
  · by_cases same : l = level
    · rw [same, here]
      exact shape
    · rw [other l same]
      exact sound.shapes l
  · by_cases same : l = level
    · rw [same, here]
      exact own
    · rw [other l same]
      exact stageSound_frame (sound.stages l) leaves (others l same)
  · by_cases same : l = level
    · subst same
      rw [here, other _ (Nat.succ_ne_self l)]
      exact above
    · by_cases next : l + 1 = level
      · rw [other l same, next, here]
        exact below l next
      · rw [other l same, other _ next, rest l same next]
        exact sound.channels l
  · by_cases next : l + 1 = level
    · rw [next, here]
      subst next
      exact ends l rfl
    · rw [other _ next]
      exact sound.finished l

/-- Nothing is sent or received in a step of this kind. -/
theorem Service.Sound.quiet (sound : s.Sound d n p) (now : p.returned = none) {stage : Stage}
    (started : p'.started = p.started) (stages : p'.stage = Function.update p.stage level stage)
    (channels : p'.roots = p.roots) (returned : p'.returned = p.returned) (shape : s.Shape n level stage)
    (tables : p'.db = { d with tiles := p'.db.tiles })
    (added : ∀ h l o, p'.db.tiles h l o = d.tiles h l o ∨ (h = s.height ∧ o < s.tileCount n l) ∧ d.tiles h l o = none)
    (tilesOk : s.TilesOk p'.db)
    (others : ∀ l, l ≠ level → ∀ o, p'.db.tiles s.height l o = p.db.tiles s.height l o)
    (own : s.StageSound p'.db level stage) (going : p.stage level ≠ .done) (goes : stage ≠ .done)
    (sent : stage.sent (s.tileCount n level) = (p.stage level).sent (s.tileCount n level))
    (taken : level ≠ 0 → stage.taken s.tileWidth (s.tileCount n level) =
      (p.stage level).taken s.tileWidth (s.tileCount n level)) : s.Sound d n p' := by
  refine sound.move now started stages channels returned shape tables added tilesOk others own (fun _ _ _ => rfl)
    (fun read => ?_) ?_ fun _ _ ended => absurd ended goes
  · have flows := sound.channels level read
    exact ⟨flows.order, flows.covered, fun _ => sent.trans (flows.sent going)⟩
  · rintro b rfl _
    have flows := sound.channels b going
    have same := taken (Nat.succ_ne_zero b)
    exact ⟨by rw [same]; exact flows.order, by rw [same]; exact flows.covered,
      fun running => by rw [same]; exact flows.sent running⟩

-- A level ends, and nobody below it is in its debt.
theorem Service.Sound.ended (sound : s.Sound d n p) (now : p.returned = none)
    (started : p'.started = p.started) (stages : p'.stage = Function.update p.stage level .done)
    (channels : p'.roots = p.roots) (returned : p'.returned = p.returned) (same : p'.db = p.db)
    (ends : ∀ b, b + 1 = level → ∀ o < s.tileCount n (b + 1) * s.tileWidth, s.Covered d.leaves b o) :
    s.Sound d n p' := by
  refine sound.move now started stages channels returned trivial (by rw [same]; exact sound.tables)
    (by rw [same]; exact sound.added) (by rw [same]; exact sound.tilesOk) (fun _ _ _ => by rw [same]) trivial
    (fun _ _ _ => rfl) (fun read => ?_) (fun _ _ running => absurd rfl running) fun b next _ => ends b next
  have flows := sound.channels level read
  exact ⟨flows.order, flows.covered, fun running => absurd rfl running⟩

theorem passRoot_sound (lawful : Compact.Lawful s.pkg) (t : Table Bytes) (offset : Nat) (p : Pipeline) :
    s.passRoot level offset (s.tileHashes t level offset) p =
      p.goto level (.send offset (s.tileNode t (level + 1) offset)) := by
  unfold Service.passRoot
  rw [tileRoot_eq lawful]

theorem readTile_sound (lawful : Compact.Lawful s.pkg) (sound : s.Sound d n p) (now : p.returned = none) {offset : Nat}
    (at' : p.stage level = .start offset) (more : offset < s.tileCount n level) :
    s.Sound d n (s.readTile level offset p) ∧ (s.readTile level offset p).stage level ≠ .done := by
  have going : p.stage level ≠ .done := by simp [at']
  have goes : ∀ stage, s.Shape n level stage → s.StageSound p.db level stage → stage ≠ .done →
      stage.sent (s.tileCount n level) = offset →
      (level ≠ 0 → stage.taken s.tileWidth (s.tileCount n level) = offset * s.tileWidth) →
      s.Sound d n (p.goto level stage) ∧ (p.goto level stage).stage level ≠ .done := by
    intro stage shape own running sent taken
    refine ⟨sound.quiet now rfl rfl rfl rfl shape sound.tables sound.added sound.tilesOk (fun _ _ _ => rfl) own going
      running ?_ fun upper => ?_, by simpa [Pipeline.goto] using running⟩
    · rw [sent, at']
      rfl
    · rw [taken upper, at']
      rfl
  unfold Service.readTile
  by_cases missing : p.db.tiles s.height level offset = none
  · rw [tile_missing missing]
    simp only [if_true]
    by_cases leaves : level = 0
    · rw [if_pos leaves]
      exact goes _ ⟨leaves, more⟩ missing (by simp) rfl fun upper => absurd leaves upper
    · rw [if_neg leaves]
      exact goes _ ⟨leaves, more, width_pos s⟩ ⟨rfl, .inl ⟨rfl, missing⟩⟩ (by simp) rfl fun _ => rfl
  · obtain ⟨blob, stored⟩ := Option.ne_none_iff_exists'.mp missing
    have covered := (sound.tilesOk level offset blob stored).1
    rw [tile_eq sound.tilesOk missing]
    dsimp only
    by_cases leaves : level = 0
    · rw [if_pos leaves, passRoot_sound lawful]
      exact goes _ more ⟨rfl, covered⟩ (by simp) rfl fun upper => absurd leaves upper
    · rw [if_neg leaves]
      exact goes _ ⟨leaves, more, width_pos s⟩ ⟨rfl, .inr ⟨rfl, covered⟩⟩ (by simp) rfl fun _ => rfl

/-- The leaves of a tile are all there, or the leaf level fails. -/
theorem readLeaves_sound (sound : s.Sound d n p) (now : p.returned = none) {offset : Nat}
    (at' : p.stage level = .fill offset) :
    s.Sound d n (s.readLeaves level offset p) ∧
      ((s.readLeaves level offset p).stage level = .done → level = 0 ∧ ¬ s.Covered d.leaves 0 offset) := by
  have shape := sound.shapes level
  have unset := sound.stages level
  rw [at'] at shape unset
  obtain ⟨rfl, more⟩ := shape
  rcases readLeaves_cases s 0 offset p with ⟨covered, goes⟩ | ⟨covered, reason, fails⟩
  · rw [goes]
    refine ⟨sound.quiet now rfl rfl rfl rfl more sound.tables sound.added sound.tilesOk (fun _ _ _ => rfl)
      ⟨rfl, covered, unset⟩ (by simp [at']) (by simp) (by rw [at']; rfl) (absurd rfl), fun ended => ?_⟩
    simp [Pipeline.goto] at ended
  · rw [fails]
    exact ⟨sound.ended now rfl rfl rfl rfl rfl (fun b next => absurd next (Nat.succ_ne_zero b)), fun _ => ⟨rfl, sound.leaves ▸ covered⟩⟩

theorem writeTile_sound (lawful : Compact.Lawful s.pkg) (sound : s.Sound d n p) (now : p.returned = none) {offset : Nat}
    {hashes : List Bytes} (at' : p.stage level = .write offset hashes) :
    s.Sound d n (s.writeTile level offset hashes p) ∧ (s.writeTile level offset hashes p).stage level ≠ .done := by
  have more := sound.shapes level
  have own := sound.stages level
  rw [at'] at more own
  obtain ⟨rfl, covered, unset⟩ := own
  have free : d.tiles s.height level offset = none := by
    rcases sound.added s.height level offset with same | ⟨-, free⟩
    · rw [← same, unset]
    · exact free
  obtain ⟨db, kept, written⟩ := setTile_ok sound.tilesOk unset covered
  obtain ⟨-, -, rfl⟩ := setTile_inserted written
  unfold Service.writeTile
  rw [map_fit (tileHashes_sized s _ _ _), written]
  dsimp only
  rw [passRoot_sound lawful]
  refine ⟨sound.quiet now rfl rfl rfl rfl more ?_ ?_ kept ?_ ⟨rfl, covered⟩ (by simp [at']) (by simp) (by rw [at']; rfl)
    fun _ => by rw [at']; rfl, by simp [Pipeline.goto]⟩
  · rw [sound.tables]
    rfl
  · intro h l o
    by_cases here : h = s.height ∧ l = level ∧ o = offset
    · obtain ⟨rfl, rfl, rfl⟩ := here
      exact .inr ⟨⟨rfl, more⟩, free⟩
    · refine (sound.added h l o).imp_left fun same => ?_
      exact (if_neg here).trans same
  · intro l other o
    exact if_neg fun here => other here.2.1

theorem sendRoot_sound (sound : s.Sound d n p) (now : p.returned = none) {offset : Nat} {root : Bytes}
    (at' : p.stage level = .send offset root) (sent : s.sendRoot level offset root p = some p') :
    s.Sound d n p' ∧ p'.stage level ≠ .done := by
  have more := sound.shapes level
  have own := sound.stages level
  rw [at'] at more own
  obtain ⟨rfl, covered⟩ := own
  unfold Service.sendRoot at sent
  split at sent
  next =>
    cases sent
    refine ⟨sound.move now rfl rfl rfl rfl more sound.tables sound.added sound.tilesOk (fun _ _ _ => rfl) trivial
      (fun l other _ => Function.update_of_ne other _ _) (fun read => ?_) ?_ (fun _ _ ended => absurd ended (by simp)),
      by simp [Pipeline.goto]⟩
    · have flows := sound.channels level read
      have next := flows.sent (by simp [at'])
      rw [at'] at next
      simp only [Stage.sent] at next
      dsimp only
      rw [Function.update_self]
      refine ⟨?_, fun o below => ?_, fun _ => ?_⟩
      · rw [List.length_append, List.length_singleton, List.range'_concat, List.map_append, ← flows.order,
          Nat.one_mul, ← next, sound.leaves, List.map_singleton]
      · rw [List.length_append, List.length_singleton, ← Nat.add_assoc, ← next] at below
        rcases Nat.lt_succ_iff_lt_or_eq.mp below with earlier | rfl
        · exact flows.covered o (by omega)
        · exact sound.leaves ▸ covered
      · simp only [Stage.sent, List.length_append, List.length_singleton]
        omega
    · rintro b rfl _
      have flows := sound.channels b (by simp [at'])
      rw [at'] at flows
      dsimp only
      rw [Function.update_of_ne (Nat.ne_of_lt (Nat.lt_succ_self b))]
      exact ⟨flows.order, flows.covered, flows.sent⟩
  next => cases sent

-- All tiles below a tile are of stored leaves, so it is.
theorem covered_children {t : Table Bytes} {below offset : Nat}
    (children : ∀ o < (offset + 1) * s.tileWidth, s.Covered t below o) : s.Covered t (below + 1) offset := by
  intro i lower upper
  have positive := span_pos s below
  rw [span_succ, Nat.mul_comm (s.span below), ← Nat.mul_assoc] at upper
  refine children (i / s.span below) (Nat.div_lt_of_lt_mul (by rwa [Nat.mul_comm])) i (Nat.div_mul_le_self _ _) ?_
  rw [Nat.succ_mul, Nat.mul_comm]
  exact Nat.lt_mul_div_succ i positive

theorem next_node (sound : s.Sound d n p) {b offset : Nat} {stored : Option (List Bytes)} {inHashes rest : List Bytes}
    {hash : Bytes} (at' : p.stage (b + 1) = .receive offset stored inHashes) (queue : p.roots b = hash :: rest) :
    hash = s.tileNode p.db.leaves (b + 1) (offset * s.tileWidth + inHashes.length) ∧
      rest = (List.range' (offset * s.tileWidth + inHashes.length + 1) rest.length).map
        (s.tileNode d.leaves (b + 1)) := by
  have order := (sound.channels b (by simp [at'])).order
  rw [at', queue, List.length_cons, List.range'_succ, List.map_cons] at order
  obtain ⟨value, behind⟩ := List.cons.inj order
  rw [sound.leaves]
  exact ⟨value, behind⟩

-- Whatever comes after a root was received has taken one root more.
theorem received_sound (sound : s.Sound d n p) (now : p.returned = none) {b offset : Nat}
    {stored : Option (List Bytes)} {inHashes rest : List Bytes} {hash : Bytes}
    (at' : p.stage (b + 1) = .receive offset stored inHashes) (queue : p.roots b = hash :: rest) (stage : Stage)
    (shape : s.Shape n (b + 1) stage) (own : s.StageSound p.db (b + 1) stage) (running : stage ≠ .done)
    (sent : stage.sent (s.tileCount n (b + 1)) = offset)
    (took : stage.taken s.tileWidth (s.tileCount n (b + 1)) = offset * s.tileWidth + inHashes.length + 1) :
    s.Sound d n (Pipeline.goto { p with roots := Function.update p.roots b rest } (b + 1) stage) ∧
      (Pipeline.goto { p with roots := Function.update p.roots b rest } (b + 1) stage).stage (b + 1) ≠ .done := by
  refine ⟨sound.move now rfl rfl rfl rfl shape sound.tables sound.added sound.tilesOk (fun _ _ _ => rfl) own
    (fun l _ next => Function.update_of_ne (by omega) _ _) (fun read => ?_) ?_ (fun _ _ ended => absurd ended running),
    by simpa [Pipeline.goto] using running⟩
  · have out := sound.channels (b + 1) read
    dsimp only [Pipeline.goto]
    rw [Function.update_of_ne (Nat.succ_ne_self b)]
    refine ⟨out.order, out.covered, fun _ => ?_⟩
    rw [sent, ← out.sent (by simp [at']), at']
    rfl
  · intro l next _
    obtain rfl : l = b := by omega
    obtain ⟨-, covered, count⟩ := sound.channels l (by simp [at'])
    rw [at', queue] at covered count
    simp only [Stage.taken, List.length_cons] at covered count
    dsimp only [Pipeline.goto]
    rw [Function.update_self]
    refine ⟨by rw [took]; exact (next_node sound at' queue).2, fun o below => covered o (by omega), fun going => ?_⟩
    rw [count going, took]
    omega

/-- The next root is that of the next tile below, and a stored tile has it. -/
theorem takeRoot_sound (lawful : Compact.Lawful s.pkg) (sound : s.Sound d n p) (now : p.returned = none) {offset : Nat}
    {stored : Option (List Bytes)} {inHashes : List Bytes} (at' : p.stage level = .receive offset stored inHashes)
    (taken : s.takeRoot level offset stored inHashes p = some p') : s.Sound d n p' ∧ p'.stage level ≠ .done := by
  have shape := sound.shapes level
  have own := sound.stages level
  rw [at'] at shape own
  obtain ⟨upper, more, few⟩ := shape
  obtain ⟨hashes, old⟩ := own
  obtain ⟨b, rfl⟩ := Nat.exists_eq_add_one_of_ne_zero upper
  obtain ⟨hash, rest, queue, received⟩ := takeRoot_cases taken
  rw [Nat.add_sub_cancel] at queue received
  obtain ⟨value, -⟩ := next_node sound at' queue
  have longer : inHashes ++ [hash] =
      (List.range' (offset * s.tileWidth) (inHashes.length + 1)).map (s.tileNode p.db.leaves (b + 1)) := by
    rw [List.range'_concat, List.map_append, ← hashes, value]
    simp
  have goes := received_sound sound now at' queue
  have full : s.tileWidth ≤ inHashes.length + 1 → inHashes ++ [hash] = s.tileHashes p.db.leaves (b + 1) offset ∧
      s.Covered p.db.leaves (b + 1) offset ∧ (offset + 1) * s.tileWidth = offset * s.tileWidth + inHashes.length + 1 := by
    intro last
    have width : inHashes.length + 1 = s.tileWidth := by omega
    have covered := (sound.channels b (by simp [at'])).covered
    rw [at', queue] at covered
    refine ⟨by rw [longer, width, Service.tileHashes], ?_, by rw [Nat.succ_mul]; omega⟩
    rw [sound.leaves]
    refine covered_children fun o below => covered o ?_
    rw [Nat.succ_mul] at below
    simp only [Stage.taken, List.length_cons]
    omega
  rcases received with ⟨db, present, differs, rfl⟩ | ⟨-, ⟨room, rfl⟩ | ⟨last, rfl, rfl⟩ | ⟨last, ⟨db, held⟩, rfl⟩⟩
  · -- A stored tile is that of the leaves, so no root differs from it.
    rcases old with ⟨missing, -⟩ | ⟨held, -⟩
    · rw [missing] at present
      cases present
    · obtain rfl := Option.some.inj (held.symm.trans present)
      refine absurd ?_ differs
      rw [value]
      simp [Service.tileHashes, few]
  · exact goes _ ⟨upper, more, by simpa using room⟩ ⟨by simpa using longer, old⟩ (by simp) rfl
      (by simp [Stage.taken, Nat.add_assoc])
  · obtain ⟨all, covered, took⟩ := full last
    rcases old with ⟨-, missing⟩ | ⟨wrong, -⟩
    · exact goes _ more ⟨all, covered, missing⟩ (by simp) rfl took
    · cases wrong
  · obtain ⟨all, covered, took⟩ := full last
    rw [all, passRoot_sound lawful]
    exact goes _ more ⟨rfl, covered⟩ (by simp) rfl took

-- A level that ends has gone through its tiles, or is that of the leaves and misses some.
theorem work_sound (lawful : Compact.Lawful s.pkg) (sound : s.Sound d n p) (now : p.returned = none)
    (worked : s.work n level none p = some p') :
    s.Sound d n p' ∧ (s.Fails n level p p' → level = 0 ∧ ∃ offset, p.stage 0 = .fill offset ∧
      ¬ s.Covered d.leaves 0 offset) := by
  have goes : s.Sound d n p' ∧ p'.stage level ≠ .done → s.Sound d n p' ∧ (s.Fails n level p p' → level = 0 ∧
      ∃ offset, p.stage 0 = .fill offset ∧ ¬ s.Covered d.leaves 0 offset) := fun next =>
    ⟨next.1, fun fails => absurd fails.ended next.2⟩
  cases at' : p.stage level with
  | start offset =>
    simp only [Service.work, at'] at worked
    split at worked
    next more =>
      cases worked
      exact goes (readTile_sound lawful sound now at' more)
    next last =>
      cases worked
      refine ⟨sound.ended now rfl rfl rfl rfl rfl ?_, fun fails => absurd (fails.early offset at') last⟩
      rintro b rfl o below
      have flows := sound.channels b (by simp [at'])
      have all := Nat.mul_le_mul_right s.tileWidth (Nat.not_lt.mp last)
      rw [at'] at flows
      exact flows.covered o (Nat.lt_of_lt_of_le below (Nat.le_trans all (Nat.le_add_right _ _)))
  | fill offset =>
    simp only [Service.work, at', Option.some.injEq] at worked
    subst worked
    obtain ⟨next, short⟩ := readLeaves_sound sound now at'
    refine ⟨next, fun fails => ?_⟩
    obtain ⟨rfl, uncovered⟩ := short fails.ended
    exact ⟨rfl, offset, at', uncovered⟩
  | receive offset stored inHashes =>
    simp only [Service.work, at'] at worked
    exact goes (takeRoot_sound lawful sound now at' worked)
  | write offset hashes =>
    simp only [Service.work, at', Option.some.injEq] at worked
    subst worked
    exact goes (writeTile_sound lawful sound now at')
  | send offset root =>
    simp only [Service.work, at'] at worked
    exact goes (sendRoot_sound sound now at' worked)
  | done => simp [Service.work, at'] at worked

/-- A step in which the database works keeps a call sound. Only the leaf level can fail, over missing leaves. -/
theorem step_sound (lawful : Compact.Lawful s.pkg) (sound : s.Sound d n p) {e : PipelineEvent} (clean : e.Clean)
    (stepped : s.PipelineStep n p e p') :
    s.Sound d n p' ∧ ∀ level, s.Fails n level p p' → level = 0 ∧ ∃ offset, p.stage 0 = .fill offset ∧
      ¬ s.Covered d.leaves 0 offset := by
  obtain ⟨now, ⟨-, more, rfl⟩ | ⟨l, fault, rfl, inside, worked⟩ | ⟨-, all, rfl⟩⟩ := pipelineStep_cases stepped
  · exact ⟨{ sound with launched := more }, fun level fails => absurd fails.ended fails.going⟩
  · obtain rfl : fault = none := clean
    obtain ⟨next, fails⟩ := work_sound lawful sound now worked
    refine ⟨next, fun level failed => ?_⟩
    obtain rfl : level = l := by
      by_contra away
      exact failed.going (((work_move worked).frame.stages level away).symm.trans failed.ended)
    exact fails failed
  · exact ⟨{ sound with back := fun _ => all }, fun level fails => absurd fails.ended fails.going⟩

theorem Service.Sound.init (ok : s.TilesOk d) : s.Sound d n (.init d) where
  launched := Nat.zero_le _
  shapes _ := Nat.zero_le _
  tables := rfl
  added _ _ _ := .inl rfl
  tilesOk := ok
  stages _ := trivial
  channels level _ := by
    refine ⟨rfl, fun o below => ?_, fun _ => ?_⟩
    · simp [Pipeline.init, Stage.taken] at below
    · simp [Pipeline.init, Stage.taken, Stage.sent]
  finished _ ended := by cases ended
  back returned := absurd rfl returned

theorem hashing_sound (lawful : Compact.Lawful s.pkg) (ok : s.TilesOk d)
    (reached : Reaches (s.PipelineStep n) PipelineEvent.Clean (.init d) p) : s.Sound d n p :=
  reached.keeps (s.Sound d n) (.init ok) fun clean stepped sound => (step_sound lawful sound clean stepped).1

end Steps

section Results

variable {s : Service} {d : Database} {n : Nat} {p : Pipeline}

/-- The leaves below every complete tile of the second level are stored. -/
def Service.Rooted (s : Service) (t : Table Bytes) (n : Nat) : Prop := Service.Filled t (n / s.span 1 * s.span 1)

theorem filled_iff {t : Table Bytes} {count : Nat} :
    Service.Filled t (count * s.tileWidth) ↔ ∀ o < count, s.Covered t 0 o := by
  constructor
  · intro filled o below
    refine covered_of_filled filled ?_
    rw [span_zero]
    exact Nat.mul_le_mul_right _ below
  · intro covered i below
    refine covered (i / s.tileWidth) (Nat.div_lt_of_lt_mul (by rwa [Nat.mul_comm])) i ?_ ?_
    · rw [span_zero]
      exact Nat.div_mul_le_self _ _
    · rw [span_zero, Nat.succ_mul, Nat.mul_comm]
      exact Nat.lt_mul_div_succ i (width_pos s)

theorem rooted_iff {t : Table Bytes} :
    s.Rooted t n ↔ ∀ o < s.tileCount n 1 * s.tileWidth, s.Covered t 0 o := by
  rw [Service.Rooted, ← filled_iff, tileCount_eq, span_succ, span_zero, Nat.mul_assoc]

theorem rooted_of_filled {t : Table Bytes} (filled : Service.Filled t (n / s.tileWidth * s.tileWidth)) :
    s.Rooted t n := by
  refine rooted_iff.mpr fun o below => filled_iff.mp filled o (Nat.lt_of_lt_of_le below ?_)
  exact Nat.div_mul_le_self _ _

theorem wanted_taken {level : Nat} {stage : Stage} (shape : s.Shape n level stage) (going : stage ≠ .done) :
    stage.wanted s.tileWidth (s.tileCount n level) + stage.taken s.tileWidth (s.tileCount n level) =
      s.tileCount n level * s.tileWidth := by
  have split : ∀ offset ≤ s.tileCount n level,
      (s.tileCount n level - offset) * s.tileWidth + offset * s.tileWidth = s.tileCount n level * s.tileWidth := by
    intro offset inside
    rw [← Nat.add_mul, Nat.sub_add_cancel inside]
  cases stage with
  | start offset => exact split offset shape
  | fill offset => exact split offset (Nat.le_of_lt shape.2)
  | receive offset stored inHashes =>
    obtain ⟨-, more, few⟩ := shape
    have sum := split offset (Nat.le_of_lt more)
    have tile := tiles_left s.tileWidth more
    simp only [Stage.wanted, Stage.taken]
    omega
  | write offset hashes => exact split (offset + 1) shape
  | send offset root => exact split (offset + 1) shape
  | done => exact absurd rfl going

-- The leaf level does no harm when it fails behind all that the level above waits for.
theorem Service.Sound.harmless (sound : s.Sound d n p) (rooted : s.Rooted d.leaves n) {offset : Nat}
    (at' : p.stage 0 = .fill offset) (uncovered : ¬ s.Covered d.leaves 0 offset) : s.Harmless n p 0 := by
  have behind : s.tileCount n (0 + 1) * s.tileWidth ≤ offset := by
    by_contra inside
    exact uncovered (rooted_iff.mp rooted offset (Nat.lt_of_not_le inside))
  refine ⟨?_, nofun⟩
  rw [Service.wantedAbove, Service.wanted]
  split
  next =>
    by_cases read : p.stage (0 + 1) = .done
    · rw [read]
      exact Nat.zero_le _
    · have sent := (sound.channels 0 read).sent (by simp [at'])
      have sum := wanted_taken (sound.shapes (0 + 1)) read
      rw [at'] at sent
      simp only [Stage.sent] at sent
      omega
  next => exact Nat.zero_le _

/-- A call in which the database works returns, however it is scheduled, exactly if it gets the roots that the level
above the leaves waits for. -/
theorem hashing_returns_iff (lawful : Compact.Lawful s.pkg) (ok : s.TilesOk d) :
    (∀ p, Reaches (s.PipelineStep n) PipelineEvent.Clean (.init d) p →
      Stuck (s.PipelineStep n) PipelineEvent.Clean p → p.returned ≠ none) ↔ s.Rooted d.leaves n := by
  constructor
  · intro returns
    obtain ⟨p, reached, stuck, -⟩ := exists_stuck (Nat.lt_wfRel.wf)
      (fun p => p.started ≤ s.goroutines n ∧ ∀ level, s.Shape n level (p.stage level)) (s.pipelineLeft n)
      (fun _ stepped held => ⟨shapes_step held stepped, step_lowers held.1 held.2 stepped⟩) (.init d)
      ⟨Nat.zero_le _, fun _ => Nat.zero_le _⟩
    have sound := hashing_sound lawful ok reached
    refine rooted_iff.mpr fun o below => sound.finished 0 (sound.back (returns p reached stuck) 1 ?_) o below
    have some' : 0 < s.tileCount n 1 := Nat.pos_of_mul_pos_right (Nat.zero_lt_of_lt below)
    rw [tileCount_eq] at some'
    exact complete_level some'
  · intro rooted p reached
    have held := reached.keeps (fun p => s.Sound d n p ∧ s.Balanced n p) ⟨.init ok, .init d⟩ (by
      rintro p e p' clean stepped ⟨sound, balanced⟩
      obtain ⟨next, fails⟩ := step_sound lawful sound clean stepped
      refine ⟨next, balanced.step ⟨stepped, fun level failed => ?_⟩⟩
      obtain ⟨rfl, offset, at', uncovered⟩ := fails level failed
      exact sound.harmless rooted at' uncovered)
    exact held.2.never_stuck

/-- What hashTiles makes of a database: the complete tiles that were not there are stored. -/
def Service.hashed (s : Service) (d : Database) (n : Nat) : Database :=
  { d with
    tiles := fun h l o =>
      if h = s.height ∧ o < n / s.span l ∧ d.tiles h l o = none then some (s.tileHashes d.leaves l o).flatten
      else d.tiles h l o }

theorem fullRows_ok (ok : s.TilesOk d) : s.FullRows d := by
  intro level offset blob stored
  rw [(ok level offset blob stored).2, flatten_sized (tileHashes_sized s _ _ _), tileHashes_length]
  rfl

theorem rootOver_tileHashes (lawful : Compact.Lawful s.pkg) (t : Table Bytes) (level i : Nat) :
    s.rootOver (s.tileHashes t level i) = s.tileNode t (level + 1) i := by
  have root := tileRoot_eq lawful t level i
  rw [tileRoot_ok lawful i (tileHashes_length s _ _ _)] at root
  exact Outcome.ok.inj root

theorem content_tileHashes (lawful : Compact.Lawful s.pkg) (ok : s.TilesOk d) (level offset : Nat) :
    s.content d level offset = s.tileHashes d.leaves level offset := by
  have stored : ∀ level offset blob, d.tiles s.height level offset = some blob →
      s.chunks blob = s.tileHashes d.leaves level offset := by
    intro level offset blob found
    rw [(ok level offset blob found).2]
    exact chunks_flatten (tileHashes_sized s _ _ _) (tileHashes_length s _ _ _)
  induction level generalizing offset with
  | zero =>
    unfold Service.content
    split
    next blob found => exact stored 0 offset blob found
    next => rfl
  | succ level ih =>
    unfold Service.content
    split
    next blob found => exact stored _ offset blob found
    next => exact List.map_congr_left fun i _ => by rw [ih i, rootOver_tileHashes lawful]

theorem agrees_ok (lawful : Compact.Lawful s.pkg) (ok : s.TilesOk d) : ¬ s.Disagrees d n := by
  rw [disagrees_iff]
  rintro ⟨below, o, -, differs⟩
  refine differs ?_
  rw [Service.Agrees, content_tileHashes lawful ok]
  exact List.map_congr_left fun i _ => by
    rw [Service.root, content_tileHashes lawful ok, rootOver_tileHashes lawful]

-- The tiles of a call in which no level has failed.
theorem Service.Running.stored (run : s.Running d n p) (back : p.returned ≠ none) {level o : Nat}
    (complete : o < n / s.span level) : p.db.tiles s.height level o ≠ none := by
  refine (run.tiles level o ?_).stored
  rw [(run.back back).2 level (complete_level complete), Stage.sent, tileCount_eq]
  exact complete

theorem Service.Sound.db_eq (sound : s.Sound d n p)
    (stored : ∀ level, ∀ o < n / s.span level, p.db.tiles s.height level o ≠ none) : p.db = s.hashed d n := by
  rw [sound.tables, Service.hashed]
  congr 1
  funext h l o
  have added := sound.added h l o
  rw [tileCount_eq] at added
  split
  next here =>
    obtain ⟨rfl, complete, unset⟩ := here
    obtain ⟨blob, found⟩ := Option.ne_none_iff_exists'.mp (stored l o complete)
    rw [found, (sound.tilesOk l o blob found).2, sound.leaves]
  next elsewhere =>
    rcases added with same | ⟨⟨rfl, complete⟩, unset⟩
    · exact same
    · exact absurd ⟨rfl, complete, unset⟩ elsewhere

/-- A call that returns nil has hashed the leaves of all complete tiles, and leaves one database whatever the schedule
was. Another one returns an error. -/
theorem hashing_outcome (lawful : Compact.Lawful s.pkg) (ok : s.TilesOk d)
    (reached : Reaches (s.PipelineStep n) PipelineEvent.Clean (.init d) p) {result : Outcome Unit}
    (back : p.returned = some result) :
    (result = .ok () ∧ Service.Filled d.leaves (n / s.tileWidth * s.tileWidth) ∧ p.db = s.hashed d n) ∨
      ¬ Service.Filled d.leaves (n / s.tileWidth * s.tileWidth) ∧ ∃ reason, result = .error reason := by
  have rows := fullRows_ok ok
  have sound := hashing_sound lawful ok reached
  have returned : p.returned ≠ none := by rw [back]; exact Option.some_ne_none _
  by_cases filled : Service.Filled d.leaves (n / s.tileWidth * s.tileWidth)
  · have ready : s.LeavesReady d n := fun o complete _ => filled_iff.mp filled o complete
    have run := reached.keeps (s.Running d n) (init_running rows) fun clean stepped now =>
      clean_running lawful rows ready (agrees_ok lawful ok) now clean stepped
    have nil := (run.back returned).1
    rw [back] at nil
    exact .inl ⟨Option.some.inj nil, filled, sound.db_eq fun _ _ complete => run.stored returned complete⟩
  · refine .inr ⟨filled, ?_⟩
    rcases running_or_failed lawful rows reached with run | failed
    · refine absurd (filled_iff.mpr fun o complete => ?_) filled
      rw [← span_zero] at complete
      obtain ⟨blob, found⟩ := Option.ne_none_iff_exists'.mp (run.stored returned complete)
      rw [← sound.leaves]
      exact (sound.tilesOk 0 o blob found).1
    · exact failed.back result back

/-- With all leaves there is such a call. -/
theorem hashing_ok (lawful : Compact.Lawful s.pkg) (ok : s.TilesOk d)
    (filled : Service.Filled d.leaves (n / s.tileWidth * s.tileWidth)) :
    ∃ p, Reaches (s.PipelineStep n) PipelineEvent.Clean (.init d) p ∧ p.returned = some (.ok ()) ∧
      p.db = s.hashed d n := by
  obtain ⟨p, reached, returned⟩ := returns_nil lawful (fullRows_ok ok)
    (fun o complete _ => filled_iff.mp filled o complete) (agrees_ok lawful ok)
  obtain ⟨-, -, db⟩ | ⟨short, -⟩ := hashing_outcome lawful ok reached returned
  · exact ⟨p, reached, returned, db⟩
  · exact absurd filled short

-- All complete tiles are there, and none is of other leaves.
theorem hashed_spec (ok : s.TilesOk d) (filled : Service.Filled d.leaves (n / s.tileWidth * s.tileWidth)) :
    s.TilesOk (s.hashed d n) ∧
      (∀ level o, d.tiles s.height level o ≠ none → (s.hashed d n).tiles s.height level o ≠ none) ∧
      ∀ level, ∀ o < n / s.span level, (s.hashed d n).tiles s.height level o ≠ none := by
  refine ⟨fun level o blob found => ?_, fun level o stored => ?_, fun level o complete => ?_⟩
  · dsimp only [Service.hashed] at found
    split at found
    next here =>
      cases found
      refine ⟨covered_of_filled filled ?_, rfl⟩
      have tiles : n / s.span level * 2 ^ (level * s.height) ≤ n / s.tileWidth := by
        rw [Nat.le_div_iff_mul_le (width_pos s), Nat.mul_assoc, Nat.mul_comm _ s.tileWidth, ← unit_span]
        exact Nat.div_mul_le_self _ _
      calc (o + 1) * s.span level
        _ ≤ n / s.span level * s.span level := Nat.mul_le_mul_right _ here.2.1
        _ = n / s.span level * 2 ^ (level * s.height) * s.tileWidth := by
          rw [Nat.mul_assoc, Nat.mul_comm _ s.tileWidth, ← unit_span]
        _ ≤ n / s.tileWidth * s.tileWidth := Nat.mul_le_mul_right _ tiles
    next => exact ok level o blob found
  · exact (if_neg fun here => stored here.2.2).trans_ne stored
  · dsimp only [Service.hashed]
    split
    next => exact Option.some_ne_none _
    next elsewhere => exact fun unset => elsewhere ⟨rfl, complete, unset⟩

end Results

end Audit
