import Mathlib.Algebra.Order.BigOperators.Group.Finset
import TrillianServerless.Shared.Runs
import TrillianServerless.SumDbAudit.PipelineMoves

set_option autoImplicit false

namespace Audit

open Go Sql Merkle Runs

namespace Stage

-- How many roots a goroutine has still to send, and how many it still waits for.
def owed (tiles : Nat) : Stage → Nat
  | start offset | fill offset | receive offset _ _ | write offset _ | send offset _ => tiles - offset
  | done => 0

def wanted (width tiles : Nat) : Stage → Nat
  | start offset | fill offset => (tiles - offset) * width
  | receive offset _ inHashes => (tiles - offset) * width - inHashes.length
  | write offset _ | send offset _ => (tiles - (offset + 1)) * width
  | done => 0

-- A root that does not fit is taken before its level fails.
def taking : Stage → Nat
  | receive _ _ _ => 1
  | _ => 0

end Stage

namespace Service

variable (s : Service) (n : Nat)

def owed (p : Pipeline) (level : Nat) : Nat := (p.stage level).owed (s.tileCount n level)

def wanted (p : Pipeline) (level : Nat) : Nat := (p.stage level).wanted s.tileWidth (s.tileCount n level)

-- What the level above still waits for.
def wantedAbove (p : Pipeline) (level : Nat) : Nat :=
  if level + 1 < s.goroutines n then s.wanted n p (level + 1) else 0

/-- Every level can get the roots it waits for and get rid of those it has to send. -/
structure Balanced (p : Pipeline) : Prop where
  launched : p.started ≤ s.goroutines n
  shapes : ∀ level, s.Shape n level (p.stage level)
  capacity : ∀ level, (p.roots level).length ≤ s.tileWidth
  feeds : ∀ level, level + 1 < s.goroutines n → s.wanted n p (level + 1) ≤ (p.roots level).length + s.owed n p level
  drains : ∀ level < s.goroutines n, (p.roots level).length + s.owed n p level ≤ s.tileWidth + s.wantedAbove n p level

/-- The goroutine of the level ends before it has gone through its tiles. -/
structure Fails (level : Nat) (p p' : Pipeline) : Prop where
  ended : p'.stage level = .done
  going : p.stage level ≠ .done
  early : ∀ offset, p.stage level = .start offset → offset < s.tileCount n level

/-- The level above has all the roots it still waits for in its channel, and the channel from the level below has
room for all that are still to come. -/
structure Harmless (p : Pipeline) (level : Nat) : Prop where
  above : s.wantedAbove n p level ≤ (p.roots level).length
  below : ∀ below, level = below + 1 →
    (p.roots below).length + s.owed n p below ≤ s.tileWidth + (p.stage level).taking

def HarmlessStep (p : Pipeline) (e : PipelineEvent) (p' : Pipeline) : Prop :=
  s.PipelineStep n p e p' ∧ ∀ level, s.Fails n level p p' → s.Harmless n p level

/-- hashTiles has not returned, and nobody can go on. -/
def Hangs (p : Pipeline) : Prop := p.returned = none ∧ Stuck (s.PipelineStep n) (fun _ => True) p

end Service

section Balance

variable {s : Service} {n level : Nat} {p p' : Pipeline}

/-- A level goes to another stage, and its channels change with it. -/
theorem Service.Balanced.move (held : s.Balanced n p) (bound : level < s.goroutines n) {stage : Stage}
    {roots : Nat → List Bytes}
    (started : p'.started = p.started) (stages : p'.stage = Function.update p.stage level stage)
    (channels : p'.roots = roots) (shape : s.Shape n level stage)
    (rest : ∀ l, l ≠ level → l + 1 ≠ level → roots l = p.roots l)
    (capacity : ∀ l, (roots l).length ≤ s.tileWidth)
    (feeds : s.wantedAbove n p level ≤ (roots level).length + stage.owed (s.tileCount n level))
    (drains : (roots level).length + stage.owed (s.tileCount n level) ≤ s.tileWidth + s.wantedAbove n p level)
    (below : ∀ b, b + 1 = level →
      stage.wanted s.tileWidth (s.tileCount n level) ≤ (roots b).length + s.owed n p b ∧
        (roots b).length + s.owed n p b ≤ s.tileWidth + stage.wanted s.tileWidth (s.tileCount n level)) :
    s.Balanced n p' := by
  subst channels
  have own : p'.stage level = stage := by rw [stages, Function.update_self]
  have other : ∀ l, l ≠ level → p'.stage l = p.stage l := fun l away => by rw [stages, Function.update_of_ne away]
  have owed : ∀ l, l ≠ level → s.owed n p' l = s.owed n p l := fun l away => by
    rw [Service.owed, Service.owed, other l away]
  have wanted : ∀ l, l ≠ level → s.wanted n p' l = s.wanted n p l := fun l away => by
    rw [Service.wanted, Service.wanted, other l away]
  have above : ∀ l, l + 1 ≠ level → s.wantedAbove n p' l = s.wantedAbove n p l := fun l away => by
    rw [Service.wantedAbove, Service.wantedAbove, wanted _ away]
  refine ⟨by rw [started]; exact held.launched, fun l => ?_, capacity, fun l inside => ?_, fun l inside => ?_⟩
  · by_cases here : l = level
    · rw [here, own]
      exact shape
    · rw [other l here]
      exact held.shapes l
  · by_cases here : l = level
    · subst here
      rw [Service.wantedAbove, if_pos inside] at feeds
      rw [wanted _ (Nat.succ_ne_self l), Service.owed, own]
      exact feeds
    · by_cases next : l + 1 = level
      · rw [owed l here, Service.wanted, next, own]
        exact (below l next).1
      · rw [owed l here, wanted _ next, rest l here next]
        exact held.feeds l inside
  · by_cases here : l = level
    · subst here
      rw [above l (Nat.succ_ne_self l), Service.owed, own]
      exact drains
    · by_cases next : l + 1 = level
      · rw [owed l here, Service.wantedAbove, if_pos (by rwa [next]), Service.wanted, next, own]
        exact (below l next).2
      · rw [owed l here, above l next, rest l here next]
        exact held.drains l inside

theorem Service.Balanced.feedsAbove (held : s.Balanced n p) (level : Nat) :
    s.wantedAbove n p level ≤ (p.roots level).length + s.owed n p level := by
  rw [Service.wantedAbove]
  split
  next inside => exact held.feeds level inside
  next => exact Nat.zero_le _

-- Nothing is sent or received in a step of this kind.
theorem Service.Balanced.quiet (held : s.Balanced n p) (bound : level < s.goroutines n) {stage : Stage}
    (started : p'.started = p.started) (stages : p'.stage = Function.update p.stage level stage)
    (channels : p'.roots = p.roots) (shape : s.Shape n level stage)
    (owed : stage.owed (s.tileCount n level) = s.owed n p level)
    (wanted : level ≠ 0 → stage.wanted s.tileWidth (s.tileCount n level) = s.wanted n p level) :
    s.Balanced n p' := by
  refine held.move bound started stages channels shape (fun _ _ _ => rfl) held.capacity ?_ ?_ fun b next => ?_
  · rw [owed]
    exact held.feedsAbove level
  · rw [owed]
    exact held.drains level bound
  · subst next
    have drains := held.drains b (by omega)
    rw [Service.wantedAbove, if_pos bound] at drains
    rw [wanted (Nat.succ_ne_zero b)]
    exact ⟨held.feeds b bound, drains⟩

/-- A root is taken from the channel below. -/
theorem Service.Balanced.taken (held : s.Balanced n p) {b : Nat} (bound : b + 1 < s.goroutines n) {stage : Stage}
    {hash : Bytes} {rest : List Bytes} (queue : p.roots b = hash :: rest) (started : p'.started = p.started)
    (stages : p'.stage = Function.update p.stage (b + 1) stage)
    (channels : p'.roots = Function.update p.roots b rest) (shape : s.Shape n (b + 1) stage)
    (owed : stage.owed (s.tileCount n (b + 1)) = s.owed n p (b + 1))
    (wanted : stage.wanted s.tileWidth (s.tileCount n (b + 1)) + 1 = s.wanted n p (b + 1)) : s.Balanced n p' := by
  have count : (p.roots b).length = rest.length + 1 := by rw [queue, List.length_cons]
  have upper : Function.update p.roots b rest (b + 1) = p.roots (b + 1) :=
    Function.update_of_ne (Nat.succ_ne_self b) _ _
  refine held.move bound started stages channels shape (fun l _ next => Function.update_of_ne (by omega) _ _)
    (fun l => ?_) ?_ ?_ fun l next => ?_
  · have before := held.capacity l
    by_cases here : l = b
    · subst here
      rw [Function.update_self]
      omega
    · rwa [Function.update_of_ne here]
  · rw [upper, owed]
    exact held.feedsAbove _
  · rw [upper, owed]
    exact held.drains _ bound
  · obtain rfl : l = b := by omega
    have feeds := held.feeds l bound
    have drains := held.drains l (by omega)
    rw [Service.wantedAbove, if_pos bound] at drains
    rw [Function.update_self]
    omega

/-- A root is put into the channel above. -/
theorem Service.Balanced.pushed (held : s.Balanced n p) (bound : level < s.goroutines n) {stage : Stage}
    {root : Bytes}
    (room : (p.roots level).length < s.tileWidth) (started : p'.started = p.started)
    (stages : p'.stage = Function.update p.stage level stage)
    (channels : p'.roots = Function.update p.roots level (p.roots level ++ [root])) (shape : s.Shape n level stage)
    (owed : stage.owed (s.tileCount n level) + 1 = s.owed n p level)
    (wanted : stage.wanted s.tileWidth (s.tileCount n level) = s.wanted n p level) : s.Balanced n p' := by
  have count : (Function.update p.roots level (p.roots level ++ [root]) level).length =
      (p.roots level).length + 1 := by
    rw [Function.update_self, List.length_append, List.length_singleton]
  have feeds := held.feedsAbove level
  have drains := held.drains level bound
  refine held.move bound started stages channels shape (fun l away _ => Function.update_of_ne away _ _) (fun l => ?_)
    (by omega) (by omega) fun b next => ?_
  · by_cases here : l = level
    · subst here
      rw [count]
      exact room
    · rw [Function.update_of_ne here]
      exact held.capacity l
  · subst next
    have drained := held.drains b (by omega)
    rw [Service.wantedAbove, if_pos bound] at drained
    rw [Function.update_of_ne (Nat.ne_of_lt (Nat.lt_succ_self b)), wanted]
    exact ⟨held.feeds b bound, drained⟩

/-- A level that ends early leaves its neighbours balanced if it does them no harm. -/
theorem Service.Balanced.failed (held : s.Balanced n p) (bound : level < s.goroutines n)
    (harmless : s.Harmless n p level) {roots : Nat → List Bytes} (started : p'.started = p.started)
    (stages : p'.stage = Function.update p.stage level .done) (channels : p'.roots = roots)
    (own : roots level = p.roots level) (rest : ∀ l, l + 1 ≠ level → roots l = p.roots l)
    (taken : ∀ b, b + 1 = level → (roots b).length + (p.stage level).taking ≤ (p.roots b).length) :
    s.Balanced n p' := by
  refine held.move bound started stages channels trivial (fun l _ next => rest l next)
    (fun l => ?_) ?_ ?_ fun b next => ?_
  · have before := held.capacity l
    by_cases next : l + 1 = level
    · have fewer := taken l next
      omega
    · rwa [rest l next]
  · rw [own]
    exact harmless.above
  · rw [own]
    have full := held.capacity level
    simp only [Stage.owed]
    omega
  · have room := harmless.below b next.symm
    have fewer := taken b next
    simp only [Stage.wanted]
    omega

theorem Service.Balanced.work (held : s.Balanced n p) (inside : level < p.started) (step : s.Move n level p p')
    (harmless : s.Fails n level p p' → s.Harmless n p level) : s.Balanced n p' := by
  have bound : level < s.goroutines n := Nat.lt_of_lt_of_le inside held.launched
  have shape := held.shapes level
  have after := step.shape shape
  cases step with
  | finish at' last =>
    rw [at'] at shape
    have none : s.tileCount n level - _ = 0 := Nat.sub_eq_zero_of_le last
    refine held.quiet bound rfl rfl rfl trivial ?_ fun _ => ?_
    · rw [Service.owed, at']
      exact none.symm
    · rw [Service.wanted, at']
      simp only [Stage.wanted, none, Nat.zero_mul]
  | missing at' more unset =>
    simp only [Pipeline.goto, Function.update_self] at after
    refine held.quiet bound rfl rfl rfl after ?_ fun upper => ?_
    · rw [Service.owed, at']
      split <;> rfl
    · rw [Service.wanted, at', if_neg upper]
      rfl
  | found at' more upper =>
    simp only [Pipeline.goto, Function.update_self] at after
    exact held.quiet bound rfl rfl rfl after (by rw [Service.owed, at']; rfl)
      fun _ => by rw [Service.wanted, at']; rfl
  | known at' more leaves read =>
    simp only [Pipeline.goto, Function.update_self] at after
    exact held.quiet bound rfl rfl rfl after (by rw [Service.owed, at']; rfl) fun upper => absurd leaves upper
  | load at' read =>
    rw [at'] at shape
    simp only [Pipeline.goto, Function.update_self] at after
    exact held.quiet bound rfl rfl rfl after (by rw [Service.owed, at']; rfl) fun upper => absurd shape.1 upper
  | store at' written =>
    simp only [Pipeline.goto, Function.update_self] at after
    exact held.quiet bound rfl rfl rfl after (by rw [Service.owed, at']; rfl)
      fun _ => by rw [Service.wanted, at']; rfl
  | take at' queue few =>
    rw [at'] at shape
    obtain ⟨upper, more, -⟩ := shape
    obtain ⟨b, rfl⟩ := Nat.exists_eq_add_one_of_ne_zero upper
    simp only [Pipeline.goto, Function.update_self] at after
    have tile := tiles_left s.tileWidth more
    refine held.taken bound queue rfl rfl rfl after (by rw [Service.owed, at']; rfl) ?_
    rw [Service.wanted, at']
    simp only [Stage.wanted, List.length_append, List.length_singleton]
    omega
  | last at' queue full next =>
    rw [at'] at shape
    obtain ⟨upper, more, few⟩ := shape
    obtain ⟨b, rfl⟩ := Nat.exists_eq_add_one_of_ne_zero upper
    simp only [Pipeline.goto, Function.update_self] at after
    have tile := tiles_left s.tileWidth more
    refine held.taken bound queue rfl rfl rfl after ?_ ?_
    · rw [Service.owed, at']
      rcases next with rfl | ⟨root, rfl⟩ <;> rfl
    · rw [Service.wanted, at']
      rcases next with rfl | ⟨root, rfl⟩
      all_goals
        simp only [Stage.wanted]
        omega
  | push at' few =>
    rw [at'] at shape
    simp only [Pipeline.goto, Function.update_self] at after
    have more := tiles_left 1 shape
    refine held.pushed bound few rfl rfl rfl after ?_ ?_
    · rw [Service.owed, at']
      simpa [Stage.owed] using more
    · rw [Service.wanted, at']
      rfl
  | fail busy written =>
    refine held.failed bound (harmless ⟨?_, fun ended => ?_, fun offset begun => ?_⟩) rfl rfl rfl rfl (fun _ _ => rfl)
      fun b next => ?_
    · simp [Pipeline.fail, Pipeline.goto]
    · rw [ended] at busy
      exact busy
    · rw [begun] at busy
      exact busy
    · cases at' : p.stage level with
      | receive => simp [at', Stage.Busy] at busy
      | _ => exact Nat.le_refl _
  | reject at' queue =>
    rw [at'] at shape
    obtain ⟨b, rfl⟩ := Nat.exists_eq_add_one_of_ne_zero shape.1
    have fails := harmless ⟨by simp [Pipeline.fail, Pipeline.goto], by simp [at'], by simp [at']⟩
    refine held.failed bound fails rfl rfl rfl (Function.update_of_ne (Nat.succ_ne_self b) _ _)
      (fun l away => Function.update_of_ne (fun here => away (by omega)) _ _) fun l next => ?_
    obtain rfl : l = b := by omega
    rw [Nat.add_sub_cancel] at queue
    simp [Pipeline.fail, Pipeline.goto, at', queue, Stage.taking]
  | crash => exact ⟨held.launched, held.shapes, held.capacity, held.feeds, held.drains⟩

theorem Service.Balanced.init (d : Database) : s.Balanced n (.init d) where
  launched := Nat.zero_le _
  shapes _ := Nat.zero_le _
  capacity _ := Nat.zero_le _
  feeds level inside := by
    simp only [Service.wanted, Service.owed, Pipeline.init, Stage.wanted, Stage.owed, List.length_nil, Nat.zero_add]
    exact Nat.div_mul_le_self _ _
  drains level inside := by
    simp only [Service.wantedAbove, Service.wanted, Service.owed, Pipeline.init, Stage.wanted, Stage.owed,
      List.length_nil, Nat.zero_add, Nat.sub_zero]
    split
    next top =>
      rw [Service.tileCount, Nat.add_comm]
      exact Nat.le_of_lt (Nat.lt_div_mul_add (width_pos s))
    next top =>
      have last := tileCount_top (s := s) n
      rw [show s.goroutines n - 1 = level by omega] at last
      exact Nat.le_of_lt last

/-- A goroutine that ends early leaves an error in the group. -/
theorem fails_err {e : PipelineEvent} (stepped : s.PipelineStep n p e p') (fails : s.Fails n level p p') :
    p'.err ≠ none := by
  obtain ⟨-, ⟨-, -, rfl⟩ | ⟨l, fault, -, -, worked⟩ | ⟨-, -, rfl⟩⟩ := pipelineStep_cases stepped
  · exact absurd fails.ended fails.going
  · have step := work_move worked
    by_cases here : level = l
    swap
    · exact absurd ((step.frame.stages level here).symm.trans fails.ended) fails.going
    subst here
    have ended := fails.ended
    cases step with
    | finish at' last => exact absurd (fails.early _ at') (Nat.not_lt.mpr last)
    | missing =>
      simp only [Pipeline.goto, Function.update_self] at ended
      split at ended <;> cases ended
    | last at' queue full next => rcases next with rfl | ⟨root, rfl⟩ <;> simp [Pipeline.goto] at ended
    | found | known | load | take | store | push => simp [Pipeline.goto] at ended
    | fail | reject => simp [Pipeline.fail]
    | crash => exact absurd ended fails.going
  · exact absurd fails.ended fails.going

theorem Service.Balanced.step (held : s.Balanced n p) {e : PipelineEvent} (stepped : s.HarmlessStep n p e p') :
    s.Balanced n p' := by
  obtain ⟨-, ⟨-, more, rfl⟩ | ⟨level, fault, -, inside, worked⟩ | ⟨-, -, rfl⟩⟩ := pipelineStep_cases stepped.1
  · exact { held with launched := more }
  · exact held.work inside (work_move worked) (stepped.2 level)
  · exact { held with }

end Balance

section Measure

variable {s : Service} {n : Nat}

def Service.pipelineLeft (s : Service) (n : Nat) (p : Pipeline) : Nat :=
  (s.goroutines n - p.started) + (if p.returned = none then 1 else 0) +
    ∑ level ∈ Finset.range (s.goroutines n), (p.stage level).left s.tileWidth (s.tileCount n level)

theorem step_lowers {p p' : Pipeline} {e : PipelineEvent} (launched : p.started ≤ s.goroutines n)
    (shapes : ∀ level, s.Shape n level (p.stage level)) (stepped : s.PipelineStep n p e p') :
    s.pipelineLeft n p' < s.pipelineLeft n p := by
  obtain ⟨now, ⟨-, more, rfl⟩ | ⟨level, fault, -, inside, worked⟩ | ⟨-, -, rfl⟩⟩ := pipelineStep_cases stepped
  · simp only [Service.pipelineLeft]
    omega
  · have move := work_move worked
    have frame := move.frame
    have sum : ∑ l ∈ Finset.range (s.goroutines n), (p'.stage l).left s.tileWidth (s.tileCount n l) <
        ∑ l ∈ Finset.range (s.goroutines n), (p.stage l).left s.tileWidth (s.tileCount n l) ∨
        ∃ reason, p' = p.crash reason := by
      rcases move.lowers (shapes level) with less | ⟨reason, crashed, -⟩
      · refine .inl (Finset.sum_lt_sum (fun l _ => ?_) ⟨level, ?_, less⟩)
        · by_cases here : l = level
          · subst here
            exact Nat.le_of_lt less
          · rw [frame.stages l here]
        · exact Finset.mem_range.mpr (Nat.lt_of_lt_of_le inside launched)
      · exact .inr ⟨reason, crashed⟩
    rcases sum with less | ⟨reason, rfl⟩
    · have back : (if p'.returned = none then 1 else 0) ≤ 1 := by split <;> simp
      simp only [Service.pipelineLeft, frame.started, if_pos now]
      omega
    · simp [Service.pipelineLeft, Pipeline.crash, now]
  · simp [Service.pipelineLeft, now]

-- How far the goroutines are does not depend on what they read.
theorem shapes_step {p p' : Pipeline} {e : PipelineEvent}
    (held : p.started ≤ s.goroutines n ∧ ∀ level, s.Shape n level (p.stage level))
    (stepped : s.PipelineStep n p e p') :
    p'.started ≤ s.goroutines n ∧ ∀ level, s.Shape n level (p'.stage level) := by
  obtain ⟨-, ⟨-, more, rfl⟩ | ⟨level, fault, -, -, worked⟩ | ⟨-, -, rfl⟩⟩ := pipelineStep_cases stepped
  · exact ⟨more, held.2⟩
  · have move := work_move worked
    refine ⟨by rw [move.frame.started]; exact held.1, fun l => ?_⟩
    by_cases here : l = level
    · subst here
      exact move.shape (held.2 l)
    · rw [move.frame.stages l here]
      exact held.2 l
  · exact held

/-- No call goes on for ever. -/
theorem no_endless_call {Allowed : PipelineEvent → Prop} (d : Database) (run : Nat → Pipeline)
    (start : run 0 = .init d) :
    ¬ ∀ i, ∃ e, Allowed e ∧ s.PipelineStep n (run i) e (run (i + 1)) := by
  refine no_endless_run (Nat.lt_wfRel.wf)
    (fun p => p.started ≤ s.goroutines n ∧ ∀ level, s.Shape n level (p.stage level)) (s.pipelineLeft n) ?_ run ?_
  · exact fun _ stepped held => ⟨shapes_step held stepped, step_lowers held.1 held.2 stepped⟩
  · rw [start]
    exact ⟨Nat.zero_le _, fun _ => Nat.zero_le _⟩

end Measure

section Progress

variable {s : Service} {n : Nat} {p : Pipeline}

-- Nobody waits for a root in vain: the level below would have to wait as well, down to the leaves.
theorem Service.Balanced.not_starved (held : s.Balanced n p)
    (blocked : ∀ level < s.goroutines n, s.work n level none p = none) {level offset : Nat}
    {stored : Option (List Bytes)} {inHashes : List Bytes} (inside : level < s.goroutines n)
    (at' : p.stage level = .receive offset stored inHashes) : p.roots (level - 1) ≠ [] := by
  induction level generalizing offset stored inHashes with
  | zero =>
    have shape := held.shapes 0
    rw [at'] at shape
    exact absurd rfl shape.1
  | succ level ih =>
    intro empty
    rw [Nat.add_sub_cancel] at empty
    have shape := held.shapes (level + 1)
    have feeds := held.feeds level inside
    rw [at'] at shape
    obtain ⟨-, more, few⟩ := shape
    have tile := tiles_left s.tileWidth more
    rw [Service.wanted, at', empty, List.length_nil, Nat.zero_add, Service.owed] at feeds
    simp only [Stage.wanted] at feeds
    rcases blocked_cases (blocked level (by omega)) with done | ⟨o, db, hashes, receives, none⟩ |
      ⟨o, root, sends, full⟩
    · rw [done] at feeds
      simp only [Stage.owed] at feeds
      omega
    · exact ih (by omega) receives none
    · rw [empty, List.length_nil] at full
      have := width_pos s
      omega

-- From the top: a level above a finished one has room for its roots.
theorem Service.Balanced.finished (held : s.Balanced n p)
    (blocked : ∀ level < s.goroutines n, s.work n level none p = none) (k : Nat) :
    ∀ level < s.goroutines n, s.goroutines n - level ≤ k → p.stage level = .done := by
  induction k with
  | zero =>
    intro level inside short
    omega
  | succ k ih =>
    intro level inside close
    rcases blocked_cases (blocked level inside) with done | ⟨o, db, hashes, receives, none⟩ | ⟨o, root, sends, full⟩
    · exact done
    · exact absurd none (held.not_starved blocked inside receives)
    · have shape := held.shapes level
      have drains := held.drains level inside
      have above : s.wantedAbove n p level = 0 := by
        rw [Service.wantedAbove]
        split
        next top =>
          rw [Service.wanted, ih (level + 1) top (by omega)]
          rfl
        next => rfl
      rw [sends] at shape
      have more : o < s.tileCount n level := shape
      rw [above, Service.owed, sends] at drains
      simp only [Stage.owed] at drains
      omega

/-- A balanced call does not come to rest before it returns. -/
theorem Service.Balanced.never_stuck (held : s.Balanced n p)
    (stuck : Stuck (s.PipelineStep n) PipelineEvent.Clean p) : p.returned ≠ none := by
  intro now
  have all : p.started = s.goroutines n := by
    by_contra fewer
    have more : p.started < s.goroutines n := Nat.lt_of_le_of_ne held.launched fewer
    refine stuck .launch { p with started := p.started + 1 } trivial ?_
    simp only [Service.PipelineStep, Service.pipelineStep, now]
    exact if_pos more
  have blocked : ∀ level < s.goroutines n, s.work n level none p = none := by
    intro level inside
    by_contra works
    obtain ⟨p', worked⟩ := Option.ne_none_iff_exists'.mp works
    refine stuck (.work level none) p' rfl ?_
    simp only [Service.PipelineStep, Service.pipelineStep, now]
    rw [if_pos (by rwa [all])]
    exact worked
  have waits : s.wait n p ≠ none := by
    rw [Service.wait, if_pos ⟨all, fun level inside => by rw [held.finished blocked _ level inside (Nat.le_refl _)]⟩]
    exact Option.some_ne_none _
  obtain ⟨p', waited⟩ := Option.ne_none_iff_exists'.mp waits
  refine stuck .wait p' trivial ?_
  simp only [Service.PipelineStep, Service.pipelineStep, now]
  exact waited

end Progress

section Hanging

variable {s : Service} {n : Nat} {p p' : Pipeline}

-- A goroutine that is blocked is so whatever the database does.
theorem work_blocked {level : Nat} (blocked : s.work n level none p = none) (fault : Option GoError) :
    s.work n level fault p = none := by
  rcases blocked_cases blocked with done | ⟨o, stored, inHashes, receives, empty⟩ | ⟨o, root, sends, full⟩
  · simp [Service.work, done]
  · simp [Service.work, receives, Service.takeRoot, empty]
  · simp [Service.work, sends, Service.sendRoot, Nat.not_lt.mpr full]

theorem hangs_of_stuck (now : p.returned = none) (stuck : Stuck (s.PipelineStep n) PipelineEvent.Clean p) :
    s.Hangs n p := by
  refine ⟨now, fun e p' _ stepped => ?_⟩
  cases e with
  | launch => exact stuck .launch p' trivial stepped
  | wait => exact stuck .wait p' trivial stepped
  | work level fault =>
    simp only [Service.PipelineStep, Service.pipelineStep, now] at stepped
    obtain ⟨inside, worked⟩ := Option.ite_none_right_eq_some.mp stepped
    have free : s.work n level none p ≠ none := fun blocked => by
      rw [work_blocked blocked] at worked
      cases worked
    obtain ⟨next, worked⟩ := Option.ne_none_iff_exists'.mp free
    refine stuck (.work level none) next rfl ?_
    simp only [Service.PipelineStep, Service.pipelineStep, now]
    rw [if_pos inside, worked]

/-- The leaf level has ended without a root for the level above, which has a tile to fill. -/
structure Service.Starved (s : Service) (n : Nat) (p : Pipeline) : Prop where
  more : 0 < s.tileCount n 1
  launched : p.started ≤ s.goroutines n
  shapes : ∀ level, s.Shape n level (p.stage level)
  rows : s.FullRows p.db
  unset : p.db.tiles s.height 1 0 = none
  ended : p.stage 0 = .done
  empty : p.roots 0 = []
  waits : p.stage 1 = .start 0 ∨ p.stage 1 = .receive 0 none []
  now : p.returned = none

theorem Service.Starved.step {e : PipelineEvent} (held : s.Starved n p) (clean : e.Clean)
    (stepped : s.PipelineStep n p e p') : s.Starved n p' := by
  obtain ⟨launched, shapes⟩ := shapes_step ⟨held.launched, held.shapes⟩ stepped
  obtain ⟨-, ⟨-, -, rfl⟩ | ⟨level, fault, rfl, inside, worked⟩ | ⟨-, all, -⟩⟩ := pipelineStep_cases stepped
  · exact { held with launched }
  · obtain rfl : fault = none := clean
    match level with
    | 0 => simp [Service.work, held.ended] at worked
    | 1 =>
      rcases held.waits with begins | waits
      · have read : s.work n 1 none p = some (p.goto 1 (.receive 0 none [])) := by
          simp [Service.work, begins, held.more, Service.readTile, tile_missing held.unset]
        rw [read] at worked
        cases worked
        refine { held with launched, shapes, ended := ?_, waits := .inr ?_ }
        · simp [Pipeline.goto, held.ended]
        · simp [Pipeline.goto]
      · simp [Service.work, waits, Service.takeRoot, held.empty] at worked
    | level + 2 =>
      have move := work_move worked
      have frame := move.frame
      refine ⟨held.more, launched, shapes, move.fullRows held.rows, ?_, ?_, ?_, ?_, ?_⟩
      · rcases move.tiles 1 0 with same | ⟨-, -, ⟨wrong, -⟩, -⟩
        · rw [same, held.unset]
        · omega
      · rw [frame.stages 0 (by omega), held.ended]
      · rw [frame.roots 0 (by omega) (by omega), held.empty]
      · rw [frame.stages 1 (by omega)]
        exact held.waits
      · rw [move.returned held.rows, held.now]
  · have wrong := all 1 (complete_level (by rw [← tileCount_eq]; exact held.more))
    rcases held.waits with begins | waits
    · rw [begins] at wrong
      cases wrong
    · rw [waits] at wrong
      cases wrong

theorem launch_all (d : Database) {k : Nat} (few : k ≤ s.goroutines n) :
    Reaches (s.PipelineStep n) (fun _ => True) (.init d) { Pipeline.init d with started := k } := by
  induction k with
  | zero => exact .refl
  | succ k ih =>
    refine .step (ih (Nat.le_of_succ_le few)) (e := .launch) trivial ?_
    simp only [Service.PipelineStep, Service.pipelineStep, Pipeline.init]
    exact if_pos few

/-- With tiles above the leaves, one failed read of the leaf level is enough. -/
theorem hang_reachable (several : s.tileWidth * s.tileWidth ≤ n) {d : Database} (rows : s.FullRows d)
    (unset : d.tiles s.height 1 0 = none) :
    ∃ p, Reaches (s.PipelineStep n) (fun _ => True) (.init d) p ∧ s.Hangs n p := by
  have more : 0 < s.tileCount n 1 := by
    rw [tileCount_eq, span_succ, span_zero]
    exact Nat.div_pos several (Nat.mul_pos (width_pos s) (width_pos s))
  have leaves : 0 < s.tileCount n 0 := Nat.lt_of_lt_of_le more (Nat.div_le_self _ _)
  have failed : s.PipelineStep n { Pipeline.init d with started := s.goroutines n } (.work 0 (some (.text "")))
      (Pipeline.fail { Pipeline.init d with started := s.goroutines n } 0 (.text "")) := by
    simp only [Service.PipelineStep, Service.pipelineStep, Pipeline.init]
    rw [if_pos (goroutines_pos n)]
    simp only [Service.work]
    exact if_pos leaves
  have starved : s.Starved n
      (Pipeline.fail { Pipeline.init d with started := s.goroutines n } 0 (.text "")) := by
    refine ⟨more, Nat.le_refl _, fun level => ?_, rows, unset, rfl, rfl, .inl rfl, rfl⟩
    exact (shapes_step ⟨Nat.le_refl _, fun _ => Nat.zero_le _⟩ failed).2 level
  obtain ⟨p, reached, stuck, last⟩ := exists_stuck (Nat.lt_wfRel.wf) (s.Starved n) (s.pipelineLeft n)
    (fun clean stepped held => ⟨held.step clean stepped, step_lowers held.launched held.shapes stepped⟩) _ starved
  refine ⟨p, ?_, hangs_of_stuck last.now stuck⟩
  exact ((launch_all d (Nat.le_refl _)).step trivial failed).trans (reached.mono fun _ _ => trivial)

theorem goroutines_one (few : n < s.tileWidth * s.tileWidth) : s.goroutines n = 1 := by
  have single : s.levelsForLeafCount n ≤ 1 := by
    have none : n / s.tileWidth / s.tileWidth = 0 := by
      rw [Nat.div_div_eq_div_mul]
      exact Nat.div_eq_of_lt few
    unfold Service.levelsForLeafCount
    cases n with
    | zero => exact Nat.zero_le _
    | succ n =>
      unfold Service.countLevels
      split
      · exact Nat.zero_le _
      · rw [none]
        cases n <;> simp [Service.countLevels]
  rw [Service.goroutines]
  omega

-- A level without neighbours does no harm.
theorem harmless_alone (few : n < s.tileWidth * s.tileWidth) {e : PipelineEvent}
    (launched : p.started ≤ s.goroutines n)
    (stepped : s.PipelineStep n p e p') : s.HarmlessStep n p e p' := by
  refine ⟨stepped, fun level fails => ?_⟩
  have one := goroutines_one few
  obtain rfl : level = 0 := by
    by_contra upper
    obtain ⟨-, ⟨-, -, rfl⟩ | ⟨l, fault, -, inside, worked⟩ | ⟨-, -, rfl⟩⟩ := pipelineStep_cases stepped
    · exact fails.going fails.ended
    · have away : level ≠ l := by omega
      exact fails.going (((work_move worked).frame.stages level away).symm.trans fails.ended)
    · exact fails.going fails.ended
  refine ⟨?_, nofun⟩
  rw [Service.wantedAbove, if_neg (by omega)]
  exact Nat.zero_le _

-- A call whose group holds an error does not return nil.
theorem err_kept {e : PipelineEvent} (held : p.err ≠ none ∧ p.returned ≠ some (.ok ()))
    (stepped : s.PipelineStep n p e p') : p'.err ≠ none ∧ p'.returned ≠ some (.ok ()) := by
  obtain ⟨now, ⟨-, -, rfl⟩ | ⟨level, fault, -, -, worked⟩ | ⟨-, -, rfl⟩⟩ := pipelineStep_cases stepped
  · exact held
  · have frame := (work_move worked).frame
    refine ⟨frame.err held.1, ?_⟩
    rcases frame.returned with same | ⟨⟨reason, crashed⟩, -⟩
    · rw [same]
      exact held.2
    · rw [crashed]
      simp
  · obtain ⟨reason, first⟩ := Option.ne_none_iff_exists'.mp held.1
    exact ⟨held.1, by simp [first]⟩

/-- Calls can hang exactly when there are tiles above the leaves. Those in which each level that fails has filled
the channel above and has room in the channel below never do. All calls end, and none that had a level fail
returns nil. -/
theorem hashTiles_hangs_iff (s : Service) (n : Nat) :
    ((∀ d p, Reaches (s.PipelineStep n) (fun _ => True) (.init d) p → ¬ s.Hangs n p) ↔
      n < s.tileWidth * s.tileWidth) ∧
    (∀ d p, Reaches (s.HarmlessStep n) (fun _ => True) (.init d) p → ¬ s.Hangs n p) ∧
    (∀ d, ∀ run : Nat → Pipeline, run 0 = .init d → ¬ ∀ i, ∃ e, s.PipelineStep n (run i) e (run (i + 1))) ∧
    ∀ d p e p' level last, Reaches (s.PipelineStep n) (fun _ => True) (.init d) p → s.PipelineStep n p e p' →
      s.Fails n level p p' → Reaches (s.PipelineStep n) (fun _ => True) p' last → last.returned ≠ some (.ok ()) := by
  have balanced : ∀ d p, Reaches (s.HarmlessStep n) (fun _ => True) (.init d) p → s.Balanced n p :=
    fun d p reached => reached.keeps (s.Balanced n) (.init d) fun _ stepped held => held.step stepped
  have calm : ∀ p, s.Balanced n p → ¬ s.Hangs n p := fun p held hangs =>
    held.never_stuck (fun e p' _ => hangs.2 e p' trivial) hangs.1
  refine ⟨⟨fun never => ?_, fun few d p reached => calm p ?_⟩, fun d p reached => calm p (balanced d p reached),
    ?_, ?_⟩
  · by_contra several
    obtain ⟨p, reached, hangs⟩ := hang_reachable (Nat.not_lt.mp several) (nofun : s.FullRows .empty) rfl
    exact never .empty p reached hangs
  · exact reached.keeps (s.Balanced n) (.init d) fun _ stepped held =>
      held.step (harmless_alone few held.launched stepped)
  · intro d run start endless
    refine @no_endless_call s n (fun _ => True) d run start fun i => ?_
    obtain ⟨e, stepped⟩ := endless i
    exact ⟨e, trivial, stepped⟩
  · intro d p e p' level last _ stepped fails later
    have now : p'.returned ≠ some (.ok ()) := by
      obtain ⟨now, ⟨-, -, rfl⟩ | ⟨l, fault, -, -, worked⟩ | ⟨-, -, rfl⟩⟩ := pipelineStep_cases stepped
      · exact absurd fails.ended fails.going
      · rcases (work_move worked).frame.returned with same | ⟨⟨reason, crashed⟩, -⟩
        · rw [same, now]
          nofun
        · rw [crashed]
          simp
      · exact absurd fails.ended fails.going
    exact (later.keeps (fun p => p.err ≠ none ∧ p.returned ≠ some (.ok ())) ⟨fails_err stepped fails, now⟩
      fun _ stepped held => err_kept held stepped).2

-- The level above the leaves fails at once: its channel has room for both roots of four records in tiles of two.
theorem hashTiles_hangs_four :
    ¬ pairs.Hangs 4 (Pipeline.fail { Pipeline.init .empty with started := 2 } 1 (.text "disk I/O error")) := by
  refine (hashTiles_hangs_iff pairs 4).2.1 .empty _ ?_
  have launched : ∀ k < 2, pairs.HarmlessStep 4 { Pipeline.init .empty with started := k } .launch
      { Pipeline.init .empty with started := k + 1 } := by
    intro k few
    refine ⟨if_pos few, fun level fails => ?_⟩
    cases fails.ended
  refine .step (.step (.step .refl trivial (launched 0 (by decide))) trivial (launched 1 (by decide)))
    (e := .work 1 (some (.text "disk I/O error"))) trivial ⟨rfl, fun level fails => ?_⟩
  obtain rfl : level = 1 := by
    by_contra other
    have ended := fails.ended
    simp [Pipeline.fail, Pipeline.goto, Pipeline.init, Function.update_of_ne other] at ended
  refine ⟨by decide, fun below same => ?_⟩
  obtain rfl : below = 0 := by omega
  decide

/-- Four records in tiles of two: the leaf level fails to read its first tile, and the level above it waits for
roots for ever. -/
theorem leaf_failure_hangs :
    ∃ p, Reaches (pairs.PipelineStep 4) (fun _ => True)
      (.init { Database.empty with leaves := leafRows pairLeaves }) p ∧ pairs.Hangs 4 p :=
  hang_reachable (by decide) nofun rfl

end Hanging

end Audit
