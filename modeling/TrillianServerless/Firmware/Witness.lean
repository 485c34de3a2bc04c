import TrillianServerless.Firmware.Follower

set_option autoImplicit false

namespace Firmware

open Go Merkle Runs

/-- A witness in Poll beside the goroutine it follows the log with. -/
structure Poll where
  follow : Follow
  gcp : LogCheckpoint
  canceled : Bool
  returned : Option FollowError
  deriving DecidableEq

-- The loop takes an error, the end of its context, a checkpoint, or the zero one that a closed channel gives; `stored`
-- tells whether StoreCP works.
inductive PollEvent
  | follow (e : FollowEvent)
  | cancel
  | takeError
  | takeDone
  | takeCheckpoint (stored : Bool)
  | takeClosed (stored : Bool)

namespace Poll

variable (libs : Libraries)

def start (gcp : LogCheckpoint) : Poll := ⟨.start gcp, gcp, false, none⟩

def storeCP (p : Poll) (cp : LogCheckpoint) (stored : Bool) : Poll := if stored then { p with gcp := cp } else p

-- The goroutine sees the end of the context only when there is one; it is the loop that receives.
def followStep (p : Poll) : FollowEvent → Option Follow
  | .done => if p.canceled then p.follow.step libs .done else none
  | .receive => none
  | e => p.follow.step libs e

def select (p : Poll) : PollEvent → Option Poll
  | .takeError => p.follow.errc.map fun reason => { p with returned := some reason }
  | .takeDone => if p.canceled then some { p with returned := some .canceled } else none
  | .takeCheckpoint stored =>
    match p.follow.outc with
    | cp :: rest => some (storeCP { p with follow := { p.follow with outc := rest } } cp stored)
    | [] => none
  | .takeClosed stored =>
    if p.follow.returned ∧ p.follow.outc = [] then some (p.storeCP .zero stored) else none
  | _ => none

def step (p : Poll) : PollEvent → Option Poll
  | .follow e => (p.followStep libs e).map fun follow => { p with follow := follow }
  | .cancel => some { p with canceled := true }
  | e => if p.returned = none then p.select e else none

def run (events : List PollEvent) (p : Poll) : Option Poll := exec (step libs) events p

end Poll

section Held

variable {libs : Libraries} {loaded : LogCheckpoint}

def PollEvent.Open : PollEvent → Prop
  | .takeClosed _ => False
  | _ => True

def PollEvent.Stores : PollEvent → Prop
  | .takeCheckpoint stored => stored = true
  | _ => True

/-- The checkpoint held is one of those received, or the one of the start; it is the last of them as long as the
store works. -/
structure Poll.Holding (libs : Libraries) (loaded : LogCheckpoint) (stores : Prop) (p : Poll) : Prop where
  following : p.follow.Following libs
  first : p.follow.emitted.head? = some loaded
  held : ∃ received, p.follow.emitted = received ++ p.follow.outc ∧ (p.gcp = loaded ∨ p.gcp ∈ received) ∧
    (stores → received = [] ∨ received.getLast? = some p.gcp)
  error : ∀ golden latest, p.returned = some (.errConsistency golden latest) →
    p.follow.errc = some (.errConsistency golden latest)

theorem emitted_sorted {f : Follow} (ok : f.Following libs) :
    f.emitted.Pairwise fun c c' => c.size < c'.size := by
  have chain := (List.isChain_append.mp ok.chain).1
  have sizes : f.emitted.IsChain fun c c' => c.size < c'.size := chain.imp fun _ _ newer => newer.larger
  have : IsTrans LogCheckpoint fun c c' => c.size < c'.size := ⟨fun _ _ _ => Nat.lt_trans⟩
  exact List.isChain_iff_pairwise.mp sizes

theorem start_holding (loaded : LogCheckpoint) (stores : Prop) : (Poll.start loaded).Holding libs loaded stores :=
  ⟨start_following loaded, rfl, ⟨[], rfl, .inl rfl, fun _ => .inl rfl⟩, nofun⟩

-- A step of the goroutine only adds to what was sent, and to what waits. It leaves an error as it is.
theorem followStep_emitted {p : Poll} {e : FollowEvent} {f : Follow} (ok : p.follow.Following libs)
    (stepped : p.followStep libs e = some f) :
    p.follow.step libs e = some f ∧ (p.follow.errc ≠ none → f.errc = p.follow.errc) ∧
      ∃ more, f.emitted = p.follow.emitted ++ more ∧ f.outc = p.follow.outc ++ more := by
  cases e with
  | tick root consistency =>
    have moved : p.follow.step libs (.tick root consistency) = some f := stepped
    refine ⟨moved, ?_⟩
    simp only [Follow.step] at moved
    split at moved
    next free =>
      cases moved
      refine ⟨fun failed => absurd (ok.running.mp free.1) failed, [], ?_⟩
      rcases @poll_cases libs p.follow root consistency with same | ⟨cp, proof, -, -, -, -, -, failed⟩ |
        ⟨cp, -, -, -, advanced⟩
      · simp [same]
      · simp [failed, Follow.fail]
      · simp [advanced, Follow.advance]
    next => cases moved
  | done =>
    simp only [Poll.followStep] at stepped
    split at stepped
    next =>
      refine ⟨stepped, ?_⟩
      simp only [Follow.step] at stepped
      split at stepped
      next free =>
        cases stepped
        exact ⟨fun failed => absurd (ok.running.mp free.1) failed, [], by simp [Follow.fail]⟩
      next => cases stepped
    next => cases stepped
  | send =>
    have moved : p.follow.step libs .send = some f := stepped
    refine ⟨moved, ?_⟩
    simp only [Follow.step] at moved
    split at moved
    next cp _ empty =>
      cases moved
      exact ⟨fun _ => rfl, [cp], rfl, by simp [empty]⟩
    next => cases moved
  | receive => cases stepped

theorem take_holding {stores : Prop} {p : Poll} (ok : p.Holding libs loaded stores) {cp : LogCheckpoint}
    {rest : List LogCheckpoint} (queue : p.follow.outc = cp :: rest) {stored : Bool}
    (works : stores → stored = true) :
    (Poll.storeCP { p with follow := { p.follow with outc := rest } } cp stored).Holding libs loaded stores := by
  obtain ⟨received, sent, held, latest⟩ := ok.held
  rw [queue] at sent
  have longer : p.follow.emitted = (received ++ [cp]) ++ rest := by simp [sent]
  have following : Follow.Following libs { p.follow with outc := rest } := { ok.following with }
  cases stored with
  | true =>
    refine ⟨following, ok.first, ⟨received ++ [cp], longer, .inr ?_, fun _ => .inr ?_⟩, ok.error⟩
    · exact List.mem_append_right _ (List.mem_singleton_self cp)
    · exact List.getLast?_concat
  | false =>
    refine ⟨following, ok.first, ⟨received ++ [cp], longer, held.imp_right (List.mem_append_left _),
      fun always => ?_⟩,
      ok.error⟩
    cases works always

/-- Every step but a receive from the closed channel keeps a received checkpoint held. -/
theorem step_holding {stores : Prop} {p p' : Poll} {e : PollEvent} (ok : p.Holding libs loaded stores)
    (isOpen : e.Open) (works : stores → e.Stores) (stepped : p.step libs e = some p') :
    p'.Holding libs loaded stores := by
  cases e with
  | follow e =>
    obtain ⟨f, moved, rfl⟩ := Option.map_eq_some_iff.mp stepped
    obtain ⟨taken, err, more, emitted, outc⟩ := followStep_emitted ok.following moved
    obtain ⟨received, sent, held⟩ := ok.held
    refine ⟨step_following ok.following taken, ?_, ⟨received, ?_, held⟩, fun golden latest returned => ?_⟩
    · dsimp only
      rw [emitted]
      simp [List.head?_append, ok.first]
    · rw [emitted, outc, sent, List.append_assoc]
    · have known := ok.error golden latest returned
      rw [err (by rw [known]; exact Option.some_ne_none _)]
      exact known
  | cancel =>
    cases stepped
    exact { ok with }
  | takeError =>
    simp only [Poll.step, Poll.select] at stepped
    split at stepped
    next =>
      obtain ⟨reason, err, rfl⟩ := Option.map_eq_some_iff.mp stepped
      exact { ok with error := fun golden latest returned => err.trans returned }
    next => cases stepped
  | takeDone =>
    simp only [Poll.step, Poll.select] at stepped
    split at stepped
    next =>
      split at stepped
      next =>
        cases stepped
        exact { ok with error := nofun }
      next => cases stepped
    next => cases stepped
  | takeCheckpoint stored =>
    simp only [Poll.step, Poll.select] at stepped
    split at stepped
    next =>
      split at stepped
      next cp rest queue =>
        cases stepped
        exact take_holding ok queue works
      next => cases stepped
    next => cases stepped
  | takeClosed stored => exact absurd isOpen id

-- All checkpoints but the first are signed by the log.
theorem emitted_signed {first : LogCheckpoint} {later : List LogCheckpoint}
    (chain : (first :: later).IsChain (Follow.Newer libs)) :
    ∀ cp ∈ later, libs.parseCheckpoint cp.envelope = .ok cp := by
  induction later generalizing first with
  | nil => nofun
  | cons next rest ih =>
    obtain ⟨newer, others⟩ := List.isChain_cons_cons.mp chain
    intro cp member
    rcases List.mem_cons.mp member with rfl | further
    · exact newer.signed
    · exact ih others cp further

theorem Poll.Holding.signed {stores : Prop} {p : Poll} (ok : p.Holding libs loaded stores) :
    p.gcp = loaded ∨ p.gcp ∈ p.follow.emitted ∧ libs.parseCheckpoint p.gcp.envelope = .ok p.gcp := by
  obtain ⟨received, sent, held | held, -⟩ := ok.held
  · exact .inl held
  · have member : p.gcp ∈ p.follow.emitted := by
      rw [sent]
      exact List.mem_append_left _ held
    have chain := (List.isChain_append.mp ok.following.chain).1
    have first := ok.first
    cases emitted : p.follow.emitted with
    | nil => simp [emitted] at first
    | cons head later =>
      rw [emitted] at chain first member
      obtain rfl : head = loaded := Option.some.inj first
      rcases List.mem_cons.mp member with same | further
      · exact .inl same
      · exact .inr ⟨member, emitted_signed chain _ further⟩

-- What waits in the channel is not smaller than what is held.
theorem Poll.Holding.grows {stores : Prop} {p : Poll} (ok : p.Holding libs loaded stores) {cp : LogCheckpoint}
    {rest : List LogCheckpoint} (queue : p.follow.outc = cp :: rest) : p.gcp.size ≤ cp.size := by
  obtain ⟨received, sent, held, -⟩ := ok.held
  have sorted := emitted_sorted ok.following
  have first := ok.first
  rw [sent, queue] at sorted first
  have before : ∀ c ∈ received, c.size < cp.size := fun c member =>
    (List.pairwise_append.mp sorted).2.2 c member cp (by simp)
  rcases held with rfl | member
  · cases received with
    | nil =>
      obtain rfl := Option.some.inj first
      exact Nat.le_refl _
    | cons head others =>
      obtain rfl := Option.some.inj first
      exact Nat.le_of_lt (before _ (by simp))
  · exact Nat.le_of_lt (before _ member)

theorem step_grows {stores : Prop} {p p' : Poll} {e : PollEvent} (ok : p.Holding libs loaded stores)
    (isOpen : e.Open) (stepped : p.step libs e = some p') : p.gcp.size ≤ p'.gcp.size := by
  cases e with
  | follow e =>
    obtain ⟨f, -, rfl⟩ := Option.map_eq_some_iff.mp stepped
    exact Nat.le_refl _
  | cancel =>
    cases stepped
    exact Nat.le_refl _
  | takeError =>
    simp only [Poll.step, Poll.select] at stepped
    split at stepped
    next =>
      obtain ⟨reason, -, rfl⟩ := Option.map_eq_some_iff.mp stepped
      exact Nat.le_refl _
    next => cases stepped
  | takeDone =>
    simp only [Poll.step, Poll.select] at stepped
    split at stepped
    next =>
      split at stepped <;> cases stepped
      exact Nat.le_refl _
    next => cases stepped
  | takeCheckpoint stored =>
    simp only [Poll.step, Poll.select] at stepped
    split at stepped
    next =>
      split at stepped
      next cp rest queue =>
        cases stepped
        cases stored with
        | true => exact ok.grows queue
        | false => exact Nat.le_refl _
      next => cases stepped
    next => cases stepped
  | takeClosed stored => exact absurd isOpen id

theorem run_grows {stores : Prop} {p p' : Poll} {events : List PollEvent} (ok : p.Holding libs loaded stores)
    (isOpen : ∀ e ∈ events, e.Open) (works : stores → ∀ e ∈ events, e.Stores) (ran : p.run libs events = some p') :
    p'.Holding libs loaded stores ∧ p.gcp.size ≤ p'.gcp.size :=
  exec_keeps (fun now : Poll => now.Holding libs loaded stores ∧ p.gcp.size ≤ now.gcp.size) ran
    ⟨ok, Nat.le_refl _⟩ fun member stepped held =>
      ⟨step_holding held.1 (isOpen _ member) (fun always => works always _ member) stepped,
        Nat.le_trans held.2 (step_grows held.1 (isOpen _ member) stepped)⟩

/-- As long as Poll does not receive from the closed channel it holds on to the checkpoints it has received. -/
theorem poll_keeps_checkpoint (libs : Libraries) (loaded : LogCheckpoint) (events : List PollEvent) (p : Poll)
    (ran : (Poll.start loaded).run libs events = some p) (isOpen : ∀ e ∈ events, e.Open) :
    (∀ before after mid, events = before ++ after → (Poll.start loaded).run libs before = some mid →
      mid.gcp.size ≤ p.gcp.size) ∧
    (p.gcp = loaded ∨ p.gcp ∈ p.follow.emitted ∧ libs.parseCheckpoint p.gcp.envelope = .ok p.gcp) ∧
    ∀ golden latest, p.returned = some (.errConsistency golden latest) →
      p.gcp.size ≤ golden.size ∧ ((∀ e ∈ events, e.Stores) → p.follow.outc = [] → p.gcp = golden) := by
  have whole := run_grows (start_holding loaded (∀ e ∈ events, e.Stores)) isOpen id ran
  refine ⟨?_, whole.1.signed, fun golden latest returned => ?_⟩
  · rintro before after mid rfl reached
    obtain ⟨other, again, rested⟩ := exec_append.mp ran
    obtain rfl : mid = other := Option.some.inj (reached.symm.trans again)
    have half := run_grows (start_holding loaded False) (fun e member => isOpen e (List.mem_append_left _ member))
      False.elim reached
    exact (run_grows half.1 (fun e member => isOpen e (List.mem_append_right _ member)) False.elim rested).2
  · have err := whole.1.error golden latest returned
    have over' : p.follow.returned = true := by
      rw [← Bool.not_eq_false, whole.1.following.running, err]
      exact Option.some_ne_none _
    have last := whole.1.following.golden
    rw [Follow.produced, whole.1.following.settled over', Option.toList_none, List.append_nil,
      ← whole.1.following.named golden latest err] at last
    obtain ⟨received, sent, held, newest⟩ := whole.1.held
    constructor
    · have member : p.gcp ∈ p.follow.emitted := by
        rcases held with same | member
        · rw [same]
          exact List.mem_of_mem_head? whole.1.first
        · rw [sent]
          exact List.mem_append_left _ member
      obtain ⟨front, split⟩ := List.getLast?_eq_some_iff.mp last
      have sorted := emitted_sorted whole.1.following
      rw [split] at sorted member
      rcases List.mem_append.mp member with earlier | only
      · exact Nat.le_of_lt ((List.pairwise_append.mp sorted).2.2 _ earlier golden (by simp))
      · exact Nat.le_of_eq (congrArg (·.size) (List.mem_singleton.mp only))
    · intro works empty
      rw [empty, List.append_nil] at sent
      rw [sent] at last
      rcases newest works with rfl | latest'
      · cases last
      · exact Option.some.inj (latest'.symm.trans last)

theorem poll_keeps_checkpoint_two :
    ∃ p, (Poll.start (sampleCheckpoint 1)).run sample [.takeCheckpoint true,
        .follow (.tick (.ok [2]) (.ok [sampleHasher.hashLeaf malwareJson])), .follow .send, .takeCheckpoint true,
        .follow (.tick (.ok [3, 9]) (.ok [])), .takeError] = some p ∧
      p.returned = some (.errConsistency (sampleCheckpoint 2) (sampleFork 3)) ∧ p.gcp = sampleCheckpoint 2 := by
  have ran : (Poll.start (sampleCheckpoint 1)).run sample [.takeCheckpoint true,
      .follow (.tick (.ok [2]) (.ok [sampleHasher.hashLeaf malwareJson])), .follow .send, .takeCheckpoint true,
      .follow (.tick (.ok [3, 9]) (.ok [])), .takeError] =
        some ⟨⟨sampleCheckpoint 2, none, [], [sampleCheckpoint 1, sampleCheckpoint 2],
            some (.errConsistency (sampleCheckpoint 2) (sampleFork 3)), true⟩, sampleCheckpoint 2, false,
          some (.errConsistency (sampleCheckpoint 2) (sampleFork 3))⟩ := by decide
  refine ⟨_, ran, rfl, ?_⟩
  exact ((poll_keeps_checkpoint sample (sampleCheckpoint 1) _ _ ran (by simp [PollEvent.Open])).2.2 _ _ rfl).2
    (by simp [PollEvent.Stores]) rfl

/-- The goroutine has reported a fork and closed its channel; Poll receives from that before it sees the error. -/
theorem poll_loses_checkpoint :
    ∃ p, (Poll.start (sampleCheckpoint 1)).run sample [.takeCheckpoint true, .follow (.tick (.ok [2, 9]) (.ok [])),
        .takeClosed true, .takeError] = some p ∧
      p.returned = some (.errConsistency (sampleCheckpoint 1) (sampleFork 2)) ∧
      p.gcp.size < (sampleCheckpoint 1).size ∧ p.gcp ≠ sampleCheckpoint 1 ∧ p.gcp ∉ p.follow.emitted :=
  ⟨⟨⟨sampleCheckpoint 1, none, [], [sampleCheckpoint 1],
      some (.errConsistency (sampleCheckpoint 1) (sampleFork 2)), true⟩, .zero, false,
      some (.errConsistency (sampleCheckpoint 1) (sampleFork 2))⟩, by decide, rfl, by decide, by decide, by decide⟩

end Held

end Firmware
