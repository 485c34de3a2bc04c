import Mathlib.Algebra.Order.BigOperators.Group.Finset
import Mathlib.Logic.Relation
import TrillianServerless.Serverless.WitnessConsensus

set_option autoImplicit false

namespace WitnessClient

open Go SignedNote Checkpoints

-- Where the goroutine for a distributor is: its fetch has not returned, has returned, or the function
-- given to the group has.
inductive FetchPhase where
  | fetching
  | fetched (answer : Except GoError Bytes)
  | done

/-- The goroutines of one call, the context that errgroup.WithContext made for them, and the group. -/
structure GroupRun where
  phases : Nat → FetchPhase
  cancelled : Bool
  group : Group

namespace GroupRun

def initial : GroupRun := ⟨fun _ => .fetching, false, ⟨[], none⟩⟩

def setPhase (s : GroupRun) (i : Nat) (phase : FetchPhase) : GroupRun :=
  { s with phases := Function.update s.phases i phase }

def Complete (distributors : List Fetcher) (s : GroupRun) : Prop :=
  ∀ i < distributors.length, s.phases i = .done

end GroupRun

-- The checkpoint that is chosen once all functions of the group have returned.
def Group.result (N : Int) (group : Group) : Except GoError Cp :=
  match group.cpc.foldl (better N) none with
  | none => .error (.text "unable to identify suitable checkpoint (fetch errs: %v)")
  | some bestCP => .ok bestCP

section Steps

variable (pkg : Package) (logID : String) (N : Int) (logSigV : Verifier) (origin : String)
  (witnesses : List Verifier) (distributors : List Fetcher)

-- The answer of a fetch, parsed.
def parsed (answer : Except GoError Bytes) : Except GoError Cp :=
  getCheckpointN pkg logID N logSigV origin witnesses fun _ => answer

-- A function that returns an error cancels the context of the group.
def GroupRun.finish (s : GroupRun) (i : Nat) (answer : Except GoError Bytes) : GroupRun where
  phases := Function.update s.phases i .done
  cancelled := s.cancelled || (parsed pkg logID N logSigV origin witnesses answer).toOption.isNone
  group := Group.finish pkg logID N logSigV origin witnesses s.group fun _ => answer

/-- A fetch gives what the distributor serves, or fails once its context is cancelled. -/
inductive GroupStep : GroupRun → GroupRun → Prop
  | answer (s : GroupRun) (i : Nat) (bound : i < distributors.length) (at' : s.phases i = .fetching) :
      GroupStep s (s.setPhase i
        (.fetched (distributors[i] ["logs", logID, "checkpoint." ++ toString N])))
  | abort (s : GroupRun) (i : Nat) (bound : i < distributors.length) (at' : s.phases i = .fetching)
      (cancelled : s.cancelled = true) (reason : GoError) :
      GroupStep s (s.setPhase i (.fetched (.error reason)))
  | finish (s : GroupRun) (i : Nat) (bound : i < distributors.length) (answer : Except GoError Bytes)
      (at' : s.phases i = .fetched answer) :
      GroupStep s (s.finish pkg logID N logSigV origin witnesses i answer)

def GroupReached (s : GroupRun) : Prop :=
  Relation.ReflTransGen (GroupStep pkg logID N logSigV origin witnesses distributors) .initial s

-- No function of the group is left to run: Wait returns.
def GroupEnds (s : GroupRun) : Prop :=
  ∀ s', ¬ GroupStep pkg logID N logSigV origin witnesses distributors s s'

/-- The distributor has a checkpoint.N with the signatures of the log and of `N` witnesses. -/
def Serves (f : Fetcher) (c : Cp) : Prop :=
  getCheckpointN pkg logID N logSigV origin witnesses f = .ok c ∧
    ∃ e, Witnessed pkg N logSigV origin witnesses c e

end Steps

section Runs

variable {pkg : Package} {logID : String} {N : Int} {logSigV : Verifier} {origin : String}
  {witnesses : List Verifier} {distributors : List Fetcher} {s s' : GroupRun}

theorem parsed_own (f : Fetcher) :
    parsed pkg logID N logSigV origin witnesses (f ["logs", logID, "checkpoint." ++ toString N]) =
      getCheckpointN pkg logID N logSigV origin witnesses f := rfl

theorem finish_group (group : Group) (answer : Except GoError Bytes) :
    (Group.finish pkg logID N logSigV origin witnesses group fun _ => answer).cpc =
      group.cpc ++ ((parsed pkg logID N logSigV origin witnesses answer).toOption).toList := by
  unfold Group.finish parsed
  cases getCheckpointN pkg logID N logSigV origin witnesses fun _ => answer <;> simp [Except.toOption]

-- Every run of the group ends, as each goroutine has two steps to make.
def FetchPhase.left : FetchPhase → Nat
  | .fetching => 2
  | .fetched _ => 1
  | .done => 0

def GroupRun.left (distributors : List Fetcher) (s : GroupRun) : Nat :=
  ∑ i ∈ Finset.range distributors.length, (s.phases i).left

theorem left_update {i : Nat} (bound : i < distributors.length) {phase : FetchPhase}
    (less : phase.left < (s.phases i).left) {phases : Nat → FetchPhase}
    (same : phases = Function.update s.phases i phase) :
    ∑ j ∈ Finset.range distributors.length, (phases j).left < s.left distributors := by
  subst same
  refine Finset.sum_lt_sum (fun j _ => ?_) ⟨i, Finset.mem_range.mpr bound, ?_⟩
  · by_cases here : j = i
    · subst here
      rw [Function.update_self]
      exact Nat.le_of_lt less
    · rw [Function.update_of_ne here]
  · rw [Function.update_self]
    exact less

theorem groupStep_left (step : GroupStep pkg logID N logSigV origin witnesses distributors s s') :
    s'.left distributors < s.left distributors := by
  cases step with
  | answer i bound at' => exact left_update bound (by simp [at', FetchPhase.left]) rfl
  | abort i bound at' cancelled reason => exact left_update bound (by simp [at', FetchPhase.left]) rfl
  | finish i bound answer at' => exact left_update bound (by simp [at', FetchPhase.left]) rfl

/-- The group goes on until every function has returned. -/
theorem groupEnds_iff :
    GroupEnds pkg logID N logSigV origin witnesses distributors s ↔ s.Complete distributors := by
  constructor
  · intro ends i bound
    cases at' : s.phases i with
    | fetching => exact absurd (.answer s i bound at') (ends _)
    | fetched answer => exact absurd (.finish s i bound answer at') (ends _)
    | done => rfl
  · intro complete s' step
    cases step with
    | answer i bound at' => cases (complete i bound).symm.trans at'
    | abort i bound at' cancelled reason => cases (complete i bound).symm.trans at'
    | finish i bound answer at' => cases (complete i bound).symm.trans at'

-- While every distributor serves something that parses, nothing cancels the context.
structure Undisturbed (pkg : Package) (logID : String) (N : Int) (logSigV : Verifier) (origin : String)
    (witnesses : List Verifier) (distributors : List Fetcher) (s : GroupRun) : Prop where
  active : s.cancelled = false
  answers : ∀ i (bound : i < distributors.length) answer, s.phases i = .fetched answer →
    parsed pkg logID N logSigV origin witnesses answer =
      getCheckpointN pkg logID N logSigV origin witnesses distributors[i]
  sent : ∀ i (bound : i < distributors.length) c, s.phases i = .done →
    getCheckpointN pkg logID N logSigV origin witnesses distributors[i] = .ok c → c ∈ s.group.cpc
  served : ∀ c ∈ s.group.cpc, ∃ f ∈ distributors,
    getCheckpointN pkg logID N logSigV origin witnesses f = .ok c

theorem initial_undisturbed :
    Undisturbed pkg logID N logSigV origin witnesses distributors .initial where
  active := rfl
  answers i _ answer at' := by cases at'
  sent i _ c at' := by cases at'
  served c member := by cases member

theorem Undisturbed.step (quiet : Undisturbed pkg logID N logSigV origin witnesses distributors s)
    (all : ∀ f ∈ distributors, ∃ c, getCheckpointN pkg logID N logSigV origin witnesses f = .ok c)
    (step : GroupStep pkg logID N logSigV origin witnesses distributors s s') :
    Undisturbed pkg logID N logSigV origin witnesses distributors s' := by
  cases step with
  | answer i bound at' =>
    refine ⟨quiet.active, fun j inside answer phase => ?_, fun j inside c phase => ?_, quiet.served⟩
    · simp only [GroupRun.setPhase, Function.update_apply] at phase
      split at phase
      next here =>
        subst here
        obtain rfl := FetchPhase.fetched.inj phase
        rfl
      next => exact quiet.answers j inside answer phase
    · simp only [GroupRun.setPhase, Function.update_apply] at phase
      split at phase
      · cases phase
      · exact quiet.sent j inside c phase
  | abort i bound at' cancelled reason =>
    rw [quiet.active] at cancelled
    cases cancelled
  | finish i bound answer at' =>
    obtain ⟨c, served⟩ := all distributors[i] (List.getElem_mem bound)
    have own := quiet.answers i bound answer at'
    rw [served] at own
    have cpc : (s.finish pkg logID N logSigV origin witnesses i answer).group.cpc = s.group.cpc ++ [c] := by
      simp [GroupRun.finish, finish_group, own, Except.toOption]
    refine ⟨?_, fun j inside answer' phase => ?_, fun j inside c' phase fetched => ?_, fun c' member => ?_⟩
    · simp [GroupRun.finish, quiet.active, own, Except.toOption]
    · simp only [GroupRun.finish, Function.update_apply] at phase
      split at phase
      · cases phase
      · exact quiet.answers j inside answer' phase
    · rw [cpc]
      simp only [GroupRun.finish, Function.update_apply] at phase
      split at phase
      next here =>
        subst here
        obtain rfl := Except.ok.inj (served.symm.trans fetched)
        simp
      next => exact List.mem_append_left _ (quiet.sent j inside c' phase fetched)
    · rw [cpc] at member
      rcases List.mem_append.mp member with before | new
      · exact quiet.served c' before
      · rw [List.mem_singleton.mp new]
        exact ⟨distributors[i], List.getElem_mem bound, served⟩

theorem GroupReached.undisturbed
    (reached : GroupReached pkg logID N logSigV origin witnesses distributors s)
    (all : ∀ f ∈ distributors, ∃ c, getCheckpointN pkg logID N logSigV origin witnesses f = .ok c) :
    Undisturbed pkg logID N logSigV origin witnesses distributors s := by
  induction reached with
  | refl => exact initial_undisturbed
  | tail _ step ih => exact ih.step all step

-- One distributor has failed, and the fetches of the first `k` with it.
structure Abandoned (failed k : Nat) (s : GroupRun) : Prop where
  cancelled : s.cancelled = true
  none : s.group.cpc = []
  done : ∀ i, (i < k ∨ i = failed) → s.phases i = .done
  waiting : ∀ i, k ≤ i → i ≠ failed → s.phases i = .fetching

-- A fetch ends badly.
theorem GroupReached.fails (reached : GroupReached pkg logID N logSigV origin witnesses distributors s)
    {i : Nat} (bound : i < distributors.length) (at' : s.phases i = .fetching)
    (badly : (∀ c, getCheckpointN pkg logID N logSigV origin witnesses distributors[i] ≠ .ok c) ∨
      s.cancelled = true) :
    ∃ s', GroupReached pkg logID N logSigV origin witnesses distributors s' ∧ s'.cancelled = true ∧
      s'.group.cpc = s.group.cpc ∧ s'.phases = Function.update s.phases i .done := by
  have ends : ∀ answer, GroupReached pkg logID N logSigV origin witnesses distributors
        (s.setPhase i (.fetched answer)) →
      (parsed pkg logID N logSigV origin witnesses answer).toOption = none →
      ∃ s', GroupReached pkg logID N logSigV origin witnesses distributors s' ∧ s'.cancelled = true ∧
        s'.group.cpc = s.group.cpc ∧ s'.phases = Function.update s.phases i .done := by
    intro answer fetched refused
    have at'' : (s.setPhase i (.fetched answer)).phases i = .fetched answer := Function.update_self _ _ _
    refine ⟨_, fetched.tail (.finish _ i bound answer at''), ?_, ?_, ?_⟩
    · simp [GroupRun.finish, refused]
    · simp [GroupRun.finish, finish_group, refused, GroupRun.setPhase]
    · simp [GroupRun.finish, GroupRun.setPhase]
  rcases badly with fails | cancelled
  · refine ends _ (reached.tail (.answer s i bound at')) ?_
    rw [parsed_own]
    cases fetched : getCheckpointN pkg logID N logSigV origin witnesses distributors[i] with
    | error reason => rfl
    | ok c => exact absurd fetched (fails c)
  · exact ends _ (reached.tail (.abort s i bound at' cancelled (.text "context canceled"))) rfl

/-- After a failure all other fetches may fail, one after the other. -/
theorem abandoned_reached {failed : Nat} (bound : failed < distributors.length)
    (fails : ∀ c, getCheckpointN pkg logID N logSigV origin witnesses distributors[failed] ≠ .ok c)
    {k : Nat} (inside : k ≤ distributors.length) :
    ∃ s, GroupReached pkg logID N logSigV origin witnesses distributors s ∧ Abandoned failed k s := by
  induction k with
  | zero =>
    obtain ⟨s, reached, cancelled, cpc, phases⟩ :=
      GroupReached.fails .refl bound rfl (.inl fails)
    refine ⟨s, reached, cancelled, cpc, fun i here => ?_, fun i _ other => ?_⟩
    · obtain rfl : i = failed := by omega
      rw [phases, Function.update_self]
    · rw [phases, Function.update_of_ne other]
      rfl
  | succ k ih =>
    obtain ⟨s, reached, cancelled, none, done, waiting⟩ := ih (by omega)
    by_cases same : k = failed
    · refine ⟨s, reached, cancelled, none, fun i here => done i (by omega), fun i less other => ?_⟩
      exact waiting i (by omega) other
    · obtain ⟨s', reached', cancelled', cpc, phases⟩ :=
        reached.fails (by omega) (waiting k (Nat.le_refl k) same) (.inr cancelled)
      refine ⟨s', reached', cancelled', cpc.trans none, fun i here => ?_, fun i less other => ?_⟩
      · rw [phases]
        by_cases now : i = k
        · rw [now, Function.update_self]
        · rw [Function.update_of_ne now]
          exact done i (by omega)
      · rw [phases, Function.update_of_ne (by omega)]
        exact waiting i (by omega) other

theorem group_result (group : Group) :
    (group.cpc = [] → ∀ c, group.result N ≠ .ok c) ∧
      ∀ c ∈ group.cpc, N ≤ (c.n.sigs.length : Int) - 1 →
        ∃ b ∈ group.cpc, group.result N = .ok b ∧ N ≤ (b.n.sigs.length : Int) - 1 ∧
          ∀ other ∈ group.cpc, N ≤ (other.n.sigs.length : Int) - 1 → other.cp.size ≤ b.cp.size := by
  have best := bestOf_channel N group.cpc
  constructor
  · intro none c
    simp [Group.result, none]
  · intro c member enough
    obtain ⟨b, found, _⟩ := best.largest c member enough
    refine ⟨b, (best.found b found).1, by simp [Group.result, found], (best.found b found).2, ?_⟩
    intro other inside enough'
    obtain ⟨b', found', larger⟩ := best.largest other inside enough'
    obtain rfl := Option.some.inj (found.symm.trans found')
    exact larger

/-- The group comes to its end with the largest checkpoint that a distributor serves. -/
def Agrees (pkg : Package) (logID : String) (N : Int) (logSigV : Verifier) (origin : String)
    (witnesses : List Verifier) (distributors : List Fetcher) (group : Group) : Prop :=
  ∃ f ∈ distributors, ∃ c, group.result N = .ok c ∧
    Serves pkg logID N logSigV origin witnesses f c ∧
    ∀ g ∈ distributors, ∀ other, Serves pkg logID N logSigV origin witnesses g other →
      other.cp.size ≤ c.cp.size

/-- The call succeeds in every order in which the fetches can end. -/
def AlwaysAgrees (pkg : Package) (logID : String) (N : Int) (logSigV : Verifier) (origin : String)
    (witnesses : List Verifier) (distributors : List Fetcher) : Prop :=
  ∀ s, GroupReached pkg logID N logSigV origin witnesses distributors s →
    GroupEnds pkg logID N logSigV origin witnesses distributors s →
    Agrees pkg logID N logSigV origin witnesses distributors s.group

theorem not_alwaysAgrees {failed : Nat} (bound : failed < distributors.length)
    (fails : ∀ c, getCheckpointN pkg logID N logSigV origin witnesses distributors[failed] ≠ .ok c) :
    ¬ AlwaysAgrees pkg logID N logSigV origin witnesses distributors := by
  intro always
  obtain ⟨s, reached, abandoned⟩ := abandoned_reached bound fails (Nat.le_refl distributors.length)
  have complete : s.Complete distributors := fun j inside => abandoned.done j (.inl inside)
  obtain ⟨_, _, c, result, _⟩ := always s reached (groupEnds_iff.mpr complete)
  exact (group_result s.group).1 abandoned.none c result

/-- When a distributor serves a checkpoint, the call succeeds in every order of the fetches exactly if
no distributor gives an error of its own. -/
theorem consensus_available_iff (lawful : Lawful pkg) (logID : String) (N : Int) (logSigV : Verifier)
    (origin : String) (witnesses : List Verifier) (distributors : List Fetcher)
    (available : ∃ f ∈ distributors, ∃ c, Serves pkg logID N logSigV origin witnesses f c) :
    AlwaysAgrees pkg logID N logSigV origin witnesses distributors ↔
      ∀ f ∈ distributors, ∃ c, getCheckpointN pkg logID N logSigV origin witnesses f = .ok c := by
  constructor
  · intro always
    by_contra failing
    push Not at failing
    obtain ⟨f, member, fails⟩ := failing
    obtain ⟨i, bound, rfl⟩ := List.mem_iff_getElem.mp member
    exact not_alwaysAgrees bound fails always
  · intro all s reached ends
    have complete := groupEnds_iff.mp ends
    have quiet := reached.undisturbed all
    have sent : ∀ f ∈ distributors, ∀ c, getCheckpointN pkg logID N logSigV origin witnesses f = .ok c →
        c ∈ s.group.cpc := by
      intro f member c fetched
      obtain ⟨i, bound, rfl⟩ := List.mem_iff_getElem.mp member
      exact quiet.sent i bound c (complete i bound) fetched
    obtain ⟨f, member, c, fetched, witnessed⟩ := available
    obtain ⟨b, inside, result, enough, largest⟩ := (group_result s.group).2 c (sent f member c fetched)
      ((getCheckpointN_witnessed lawful fetched).mp witnessed)
    obtain ⟨g, listed, served⟩ := quiet.served b inside
    refine ⟨g, listed, b, result, ⟨served, (getCheckpointN_witnessed lawful served).mpr enough⟩, ?_⟩
    rintro f' member' other ⟨fetched', witnessed'⟩
    exact largest other (sent f' member' other fetched') ((getCheckpointN_witnessed lawful fetched').mp witnessed')

end Runs

section Tags

-- Two distributors that serve checkpoints of sizes 1 and 2, the smaller one with both witnesses.
def servingFetchers : List Fetcher :=
  [fun _ => .ok (tagNote (asciiBytes "o\n1\nAQ==\n") [108, 97, 98]),
    fun _ => .ok (tagNote (asciiBytes "o\n2\nAQ==\n") [108, 97])]

theorem ok_of_isSome {A : Type} {x : Except GoError A} (some' : x.toOption.isSome = true) : ∃ a, x = .ok a := by
  cases x with
  | error reason => cases some'
  | ok a => exact ⟨a, rfl⟩

theorem first_serves (rest : List Fetcher) :
    ∃ f ∈ servingFetchers.head (by simp [servingFetchers]) :: rest, ∃ c,
      Serves reference "id" 2 (tagVerifier 108) "o" [tagVerifier 97, tagVerifier 98] f c := by
  have signatures : (getCheckpointN reference "id" 2 (tagVerifier 108) "o" [tagVerifier 97, tagVerifier 98]
      (servingFetchers.head (by simp [servingFetchers]))).toOption.map (fun c => c.n.sigs.length) = some 3 := by
    decide +kernel
  refine ⟨_, List.mem_cons_self, ?_⟩
  cases fetched : getCheckpointN reference "id" 2 (tagVerifier 108) "o" [tagVerifier 97, tagVerifier 98]
      (servingFetchers.head (by simp [servingFetchers])) with
  | error reason =>
    rw [fetched] at signatures
    cases signatures
  | ok c =>
    rw [fetched] at signatures
    have count : c.n.sigs.length = 3 := Option.some.inj signatures
    exact ⟨c, fetched, (getCheckpointN_witnessed reference_lawful fetched).mpr (by omega)⟩

theorem consensus_available_iff_two :
    AlwaysAgrees reference "id" 2 (tagVerifier 108) "o" [tagVerifier 97, tagVerifier 98] servingFetchers := by
  refine (consensus_available_iff reference_lawful "id" 2 (tagVerifier 108) "o"
    [tagVerifier 97, tagVerifier 98] servingFetchers (first_serves _)).mpr fun f member => ?_
  simp only [servingFetchers, List.mem_cons, List.not_mem_nil, or_false] at member
  rcases member with rfl | rfl
  · exact ok_of_isSome (by decide +kernel)
  · exact ok_of_isSome (by decide +kernel)

-- The second distributor has no checkpoint, and its error cancels the fetch from the first.
theorem consensus_cancelled :
    (∃ f ∈ tagFetchers, ∃ c,
        Serves reference "id" 2 (tagVerifier 108) "o" [tagVerifier 97, tagVerifier 98] f c) ∧
      ¬ AlwaysAgrees reference "id" 2 (tagVerifier 108) "o" [tagVerifier 97, tagVerifier 98] tagFetchers :=
  ⟨first_serves _, not_alwaysAgrees (show 1 < tagFetchers.length by decide) fun c fetched => by cases fetched⟩

end Tags

end WitnessClient
