import TrillianServerless.Serverless.IntegrateRetry
import TrillianServerless.Serverless.WebStorage

set_option autoImplicit false

namespace Serverless

open Go Merkle Checkpoints

namespace Web

section Pages

variable {deps : Deps} {js : JsStrings} {h : LogHasher} {opens : Bytes → Checkpoint} {signs : Checkpoint → Bytes}
  {entries : List Bytes} {p : Page}

theorem checkpointOf_same {s s' : WebStore} (same : s'.lookup .checkpoint = s.lookup .checkpoint) :
    checkpointOf opens s' = checkpointOf opens s := by
  rw [checkpointOf, checkpointOf, same]

/-- The store holds the tree of the checkpoint, and the hint is not beyond the first free number. -/
structure PageOk (h : LogHasher) (opens : Bytes → Checkpoint) (entries : List Bytes) (p : Page) : Prop where
  holding : Holding h entries (checkpointOf opens p.store).size p.store
  hint : p.nextSeq ≤ entries.length

-- The items that the tree does not depend on.
def isIndex : Path → Bool
  | .pending _ => true
  | .leaf _ => true
  | _ => false

theorem PageOk.same (ok : PageOk h opens entries p) {s : WebStore}
    (same : ∀ k, isIndex k = false → s.lookup k = p.store.lookup k) :
    PageOk h opens entries { p with store := s } where
  holding := by
    rw [checkpointOf_same (same .checkpoint rfl)]
    exact ok.holding.same (fun k => same _ rfl) fun _ _ _ => same _ rfl
  hint := ok.hint

theorem PageOk.insert (ok : PageOk h opens entries p) {k : Path} (index : isIndex k = true) (v : Bytes) :
    PageOk h opens entries { p with store := p.store.insert k v } := by
  refine ok.same fun k' other => AList.lookup_insert_ne ?_
  rintro rfl
  rw [index] at other
  cases other

theorem PageOk.indexLeaf (ok : PageOk h opens entries p) (c : SequenceCall) :
    PageOk h opens entries (indexLeaf js c p).2 := by
  unfold Web.indexLeaf
  split
  · exact ok
  · exact ok.insert rfl _

theorem PageOk.assign (ok : PageOk h opens entries p) (c : SequenceCall) (fuel : Nat) :
    ∃ more, PageOk h opens (entries ++ more) (assign js c fuel p).2 := by
  induction fuel generalizing p with
  | zero => exact ⟨[], by rwa [List.append_nil]⟩
  | succ fuel ih =>
    unfold Web.assign
    split
    next used =>
      have inside : p.nextSeq < entries.length := by
        by_contra beyond
        rw [ok.holding.sequences.free _ (by omega)] at used
        cases used
      have hint := Nat.mod_le (p.nextSeq + 1) (2 ^ 64)
      have skipped : PageOk h opens entries { p with nextSeq := (p.nextSeq + 1) % 2 ^ 64 } := ⟨ok.holding, by
        show (p.nextSeq + 1) % 2 ^ 64 ≤ entries.length
        omega⟩
      exact ih skipped
    next unused =>
      have last : p.nextSeq = entries.length := by
        by_contra other
        have := ok.hint
        rw [ok.holding.sequences.seqs p.nextSeq (by omega)] at unused
        exact unused rfl
      refine ⟨[js.through c.leaf], PageOk.indexLeaf ⟨?_, ?_⟩ c⟩
      · rw [checkpointOf_same (AList.lookup_insert_ne (by simp))]
        refine ok.holding.append ?_ (fun k other => ?_) fun level index size => AList.lookup_insert_ne (by simp)
        · rw [← last, AList.lookup_insert]
        · refine AList.lookup_insert_ne ?_
          rw [last]
          simpa using other
      · show p.nextSeq ≤ _
        rw [List.length_append]
        omega

theorem PageOk.sequence (ok : PageOk h opens entries p) (c : SequenceCall) :
    ∃ more, PageOk h opens (entries ++ more) (sequence js c p).2 := by
  have unchanged : ∃ more, PageOk h opens (entries ++ more) p := ⟨[], by rwa [List.append_nil]⟩
  unfold Web.sequence
  split
  · split
    · exact unchanged
    · exact unchanged
  · exact ok.assign c _

variable (js) in
/-- How Integrate ends on the store of a page. -/
theorem Holding.ends {s : WebStore} (lawful : Compact.Lawful deps.compact)
    (holding : Holding h entries (checkpointOf opens s).size s) :
    ∃ es, Dirty (h.logNode entries) (checkpointOf opens s).size entries.length es ∧
      (∀ x ∈ es, x.2.Holds (h.logNode entries) x.1 (tileCount x.1 entries.length)) ∧
      ∀ order : List TileEntry → List TileEntry, (∀ es, (order es).Perm es) →
        (entries.length = (checkpointOf opens s).size →
          integrateFrom deps js h opens order s = (.ok none, ⟨s, []⟩)) ∧
        (entries.length ≠ (checkpointOf opens s).size →
          ∃ done, StoresUpTo (some ⟨"", entries.length, h.logRoot entries⟩) (order es) done ⟨s, []⟩
            (integrateFrom deps js h opens order s)) := by
  obtain ⟨es, dirty, holds, runs⟩ := holding.runs js lawful
  refine ⟨es, dirty, holds, fun order permutes => ⟨fun all => ?_, fun more => ?_⟩⟩
  · rw [integrateFrom, runs order, if_pos all]
  · have distinct : DistinctKeys (order es) := ((permutes es).map Sigma.fst).nodup_iff.mpr dirty.distinct
    obtain ⟨done, stores⟩ := storeTiles_run js distinct
      (fun x member => dirty.sizes ((permutes es).subset member)) ⟨s, []⟩
    rw [integrateFrom, runs order, if_neg more]
    exact ⟨done, stores.returns js _⟩

-- A release is left while Integrate runs, or when it is done.
theorem release_states {order : List TileEntry → List TileEntry} {s s' : WebStore}
    (left : s' ∈ (release deps js h opens signs order s).2.states) :
    s' ∈ (integrateFrom deps js h opens order s).2.states ∨
      ∃ cp, (integrateFrom deps js h opens order s).1 = .ok (some cp) ∧
        s' = (integrateFrom deps js h opens order s).2.store.insert .checkpoint (js.through (signs cp)) := by
  rcases ran : integrateFrom deps js h opens order s with ⟨out, w⟩
  have ran' : integrate deps (storage js) h order (checkpointOf opens s) ⟨s, []⟩ = (out, w) := ran
  unfold release at left
  rcases out with newCp | reason | reason
  · rw [Eff.bind_of_ok ran'] at left
    cases newCp with
    | none => exact .inl left
    | some cp =>
      rcases List.mem_cons.mp left with rfl | old
      · exact .inr ⟨cp, rfl, rfl⟩
      · exact .inl old
  · rw [Eff.bind_of_error ran'] at left
    exact .inl left
  · rw [Eff.bind_of_panic ran'] at left
    exact .inl left

theorem PageOk.released (lawful : Compact.Lawful deps.compact)
    (signed : ∀ cp, (opens (js.through (signs cp))).size = cp.size) (ok : PageOk h opens entries p)
    {order : List TileEntry → List TileEntry} (permutes : ∀ es, (order es).Perm es) {s : WebStore}
    (left : s ∈ (release deps js h opens signs order p.store).2.states) :
    PageOk h opens entries { p with store := s } := by
  obtain ⟨es, dirty, holds, ends⟩ := ok.holding.ends js lawful
  have distinct : DistinctKeys (order es) := ((permutes es).map Sigma.fst).nodup_iff.mpr dirty.distinct
  have front : ∀ done, done <+: order es → PageOk h opens entries { p with store := done.foldl put p.store } := by
    intro done before
    have part := before.sublist.map Sigma.fst
    refine ⟨?_, ok.hint⟩
    rw [checkpointOf_same (puts_foreign done rfl p.store)]
    exact ok.holding.puts dirty holds (fun x member => (permutes es).subset (before.subset member))
      (distinct.sublist part)
  by_cases all : entries.length = (checkpointOf opens p.store).size
  · have nothing := (ends order permutes).1 all
    have whole : s = p.store := by
      rcases release_states left with state | ⟨cp, done, -⟩
      · rw [nothing] at state
        exact List.mem_singleton.mp state
      · rw [nothing] at done
        cases done
    rw [whole]
    exact ok
  obtain ⟨done, stores⟩ := (ends order permutes).2 all
  rcases release_states left with state | ⟨cp, returned, rfl⟩
  · obtain old | ⟨before, inside, rfl⟩ := stores.states s state
    · cases old
    · exact front before (inside.trans stores.front)
  · rcases stores.ends with ⟨ok', rfl⟩ | ⟨⟨reason, failed⟩, -⟩
    · rw [ok'] at returned
      obtain rfl := Option.some.inj (Outcome.ok.inj returned)
      refine ⟨?_, ok.hint⟩
      rw [checkpointOf, AList.lookup_insert, signed, stores.store]
      exact (ok.holding.settled dirty holds (permutes es)).same (fun k => AList.lookup_insert_ne (by simp))
        fun level index size => AList.lookup_insert_ne (by simp)
    · rw [failed] at returned
      cases returned

theorem PageStep.ok (lawful : Compact.Lawful deps.compact)
    (signed : ∀ cp, (opens (js.through (signs cp))).size = cp.size) {p p' : Page}
    (step : PageStep deps js h opens signs p p') (before : ∃ entries, PageOk h opens entries p) :
    ∃ entries, PageOk h opens entries p' := by
  obtain ⟨entries, ok⟩ := before
  cases step with
  | queue digest leaf =>
    refine ⟨entries, ?_⟩
    unfold Web.queue
    split
    · exact ok
    · exact ok.insert rfl _
  | deletePending digest =>
    refine ⟨entries, ok.same fun k other => AList.lookup_erase_ne ?_⟩
    rintro rfl
    cases other
  | sequence c =>
    obtain ⟨more, after⟩ := ok.sequence c
    exact ⟨_, after⟩
  | load => exact ⟨entries, ok.holding, ok.holding.order⟩
  | release order permutes s left => exact ⟨entries, ok.released lawful signed permutes left⟩

theorem page_ok (lawful : Compact.Lawful deps.compact)
    (signed : ∀ cp, (opens (js.through (signs cp))).size = cp.size)
    (reached : Relation.ReflTransGen (PageStep deps js h opens signs) emptyPage p) :
    ∃ entries, PageOk h opens entries p := by
  induction reached with
  | refl => exact ⟨[], Holding.empty h, Nat.le_refl 0⟩
  | tail _ step ih => exact step.ok lawful signed ih

end Pages

section Retry

variable (deps : Deps) (js : JsStrings) (h : LogHasher) (opens : Bytes → Checkpoint)

/-- Integrate comes to the same checkpoint and the same tiles from `c` as from `s`. -/
def Retried (order order' : List TileEntry → List TileEntry) (s c : WebStore) : Prop :=
  ∃ result, (integrateFrom deps js h opens order s).1 = .ok result ∧
    (integrateFrom deps js h opens order' c).1 = .ok result ∧
    ∀ level index size, (integrateFrom deps js h opens order' c).2.store.lookup (.tile level index size) =
      (integrateFrom deps js h opens order s).2.store.lookup (.tile level index size)

-- The size of the log with all entries that are sequenced.
def sequencedSize (s : WebStore) : Nat :=
  (checkpointOf opens s).size + (s.scan (checkpointOf opens s).size).length

/-- None of the tiles that get new leaves is there as it will be. -/
def Unwritten (s : WebStore) : Prop :=
  ∀ key : TileKey, tileCount key (checkpointOf opens s).size < tileCount key (sequencedSize opens s) →
    s.lookup (.tile key.1 key.2 (tileCount key (sequencedSize opens s) % 256)) = none

variable {deps js h opens} {signs : Checkpoint → Bytes} {entries : List Bytes} {s c : WebStore}

theorem Holding.sequencedSize (holding : Holding h entries (checkpointOf opens s).size s) :
    sequencedSize opens s = entries.length := by
  have order := holding.order
  rw [Web.sequencedSize, holding.sequences.scan, List.length_drop]
  omega

theorem unwritten_iff (holding : Holding h entries (checkpointOf opens s).size s) {es : List TileEntry}
    (dirty : Dirty (h.logNode entries) (checkpointOf opens s).size entries.length es) :
    Unwritten opens s ↔ ∀ x ∈ es, s.lookup (tilePath x) = none := by
  rw [Unwritten, holding.sequencedSize]
  constructor
  · intro unwritten x member
    rw [tilePath, dirty.numLeaves x member]
    exact unwritten x.1 (dirty.more x member)
  · intro free key more
    obtain ⟨x, member, rfl⟩ := dirty.all key more
    rw [← dirty.numLeaves x member]
    exact free x member

/-- Tiles are the same in whichever order they were stored. -/
theorem puts_perm {es es' : List TileEntry} (perm : es.Perm es') (distinct : DistinctKeys es) (p : Path) :
    (es.foldl put s).lookup p = (es'.foldl put s).lookup p := by
  have distinct' : DistinctKeys es' := (perm.map Sigma.fst).nodup_iff.mp distinct
  by_cases own : ∃ x ∈ es, tilePath x = p
  · obtain ⟨x, member, rfl⟩ := own
    rw [puts_own distinct member, puts_own distinct' (perm.subset member)]
  · push Not at own
    rw [puts_other fun x member same => own x member same.symm,
      puts_other fun x member same => own x (perm.symm.subset member) same.symm]

theorem StoresUpTo.goes_through {A : Type} {a : A} {es done : List TileEntry} {w : WebWorld}
    {result : Outcome A × WebWorld} (stores : StoresUpTo a es done w result)
    (free : ∀ x ∈ es, w.store.lookup (tilePath x) = none) :
    result.1 = .ok a ∧ result.2.store = es.foldl put w.store := by
  rcases stores.ends with ⟨returned, rfl⟩ | ⟨-, x, member, taken⟩
  · exact ⟨returned, stores.store⟩
  · exact absurd (free x member) taken

-- A run that is given up after its first tile leaves that tile in the way.
theorem front_empty (holding : Holding h entries (checkpointOf opens s).size s) {es front : List TileEntry}
    (dirty : Dirty (h.logNode entries) (checkpointOf opens s).size entries.length es)
    (holds : ∀ x ∈ es, x.2.Holds (h.logNode entries) x.1 (tileCount x.1 entries.length)) (inside : front ⊆ es)
    (distinct : DistinctKeys front) (unwritten : Unwritten opens (front.foldl put s)) : front = [] := by
  cases front with
  | nil => rfl
  | cons x rest =>
    have member : x ∈ es := inside (by simp)
    have same := @checkpointOf_same opens _ _ (puts_foreign (x :: rest) rfl s)
    have after : Holding h entries (checkpointOf opens ((x :: rest).foldl put s)).size ((x :: rest).foldl put s) := by
      rw [same]
      exact holding.puts dirty holds inside distinct
    have dirty' := dirty
    rw [← same] at dirty'
    have free := (unwritten_iff after dirty').mp unwritten x member
    rw [puts_own distinct (by simp) s] at free
    cases free

/-- Whatever was done to the log of a page before, and wherever a run of Integrate is given up: Integrate can be
run again if and only if none of the tiles that it has to store is there. -/
theorem integrate_retried_iff (deps : Deps) (lawful : Compact.Lawful deps.compact) (js : JsStrings) (h : LogHasher)
    (opens : Bytes → Checkpoint) (signs : Checkpoint → Bytes)
    (signed : ∀ cp, (opens (js.through (signs cp))).size = cp.size) (p : Page)
    (reached : Relation.ReflTransGen (PageStep deps js h opens signs) emptyPage p)
    (order order' : List TileEntry → List TileEntry) (permutes : ∀ es, (order es).Perm es)
    (permutes' : ∀ es, (order' es).Perm es) (c : WebStore)
    (left : c ∈ (integrateFrom deps js h opens order p.store).2.states) :
    Retried deps js h opens order order' p.store c ↔ Unwritten opens c := by
  obtain ⟨entries, ok⟩ := page_ok lawful signed reached
  obtain ⟨es, dirty, holds, ends⟩ := ok.holding.ends js lawful
  by_cases all : entries.length = (checkpointOf opens p.store).size
  · have nothing := fun order permutes => (ends order permutes).1 all
    rw [nothing order permutes] at left
    obtain rfl : c = p.store := List.mem_singleton.mp left
    refine ⟨fun _ key more => ?_, fun _ => ⟨none, ?_, ?_, fun level index size => ?_⟩⟩
    · rw [ok.holding.sequencedSize, all] at more
      omega
    · rw [nothing order permutes]
    · rw [nothing order' permutes']
    · rw [nothing order permutes, nothing order' permutes']
  obtain ⟨done, stores⟩ := (ends order permutes).2 all
  obtain old | ⟨front, before, rfl⟩ := stores.states c left
  · cases old
  have distinct : DistinctKeys (order es) := ((permutes es).map Sigma.fst).nodup_iff.mpr dirty.distinct
  have some' : DistinctKeys front := distinct.sublist ((before.trans stores.front).sublist.map Sigma.fst)
  have inside : front ⊆ es := fun x member => (permutes es).subset ((before.trans stores.front).subset member)
  have same := @checkpointOf_same opens _ _ (puts_foreign front rfl p.store)
  constructor
  · rintro ⟨result, -, again, -⟩
    have after : Holding h entries (checkpointOf opens (front.foldl put p.store)).size (front.foldl put p.store) := by
      rw [same]
      exact ok.holding.puts dirty holds inside some'
    obtain ⟨es', dirty', -, ends'⟩ := after.ends js lawful
    obtain ⟨done', stores'⟩ := (ends' order' permutes').2 (by rwa [same])
    rcases stores'.ends with ⟨-, rfl⟩ | ⟨⟨reason, failed⟩, -⟩
    · exact (unwritten_iff after dirty').mpr fun x member => stores'.free x ((permutes' es').symm.subset member)
    · rw [failed] at again
      cases again
  · intro unwritten
    obtain rfl := front_empty ok.holding dirty holds inside some' unwritten
    have free := (unwritten_iff ok.holding dirty).mp unwritten
    obtain ⟨done', stores'⟩ := (ends order' permutes').2 all
    obtain ⟨returned, stored⟩ := stores.goes_through fun x member => free x ((permutes es).subset member)
    obtain ⟨returned', stored'⟩ := stores'.goes_through fun x member => free x ((permutes' es).subset member)
    have perm : (order' es).Perm (order es) := (permutes' es).trans (permutes es).symm
    have distinct' : DistinctKeys (order' es) := (perm.map Sigma.fst).nodup_iff.mpr distinct
    refine ⟨_, returned, returned', fun level index size => ?_⟩
    rw [stored]
    exact (congrArg (AList.lookup _) stored').trans (puts_perm perm distinct' _)

end Retry

section OneEntry

def plainStrings : JsStrings := ⟨id, fun _ _ => rfl⟩

def onePage : Page := (sequence plainStrings ⟨LogHasher.padded.hashLeaf [1], [1]⟩ emptyPage).2

theorem onePage_reached : Relation.ReflTransGen
    (PageStep referenceDeps plainStrings LogHasher.padded openSize sizeNote) emptyPage onePage :=
  .single (.sequence _ _)

def integrateOne (s : WebStore) : Outcome (Option Checkpoint) × WebWorld :=
  integrateFrom referenceDeps plainStrings LogHasher.padded openSize id s

-- One tile is stored for one entry.
theorem integrateOne_states : (integrateOne onePage.store).2.states.length = 2 := by decide +kernel

def givenUpAt (k : Fin 2) : WebStore := (integrateOne onePage.store).2.states.get (k.cast integrateOne_states.symm)

theorem unwritten_of_no_tiles {opens : Bytes → Checkpoint} {s : WebStore}
    (without : s.keys.all (fun k => tileKeyOf k = none) = true) : Unwritten opens s := by
  intro key _
  refine AList.lookup_eq_none.mpr fun member => ?_
  have none := List.all_eq_true.mp without _ member
  cases of_decide_eq_true none

theorem integrate_retried_iff_one :
    Retried referenceDeps plainStrings LogHasher.padded openSize id id onePage.store (givenUpAt 1) :=
  (integrate_retried_iff referenceDeps Compact.reference_lawful plainStrings LogHasher.padded openSize sizeNote
    openSize_sizeNote onePage onePage_reached id id (fun _ => .refl _) (fun _ => .refl _) (givenUpAt 1)
    (List.get_mem _ _)).mpr (unwritten_of_no_tiles (by decide +kernel))

/-- Once the tile is stored and the checkpoint is not, no run goes through any more. -/
theorem stored_tile_blocks :
    Relation.ReflTransGen (PageStep referenceDeps plainStrings LogHasher.padded openSize sizeNote) emptyPage onePage ∧
      givenUpAt 0 ∈ (integrateOne onePage.store).2.states ∧
      (integrateOne onePage.store).1 = .ok (some ⟨"", 1, hashOne⟩) ∧
      ¬ Retried referenceDeps plainStrings LogHasher.padded openSize id id onePage.store (givenUpAt 0) := by
  refine ⟨onePage_reached, List.get_mem _ _, by decide +kernel, ?_⟩
  have failed : (integrateOne (givenUpAt 0)).1 = .error (.wrap "failed to store tile at level %d index %d: %w"
      (.wrap "failed to write temporary tile file: %w" .exist)) := by
    decide +kernel
  rintro ⟨result, -, again, -⟩
  cases failed.symm.trans again

end OneEntry

end Web

end Serverless
