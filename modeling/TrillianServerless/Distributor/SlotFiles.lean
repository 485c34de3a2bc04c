import TrillianServerless.Distributor.UpdateState

set_option autoImplicit false

namespace GithubDistributor

open Go SignedNote Checkpoints Formats

-- The files in the directory of a log, by their names.
abbrev Dir := Bytes → Option Bytes

def slotName (i : Nat) : Bytes := asciiBytes "checkpoint." ++ formatUint 10 i

-- The names that match checkpoint.[0-9] are these, and Glob lists them in this order.
def slotGlob : List Bytes := (List.range 10).map slotName

def readFiles (dir : Dir) (names : List Bytes) : List Bytes := names.filterMap dir

def readState (dir : Dir) : State := readFiles dir slotGlob

def storeSlot (dir : Dir) (slot : Bytes × Nat) : Dir :=
  Function.update dir (slotName slot.2) (if slot.1 = [] then none else some slot.1)

def storeState (dir : Dir) (state : State) : Dir :=
  let written := state.zipIdx.foldl storeSlot dir
  (List.range' state.length (10 - state.length)).foldl (fun d i => storeSlot d ([], i)) written

-- What one run of the tool finds in the incoming directory, and the orders of its maps.
structure Run where
  incoming : List Bytes
  bodyOrder : MapOrder (Bytes × List Bytes)
  orders : Bytes → MapOrder Signature

section Tool

variable (pkg : Package) (sort : Sorter) (opts : UpdateOpts)

-- A run whose update fails exits before it stores anything.
def combineWitnessSignatures (dir : Dir) (run : Run) : Dir :=
  match updateState pkg sort run.bodyOrder run.orders (readState dir) run.incoming opts with
  | .ok newState => storeState dir newState
  | _ => dir

def runTool (dir : Dir) (runs : List Run) : Dir := runs.foldl (combineWitnessSignatures pkg sort opts) dir

def sizeOf (raw : Bytes) : Option Nat := do
  let text ← textOf pkg raw
  let cp ← pkg.unmarshal text
  return cp.size

end Tool

section Names

theorem slotName_injective {i j : Nat} (same : slotName i = slotName j) : i = j := by
  have digits : formatUint 10 i = formatUint 10 j := List.append_cancel_left same
  have large : ∀ n, n ≤ i + j → n < 2 ^ (i + j) := fun n bound =>
    Nat.lt_of_le_of_lt bound Nat.lt_two_pow_self
  have own := parseUint_formatUint 10 (by decide) (by decide) (large i (by omega))
  rw [digits, parseUint_formatUint 10 (by decide) (by decide) (large j (by omega))] at own
  exact (Option.some.inj own).symm

-- What the file of a slot holds.
def fileOf (slots : State) (i : Nat) : Option Bytes :=
  match slots[i]? with
  | none => none
  | some raw => if raw = [] then none else some raw

theorem fileOf_eq_some {slots : State} {i : Nat} {raw : Bytes} :
    fileOf slots i = some raw ↔ slots[i]? = some raw ∧ raw ≠ [] := by
  unfold fileOf
  cases slots[i]? with
  | none => simp
  | some other =>
    by_cases empty : other = []
    · simp [empty]
    · simp only [if_neg empty, Option.some.injEq]
      constructor
      · rintro rfl
        exact ⟨rfl, empty⟩
      · exact And.left

theorem storeSlots_apply (state : State) (k : Nat) (dir : Dir) (i : Nat) :
    (state.zipIdx k).foldl storeSlot dir (slotName i) =
      if k ≤ i ∧ i < k + state.length then fileOf state (i - k) else dir (slotName i) := by
  induction state generalizing k dir with
  | nil => simp
  | cons raw rest ih =>
    rw [List.zipIdx_cons, List.foldl_cons, ih]
    by_cases own : i = k
    · subst own
      simp [storeSlot, fileOf]
    · have other : slotName i ≠ slotName k := fun same => own (slotName_injective same)
      by_cases later : k + 1 ≤ i ∧ i < k + 1 + rest.length
      · rw [if_pos later, if_pos (by simp only [List.length_cons]; omega)]
        obtain ⟨d, rfl⟩ : ∃ d, i = k + 1 + d := ⟨i - (k + 1), by omega⟩
        rw [show k + 1 + d - (k + 1) = d by omega, show k + 1 + d - k = d + 1 by omega, fileOf, fileOf,
          List.getElem?_cons_succ]
      · rw [if_neg later, if_neg (by simp only [List.length_cons]; omega), storeSlot,
          Function.update_of_ne other]

theorem removeSlots_apply (k n : Nat) (dir : Dir) (i : Nat) :
    (List.range' k n).foldl (fun d j => storeSlot d ([], j)) dir (slotName i) =
      if k ≤ i ∧ i < k + n then none else dir (slotName i) := by
  induction n generalizing k dir with
  | zero => simp
  | succ n ih =>
    rw [List.range'_succ, List.foldl_cons, ih]
    by_cases own : i = k
    · subst own
      simp [storeSlot]
    · have other : slotName i ≠ slotName k := fun same => own (slotName_injective same)
      by_cases later : k + 1 ≤ i ∧ i < k + 1 + n
      · rw [if_pos later, if_pos (by omega)]
      · rw [if_neg later, if_neg (by omega), storeSlot, Function.update_of_ne other]

/-- storeState leaves the files of its slots, and no others with a number of one digit. -/
theorem storeState_apply (dir : Dir) (state : State) (i : Nat) :
    storeState dir state (slotName i) =
      if i < state.length then fileOf state i else if i < 10 then none else dir (slotName i) := by
  rw [storeState, removeSlots_apply, storeSlots_apply]
  by_cases inside : i < state.length
  · rw [if_neg (by omega), if_pos (by omega), if_pos inside, Nat.sub_zero]
  · rw [if_neg inside]
    by_cases digit : i < 10
    · rw [if_pos (by omega), if_pos digit]
    · rw [if_neg (by omega), if_neg (by omega), if_neg digit]

theorem mem_readState {dir : Dir} {raw : Bytes} :
    raw ∈ readState dir ↔ ∃ i < 10, dir (slotName i) = some raw := by
  simp [readState, readFiles, slotGlob]

theorem readState_length {dir : Dir} {n : Nat} (none' : ∀ i, n ≤ i → dir (slotName i) = none) :
    (readState dir).length ≤ n := by
  have front : readState dir = (List.range (min n 10)).filterMap fun i => dir (slotName i) := by
    have whole : List.range 10 = List.range (min n 10) ++ List.range' (min n 10) (10 - min n 10) := by
      have split : List.range' 0 (min n 10) ++ List.range' (0 + min n 10) (10 - min n 10) = _ :=
        List.range'_append_1
      rw [Nat.zero_add, show min n 10 + (10 - min n 10) = 10 by omega] at split
      rw [List.range_eq_range', List.range_eq_range', split]
    have rest : (List.range' (min n 10) (10 - min n 10)).filterMap (fun i => dir (slotName i)) = [] := by
      refine List.filterMap_eq_nil_iff.mpr fun i member => none' i ?_
      have := List.mem_range'_1.mp member
      omega
    rw [readState, readFiles, slotGlob, List.filterMap_map, whole, List.filterMap_append]
    show _ ++ (List.range' (min n 10) (10 - min n 10)).filterMap (fun i => dir (slotName i)) = _
    rw [rest, List.append_nil]
    rfl
  have length := List.length_filterMap_le (fun i => dir (slotName i)) (List.range (min n 10))
  rw [front]
  rw [List.length_range] at length
  omega

end Names

section Invariant

variable (pkg : Package) (sort : Sorter) (opts : UpdateOpts)

/-- The files of the slots are those of an update. -/
def DirOk (dir : Dir) (pool : List CpNoteRaw) (slots : State) : Prop :=
  opts.Allocates ∧ (∃ orders raws, PoolOf pkg sort orders opts raws pool) ∧ SlotLaw pkg opts pool slots ∧
    ∀ i, dir (slotName i) = fileOf slots i

variable {pkg sort opts}

theorem dirOk_empty (allocates : opts.Allocates) :
    DirOk pkg sort opts (fun _ => none) [] (List.replicate (opts.maxWitnessSignatures.toNat + 1) []) := by
  refine ⟨allocates, ⟨fun _ => .listed _, [], List.nodup_nil, by simp, by simp, by simp⟩,
    ⟨by simp, fun i bound => ?_, fun i bound some' => ?_⟩, fun i => ?_⟩
  · have slot : i < opts.maxWitnessSignatures.toNat + 1 := Nat.lt_succ_of_le bound
    simp [slot]
  · have slot : i < opts.maxWitnessSignatures.toNat + 1 := Nat.lt_succ_of_le bound
    simp [slot] at some'
  · rw [fileOf, List.getElem?_replicate]
    split
    · rfl
    next raw known =>
      split at known
      · obtain rfl := Option.some.inj known
        rfl
      · cases known

theorem DirOk.beyond {dir : Dir} {pool : List CpNoteRaw} {slots : State}
    (held : DirOk pkg sort opts dir pool slots) (i : Nat) (out : opts.maxWitnessSignatures.toNat + 1 ≤ i) :
    dir (slotName i) = none := by
  have missing : slots[i]? = none := by
    rw [List.getElem?_eq_none_iff, held.2.2.1.length]
    exact out
  rw [held.2.2.2, fileOf, missing]

theorem DirOk.readState_length {dir : Dir} {pool : List CpNoteRaw} {slots : State}
    (held : DirOk pkg sort opts dir pool slots) : (readState dir).length ≤ opts.maxWitnessSignatures.toNat + 1 :=
  GithubDistributor.readState_length held.beyond

variable (lawful : Lawful pkg) (sorts : sort.Lawful)
  (distinct : ((opts.logSigV :: opts.witnesses).map Verifier.key).Nodup)
include lawful sorts distinct

/-- A run fails and changes nothing, or stores the slots of an update of what the glob finds. -/
theorem run_cases {dir : Dir} {pool : List CpNoteRaw} {slots : State}
    (held : DirOk pkg sort opts dir pool slots) (run : Run) :
    combineWitnessSignatures pkg sort opts dir run = dir ∨
      ∃ pool' slots', PoolOf pkg sort run.orders opts (readState dir ++ run.incoming) pool' ∧
        DirOk pkg sort opts (combineWitnessSignatures pkg sort opts dir run) pool' slots' := by
  unfold combineWitnessSignatures
  split
  next newState ran =>
    obtain ⟨pool', made, sorted, rfl, -⟩ := updateState_pool lawful sorts ran
    have law := slotLaw_of_pool lawful sorts distinct made sorted held.1
    have own := made.of_fitSlots lawful (by rw [requiredSlots_of_allocates held.1]; exact held.readState_length)
    refine .inr ⟨pool', _, own, held.1, ⟨run.orders, _, made⟩, law, fun i => ?_⟩
    rw [storeState_apply]
    by_cases inside : i < (fillSlots opts.requiredSlots.toNat 0 pool').length
    · rw [if_pos inside]
    · have missing : (fillSlots opts.requiredSlots.toNat 0 pool')[i]? = none := by
        rw [List.getElem?_eq_none_iff]
        omega
      rw [if_neg inside, fileOf, missing]
      split
      · rfl
      · rw [law.length] at inside
        exact held.beyond i (by omega)
  · exact .inl rfl

theorem DirOk.run {dir : Dir} {pool : List CpNoteRaw} {slots : State}
    (held : DirOk pkg sort opts dir pool slots) (run : Run) :
    ∃ pool' slots', DirOk pkg sort opts (combineWitnessSignatures pkg sort opts dir run) pool' slots' := by
  rcases run_cases lawful sorts distinct held run with same | ⟨pool', slots', _, next⟩
  · rw [same]
    exact ⟨pool, slots, held⟩
  · exact ⟨pool', slots', next⟩

theorem runTool_ok (allocates : opts.Allocates) (runs : List Run) :
    ∃ pool slots, DirOk pkg sort opts (runTool pkg sort opts (fun _ => none) runs) pool slots := by
  have all : ∀ dir, (∃ pool slots, DirOk pkg sort opts dir pool slots) →
      ∃ pool slots, DirOk pkg sort opts (runTool pkg sort opts dir runs) pool slots := by
    induction runs with
    | nil => exact fun dir held => held
    | cons run rest ih =>
      rintro dir ⟨pool, slots, held⟩
      exact ih _ (held.run lawful sorts distinct run)
  exact all _ ⟨_, _, dirOk_empty allocates⟩

omit distinct in
/-- A tool that cannot allocate its slots stores no checkpoint. -/
theorem runTool_none (refuses : ¬ opts.Allocates) (runs : List Run) (i : Nat) :
    runTool pkg sort opts (fun _ => none) runs (slotName i) = none := by
  have all : ∀ dir : Dir, dir (slotName i) = none → runTool pkg sort opts dir runs (slotName i) = none := by
    induction runs with
    | nil => exact fun dir empty => empty
    | cons run rest ih =>
      intro dir empty
      refine ih _ ?_
      unfold combineWitnessSignatures
      cases ran : updateState pkg sort run.bodyOrder run.orders (readState dir) run.incoming opts with
      | ok newState =>
        obtain rfl := (updateState_length lawful sorts ran).resolve_left refuses
        show storeState dir [] (slotName i) = none
        rw [storeState_apply, if_neg (by simp), empty]
        split <;> rfl
      | error reason => exact empty
      | panic reason => exact empty
  exact all _ rfl

/-- The checkpoint in a slot file. -/
theorem DirOk.member {dir : Dir} {pool : List CpNoteRaw} {slots : State}
    (held : DirOk pkg sort opts dir pool slots) {i : Nat} {raw : Bytes} (file : dir (slotName i) = some raw) :
    i ≤ opts.maxWitnessSignatures.toNat ∧ ∃ m ∈ pool, m.raw = raw ∧ i ≤ witnessCount pkg opts m.raw ∧
      sizeOf pkg raw = some m.cp.size ∧ ∀ m' ∈ pool, i ≤ witnessCount pkg opts m'.raw → m'.cp.size ≤ m.cp.size := by
  have bound : i ≤ opts.maxWitnessSignatures.toNat := by
    by_contra out
    rw [held.beyond i (by omega)] at file
    cases file
  refine ⟨bound, ?_⟩
  obtain ⟨-, ⟨orders, raws, made⟩, law, files⟩ := held
  rw [files] at file
  obtain ⟨slot, some'⟩ := fileOf_eq_some.mp file
  have filled : slots[i]? ≠ some [] := fun empty => some' (Option.some.inj (slot.symm.trans empty))
  obtain ⟨m, member, own, enough, largest⟩ := law.best i bound filled
  have raw' : m.raw = raw := Option.some.inj (own.symm.trans slot)
  refine ⟨m, member, raw', enough, ?_, largest⟩
  obtain ⟨e, s, sigs, _, parsed, result⟩ := made.combinedAs lawful sorts distinct member
  rw [← raw']
  simp [sizeOf, textOf, result.decoded, parsed]

omit sorts distinct in
theorem fileOf_of_slotSize {slots : State} {i size : Nat} (sized : slotSize pkg slots i = some size) :
    ∃ raw, fileOf slots i = some raw ∧ sizeOf pkg raw = some size := by
  simp only [slotSize, Option.bind_eq_bind, Option.bind_eq_some_iff] at sized
  obtain ⟨raw, slot, rest⟩ := sized
  refine ⟨raw, fileOf_eq_some.mpr ⟨slot, ?_⟩, by simpa [sizeOf, Option.bind_eq_some_iff] using rest⟩
  rintro rfl
  simp [textOf, lawful.decode_nil] at rest

/-- No slot with a number of two digits gets filled. -/
def OneDigit (opts : UpdateOpts) : Prop := opts.maxWitnessSignatures.toNat ≤ 9 ∨ opts.witnesses.length ≤ 9

theorem DirOk.digit {dir : Dir} {pool : List CpNoteRaw} {slots : State}
    (held : DirOk pkg sort opts dir pool slots) (fits : OneDigit opts) {i : Nat} {raw : Bytes}
    (file : dir (slotName i) = some raw) : i < 10 := by
  obtain ⟨bound, m, _, _, enough, _⟩ := held.member lawful sorts distinct file
  rcases fits with few | few
  · omega
  · have most : witnessCount pkg opts m.raw ≤ opts.witnesses.length := List.length_filter_le _ _
    omega

/-- A run leaves every slot file with a checkpoint that is at least as large. -/
theorem DirOk.run_keeps {dir : Dir} {pool : List CpNoteRaw} {slots : State}
    (held : DirOk pkg sort opts dir pool slots) (fits : OneDigit opts) (run : Run) {i size : Nat} {raw : Bytes}
    (file : dir (slotName i) = some raw) (sized : sizeOf pkg raw = some size) :
    ∃ raw' size', combineWitnessSignatures pkg sort opts dir run (slotName i) = some raw' ∧
      sizeOf pkg raw' = some size' ∧ size ≤ size' := by
  rcases run_cases lawful sorts distinct held run with same | ⟨pool', slots', new, next⟩
  · rw [same]
    exact ⟨raw, size, file, sized, Nat.le_refl _⟩
  obtain ⟨bound, m, member, rfl, enough, own, _⟩ := held.member lawful sorts distinct file
  obtain rfl := Option.some.inj (sized.symm.trans own)
  have digit := held.digit lawful sorts distinct fits file
  have used : m.raw ∈ readState dir ++ run.incoming :=
    List.mem_append_left _ (mem_readState.mpr ⟨i, digit, file⟩)
  obtain ⟨-, ⟨orders, raws, old⟩, _⟩ := held
  obtain ⟨size', slot, larger⟩ :=
    slot_kept lawful sorts distinct old new next.2.2.1 member used bound enough
  obtain ⟨raw', file', sized'⟩ := fileOf_of_slotSize lawful slot
  exact ⟨raw', size', by rw [next.2.2.2]; exact file', sized', larger⟩

theorem DirOk.runs_keep {dir : Dir} {pool : List CpNoteRaw} {slots : State}
    (held : DirOk pkg sort opts dir pool slots) (fits : OneDigit opts) (runs : List Run) {i size : Nat}
    {raw : Bytes} (file : dir (slotName i) = some raw) (sized : sizeOf pkg raw = some size) :
    ∃ raw' size', runTool pkg sort opts dir runs (slotName i) = some raw' ∧
      sizeOf pkg raw' = some size' ∧ size ≤ size' := by
  induction runs generalizing dir pool slots raw size with
  | nil => exact ⟨raw, size, file, sized, Nat.le_refl _⟩
  | cons run rest ih =>
    obtain ⟨raw1, size1, file1, sized1, larger1⟩ := held.run_keeps lawful sorts distinct fits run file sized
    obtain ⟨pool', slots', next⟩ := held.run lawful sorts distinct run
    obtain ⟨raw2, size2, file2, sized2, larger2⟩ := ih next file1 sized1
    exact ⟨raw2, size2, file2, sized2, Nat.le_trans larger1 larger2⟩

/-- Stored checkpoints of one size have one body. -/
def OneBody (pkg : Package) (dir : Dir) : Prop :=
  ∀ i j raw raw', dir (slotName i) = some raw → dir (slotName j) = some raw' →
    sizeOf pkg raw = sizeOf pkg raw' → textOf pkg raw = textOf pkg raw'

theorem PoolOf.text {orders : Bytes → MapOrder Signature} {raws : List Bytes} {pool : List CpNoteRaw}
    (held : PoolOf pkg sort orders opts raws pool) {m : CpNoteRaw} (member : m ∈ pool) :
    textOf pkg m.raw = some m.note.text ∧ sizeOf pkg m.raw = some m.cp.size := by
  obtain ⟨e, s, sigs, note, parsed, result⟩ := held.combinedAs lawful sorts distinct member
  rw [note]
  simp [sizeOf, textOf, result.decoded, parsed]

theorem PoolOf.eq_of_text {orders : Bytes → MapOrder Signature} {raws : List Bytes} {pool : List CpNoteRaw}
    (held : PoolOf pkg sort orders opts raws pool) {m m' : CpNoteRaw} (member : m ∈ pool) (member' : m' ∈ pool)
    (same : textOf pkg m.raw = textOf pkg m'.raw) : m = m' := by
  rw [(held.text lawful sorts distinct member).1, (held.text lawful sorts distinct member').1] at same
  exact List.inj_on_of_nodup_map held.distinct member member' (Option.some.inj same)

section Readback

variable (apart : ∀ w ∈ opts.witnesses, w.key.hash ≠ opts.logSigV.key.hash)
include apart

/-- What an update makes of the stored checkpoints alone are these checkpoints. -/
theorem DirOk.pool_readback {dir : Dir} {pool : List CpNoteRaw} {slots : State}
    (held : DirOk pkg sort opts dir pool slots) {orders : Bytes → MapOrder Signature} {pool' : List CpNoteRaw}
    (new : PoolOf pkg sort orders opts (readState dir) pool') {m' : CpNoteRaw} (member' : m' ∈ pool') :
    ∃ m ∈ pool, ∃ j, dir (slotName j) = some m.raw ∧ m'.raw = m.raw ∧ m'.cp.size = m.cp.size := by
  obtain ⟨raw, stored, text⟩ := (new.bodies m'.note.text).mp (List.mem_map_of_mem member')
  obtain ⟨j, _, file⟩ := mem_readState.mp stored
  obtain ⟨_, m, member, rfl, _⟩ := held.member lawful sorts distinct file
  obtain ⟨-, ⟨orders', raws, old⟩, _⟩ := id held
  obtain ⟨e, s, sigs, made⟩ := old.combinedAs lawful sorts distinct member
  obtain ⟨e', s', sigs', made'⟩ := new.combinedAs lawful sorts distinct member'
  have body : e'.text = e.text := by
    rw [made'.1, textOf, made.2.2.decoded] at text
    exact (Option.some.inj text).symm
  have copies : ∀ cp ∈ withBody pkg (readState dir) e'.text, cp = m.raw := by
    intro cp listed
    obtain ⟨stored', text'⟩ := List.mem_filter.mp listed
    obtain ⟨k, _, file'⟩ := mem_readState.mp stored'
    obtain ⟨_, n, inPool, rfl, _⟩ := held.member lawful sorts distinct file'
    have same : textOf pkg n.raw = textOf pkg m.raw := by
      simp only [decide_eq_true_eq] at text'
      rw [text', textOf, made.2.2.decoded, body]
      rfl
    rw [old.eq_of_text lawful sorts distinct inPool member same]
  have again := made.2.2.again sorts distinct apart made'.2.2 copies body
  refine ⟨m, member, j, file, again, ?_⟩
  have size := (new.text lawful sorts distinct member').2
  rw [again, (old.text lawful sorts distinct member).2] at size
  exact (Option.some.inj size).symm

/-- A run that finds no incoming checkpoints leaves the slot files as they were. -/
theorem DirOk.readback {dir : Dir} {pool : List CpNoteRaw} {slots : State}
    (held : DirOk pkg sort opts dir pool slots) (fits : OneDigit opts) (oneBody : OneBody pkg dir) (run : Run)
    (none' : run.incoming = []) (i : Nat) :
    combineWitnessSignatures pkg sort opts dir run (slotName i) = dir (slotName i) := by
  rcases run_cases lawful sorts distinct held run with same | ⟨pool', slots', new, next⟩
  · rw [same]
  rw [none', List.append_nil] at new
  have stored := fun m' (member' : m' ∈ pool') =>
    held.pool_readback lawful sorts distinct apart new member'
  by_cases out : opts.maxWitnessSignatures.toNat + 1 ≤ i
  · rw [next.beyond i out, held.beyond i out]
  have bound : i ≤ opts.maxWitnessSignatures.toNat := by omega
  cases file : dir (slotName i) with
  | none =>
    cases file' : combineWitnessSignatures pkg sort opts dir run (slotName i) with
    | none => rfl
    | some raw' =>
      obtain ⟨_, m', member', rfl, enough, _⟩ := next.member lawful sorts distinct file'
      obtain ⟨m, member, _, _, same, _⟩ := stored m' member'
      have empty : slots[i]? = some [] := by
        rw [held.2.2.2, fileOf] at file
        have there : i < slots.length := by rw [held.2.2.1.length]; omega
        rw [List.getElem?_eq_getElem there] at file ⊢
        split at file
        · simp_all
        · simp_all
      have short := (held.2.2.1.nil i bound).mp empty m member
      rw [same] at enough
      omega
  | some raw =>
    obtain ⟨_, m, member, rfl, enough, sized, largest⟩ := held.member lawful sorts distinct file
    obtain ⟨raw', size', file', sized', larger⟩ := held.run_keeps lawful sorts distinct fits run file sized
    obtain ⟨_, m', member', rfl, enough', sized'', _⟩ := next.member lawful sorts distinct file'
    obtain rfl := Option.some.inj (sized'.symm.trans sized'')
    obtain ⟨n, inPool, j, fileN, same, sizeN⟩ := stored m' member'
    rw [same] at enough' sized'
    have smaller := largest n inPool enough'
    have bodies : textOf pkg n.raw = textOf pkg m.raw := by
      refine oneBody j i _ _ fileN file ?_
      rw [sized', sized]
      congr 1
      omega
    obtain ⟨-, ⟨_, _, old⟩, _⟩ := id held
    rw [file', same, old.eq_of_text lawful sorts distinct inPool member bodies]

end Readback

end Invariant

/-- As long as no slot with a number of two digits gets filled, the checkpoint in a slot file is never
replaced by a smaller one and never removed. If no witness has the log's hash, a run without new checkpoints
changes none. -/
theorem files_never_regress {pkg : Package} (lawful : Lawful pkg) {sort : Sorter} (sorts : sort.Lawful)
    {opts : UpdateOpts} (distinct : ((opts.logSigV :: opts.witnesses).map Verifier.key).Nodup) (fits : OneDigit opts)
    (runs : List Run) :
    (∀ (more : List Run) (i : Nat) (raw : Bytes),
      runTool pkg sort opts (fun _ => none) runs (slotName i) = some raw →
      ∃ raw' size size', runTool pkg sort opts (fun _ => none) (runs ++ more) (slotName i) = some raw' ∧
        sizeOf pkg raw = some size ∧ sizeOf pkg raw' = some size' ∧ size ≤ size') ∧
    ((∀ w ∈ opts.witnesses, w.key.hash ≠ opts.logSigV.key.hash) →
      ∀ run : Run, run.incoming = [] → OneBody pkg (runTool pkg sort opts (fun _ => none) runs) →
      ∀ i, runTool pkg sort opts (fun _ => none) (runs ++ [run]) (slotName i) =
        runTool pkg sort opts (fun _ => none) runs (slotName i)) := by
  by_cases allocates : opts.Allocates
  · obtain ⟨pool, slots, held⟩ := runTool_ok lawful sorts distinct allocates runs
    constructor
    · intro more i raw file
      obtain ⟨_, m, _, _, _, sized, _⟩ := held.member lawful sorts distinct file
      obtain ⟨raw', size', file', sized', larger⟩ :=
        held.runs_keep lawful sorts distinct fits more file sized
      refine ⟨raw', _, size', ?_, sized, sized', larger⟩
      rw [runTool, List.foldl_append]
      exact file'
    · intro apart run none' oneBody i
      rw [runTool, List.foldl_append]
      exact held.readback lawful sorts distinct apart fits oneBody run none' i
  · have nothing := runTool_none lawful sorts allocates
    constructor
    · intro more i raw file
      rw [nothing] at file
      cases file
    · intro _ run _ _ i
      rw [nothing, nothing]

section Tags

def tenTags : List UInt8 := [97, 98, 99, 100, 101, 102, 103, 104, 105, 106]

-- A run that finds the given checkpoints.
def runWith (incoming : List Bytes) : Run := ⟨incoming, .listed _, fun _ => .listed _⟩

-- A run that fills the first two of three slots with one checkpoint.
theorem one_stored : runTool reference .insertion (tagOpts [97, 98] 2) (fun _ => none)
    [runWith [tagNote (sizedText 1) [108, 97]]] =
      storeState (fun _ => none) [tagNote (sizedText 1) [108, 97], tagNote (sizedText 1) [108, 97], []] := by
  have result : updateState reference .insertion (.listed _) (fun _ => .listed _) (readState fun _ => none)
      [tagNote (sizedText 1) [108, 97]] (tagOpts [97, 98] 2) =
        .ok [tagNote (sizedText 1) [108, 97], tagNote (sizedText 1) [108, 97], []] := by
    decide +kernel
  show combineWitnessSignatures reference .insertion (tagOpts [97, 98] 2) (fun _ => none)
    ⟨[tagNote (sizedText 1) [108, 97]], .listed _, fun _ => .listed _⟩ = _
  rw [combineWitnessSignatures, result]

theorem one_stored_body : OneBody reference (runTool reference .insertion (tagOpts [97, 98] 2) (fun _ => none)
    [runWith [tagNote (sizedText 1) [108, 97]]]) := by
  have only : ∀ i raw, runTool reference .insertion (tagOpts [97, 98] 2) (fun _ => none)
      [runWith [tagNote (sizedText 1) [108, 97]]] (slotName i) = some raw → raw = tagNote (sizedText 1) [108, 97] := by
    intro i raw file
    rw [one_stored, storeState_apply] at file
    split at file
    · obtain ⟨slot, some'⟩ := fileOf_eq_some.mp file
      have member := List.mem_of_getElem? slot
      simp only [List.mem_cons, List.not_mem_nil, or_false] at member
      rcases member with same | same | same
      · exact same
      · exact same
      · exact absurd same some'
    · split at file <;> cases file
  intro i j raw raw' file file' _
  rw [only i raw file, only j raw' file']

theorem files_never_regress_two :
    runTool reference .insertion (tagOpts [97, 98] 2) (fun _ => none)
        [runWith [tagNote (sizedText 1) [108, 97]]] (slotName 1) = some (tagNote (sizedText 1) [108, 97]) ∧
      (∃ raw' size size', runTool reference .insertion (tagOpts [97, 98] 2) (fun _ => none)
          ([runWith [tagNote (sizedText 1) [108, 97]]] ++ [runWith [tagNote (sizedText 2) [108, 98]]])
          (slotName 1) = some raw' ∧
        sizeOf reference (tagNote (sizedText 1) [108, 97]) = some size ∧ sizeOf reference raw' = some size' ∧
        size ≤ size') ∧
      ∀ i, runTool reference .insertion (tagOpts [97, 98] 2) (fun _ => none)
          ([runWith [tagNote (sizedText 1) [108, 97]]] ++ [runWith []]) (slotName i) =
        runTool reference .insertion (tagOpts [97, 98] 2) (fun _ => none)
          [runWith [tagNote (sizedText 1) [108, 97]]] (slotName i) := by
  have file : runTool reference .insertion (tagOpts [97, 98] 2) (fun _ => none)
      [runWith [tagNote (sizedText 1) [108, 97]]] (slotName 1) = some (tagNote (sizedText 1) [108, 97]) := by
    decide +kernel
  obtain ⟨grows, stays⟩ := files_never_regress reference_lawful Sorter.insertion_lawful
    (by decide +kernel : ((((tagOpts [97, 98] 2).logSigV) :: (tagOpts [97, 98] 2).witnesses).map Verifier.key).Nodup)
    (.inl (by decide)) [runWith [tagNote (sizedText 1) [108, 97]]]
  exact ⟨file, grows _ 1 _ file, stays (by decide +kernel) _ rfl one_stored_body⟩

-- Ten witnesses sign size 1 and nine of them size 2: the glob then finds size 2 only.
theorem files_regress :
    ¬ ∀ (opts : UpdateOpts) (runs more : List Run) (i : Nat),
      ((opts.logSigV :: opts.witnesses).map Verifier.key).Nodup → i ≤ opts.maxWitnessSignatures.toNat →
      (∀ run ∈ runs ++ more, ∀ raw ∈ run.incoming, ∃ e cp,
        Endorsed reference opts.logSigV opts.witnesses raw e ∧ reference.unmarshal e.text = some cp ∧
          cp.origin = opts.logOrigin) →
      runTool reference .insertion opts (fun _ => none) runs (slotName i) ≠ none →
      runTool reference .insertion opts (fun _ => none) (runs ++ more) (slotName i) ≠ none := by
  intro keeps
  have first : decodeNote (tagNote (sizedText 1) (108 :: tenTags)) =
      some ⟨sizedText 1, (108 :: tenTags).map tagSignature⟩ := by decide +kernel
  have second : decodeNote (tagNote (sizedText 2) (108 :: tenTags.take 9)) =
      some ⟨sizedText 2, (108 :: tenTags.take 9).map tagSignature⟩ := by decide +kernel
  refine keeps (tagOpts tenTags 10) [runWith [tagNote (sizedText 1) (108 :: tenTags)],
    runWith [tagNote (sizedText 2) (108 :: tenTags.take 9)]] [runWith []] 10 (by decide +kernel) (by decide)
    ?_ (by decide +kernel) (by decide +kernel)
  intro run member raw listed
  simp only [List.cons_append, List.nil_append, List.mem_cons, List.not_mem_nil, or_false] at member
  rcases member with rfl | rfl | rfl
  · rw [List.mem_singleton.mp listed]
    exact ⟨_, ⟨"o", 1, [1]⟩, ⟨first, by decide +kernel, by decide +kernel⟩, by decide +kernel, rfl⟩
  · rw [List.mem_singleton.mp listed]
    exact ⟨_, ⟨"o", 2, [1]⟩, ⟨second, by decide +kernel, by decide +kernel⟩, by decide +kernel, rfl⟩
  · cases listed

end Tags

end GithubDistributor
