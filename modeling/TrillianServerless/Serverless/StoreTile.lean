import TrillianServerless.Serverless.FsStorage

set_option autoImplicit false

namespace Serverless

open Go Merkle Checkpoints FileSystem

def tileKeyOf : Path → Option TileKey
  | .tile level index _ => some (level, index)
  | .tileTemp level index _ => some (level, index)
  | .tileLink level index => some (level, index)
  | _ => none

-- The names that StoreTile uses for a tile.
def tilePath (e : TileEntry) : Path := .tile e.1.1 e.1.2 (e.2.numLeaves % 256)
def tempPath (e : TileEntry) : Path := .tileTemp e.1.1 e.1.2 (e.2.numLeaves % 256)
def linkPath (key : TileKey) : Path := .tileLink key.1 key.2

@[simp] theorem tileKeyOf_tilePath (e : TileEntry) : tileKeyOf (tilePath e) = some e.1 := rfl
@[simp] theorem tileKeyOf_tempPath (e : TileEntry) : tileKeyOf (tempPath e) = some e.1 := rfl
@[simp] theorem tileKeyOf_linkPath (key : TileKey) : tileKeyOf (linkPath key) = some key := rfl

theorem tempPath_ne_tilePath (e : TileEntry) : tempPath e ≠ tilePath e := fun same => by cases same

theorem tileKeyOf_partialNames {key : TileKey} {p : Path} (member : p ∈ partialNames key.1 key.2) :
    tileKeyOf p = some key := by
  simp only [partialNames, List.mem_append, List.mem_flatMap, List.mem_cons,
    List.not_mem_nil, or_false] at member
  rcases member with ⟨k, _, rfl | rfl⟩ | rfl | rfl <;> rfl

theorem full_not_partial (key : TileKey) : Path.tile key.1 key.2 0 ∉ partialNames key.1 key.2 := by
  simp [partialNames]

section Between

variable (root : Root) (e : TileEntry) (es : List TileEntry) (d s : LogDisk)

def Placed : Prop := ∃ i, s.Sole (tilePath e) i ∧ s.data i = e.2.marshalText

-- The names that StoreTile turns into links once the tile is full.
def Relinks (p : Path) : Prop :=
  e.2.numLeaves = 256 ∧ root.glob = .plain ∧ p ∈ partialNames e.1.1 e.1.2 ∧ d.has p = true

def LinksToFull (p : Path) : Prop :=
  s.lookup p = some (.symlink (tileTarget root e.1.1 e.1.2)) ∧ Placed e s

/-- What StoreTile may have done to the names of a tile at any point. -/
structure Touched : Prop where
  target : s.lookup (tilePath e) = d.lookup (tilePath e) ∨ Placed e s
  temp : s.Unshared (tempPath e)
  others : ∀ p, tileKeyOf p = some e.1 → p ≠ tilePath e → p ≠ tempPath e →
    s.lookup p = d.lookup p ∨
      ((Relinks root e d p ∨ (p = linkPath e.1 ∧ e.2.numLeaves = 256)) ∧ LinksToFull root e s p)

/-- A disk on the way from `d` to the one on which all of the tiles are stored. -/
structure Between : Prop where
  next : d.next ≤ s.next
  outside : ∀ p, (∀ e ∈ es, tileKeyOf p ≠ some e.1) → s.lookup p = d.lookup p
  own : ∀ e ∈ es, Touched root e d s
  data : ∀ i < d.next, (∀ e ∈ es, d.lookup (tempPath e) ≠ some (.file i)) → s.data i = d.data i

-- A full tile whose partial tiles can be listed and linked to it.
def Linkable : Prop :=
  e.2.numLeaves = 256 →
    root.glob ≠ .malformed ∧ (root.glob = .plain → d.lookup (linkPath e.1) = none)

/-- The names of a tile after StoreTile has returned. -/
structure Stored : Prop where
  placed : Placed e s
  temp : s.lookup (tempPath e) = none
  others : ∀ p, tileKeyOf p = some e.1 → p ≠ tilePath e → p ≠ tempPath e →
    (Relinks root e d p → s.lookup p = some (.symlink (tileTarget root e.1.1 e.1.2))) ∧
    (¬ Relinks root e d p → s.lookup p = d.lookup p)

end Between

section Frames

variable {root : Root} {e : TileEntry} {es : List TileEntry} {d s : LogDisk}

-- No tile is stored in an inode that another name has.
theorem Between.sole (between : Between root es d s) {p : Path} {i : Nat} (sole : d.Sole p i)
    (kept : s.lookup p = d.lookup p) : s.Sole p i := by
  have found : s.lookup p = some (.file i) := by rw [kept, sole.1]
  refine ⟨found, fun q same => ?_⟩
  by_cases foreign : ∀ e ∈ es, tileKeyOf q ≠ some e.1
  · exact sole.2 q (by rw [← between.outside q foreign, same])
  · push Not at foreign
    obtain ⟨e, member, key⟩ := foreign
    have touched := between.own e member
    by_cases target : q = tilePath e
    · rcases touched.target with kept | ⟨j, placed, _⟩
      · exact sole.2 q (by rw [target, ← kept, ← target, same])
      · have : j = i := by simpa [target, placed.1] using same
        rw [target, placed.2 p (by rw [found, this])]
    · by_cases temp : q = tempPath e
      · rcases touched.temp with missing | ⟨j, unshared⟩
        · rw [temp, missing] at same
          cases same
        · have : j = i := by simpa [temp, unshared.1] using same
          rw [temp, unshared.2 p (by rw [found, this])]
      · rcases touched.others q key target temp with kept | ⟨_, link, _⟩
        · exact sole.2 q (by rw [← kept, same])
        · rw [link] at same
          cases same

theorem Between.unshared (between : Between root es d s) {p : Path} (unshared : d.Unshared p)
    (kept : s.lookup p = d.lookup p) : s.Unshared p := by
  rcases unshared with missing | ⟨i, sole⟩
  · exact Or.inl (by rw [kept, missing])
  · exact Or.inr ⟨i, between.sole sole kept⟩

theorem Between.placed (between : Between root es d s) (placed : Placed e d)
    (apart : ∀ other ∈ es, other.1 ≠ e.1) : Placed e s := by
  obtain ⟨i, sole, content⟩ := placed
  have foreign : ∀ other ∈ es, tileKeyOf (tilePath e) ≠ some other.1 := fun other member same =>
    apart other member (Option.some.inj same).symm
  refine ⟨i, between.sole sole (between.outside _ foreign), ?_⟩
  rw [between.data i (d.lookup_lt _ sole.1) fun other member temp => ?_, content]
  have key := congrArg tileKeyOf (sole.2 _ temp)
  exact apart other member (Option.some.inj key)

theorem Between.refl (unshared : ∀ e ∈ es, d.Unshared (tempPath e)) : Between root es d d :=
  ⟨Nat.le_refl _, fun _ _ => rfl, fun e member => ⟨Or.inl rfl, unshared e member,
    fun _ _ _ _ => Or.inl rfl⟩, fun _ _ _ => rfl⟩

theorem Between.step {s' : LogDisk} (before : Between root es d s) (now : Between root [e] s s')
    (new : ∀ other ∈ es, other.1 ≠ e.1) : Between root (e :: es) d s' := by
  have foreign : ∀ p, tileKeyOf p = some e.1 → ∀ other ∈ es, tileKeyOf p ≠ some other.1 := by
    intro p key other member same
    exact new other member (Option.some.inj (same.symm.trans key))
  have untouched : ∀ p, tileKeyOf p = some e.1 → s.lookup p = d.lookup p := fun p key =>
    before.outside p (foreign p key)
  have kept : ∀ p, tileKeyOf p ≠ some e.1 → s'.lookup p = s.lookup p := fun p other =>
    now.outside p (by simpa using other)
  refine ⟨Nat.le_trans before.next now.next, fun p apart => ?_, fun other member => ?_,
    fun i less unused => ?_⟩
  · rw [kept p (apart e (by simp)), before.outside p fun other member => apart other (by simp [member])]
  · rcases List.mem_cons.mp member with rfl | earlier
    · have touched := now.own other (by simp)
      refine ⟨?_, touched.temp, fun p key target temp => ?_⟩
      · rw [← untouched _ (tileKeyOf_tilePath other)]
        exact touched.target
      · rw [← untouched p key]
        refine (touched.others p key target temp).imp_right fun ⟨reason, links⟩ => ⟨?_, links⟩
        refine reason.imp_left fun ⟨full, plain, member, has⟩ => ⟨full, plain, member, ?_⟩
        rwa [Disk.has, ← untouched p key]
    · have touched := before.own other earlier
      have differs : other.1 ≠ e.1 := new other earlier
      have away : ∀ p, tileKeyOf p = some other.1 → ∀ one ∈ [e], tileKeyOf p ≠ some one.1 := by
        intro p key one single same
        obtain rfl := List.mem_singleton.mp single
        exact differs (Option.some.inj (key.symm.trans same))
      have placed : Placed other s → Placed other s' := fun placed => now.placed placed (by
        intro one single same
        obtain rfl := List.mem_singleton.mp single
        exact differs same.symm)
      have same : ∀ p, tileKeyOf p = some other.1 → s'.lookup p = s.lookup p := fun p key =>
        now.outside p (away p key)
      refine ⟨?_, now.unshared touched.temp (same _ (tileKeyOf_tempPath other)),
        fun p key target temp => ?_⟩
      · rw [same _ (tileKeyOf_tilePath other)]
        exact touched.target.imp_right placed
      · rw [same p key]
        refine (touched.others p key target temp).imp_right fun ⟨reason, links⟩ => ⟨reason, ?_⟩
        exact ⟨by rw [same p key, links.1], placed links.2⟩
  · rw [now.data i (Nat.lt_of_lt_of_le less before.next) fun one single => ?_,
      before.data i less fun other member => unused other (by simp [member])]
    obtain rfl := List.mem_singleton.mp single
    rw [untouched _ (tileKeyOf_tempPath one)]
    exact unused one (by simp)

end Frames

section Relink

variable {root : Root} {key : TileKey} {w : LogWorld}

-- A disk in the loop over the partial tiles.
structure Relinking (root : Root) (key : TileKey) (partials : List Path) (d s : LogDisk) : Prop where
  data : s.data = d.data
  next : s.next = d.next
  names : ∀ q, s.lookup q = d.lookup q ∨ ((q ∈ partials ∨ q = linkPath key) ∧
    s.lookup q = some (.symlink (tileTarget root key.1 key.2)))

theorem relink_run {p : Path} (free : w.disk.lookup (linkPath key) = none) :
    ∃ s1 s2, relink root key.1 key.2 p w = (.ok (), ⟨s2, s1 :: w.states⟩) ∧
      Relinking root key [] w.disk s1 ∧ s2.data = w.disk.data ∧ s2.next = w.disk.next ∧
      ∀ q, s2.lookup q = if q = p then some (.symlink (tileTarget root key.1 key.2))
        else w.disk.lookup q := by
  obtain ⟨s1, linked, data, next, names⟩ :=
    Disk.symlink_ok (tileTarget root key.1 key.2) free
  obtain ⟨s2, renamed, data', next', names'⟩ := Disk.rename_ok p
    (names (linkPath key) |>.trans (if_pos rfl))
  refine ⟨s1, s2, ?_, ⟨data, next, fun q => ?_⟩, data'.trans data, next'.trans next, fun q => ?_⟩
  · exact (Eff.bind_of_ok (Eff.wrap_eq_ok.mpr (World.perform_ok linked))).trans
      (Eff.wrap_eq_ok.mpr (World.perform_ok renamed))
  · rw [names q]
    by_cases link : q = linkPath key
    · exact Or.inr ⟨Or.inr link, if_pos link⟩
    · exact Or.inl (if_neg link)
  · rw [names' q, names q]
    by_cases here : q = p
    · rw [if_pos here, if_pos here]
    · rw [if_neg here, if_neg here]
      by_cases link : q = linkPath key
      · rw [if_pos link, link, free]
      · rw [if_neg link, if_neg link]

theorem Relinking.later {partials rest : List Path} {d s s' : LogDisk} (subset : rest ⊆ partials)
    (first : Relinking root key partials d s) (next : Relinking root key rest s s') :
    Relinking root key partials d s' where
  data := next.data.trans first.data
  next := next.next.trans first.next
  names q := by
    rcases next.names q with kept | ⟨reason, link⟩
    · rw [kept]
      exact first.names q
    · exact Or.inr ⟨reason.imp_left fun member => subset member, link⟩

variable (root) in
/-- Once the temporary link is out of the way, the loop links all of the names. -/
theorem relinks_run {partials : List Path} (free : w.disk.lookup (linkPath key) = none)
    (apart : linkPath key ∉ partials) {Inv : LogDisk → Prop}
    (kept : ∀ s, Relinking root key partials w.disk s → Inv s) (always : w.Always Inv) :
    ∃ results w', Eff.each (relink root key.1 key.2) partials w = (.ok results, w') ∧
      w'.Always Inv ∧ w'.disk.data = w.disk.data ∧ w'.disk.next = w.disk.next ∧
      ∀ q, w'.disk.lookup q = if q ∈ partials then some (.symlink (tileTarget root key.1 key.2))
        else w.disk.lookup q := by
  induction partials generalizing w with
  | nil => exact ⟨[], w, rfl, always, rfl, rfl, fun q => by simp⟩
  | cons p rest ih =>
    obtain ⟨s1, s2, ran, relinking, data, next, names⟩ := relink_run (p := p) free
    have second : Relinking root key (p :: rest) w.disk s2 := by
      refine ⟨data, next, fun q => ?_⟩
      rw [names q]
      by_cases here : q = p
      · exact Or.inr ⟨Or.inl (by simp [here]), if_pos here⟩
      · exact Or.inl (if_neg here)
    have first : Relinking root key (p :: rest) w.disk s1 :=
      ⟨relinking.data, relinking.next, fun q => (relinking.names q).imp_right fun ⟨reason, link⟩ =>
        ⟨reason.imp_left fun member => absurd member (by simp), link⟩⟩
    have free' : s2.lookup (linkPath key) = none := by
      rw [names, if_neg (fun same => apart (by simp [same])), free]
    obtain ⟨results, w', rested, always', data', next', names'⟩ :=
      @ih ⟨s2, s1 :: w.states⟩ free' (fun member => apart (by simp [member]))
        (fun s later => kept s (second.later (by simp) later))
        ((always.step (kept s1 first)).step (kept s2 second))
    refine ⟨() :: results, w', ?_, always', data'.trans data, next'.trans next, fun q => ?_⟩
    · rw [Eff.each, Eff.bind_of_ok ran, Eff.bind_of_ok rested]
      rfl
    · rw [names' q, names q]
      by_cases later : q ∈ rest <;> by_cases here : q = p <;> simp [later, here]

end Relink

section Store

variable {root : Root} {e : TileEntry} {w : LogWorld}

theorem Between.of_wrote {d s : LogDisk} {content : Bytes} (wrote : d.Wrote (tempPath e) content s) :
    Between root [e] d s where
  next := wrote.next
  outside p apart := wrote.others p fun same => apart e (by simp) (by rw [same]; rfl)
  own other single := by
    obtain rfl := List.mem_singleton.mp single
    obtain ⟨i, sole, _⟩ := wrote.file
    exact ⟨Or.inl (wrote.others _ (tempPath_ne_tilePath other).symm), Or.inr ⟨i, sole⟩,
      fun p _ _ temp => Or.inl (wrote.others p temp)⟩
  data i less unused := wrote.data i less (unused e (by simp))

-- The tile file is in place and no partial tile is linked yet.
structure Renamed (e : TileEntry) (d s : LogDisk) : Prop where
  next : d.next ≤ s.next
  placed : Placed e s
  temp : s.lookup (tempPath e) = none
  others : ∀ p, p ≠ tilePath e → p ≠ tempPath e → s.lookup p = d.lookup p
  data : ∀ i < d.next, d.lookup (tempPath e) ≠ some (.file i) → s.data i = d.data i

theorem Renamed.between {d s : LogDisk} (renamed : Renamed e d s) : Between root [e] d s where
  next := renamed.next
  outside p apart := renamed.others p (fun same => apart e (by simp) (by rw [same]; rfl))
    fun same => apart e (by simp) (by rw [same]; rfl)
  own other single := by
    obtain rfl := List.mem_singleton.mp single
    exact ⟨Or.inr renamed.placed, Or.inl renamed.temp,
      fun p _ target temp => Or.inl (renamed.others p target temp)⟩
  data i less unused := renamed.data i less (unused e (by simp))

theorem place_run (unshared : w.disk.Unshared (tempPath e)) {Inv : LogDisk → Prop}
    (kept : ∀ s, Between root [e] w.disk s → Inv s) (always : w.Always Inv) :
    ∃ w1 w2, writeFile (tempPath e) e.2.marshalText w = (.ok (), w1) ∧
      World.perform (Disk.rename (tempPath e) (tilePath e)) w1 = (.ok (), w2) ∧
      w2.Always Inv ∧ Renamed e w.disk w2.disk := by
  obtain ⟨s1, opened, wrote1⟩ := Disk.openTruncate_wrote unshared
  obtain ⟨s2, written, wrote2⟩ := wrote1.write e.2.marshalText
  obtain ⟨i, sole, content, _⟩ := wrote2.file
  obtain ⟨s3, renamed, data, next, names⟩ := Disk.rename_ok (tilePath e) sole.1
  have placed : s3.Sole (tilePath e) i := by
    refine ⟨by rw [names, if_pos rfl], fun q same => ?_⟩
    by_contra other
    rw [names, if_neg other] at same
    split at same
    · cases same
    next notTemp => exact notTemp (sole.2 q same)
  have final : Renamed e w.disk s3 := by
    refine ⟨by rw [next]; exact wrote2.next, ⟨i, placed, by rw [data, content]⟩, ?_,
      fun p target temp => ?_, fun j less unused => ?_⟩
    · rw [names, if_neg (tempPath_ne_tilePath e), if_pos rfl]
    · rw [names, if_neg target, if_neg temp, wrote2.others p temp]
    · rw [data, wrote2.data j less unused]
  refine ⟨⟨s2, s1 :: w.states⟩, ⟨s3, s2 :: s1 :: w.states⟩, ?_, World.perform_ok renamed,
    ((always.step (kept s1 (Between.of_wrote wrote1))).step
      (kept s2 (Between.of_wrote wrote2))).step (kept s3 final.between), final⟩
  rw [writeFile, Eff.bind_of_ok (World.perform_ok opened)]
  exact World.perform_ok written

theorem Placed.of_lookup {s s' : LogDisk} (placed : Placed e s) (data : s'.data = s.data)
    (target : s'.lookup (tilePath e) = s.lookup (tilePath e))
    (files : ∀ q i, s'.lookup q = some (.file i) → s.lookup q = some (.file i)) : Placed e s' := by
  obtain ⟨i, sole, content⟩ := placed
  exact ⟨i, ⟨by rw [target, sole.1], fun q same => sole.2 q (files q i same)⟩, by rw [data, content]⟩

theorem Relinking.between {d s0 s : LogDisk} {partials : List Path} (renamed : Renamed e d s0)
    (relinks : ∀ p ∈ partials, Relinks root e d p) (apart : tempPath e ∉ partials)
    (full : e.2.numLeaves = 256) (relinking : Relinking root e.1 partials s0 s) :
    Between root [e] d s := by
  have target : tilePath e ∉ partials := fun member => by
    have name := (relinks _ member).2.2.1
    rw [tilePath, full] at name
    exact full_not_partial e.1 name
  have sameTarget : s.lookup (tilePath e) = s0.lookup (tilePath e) := by
    rcases relinking.names (tilePath e) with same | ⟨member | link, _⟩
    · exact same
    · exact absurd member target
    · cases link
  have sameTemp : s.lookup (tempPath e) = s0.lookup (tempPath e) := by
    rcases relinking.names (tempPath e) with same | ⟨member | link, _⟩
    · exact same
    · exact absurd member apart
    · cases link
  have placed : Placed e s := renamed.placed.of_lookup relinking.data sameTarget fun q i file => by
    rcases relinking.names q with same | ⟨_, link⟩
    · rw [← same, file]
    · rw [link] at file
      cases file
  refine ⟨by rw [relinking.next]; exact renamed.next, fun p foreign => ?_, fun other single => ?_,
    fun i less unused => by rw [relinking.data, renamed.data i less (unused e (by simp))]⟩
  · have key := foreign e (by simp)
    rcases relinking.names p with same | ⟨member | rfl, _⟩
    · rw [same, renamed.others p (by rintro rfl; exact key rfl) (by rintro rfl; exact key rfl)]
    · exact absurd (tileKeyOf_partialNames (relinks p member).2.2.1) key
    · exact absurd rfl key
  · obtain rfl := List.mem_singleton.mp single
    refine ⟨Or.inr placed, Or.inl (by rw [sameTemp, renamed.temp]), fun p key notTarget notTemp => ?_⟩
    rcases relinking.names p with same | ⟨reason, link⟩
    · exact Or.inl (by rw [same, renamed.others p notTarget notTemp])
    · refine Or.inr ⟨?_, link, placed⟩
      exact reason.imp (relinks p) fun same => ⟨same, full⟩

-- The names that Glob finds once the tile is in place.
theorem relinks_of_glob {d s : LogDisk} (renamed : Renamed e d s) (full : e.2.numLeaves = 256)
    (plain : root.glob = .plain) (p : Path) :
    p ∈ (partialNames e.1.1 e.1.2).filter s.has ↔ p ≠ tempPath e ∧ Relinks root e d p := by
  rw [List.mem_filter]
  constructor
  · rintro ⟨member, has⟩
    have temp : p ≠ tempPath e := by
      rintro rfl
      simp [Disk.has, renamed.temp] at has
    refine ⟨temp, full, plain, member, ?_⟩
    have target : p ≠ tilePath e := by
      rintro rfl
      rw [tilePath, full] at member
      exact full_not_partial e.1 member
    rwa [Disk.has, ← renamed.others p target temp]
  · rintro ⟨temp, _, _, member, has⟩
    have target : p ≠ tilePath e := by
      rintro rfl
      rw [tilePath, full] at member
      exact full_not_partial e.1 member
    exact ⟨member, by rwa [Disk.has, renamed.others p target temp]⟩

theorem Renamed.stored {d s : LogDisk} (renamed : Renamed e d s)
    (none : e.2.numLeaves ≠ 256 ∨ root.glob ≠ .plain) : Stored root e d s where
  placed := renamed.placed
  temp := renamed.temp
  others p _ target temp := by
    refine ⟨fun relinks => ?_, fun _ => renamed.others p target temp⟩
    rcases none with part | other
    · exact absurd relinks.1 part
    · exact absurd relinks.2.1 other

-- How StoreTile ends, and that it can be killed only in states between the two disks.
structure StoreEnds (root : Root) (e : TileEntry) (w : LogWorld) (Inv : LogDisk → Prop)
    (result : Outcome Unit × LogWorld) : Prop where
  always : result.2.Always Inv
  ends : (result.1 = .ok () ∧ Linkable root e w.disk ∧ Stored root e w.disk result.2.disk ∧
      Between root [e] w.disk result.2.disk) ∨
    (∃ reason, result.1 = .error reason) ∧ ¬ Linkable root e w.disk

-- A link that a process left behind when it died stops the first of the relinks.
theorem relinks_blocked {partials : List Path} {node : Node Path} {key : TileKey}
    (held : w.disk.lookup (linkPath key) = some node) (some' : partials ≠ []) :
    Eff.each (relink root key.1 key.2) partials w =
      (.error (.wrap "failed to create temp link to full tile: %w" .exist), w) := by
  obtain ⟨p, rest, rfl⟩ := List.exists_cons_of_ne_nil some'
  have exists' : World.perform (Disk.symlink (tileTarget root key.1 key.2)
      (.tileLink key.1 key.2)) w = (.error .exist, w) :=
    World.perform_error (Disk.symlink_exist held)
  have fails : relink root key.1 key.2 p w =
      (.error (.wrap "failed to create temp link to full tile: %w" .exist), w) :=
    Eff.bind_of_error (Eff.wrap_of_error exists')
  exact Eff.bind_of_error fails

theorem Renamed.relinked {d s s' : LogDisk} (renamed : Renamed e d s) (full : e.2.numLeaves = 256)
    (plain : root.glob = .plain) (data : s'.data = s.data)
    (names : ∀ q, s'.lookup q =
      if q ∈ (partialNames e.1.1 e.1.2).filter s.has then some (.symlink (tileTarget root e.1.1 e.1.2))
      else s.lookup q) : Stored root e d s' := by
  have found := relinks_of_glob renamed full plain
  have temp : tempPath e ∉ (partialNames e.1.1 e.1.2).filter s.has := fun member =>
    ((found _).mp member).1 rfl
  have target : tilePath e ∉ (partialNames e.1.1 e.1.2).filter s.has := by
    intro member
    have name := (List.mem_filter.mp member).1
    rw [tilePath, full] at name
    exact full_not_partial e.1 name
  refine ⟨?_, by rw [names, if_neg temp, renamed.temp], fun p _ notTarget notTemp => ?_⟩
  · refine renamed.placed.of_lookup data (by rw [names, if_neg target]) fun q i file => ?_
    rw [names] at file
    split at file
    · cases file
    · exact file
  · rw [names]
    refine ⟨fun relinked => if_pos ((found p).mpr ⟨notTemp, relinked⟩), fun kept => ?_⟩
    rw [if_neg fun member => kept ((found p).mp member).2, renamed.others p notTarget notTemp]

theorem relinkPartials_run {d : LogDisk} (renamed : Renamed e d w.disk) (full : e.2.numLeaves = 256)
    {Inv : LogDisk → Prop} (kept : ∀ s, Between root [e] d s → Inv s) (always : w.Always Inv)
    {past : List LogDisk} :
    StoreEnds root e ⟨d, past⟩ Inv (relinkPartials root e.1.1 e.1.2 w) := by
  have link : w.disk.lookup (linkPath e.1) = d.lookup (linkPath e.1) :=
    renamed.others _ (fun same => by cases same) fun same => by cases same
  unfold relinkPartials globPartials
  cases glob : root.glob with
  | malformed =>
    refine ⟨always, Or.inr ⟨⟨_, rfl⟩, fun linkable => ?_⟩⟩
    exact (linkable full).1 glob
  | misses =>
    refine ⟨always, Or.inl ⟨rfl, fun _ => ⟨by simp [glob], by simp [glob]⟩, ?_, renamed.between⟩⟩
    exact renamed.stored (Or.inr (by simp [glob]))
  | plain =>
    have found := relinks_of_glob renamed full glob
    dsimp only
    cases held : d.lookup (linkPath e.1) with
    | some node =>
      -- The link itself matches the pattern, so Glob finds at least one name.
      have member : linkPath e.1 ∈ (partialNames e.1.1 e.1.2).filter w.disk.has := by
        have temp : linkPath e.1 ≠ tempPath e := fun same => by cases same
        refine (found _).mpr ⟨temp, full, glob, ?_, by rw [Disk.has, held]; rfl⟩
        simp [partialNames, linkPath]
      rw [Eff.bind_of_error (relinks_blocked (link.trans held) (List.ne_nil_of_mem member))]
      refine ⟨always, Or.inr ⟨⟨_, rfl⟩, fun linkable => ?_⟩⟩
      rw [(linkable full).2 glob] at held
      cases held
    | none =>
      have apart : linkPath e.1 ∉ (partialNames e.1.1 e.1.2).filter w.disk.has := by
        intro member
        simp [Disk.has, link, held] at member
      have relinks : ∀ p ∈ (partialNames e.1.1 e.1.2).filter w.disk.has, Relinks root e d p :=
        fun p member => ((found p).mp member).2
      have temp : tempPath e ∉ (partialNames e.1.1 e.1.2).filter w.disk.has := fun member =>
        ((found _).mp member).1 rfl
      obtain ⟨results, w', ran, always', data, next, names⟩ := relinks_run root
        (link.trans held) apart
        (fun s relinking => kept s (relinking.between renamed relinks temp full)) always
      have final : Relinking root e.1 ((partialNames e.1.1 e.1.2).filter w.disk.has) w.disk w'.disk :=
        ⟨data, next, fun q => by
          rw [names q]
          split
          next member => exact Or.inr ⟨Or.inl member, rfl⟩
          next => exact Or.inl rfl⟩
      rw [Eff.bind_of_ok ran]
      exact ⟨always', Or.inl ⟨rfl, fun _ => ⟨by simp [glob], fun _ => held⟩,
        renamed.relinked full glob data names, final.between renamed relinks temp full⟩⟩

theorem storeTile_run (positive : 0 < e.2.numLeaves) (bound : e.2.numLeaves ≤ 256)
    (unshared : w.disk.Unshared (tempPath e)) {Inv : LogDisk → Prop}
    (kept : ∀ s, Between root [e] w.disk s → Inv s) (always : w.Always Inv) :
    StoreEnds root e w Inv (storeTile root e.1.1 e.1.2 e.2 w) := by
  obtain ⟨w1, w2, written, renamed, always', final⟩ := place_run unshared kept always
  rw [storeTile, if_neg (by omega)]
  have first : (writeFile (.tileTemp e.1.1 e.1.2 (e.2.numLeaves % 256)) e.2.marshalText).wrap
      "failed to write temporary tile file: %w" w = (.ok (), w1) := Eff.wrap_eq_ok.mpr written
  have second : (World.perform (Disk.rename (.tileTemp e.1.1 e.1.2 (e.2.numLeaves % 256))
      (.tile e.1.1 e.1.2 (e.2.numLeaves % 256)))).wrap "failed to rename temporary tile file: %w" w1 =
        (.ok (), w2) := Eff.wrap_eq_ok.mpr renamed
  rw [Eff.bind_of_ok first, Eff.bind_of_ok second]
  by_cases full : e.2.numLeaves = 256
  · rw [if_pos full]
    exact relinkPartials_run final full kept always'
  · rw [if_neg full]
    exact ⟨always', Or.inl ⟨rfl, fun same => absurd same full, final.stored (Or.inl full),
      final.between⟩⟩

end Store

section StoreAll

variable {root : Root} {es : List TileEntry} {d s s' : LogDisk}

def DistinctKeys (es : List TileEntry) : Prop := (es.map Sigma.fst).Nodup

theorem DistinctKeys.eq_of_key (distinct : DistinctKeys es) {e other : TileEntry} (left : e ∈ es)
    (right : other ∈ es) (same : e.1 = other.1) : e = other :=
  List.inj_on_of_nodup_map distinct left right same

theorem Between.mono {all : List TileEntry} (between : Between root es d s) (subset : es ⊆ all)
    (distinct : DistinctKeys all) (unshared : ∀ e ∈ all, d.Unshared (tempPath e)) :
    Between root all d s where
  next := between.next
  outside p apart := between.outside p fun e member => apart e (subset member)
  own e member := by
    by_cases stored : e ∈ es
    · exact between.own e stored
    · have apart : ∀ p, tileKeyOf p = some e.1 → ∀ other ∈ es, tileKeyOf p ≠ some other.1 := by
        intro p key other inside same
        have equal := distinct.eq_of_key member (subset inside) (Option.some.inj (key.symm.trans same))
        exact stored (equal ▸ inside)
      exact ⟨Or.inl (between.outside _ (apart _ (tileKeyOf_tilePath e))),
        between.unshared (unshared e member) (between.outside _ (apart _ (tileKeyOf_tempPath e))),
        fun p key _ _ => Or.inl (between.outside p (apart p key))⟩
  data i less unused := between.data i less fun e member => unused e (subset member)

theorem Stored.later {e other : TileEntry} (stored : Stored root e d s)
    (now : Between root [other] s s') (differs : other.1 ≠ e.1) : Stored root e d s' := by
  have same : ∀ p, tileKeyOf p = some e.1 → s'.lookup p = s.lookup p := by
    intro p key
    refine now.outside p fun one single foreign => ?_
    obtain rfl := List.mem_singleton.mp single
    exact differs (Option.some.inj (foreign.symm.trans key))
  refine ⟨now.placed stored.placed fun one single => ?_, by
    rw [same _ (tileKeyOf_tempPath e), stored.temp], fun p key target temp => by
    rw [same p key]
    exact stored.others p key target temp⟩
  obtain rfl := List.mem_singleton.mp single
  exact differs

-- A tile's names are as they were until its turn comes.
theorem Stored.from {e : TileEntry} (stored : Stored root e s s')
    (untouched : ∀ p, tileKeyOf p = some e.1 → s.lookup p = d.lookup p) : Stored root e d s' where
  placed := stored.placed
  temp := stored.temp
  others p key target temp := by
    have relinks : Relinks root e s p ↔ Relinks root e d p := by
      rw [Relinks, Relinks, Disk.has, Disk.has, untouched p key]
    rw [← relinks, ← untouched p key]
    exact stored.others p key target temp

theorem linkable_congr {e : TileEntry}
    (untouched : ∀ p, tileKeyOf p = some e.1 → s.lookup p = d.lookup p) :
    Linkable root e s ↔ Linkable root e d := by
  rw [Linkable, Linkable, untouched _ (tileKeyOf_linkPath e.1)]

/-- How storing the tiles ends: with all of them stored, or at one that cannot be linked. -/
structure StoresEnd (root : Root) (todo all : List TileEntry) (d : LogDisk) (Inv : LogDisk → Prop)
    (result : Outcome Unit × LogWorld) : Prop where
  always : result.2.Always Inv
  ends : (result.1 = .ok () ∧ (∀ e ∈ todo, Linkable root e d) ∧
      (∀ e ∈ all, Stored root e d result.2.disk) ∧ Between root all d result.2.disk) ∨
    (∃ reason, result.1 = .error reason) ∧ ∃ e ∈ todo, ¬ Linkable root e d

variable (root) in
theorem storeTiles_run (todo done : List TileEntry) (distinct : DistinctKeys (todo ++ done))
    (sizes : ∀ e ∈ todo, 0 < e.2.numLeaves ∧ e.2.numLeaves ≤ 256)
    (unshared : ∀ e ∈ todo ++ done, d.Unshared (tempPath e)) {w : LogWorld}
    (before : Between root done d w.disk) (stored : ∀ e ∈ done, Stored root e d w.disk)
    {Inv : LogDisk → Prop} (kept : ∀ s, Between root (todo ++ done) d s → Inv s)
    (always : w.Always Inv) :
    StoresEnd root todo (todo ++ done) d Inv (storeTiles (fsStorage root) todo w) := by
  induction todo generalizing done w with
  | nil => exact ⟨always, Or.inl ⟨rfl, by simp, stored, before⟩⟩
  | cons e rest ih =>
    have moved : (rest ++ e :: done).Perm (e :: rest ++ done) := List.perm_middle
    have fresh : ∀ other ∈ done, other.1 ≠ e.1 := by
      intro other member same
      have notIn := (List.nodup_cons.mp distinct).1
      exact notIn (same ▸ List.mem_map_of_mem (by simp [member]))
    have untouched : ∀ p, tileKeyOf p = some e.1 → w.disk.lookup p = d.lookup p := by
      intro p key
      refine before.outside p fun other member same => fresh other member ?_
      exact Option.some.inj (same.symm.trans key)
    have free : w.disk.Unshared (tempPath e) :=
      before.unshared (unshared e (by simp)) (untouched _ (tileKeyOf_tempPath e))
    have kept' : ∀ s, Between root [e] w.disk s → Inv s := by
      intro s now
      refine kept s ((before.step now fresh).mono ?_ distinct unshared)
      intro other member
      rcases List.mem_cons.mp member with rfl | member
      · simp
      · simp [member]
    obtain ⟨always', ends⟩ := storeTile_run (sizes e (by simp)).1 (sizes e (by simp)).2 free kept'
      always
    rw [linkable_congr untouched] at ends
    rcases ran : storeTile root e.1.1 e.1.2 e.2 w with ⟨out, w'⟩
    rw [ran] at ends always'
    rcases ends with ⟨rfl, linkable, now, between⟩ | ⟨⟨reason, rfl⟩, blocked⟩
    · have called : ((fsStorage root).storeTile e.1.1 e.1.2 e.2).wrap
          "failed to store tile at level %d index %d: %w" w = (.ok (), w') := Eff.wrap_eq_ok.mpr ran
      have later := @ih (e :: done) (moved.map Sigma.fst |>.nodup_iff.mpr distinct)
        (fun other member => sizes other (by simp [member]))
        (fun other member => unshared other (moved.subset member)) w' (before.step between fresh)
        (fun other member => by
          rcases List.mem_cons.mp member with rfl | member
          · exact now.from untouched
          · exact (stored other member).later between (fresh other member).symm)
        (fun s between => kept s (between.mono moved.subset distinct unshared)) always'
      rw [storeTiles, Eff.bind_of_ok called]
      refine ⟨later.always, ?_⟩
      rcases later.ends with ⟨ok, links, all, final⟩ | ⟨failed, other, member, blocked⟩
      · refine Or.inl ⟨ok, fun other member => ?_, fun other member => all other (moved.symm.subset
          member), final.mono moved.subset distinct unshared⟩
        rcases List.mem_cons.mp member with rfl | member
        · exact linkable
        · exact links other member
      · exact Or.inr ⟨failed, other, by simp [member], blocked⟩
    · have called : ((fsStorage root).storeTile e.1.1 e.1.2 e.2).wrap
          "failed to store tile at level %d index %d: %w" w = (.error _, w') := Eff.wrap_of_error ran
      rw [storeTiles, Eff.bind_of_error called]
      exact ⟨always', Or.inr ⟨⟨_, rfl⟩, e, by simp, blocked⟩⟩

end StoreAll

end Serverless
