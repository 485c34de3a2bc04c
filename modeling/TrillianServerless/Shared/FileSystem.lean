import Mathlib.Data.List.AList
import Mathlib.Data.List.DropRight
import Mathlib.Logic.Function.Basic
import TrillianServerless.Shared.Go

set_option autoImplicit false

namespace FileSystem

open Go

-- A symbolic link without target points outside the modelled names.
inductive Node (P : Type) where
  | file (inode : Nat)
  | symlink (target : Option P)
  deriving DecidableEq, Repr

/-- Names with hard and symbolic links, and the contents of the inodes. -/
structure Disk (P : Type) [DecidableEq P] where
  names : AList fun _ : P => Node P
  data : Nat → Bytes
  next : Nat
  used : ∀ p i, names.lookup p = some (.file i) → i < next

variable {P : Type} [DecidableEq P]

namespace Disk

def empty : Disk P := ⟨∅, fun _ => [], 0, fun p i found => by simp at found⟩

def lookup (d : Disk P) (p : P) : Option (Node P) := d.names.lookup p

def has (d : Disk P) (p : P) : Bool := (d.lookup p).isSome

-- Links are followed once: no link of the modelled programs leads to a link.
def inodeOf (d : Disk P) (p : P) : Option Nat :=
  match d.lookup p with
  | some (.file i) => some i
  | some (.symlink (some t)) =>
    match d.lookup t with
    | some (.file i) => some i
    | _ => none
  | _ => none

def readFile (d : Disk P) (p : P) : Option Bytes := (d.inodeOf p).map d.data

def setName (d : Disk P) (p : P) (node : Node P) (known : ∀ i, node = .file i → i < d.next) :
    Disk P where
  names := d.names.insert p node
  data := d.data
  next := d.next
  used q i found := by
    by_cases same : q = p
    · subst same
      rw [AList.lookup_insert] at found
      exact known i (Option.some.inj found)
    · rw [AList.lookup_insert_ne same] at found
      exact d.used q i found

def unset (d : Disk P) (p : P) : Disk P where
  names := d.names.erase p
  data := d.data
  next := d.next
  used q i found := by
    by_cases same : q = p
    · subst same
      simp at found
    · rw [AList.lookup_erase_ne same] at found
      exact d.used q i found

-- A new empty file under the name.
def create (d : Disk P) (p : P) : Disk P where
  names := d.names.insert p (.file d.next)
  data := Function.update d.data d.next []
  next := d.next + 1
  used q i found := by
    by_cases same : q = p
    · subst same
      rw [AList.lookup_insert] at found
      cases found
      exact Nat.lt_succ_self _
    · rw [AList.lookup_insert_ne same] at found
      exact Nat.lt_succ_of_lt (d.used q i found)

def write (d : Disk P) (i : Nat) (content : Bytes) : Disk P :=
  { d with data := Function.update d.data i content }

section Lookup

variable (d : Disk P) (p q : P)

@[simp] theorem lookup_empty : (empty : Disk P).lookup p = none := AList.lookup_empty p

theorem lookup_setName {node : Node P} {known : ∀ i, node = .file i → i < d.next} :
    (d.setName p node known).lookup q = if q = p then some node else d.lookup q := by
  by_cases same : q = p
  · subst same
    rw [if_pos rfl]
    exact AList.lookup_insert _
  · rw [if_neg same]
    exact AList.lookup_insert_ne same

theorem lookup_unset : (d.unset p).lookup q = if q = p then none else d.lookup q := by
  by_cases same : q = p
  · subst same
    rw [if_pos rfl]
    exact AList.lookup_erase _ _
  · rw [if_neg same]
    exact AList.lookup_erase_ne same

theorem lookup_create :
    (d.create p).lookup q = if q = p then some (.file d.next) else d.lookup q := by
  by_cases same : q = p
  · subst same
    rw [if_pos rfl]
    exact AList.lookup_insert _
  · rw [if_neg same]
    exact AList.lookup_insert_ne same

@[simp] theorem lookup_write (i : Nat) (content : Bytes) :
    (d.write i content).lookup q = d.lookup q := rfl

theorem has_iff : d.has p = true ↔ ∃ node, d.lookup p = some node := Option.isSome_iff_exists

theorem lookup_lt {i : Nat} (found : d.lookup p = some (.file i)) : i < d.next := d.used p i found

theorem lookup_lt_unset {i : Nat} (found : d.lookup q = some (.file i)) : i < (d.unset p).next :=
  d.used q i found

-- Reading depends on the name, on what it links to and on the content of the inode found.
theorem readFile_file {i : Nat} (found : d.lookup p = some (.file i)) :
    d.readFile p = some (d.data i) := by
  simp [readFile, inodeOf, found]

theorem readFile_symlink {t : P} {i : Nat} (found : d.lookup p = some (.symlink (some t)))
    (target : d.lookup t = some (.file i)) : d.readFile p = some (d.data i) := by
  simp [readFile, inodeOf, found, target]

theorem inodeOf_eq_some {i : Nat} (found : d.inodeOf p = some i) :
    d.lookup p = some (.file i) ∨
      ∃ t, d.lookup p = some (.symlink (some t)) ∧ d.lookup t = some (.file i) := by
  unfold inodeOf at found
  split at found
  next j name => exact Or.inl (by rw [name, Option.some.inj found])
  next t name =>
    split at found
    next j target => exact Or.inr ⟨t, name, by rw [target, Option.some.inj found]⟩
    · cases found
  · cases found

theorem readFile_congr {d s : Disk P} {p : P} (name : s.lookup p = d.lookup p)
    (target : ∀ t, d.lookup p = some (.symlink (some t)) → s.lookup t = d.lookup t)
    (data : ∀ i, d.inodeOf p = some i → s.data i = d.data i) : s.readFile p = d.readFile p := by
  have inode : s.inodeOf p = d.inodeOf p := by
    unfold inodeOf
    rw [name]
    split
    · rfl
    next t linked => rw [target t linked]
    · rfl
  rw [readFile, readFile, inode]
  cases found : d.inodeOf p with
  | none => rfl
  | some i => rw [Option.map_some, Option.map_some, data i found]

theorem readFile_missing (missing : d.lookup p = none) : d.readFile p = none := by
  simp [readFile, inodeOf, missing]

theorem readFile_dangling (found : d.lookup p = some (.symlink none)) : d.readFile p = none := by
  simp [readFile, inodeOf, found]

end Lookup

-- open(2) with O_CREAT|O_EXCL.
def openExclusive (p : P) (d : Disk P) : Except GoError (Disk P) :=
  if d.has p then .error .exist else .ok (d.create p)

-- open(2) with O_CREAT|O_TRUNC.
def openTruncate (p : P) (d : Disk P) : Except GoError (Disk P) :=
  match d.lookup p with
  | none => .ok (d.create p)
  | some (.file i) => .ok (d.write i [])
  | some (.symlink none) => .error .notExist
  | some (.symlink (some t)) =>
    match d.lookup t with
    | none => .ok (d.create t)
    | some (.file i) => .ok (d.write i [])
    | some (.symlink _) => .error .notExist

-- write(2) to the file just opened by this name.
def writeOpened (p : P) (content : Bytes) (d : Disk P) : Except GoError (Disk P) :=
  match d.inodeOf p with
  | some i => .ok (d.write i content)
  | none => .error .notExist

def link (src dst : P) (d : Disk P) : Except GoError (Disk P) :=
  match found : d.lookup src with
  | none => .error .notExist
  | some node =>
    if d.has dst then .error .exist
    else .ok (d.setName dst node fun i same => d.lookup_lt src (by rw [found, same]))

def symlink (target : Option P) (p : P) (d : Disk P) : Except GoError (Disk P) :=
  if d.has p then .error .exist
  else .ok (d.setName p (.symlink target) fun _ same => by cases same)

def rename (src dst : P) (d : Disk P) : Except GoError (Disk P) :=
  match found : d.lookup src with
  | none => .error .notExist
  | some node =>
    .ok ((d.unset src).setName dst node fun i same => d.lookup_lt_unset src src (by rw [found, same]))

def remove (p : P) (d : Disk P) : Except GoError (Disk P) :=
  if d.has p then .ok (d.unset p) else .error .notExist

theorem openExclusive_ok {p : P} {d d' : Disk P} (opened : openExclusive p d = .ok d') :
    d.lookup p = none ∧ d' = d.create p := by
  unfold openExclusive at opened
  split at opened
  · cases opened
  next free =>
    exact ⟨by simpa [has] using free, (Except.ok.inj opened).symm⟩

theorem writeOpened_file {p : P} {d : Disk P} {i : Nat} (found : d.lookup p = some (.file i))
    (content : Bytes) : writeOpened p content d = .ok (d.write i content) := by
  simp [writeOpened, inodeOf, found]

theorem rename_ok {src : P} (dst : P) {d : Disk P} {node : Node P} (found : d.lookup src = some node) :
    ∃ d', rename src dst d = .ok d' ∧ d'.data = d.data ∧ d'.next = d.next ∧
      ∀ q, d'.lookup q = if q = dst then some node else if q = src then none else d.lookup q := by
  unfold rename
  split
  next missing =>
    rw [found] at missing
    cases missing
  next other same =>
    obtain rfl : node = other := by
      rw [found] at same
      exact Option.some.inj same
    refine ⟨_, rfl, rfl, rfl, fun q => ?_⟩
    rw [lookup_setName, lookup_unset]

theorem link_ok {src dst : P} {d : Disk P} {node : Node P} (found : d.lookup src = some node)
    (free : d.lookup dst = none) :
    ∃ d', link src dst d = .ok d' ∧ d'.data = d.data ∧ d'.next = d.next ∧
      ∀ q, d'.lookup q = if q = dst then some node else d.lookup q := by
  unfold link
  split
  next missing =>
    rw [found] at missing
    cases missing
  next other same =>
    obtain rfl : node = other := by
      rw [found] at same
      exact Option.some.inj same
    rw [if_neg (by simp [has, free])]
    exact ⟨_, rfl, rfl, rfl, fun q => lookup_setName _ _ _⟩

theorem link_inv {src dst : P} {d d' : Disk P} (linked : link src dst d = .ok d') :
    ∃ node, d.lookup src = some node ∧ d.lookup dst = none ∧ d'.data = d.data ∧ d'.next = d.next ∧
      ∀ q, d'.lookup q = if q = dst then some node else d.lookup q := by
  unfold link at linked
  split at linked
  · cases linked
  next node found =>
    split at linked
    · cases linked
    next free =>
      obtain rfl := Except.ok.inj linked
      exact ⟨node, found, by simpa [has] using free, rfl, rfl, fun q => lookup_setName _ _ _⟩

theorem symlink_ok (target : Option P) {p : P} {d : Disk P} (free : d.lookup p = none) :
    ∃ d', symlink target p d = .ok d' ∧ d'.data = d.data ∧ d'.next = d.next ∧
      ∀ q, d'.lookup q = if q = p then some (.symlink target) else d.lookup q := by
  unfold symlink
  rw [if_neg (by simp [has, free])]
  exact ⟨_, rfl, rfl, rfl, fun q => lookup_setName _ _ _⟩

theorem symlink_exist {target : Option P} {p : P} {d : Disk P} {node : Node P}
    (found : d.lookup p = some node) : symlink target p d = .error .exist := by
  unfold symlink
  rw [if_pos (by simp [has, found])]

section Unshared

-- A file that has no other name.
def Sole (d : Disk P) (p : P) (i : Nat) : Prop :=
  d.lookup p = some (.file i) ∧ ∀ q, d.lookup q = some (.file i) → q = p

def Unshared (d : Disk P) (p : P) : Prop := d.lookup p = none ∨ ∃ i, d.Sole p i

/-- The disk after a file of its own has been written under a name that no other name shares. -/
structure Wrote (d : Disk P) (p : P) (content : Bytes) (s : Disk P) : Prop where
  next : d.next ≤ s.next
  others : ∀ q, q ≠ p → s.lookup q = d.lookup q
  file : ∃ i, s.Sole p i ∧ s.data i = content ∧ (d.lookup p = some (.file i) ∨ d.next ≤ i)
  data : ∀ i < d.next, d.lookup p ≠ some (.file i) → s.data i = d.data i

variable {d : Disk P} {p : P}

theorem openTruncate_wrote (unshared : d.Unshared p) :
    ∃ s, openTruncate p d = .ok s ∧ d.Wrote p [] s := by
  rcases unshared with missing | ⟨i, found, sole⟩
  · refine ⟨d.create p, by simp [openTruncate, missing], Nat.le_succ _, fun q other => ?_,
      ⟨d.next, ⟨by rw [lookup_create, if_pos rfl], fun q same => ?_⟩, Function.update_self _ _ _,
        Or.inr (Nat.le_refl _)⟩, fun i less _ => Function.update_of_ne (Nat.ne_of_lt less) _ _⟩
    · rw [lookup_create, if_neg other]
    · by_contra other
      rw [lookup_create, if_neg other] at same
      exact Nat.lt_irrefl _ (d.lookup_lt q same)
  · refine ⟨d.write i [], by simp [openTruncate, found], Nat.le_refl _, fun q _ => rfl,
      ⟨i, ⟨found, sole⟩, Function.update_self _ _ _, Or.inl found⟩, fun j _ other => ?_⟩
    refine Function.update_of_ne (fun same => other ?_) _ _
    rw [same, found]

theorem Wrote.write {s : Disk P} {content : Bytes} (wrote : d.Wrote p content s) (content' : Bytes) :
    ∃ s', writeOpened p content' s = .ok s' ∧ d.Wrote p content' s' := by
  obtain ⟨i, ⟨found, sole⟩, _, own⟩ := wrote.file
  refine ⟨s.write i content', writeOpened_file found content', wrote.next, wrote.others,
    ⟨i, ⟨found, sole⟩, Function.update_self _ _ _, own⟩, fun j less other => ?_⟩
  have apart : j ≠ i := by
    rintro rfl
    rcases own with same | new
    · exact other same
    · exact Nat.not_le.mpr less new
  exact (Function.update_of_ne apart _ _).trans (wrote.data j less other)

end Unshared

end Disk

/-- A disk with the states it went through, the latest first: each is a point between two operations
at which a run may be killed. -/
structure World (P : Type) [DecidableEq P] where
  disk : Disk P
  past : List (Disk P)

namespace World

def states (w : World P) : List (Disk P) := w.disk :: w.past

def Always (Inv : Disk P → Prop) (w : World P) : Prop := ∀ d ∈ w.states, Inv d

def perform (op : Disk P → Except GoError (Disk P)) : Eff (World P) Unit := fun w =>
  match op w.disk with
  | .ok d => (.ok (), ⟨d, w.states⟩)
  | .error reason => (.error reason, w)

theorem perform_ok {op : Disk P → Except GoError (Disk P)} {w : World P} {d : Disk P}
    (ran : op w.disk = .ok d) : perform op w = (.ok (), ⟨d, w.states⟩) := by
  simp [perform, ran]

theorem perform_error {op : Disk P → Except GoError (Disk P)} {w : World P} {reason : GoError}
    (ran : op w.disk = .error reason) : perform op w = (.error reason, w) := by
  simp [perform, ran]

theorem Always.step {Inv : Disk P → Prop} {w : World P} {d : Disk P} (always : w.Always Inv)
    (next : Inv d) : World.Always Inv ⟨d, w.states⟩ := by
  intro s member
  rcases List.mem_cons.mp member with rfl | earlier
  · exact next
  · exact always s earlier

theorem Always.now {Inv : Disk P → Prop} {w : World P} (always : w.Always Inv) : Inv w.disk :=
  always w.disk (by simp [states])

end World

section Paths

/-- A path as filepath.Clean leaves it. Only a relative one goes up, and only at its start. -/
inductive CleanPath where
  | absolute (names : List Bytes)
  | relative (ups : Nat) (names : List Bytes)
  deriving DecidableEq, Repr

namespace CleanPath

-- filepath.Join with names that are neither empty nor dots.
def join : CleanPath → List Bytes → CleanPath
  | .absolute names, more => .absolute (names ++ more)
  | .relative ups names, more => .relative ups (names ++ more)

-- Where the path leads from a directory. Going up ends at the top of the file system.
def resolve (base : List Bytes) : CleanPath → List Bytes
  | .absolute names => names
  | .relative ups names => base.rdrop ups ++ names

-- The path leads to one place from the working directory and from `depth` names below that place.
def Returns (cwd : List Bytes) (depth : Nat) : CleanPath → Prop
  | .absolute _ => True
  | .relative ups names => ups = names.length + depth ∨ cwd.length ≤ ups ∧ names.length + depth ≤ ups

instance (cwd : List Bytes) (depth : Nat) : (p : CleanPath) → Decidable (p.Returns cwd depth)
  | .absolute _ => .isTrue trivial
  | .relative _ _ => inferInstanceAs (Decidable (_ ∨ _))

variable {cwd : List Bytes}

theorem resolve_join (p : CleanPath) (names : List Bytes) :
    (p.join names).resolve cwd = p.resolve cwd ++ names := by
  cases p with
  | absolute root => rfl
  | relative ups root => simp [join, resolve]

theorem length_rdrop (names : List Bytes) (n : Nat) : (names.rdrop n).length = names.length - n := by
  simp [List.rdrop]

theorem rdrop_append_eq_iff (top names : List Bytes) (n : Nat) :
    (top ++ names).rdrop n = top ↔ n = names.length ∨ top = [] ∧ names.length ≤ n := by
  constructor
  · intro same
    have lengths := congrArg List.length same
    rw [length_rdrop, List.length_append] at lengths
    rcases Nat.eq_zero_or_pos top.length with empty | some'
    · exact .inr ⟨List.length_eq_zero_iff.mp empty, by omega⟩
    · exact .inl (by omega)
  · rintro (rfl | ⟨rfl, short⟩)
    · simp [List.rdrop]
    · simp [List.rdrop, short]

/-- A path that is taken from below the directory that it leads to leads there only by its own ups. -/
theorem resolve_below_iff (p : CleanPath) (below : List Bytes) :
    p.resolve (p.resolve cwd ++ below) = p.resolve cwd ↔ p.Returns cwd below.length := by
  cases p with
  | absolute names => simp [resolve, Returns]
  | relative ups names =>
    have top : cwd.rdrop ups = [] ↔ cwd.length ≤ ups := by
      rw [← List.length_eq_zero_iff, length_rdrop]
      omega
    simp only [resolve, Returns, List.append_cancel_right_eq]
    rw [List.append_assoc, rdrop_append_eq_iff, List.length_append, top]

end CleanPath

end Paths

end FileSystem
