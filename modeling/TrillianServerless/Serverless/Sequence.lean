import TrillianServerless.Serverless.FsStorage

set_option autoImplicit false

namespace Serverless

open Go Merkle FileSystem

def errDupeLeaf : GoError := .text "duplicate leaf"

structure SequenceCall where
  leafhash : Bytes
  leaf : Bytes
  deriving DecidableEq, Repr

-- What Sequence returns: the number and the error.
abbrev SequenceResult := Nat × Option GoError

-- The next filesystem operation of a call. `fd` is the inode of the file that createExclusive has open,
-- and the last two are the deferred removals, which run in reverse order.
inductive SequencePc where
  | readLeaf
  | createTmp
  | writeTmp (fd : Nat)
  | linkSeq
  | createLeafTmp (seq : Nat)
  | writeLeafTmp (seq fd : Nat)
  | linkLeaf (seq : Nat)
  | removeLeafTmp (result : SequenceResult)
  | removeTmp (result : SequenceResult)
  deriving DecidableEq, Repr

inductive Continuation where
  | goto (pc : SequencePc)
  | finish (result : SequenceResult)
  deriving DecidableEq, Repr

/-- A call of Sequence between two operations, with the storage's nextSeq. -/
structure CallState where
  disk : LogDisk
  nextSeq : Nat
  next : Continuation

section Steps

variable (c : SequenceCall) (n : Nat) (d : LogDisk)

def readLeaf : CallState :=
  match d.readFile (.leaf c.leafhash) with
  | none => ⟨d, n, .goto .createTmp⟩
  | some seqString =>
    match parseUint 16 64 seqString with
    | none => ⟨d, n, .finish (0, some (.text "strconv.ParseUint"))⟩
    | some origSeq => ⟨d, n, .finish (origSeq, some errDupeLeaf)⟩

def createTmp : CallState :=
  match Disk.openExclusive (.pending c.leafhash) d with
  | .error reason => ⟨d, n, .finish (0, some (.wrap "unable to write temporary file: %w"
      (.wrap "unable to create temporary file: %w" reason)))⟩
  | .ok d' => ⟨d', n, .goto (.writeTmp d.next)⟩

-- A number that is in use is skipped.
def linkSeq : CallState :=
  match Disk.link (.pending c.leafhash) (.seq n) d with
  | .error reason =>
    if reason.isErrExist then ⟨d, (n + 1) % 2 ^ 64, .goto .linkSeq⟩
    else ⟨d, n, .goto (.removeTmp (0, some (.wrap "failed to link seq file: %w" reason)))⟩
  | .ok d' => ⟨d', n, .goto (.createLeafTmp n)⟩

def createLeafTmp (seq : Nat) : CallState :=
  match Disk.openExclusive (.leafTmp c.leafhash) d with
  | .error reason =>
    ⟨d, n, .goto (.removeTmp (0, some (.wrap "couldn't create temporary leafhash file: %w"
      (.wrap "unable to create temporary file: %w" reason))))⟩
  | .ok d' => ⟨d', n, .goto (.writeLeafTmp seq d.next)⟩

def linkLeaf (seq : Nat) : CallState :=
  match Disk.link (.leafTmp c.leafhash) (.leaf c.leafhash) d with
  | .ok d' => ⟨d', n, .goto (.removeLeafTmp (seq, none))⟩
  | .error reason =>
    if reason.isErrExist then ⟨d, n, .goto (.removeLeafTmp (seq, none))⟩
    else ⟨d, n, .goto (.removeLeafTmp
      (0, some (.wrap "couldn't link temporary leafhash file in place: %w" reason)))⟩

-- The error of os.Remove is not looked at.
def removed (p : Path) : LogDisk :=
  match Disk.remove p d with
  | .ok d' => d'
  | .error _ => d

def sequenceStep : SequencePc → CallState
  | .readLeaf => readLeaf c n d
  | .createTmp => createTmp c n d
  | .writeTmp fd => ⟨d.write fd c.leaf, n, .goto .linkSeq⟩
  | .linkSeq => linkSeq c n d
  | .createLeafTmp seq => createLeafTmp c n d seq
  | .writeLeafTmp seq fd => ⟨d.write fd (formatUint 16 seq), n, .goto (.linkLeaf seq)⟩
  | .linkLeaf seq => linkLeaf c n d seq
  | .removeLeafTmp result => ⟨removed d (.leafTmp c.leafhash), n, .goto (.removeTmp result)⟩
  | .removeTmp result => ⟨removed d (.pending c.leafhash), n, .finish result⟩

end Steps

def CallState.advance (c : SequenceCall) (s : CallState) : CallState :=
  match s.next with
  | .goto pc => sequenceStep c s.nextSeq s.disk pc
  | .finish _ => s

def CallState.start (n : Nat) (d : LogDisk) : CallState := ⟨d, n, .goto .readLeaf⟩

-- A call of Sequence that has taken `k` steps with nothing in between.
def callAfter (c : SequenceCall) (n : Nat) (d : LogDisk) : Nat → CallState
  | 0 => .start n d
  | k + 1 => (callAfter c n d k).advance c

section System

variable (h : LogHasher)

-- `added` is the number under which the call has linked its leaf.
structure Running where
  call : SequenceCall
  pc : SequencePc
  added : Option Nat
  deriving DecidableEq, Repr

-- A process with a Storage of its own, whose functions are called one at a time.
structure Process where
  nextSeq : Nat
  running : Option Running
  deriving DecidableEq, Repr

structure Returned where
  call : SequenceCall
  result : SequenceResult
  added : Option Nat
  deriving DecidableEq, Repr

/-- The processes that work on one directory, and the calls that have returned, in order. -/
structure SequenceSystem where
  disk : LogDisk
  processes : Nat → Option Process
  returned : List Returned

inductive SequenceEvent where
  | load (p size : Nat)
  | call (p : Nat) (leaf : Bytes)
  | step (p : Nat)
  | crash (p : Nat)

-- Load is given a size for which there are sequenced entries.
def Loadable (d : LogDisk) (size : Nat) : Prop := size < 2 ^ 64 ∧ ∀ k < size, d.has (.seq k) = true

instance (d : LogDisk) (size : Nat) : Decidable (Loadable d size) :=
  inferInstanceAs (Decidable (_ ∧ _))

def Running.after (r : Running) (n : Nat) (next : SequencePc) : Running :=
  { r with pc := next, added := match r.pc, next with
      | .linkSeq, .createLeafTmp _ => some n
      | _, _ => r.added }

namespace SequenceSystem

def initial : SequenceSystem := ⟨.empty, fun _ => none, []⟩

def setProcess (s : SequenceSystem) (p : Nat) (process : Option Process) : SequenceSystem :=
  { s with processes := Function.update s.processes p process }

def stepProcess (s : SequenceSystem) (p : Nat) (n : Nat) (r : Running) : SequenceSystem :=
  let after := sequenceStep r.call n s.disk r.pc
  match after.next with
  | .goto pc =>
    { s.setProcess p (some ⟨after.nextSeq, some (r.after n pc)⟩) with disk := after.disk }
  | .finish result =>
    { s.setProcess p (some ⟨after.nextSeq, none⟩) with
      disk := after.disk
      returned := s.returned ++ [⟨r.call, result, r.added⟩] }

def step (s : SequenceSystem) : SequenceEvent → SequenceSystem
  | .load p size =>
    match s.processes p with
    | none => if Loadable s.disk size then s.setProcess p (some ⟨size, none⟩) else s
    | some _ => s
  | .call p leaf =>
    match s.processes p with
    | some ⟨n, none⟩ => s.setProcess p (some ⟨n, some ⟨⟨h.hashLeaf leaf, leaf⟩, .readLeaf, none⟩⟩)
    | _ => s
  | .step p =>
    match s.processes p with
    | some ⟨n, some r⟩ => s.stepProcess p n r
    | _ => s
  | .crash p => s.setProcess p none

def run (events : List SequenceEvent) : SequenceSystem := events.foldl (step h) initial

end SequenceSystem

end System

end Serverless
