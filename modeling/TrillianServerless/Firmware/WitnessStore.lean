import TrillianServerless.Shared.Go
import TrillianServerless.Shared.Runs

set_option autoImplicit false

namespace Firmware

namespace WitnessStore

open Go Runs

section Model

-- The store's file; `none` where there is no file.
abbrev File := Option Bytes

-- What the operating system answers to the calls on the file. A write that fails has written a number of bytes.
abbrev Answer := Except GoError Unit

abbrev WriteAnswer := Except (Nat × GoError) Unit

-- Writing at the front of a file that was opened without O_TRUNC.
def overwrite (content written : Bytes) : Bytes := written ++ content.drop written.length

-- Storage.init, which is all that NewStorage does.
def init (opened closed : Answer) (file : File) : Except GoError Unit × File :=
  match opened with
  | .error reason => (.error (.wrap "failed to open file: %w" reason), file)
  | .ok _ => (wrapErr "failed to close file: %w" closed, some (file.getD []))

def storeCP (wcp : Bytes) (opened : Answer) (write : WriteAnswer) (closed : Answer) (file : File) :
    Except GoError Unit × File :=
  match opened, file with
  | .error reason, _ => (.error (.wrap "failed to open file: %w" reason), file)
  | .ok _, none => (.error (.wrap "failed to open file: %w" .notExist), file)
  | .ok _, some content =>
    match write with
    | .error (written, reason) =>
      (.error (.wrap "failed to write data to witness db file: %w" reason), some (overwrite content (wcp.take written)))
    | .ok _ => (wrapErr "failed to close file: %w" closed, some (overwrite content wcp))

-- os.ReadFile.
def retrieveCP (file : File) : Except GoError Bytes :=
  match file with
  | none => .error .notExist
  | some content => .ok content

inductive Call where
  | newStorage (opened closed : Answer)
  | storeCP (wcp : Bytes) (opened : Answer) (write : WriteAnswer) (closed : Answer)

/-- The file, and the value of the last StoreCP that returned no error. -/
structure World where
  file : File
  last : Bytes

def step (w : World) : Call → World
  | .newStorage opened closed => { w with file := (init opened closed w.file).2 }
  | .storeCP wcp opened write closed =>
    let (result, file) := storeCP wcp opened write closed w.file
    { file := file, last := if result.isOk then wcp else w.last }

-- NewStorage has created the file.
def created : World := ⟨(init (.ok ()) (.ok ()) none).2, []⟩

/-- RetrieveCP returns the value of the last successful StoreCP, or nothing before the first. -/
def ReturnsLast (w : World) : Prop := retrieveCP w.file = .ok w.last

/-- A StoreCP that succeeds finds a file that is no longer than its value, and what one that fails has written
stands there already. -/
def Fits (w : World) : Call → Prop
  | .newStorage _ _ => True
  | .storeCP wcp opened write closed =>
    ∀ content, opened = .ok () → w.file = some content →
      match write, closed with
      | .ok _, .ok _ => content.length ≤ wcp.length
      | .ok _, .error _ => wcp <+: content
      | .error (written, _), _ => wcp.take written <+: content

end Model

section Files

theorem overwrite_eq_self {content written : Bytes} : overwrite content written = content ↔ written <+: content := by
  constructor
  · intro same
    exact ⟨content.drop written.length, same⟩
  · rintro ⟨rest, rfl⟩
    simp [overwrite]

theorem overwrite_eq_written {content written : Bytes} :
    overwrite content written = written ↔ content.length ≤ written.length := by
  simp [overwrite]

-- The file stays, whatever the calls.
theorem step_file {w : World} (call : Call) (there : w.file.isSome) : (step w call).file.isSome := by
  obtain ⟨content, file⟩ := Option.isSome_iff_exists.mp there
  cases call with
  | newStorage opened closed => cases opened <;> simp [step, init, file]
  | storeCP wcp opened write closed =>
    rcases opened with _ | _ <;> rcases write with ⟨_, _⟩ | _ <;> simp [step, storeCP, file]

theorem step_returnsLast {w : World} (call : Call) (there : w.file.isSome) (returns : ReturnsLast w) :
    ReturnsLast (step w call) ↔ Fits w call := by
  obtain ⟨content, file⟩ := Option.isSome_iff_exists.mp there
  have last : content = w.last := by simpa [ReturnsLast, retrieveCP, file] using returns
  cases call with
  | newStorage opened closed =>
    refine iff_of_true ?_ trivial
    cases opened <;> simp [ReturnsLast, step, init, file, retrieveCP, last]
  | storeCP wcp opened write closed =>
    cases opened with
    | error reason => simp [ReturnsLast, Fits, step, storeCP, retrieveCP, file, last, Except.isOk, Except.toBool]
    | ok _ =>
      rcases write with ⟨written, reason⟩ | _
      · simp [ReturnsLast, Fits, step, storeCP, retrieveCP, file, ← last, overwrite_eq_self, Except.isOk, Except.toBool]
      · cases closed with
        | error reason =>
          simp [ReturnsLast, Fits, step, storeCP, retrieveCP, file, ← last, overwrite_eq_self, wrapErr,
            Except.mapError, Except.isOk, Except.toBool]
        | ok _ =>
          simp [ReturnsLast, Fits, step, storeCP, retrieveCP, file, overwrite_eq_written, wrapErr, Except.mapError,
            Except.isOk, Except.toBool]

/-- In a run of calls, re-opening included, the store returns the last value at every point exactly when each
StoreCP fits the file that it finds. -/
theorem returnsLast_iff (calls : List Call) :
    Always step ReturnsLast created calls ↔ Each step Fits created calls :=
  always_iff_each (fun w => w.file.isSome) (fun call there => step_file call there)
    (fun call there returns => step_returnsLast call there returns) rfl rfl

-- The two values of the round trip test, stored in one file and the longer one first.
def longValue : Bytes :=
  [115, 111, 109, 101, 32, 109, 111, 114, 101, 32, 99, 104, 101, 99, 107, 112, 111, 105, 110, 116]

def shortValue : Bytes := [115, 111, 109, 101, 32, 99, 104, 101, 99, 107, 112, 111, 105, 110, 116]

theorem shorter_value_lost :
    let calls := [Call.storeCP longValue (.ok ()) (.ok ()) (.ok ()), .storeCP shortValue (.ok ()) (.ok ()) (.ok ())]
    (calls.foldl step created).last = shortValue ∧
      retrieveCP (calls.foldl step created).file = .ok (shortValue ++ [112, 111, 105, 110, 116]) ∧
      ¬ Always step ReturnsLast created calls := by
  refine ⟨rfl, rfl, fun always => ?_⟩
  have whole := always _ [] (List.append_nil _).symm
  cases whole

end Files

end WitnessStore

end Firmware
