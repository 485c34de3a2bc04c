import Mathlib.Data.List.Basic
import Mathlib.Data.List.Forall2

set_option autoImplicit false

namespace Go

abbrev Bytes := List UInt8

-- `notExist` and `exist` are the path and link errors of package os; `text` is an error made by
-- errors.New or by fmt.Errorf without %w, `wrap` one made by fmt.Errorf with %w.
inductive GoError where
  | notExist
  | exist
  | text (message : String)
  | wrap (message : String) (cause : GoError)
  deriving DecidableEq, Repr

-- A call `v, err := f()` that cannot panic is an `Except`; `wrapErr` is the caller's
-- `fmt.Errorf("...: %w", err)` and `hideErr` its `fmt.Errorf("...: %v", err)`, which keeps only a text.
def wrapErr {A : Type} (message : String) (x : Except GoError A) : Except GoError A :=
  x.mapError (.wrap message)

def hideErr {A : Type} (message : String) (x : Except GoError A) : Except GoError A :=
  x.mapError fun _ => .text message

theorem wrapErr_eq_ok {A : Type} {message : String} {x : Except GoError A} {a : A} :
    wrapErr message x = .ok a ↔ x = .ok a := by
  cases x <;> simp [wrapErr, Except.mapError]

theorem hideErr_eq_ok {A : Type} {message : String} {x : Except GoError A} {a : A} :
    hideErr message x = .ok a ↔ x = .ok a := by
  cases x <;> simp [hideErr, Except.mapError]

theorem except_map_eq_ok {E A B : Type} {x : Except E A} {f : A → B} {b : B} :
    x.map f = .ok b ↔ ∃ a, x = .ok a ∧ f a = b := by
  cases x <;> simp [Except.map]

theorem except_bind_eq_ok {E A B : Type} {x : Except E A} {f : A → Except E B} {b : B} :
    (x >>= f) = .ok b ↔ ∃ a, x = .ok a ∧ f a = .ok b := by
  cases x with
  | error reason => simp [bind, Except.bind]
  | ok a => simp [bind, Except.bind]

namespace GoError

-- os.IsNotExist looks at the error itself, not through fmt.Errorf wrappers.
def isNotExist : GoError → Bool
  | .notExist => true
  | _ => false

-- errors.Is(err, os.ErrNotExist) follows every wrapper.
def isErrNotExist : GoError → Bool
  | .notExist => true
  | .wrap _ cause => cause.isErrNotExist
  | _ => false

-- errors.Is(err, os.ErrExist).
def isErrExist : GoError → Bool
  | .exist => true
  | .wrap _ cause => cause.isErrExist
  | _ => false

end GoError

-- What a call ends in: a result, a returned error, or a panic that unwinds it.
inductive Outcome (A : Type) where
  | ok (value : A)
  | error (reason : GoError)
  | panic (reason : String)
  deriving DecidableEq, Repr

namespace Outcome

variable {A B : Type}

def bind (x : Outcome A) (f : A → Outcome B) : Outcome B :=
  match x with
  | .ok a => f a
  | .error reason => .error reason
  | .panic reason => .panic reason

instance : Monad Outcome where
  pure := .ok
  bind := bind

instance : LawfulMonad Outcome :=
  .mk' _ (fun x => by cases x <;> rfl) (fun _ _ => rfl) fun x _ _ => by cases x <;> rfl

@[simp] theorem pure_eq (a : A) : (pure a : Outcome A) = .ok a := rfl
@[simp] theorem bind_ok (a : A) (f : A → Outcome B) : (Outcome.ok a >>= f) = f a := rfl
@[simp] theorem bind_error (reason : GoError) (f : A → Outcome B) :
    (Outcome.error reason >>= f) = .error reason := rfl
@[simp] theorem bind_panic (reason : String) (f : A → Outcome B) :
    (Outcome.panic reason >>= f) = .panic reason := rfl

theorem bind_eq_ok {x : Outcome A} {f : A → Outcome B} {b : B} :
    (x >>= f) = .ok b ↔ ∃ a, x = .ok a ∧ f a = .ok b := by
  cases x <;> simp

theorem bind_eq_panic {x : Outcome A} {f : A → Outcome B} {reason : String} :
    (x >>= f) = .panic reason ↔ x = .panic reason ∨ ∃ a, x = .ok a ∧ f a = .panic reason := by
  cases x <;> simp

-- `if err != nil { return fmt.Errorf("...: %w", err) }`: panics pass through unchanged.
def wrap (message : String) : Outcome A → Outcome A
  | .error reason => .error (.wrap message reason)
  | other => other

@[simp] theorem wrap_ok (message : String) (a : A) : (Outcome.ok a).wrap message = .ok a := rfl
@[simp] theorem wrap_error (message : String) (reason : GoError) :
    (Outcome.error reason : Outcome A).wrap message = .error (.wrap message reason) := rfl

theorem wrap_eq_ok {message : String} {x : Outcome A} {a : A} :
    x.wrap message = .ok a ↔ x = .ok a := by
  cases x <;> simp [wrap]

-- A loop that went through kept what each round keeps,
theorem foldlM_inv {Inv : List A → B → Prop} {f : B → A → Outcome B}
    (round : ∀ done b a b', Inv done b → f b a = .ok b' → Inv (done ++ [a]) b') {items done : List A}
    {b final : B} (start : Inv done b) (ran : items.foldlM f b = .ok final) : Inv (done ++ items) final := by
  induction items generalizing done b with
  | nil =>
    obtain rfl := Outcome.ok.inj ran
    simpa using start
  | cons a rest ih =>
    rw [List.foldlM_cons] at ran
    obtain ⟨b', first, ran⟩ := bind_eq_ok.mp ran
    have later := ih (round done b a b' start first) ran
    rwa [List.append_assoc] at later

-- and a loop goes through if every round does.
theorem foldlM_ok {f : B → A → Outcome B} {items : List A} (round : ∀ a ∈ items, ∀ b, ∃ b', f b a = .ok b')
    (b : B) : ∃ final, items.foldlM f b = .ok final := by
  induction items generalizing b with
  | nil => exact ⟨b, rfl⟩
  | cons a rest ih =>
    obtain ⟨b', first⟩ := round a (by simp) b
    obtain ⟨final, rested⟩ := ih (fun c member => round c (by simp [member])) b'
    exact ⟨final, by rw [List.foldlM_cons, first, bind_ok, rested]⟩

theorem mapM_eq_ok {f : A → Outcome B} {items : List A} {results : List B} :
    items.mapM f = .ok results ↔ List.Forall₂ (fun a b => f a = .ok b) items results := by
  induction items generalizing results with
  | nil => simp [eq_comm]
  | cons a rest ih =>
    rw [List.mapM_cons, bind_eq_ok, List.forall₂_cons_left_iff]
    constructor
    · rintro ⟨b, first, ran⟩
      obtain ⟨others, rested, same⟩ := bind_eq_ok.mp ran
      exact ⟨b, others, first, ih.mp rested, (Outcome.ok.inj same).symm⟩
    · rintro ⟨b, others, first, rested, rfl⟩
      exact ⟨b, first, bind_eq_ok.mpr ⟨others, ih.mpr rested, rfl⟩⟩

theorem mapM_ok {f : A → Outcome B} {items : List A} (each : ∀ a ∈ items, ∃ b, f a = .ok b) :
    ∃ results, items.mapM f = .ok results := by
  induction items with
  | nil => exact ⟨[], rfl⟩
  | cons a rest ih =>
    obtain ⟨b, first⟩ := each a (by simp)
    obtain ⟨others, rested⟩ := ih fun c member => each c (by simp [member])
    exact ⟨b :: others, mapM_eq_ok.mpr (.cons first (mapM_eq_ok.mp rested))⟩

theorem mapM_ne_panic {f : A → Outcome B} {items : List A} (each : ∀ a ∈ items, ∀ reason, f a ≠ .panic reason)
    (reason : String) : items.mapM f ≠ .panic reason := by
  induction items with
  | nil => simp
  | cons a rest ih =>
    rw [List.mapM_cons]
    intro panics
    rcases bind_eq_panic.mp panics with first | ⟨b, -, later⟩
    · exact each a (by simp) reason first
    · rcases bind_eq_panic.mp later with others | ⟨results, -, last⟩
      · exact ih (fun c member => each c (by simp [member])) others
      · cases last

def ofExcept : Except GoError A → Outcome A
  | .ok a => .ok a
  | .error reason => .error reason

@[simp] theorem ofExcept_ok (a : A) : ofExcept (.ok a) = .ok a := rfl
@[simp] theorem ofExcept_error (reason : GoError) :
    (ofExcept (.error reason) : Outcome A) = .error reason := rfl

theorem ofExcept_eq_ok {x : Except GoError A} {a : A} : ofExcept x = .ok a ↔ x = .ok a := by
  cases x <;> simp

theorem ofExcept_ne_panic (x : Except GoError A) (reason : String) : ofExcept x ≠ .panic reason := by
  cases x <;> simp [ofExcept]

end Outcome

-- A call that reads and changes a world `W`. The world survives errors and panics.
def Eff (W A : Type) := W → Outcome A × W

namespace Eff

variable {W A B : Type}

def pure (a : A) : Eff W A := fun w => (.ok a, w)

def bind (x : Eff W A) (f : A → Eff W B) : Eff W B := fun w =>
  match x w with
  | (.ok a, w') => f a w'
  | (.error reason, w') => (.error reason, w')
  | (.panic reason, w') => (.panic reason, w')

instance : Monad (Eff W) where
  pure := Eff.pure
  bind := Eff.bind

def lift (x : Outcome A) : Eff W A := fun w => (x, w)

def fail (reason : GoError) : Eff W A := fun w => (.error reason, w)

def wrap (message : String) (x : Eff W A) : Eff W A := fun w =>
  ((x w).1.wrap message, (x w).2)

-- The same with %v, which keeps only a text.
def hide (message : String) (x : Eff W A) : Eff W A := fun w =>
  match x w with
  | (.error _, w') => (.error (.text message), w')
  | result => result

def ofExcept (x : Except GoError A) : Eff W A := lift (Outcome.ofExcept x)

-- A loop that stops at the first error.
def each (f : A → Eff W B) : List A → Eff W (List B)
  | [] => Pure.pure []
  | a :: rest => do
    let b ← f a
    let others ← each f rest
    Pure.pure (b :: others)

@[simp] theorem pure_run (a : A) (w : W) : (Pure.pure a : Eff W A) w = (.ok a, w) := rfl

@[simp] theorem lift_run (x : Outcome A) (w : W) : (lift x : Eff W A) w = (x, w) := rfl

@[simp] theorem ofExcept_ok (a : A) (w : W) : (ofExcept (.ok a) : Eff W A) w = (.ok a, w) := rfl

@[simp] theorem ofExcept_error (reason : GoError) (w : W) :
    (ofExcept (.error reason) : Eff W A) w = (.error reason, w) := rfl

@[simp] theorem fail_run (reason : GoError) (w : W) :
    (fail reason : Eff W A) w = (.error reason, w) := rfl

@[simp] theorem wrap_run (message : String) (x : Eff W A) (w : W) :
    x.wrap message w = ((x w).1.wrap message, (x w).2) := rfl

theorem hide_eq_ok {message : String} {x : Eff W A} {w w' : W} {a : A} :
    x.hide message w = (.ok a, w') ↔ x w = (.ok a, w') := by
  unfold hide
  rcases h : x w with ⟨_ | _ | _, _⟩ <;> simp

theorem wrap_eq_ok {message : String} {x : Eff W A} {w w' : W} {a : A} :
    x.wrap message w = (.ok a, w') ↔ x w = (.ok a, w') := by
  rw [wrap_run]
  rcases h : x w with ⟨_ | _ | _, _⟩ <;> simp [Outcome.wrap]

theorem wrap_of_error {message : String} {x : Eff W A} {w w' : W} {reason : GoError}
    (h : x w = (.error reason, w')) : x.wrap message w = (.error (.wrap message reason), w') := by
  rw [wrap_run, h]
  rfl

theorem wrap_of_panic {message : String} {x : Eff W A} {w w' : W} {reason : String}
    (h : x w = (.panic reason, w')) : x.wrap message w = (.panic reason, w') := by
  rw [wrap_run, h]
  rfl

theorem bind_run (x : Eff W A) (f : A → Eff W B) (w : W) :
    (x >>= f) w = match x w with
      | (.ok a, w') => f a w'
      | (.error reason, w') => (.error reason, w')
      | (.panic reason, w') => (.panic reason, w') := rfl

theorem bind_of_ok {x : Eff W A} {f : A → Eff W B} {w w' : W} {a : A}
    (h : x w = (.ok a, w')) : (x >>= f) w = f a w' := by
  rw [bind_run, h]

theorem bind_of_error {x : Eff W A} {f : A → Eff W B} {w w' : W} {reason : GoError}
    (h : x w = (.error reason, w')) : (x >>= f) w = (.error reason, w') := by
  rw [bind_run, h]

theorem bind_eq_ok {x : Eff W A} {f : A → Eff W B} {w final : W} {b : B} :
    (x >>= f) w = (.ok b, final) ↔ ∃ a w', x w = (.ok a, w') ∧ f a w' = (.ok b, final) := by
  rw [bind_run]
  rcases h : x w with ⟨_ | _ | _, w'⟩ <;> simp

-- A loop whose every round succeeds and keeps an invariant collects all results.
theorem each_ok {Inv : W → Prop} {f : A → Eff W B} {g : A → B} {items : List A}
    (round : ∀ a ∈ items, ∀ w, Inv w → ∃ w', f a w = (.ok (g a), w') ∧ Inv w') (w : W)
    (start : Inv w) : ∃ w', each f items w = (.ok (items.map g), w') ∧ Inv w' := by
  induction items generalizing w with
  | nil => exact ⟨w, rfl, start⟩
  | cons a rest ih =>
    obtain ⟨w1, ran, middle⟩ := round a (by simp) w start
    obtain ⟨w2, rested, final⟩ := ih (fun b member => round b (by simp [member])) w1 middle
    refine ⟨w2, ?_, final⟩
    rw [each, bind_of_ok ran, bind_of_ok rested]
    rfl

/-- A loop over rounds of which each either can be done or fails goes through exactly when all of them can. -/
theorem each_outcome {Inv : W → Prop} (Later : W → W → Prop) (refl : ∀ w, Later w w)
    (trans : ∀ {w w' w''}, Later w w' → Later w' w'' → Later w w'') {Able : A → Prop} (Done : A → W → Prop)
    (stays : ∀ {a w w'}, Done a w → Later w w' → Done a w') {f : A → Eff W B} {g : A → B} {items : List A}
    (round : ∀ a ∈ items, ∀ w, Inv w → ∃ w', Inv w' ∧ Later w w' ∧
      ((Able a ∧ f a w = (.ok (g a), w') ∧ Done a w') ∨ (¬ Able a ∧ ∃ reason, f a w = (.error reason, w'))))
    (w : W) (start : Inv w) : ∃ w', Inv w' ∧ Later w w' ∧
      (((∀ a ∈ items, Able a) ∧ each f items w = (.ok (items.map g), w') ∧ ∀ a ∈ items, Done a w') ∨
        ((∃ a ∈ items, ¬ Able a) ∧ ∃ reason, each f items w = (.error reason, w'))) := by
  induction items generalizing w with
  | nil => exact ⟨w, start, refl w, .inl ⟨nofun, rfl, nofun⟩⟩
  | cons a rest ih =>
    obtain ⟨w1, middle, first, ⟨able, ran, done⟩ | ⟨unable, reason, ran⟩⟩ := round a (by simp) w start
    · obtain ⟨w2, final, second, others⟩ := ih (fun b member => round b (by simp [member])) w1 middle
      refine ⟨w2, final, trans first second, ?_⟩
      rcases others with ⟨all, rested, finished⟩ | ⟨⟨b, member, unable⟩, reason, rested⟩
      · refine .inl ⟨List.forall_mem_cons.mpr ⟨able, all⟩, ?_, List.forall_mem_cons.mpr ⟨stays done second, finished⟩⟩
        rw [each, bind_of_ok ran, bind_of_ok rested]
        rfl
      · refine .inr ⟨⟨b, List.mem_cons_of_mem _ member, unable⟩, reason, ?_⟩
        rw [each, bind_of_ok ran, bind_of_error rested]
    · refine ⟨w1, middle, first, .inr ⟨⟨a, List.mem_cons_self, unable⟩, reason, ?_⟩⟩
      rw [each, bind_of_error ran]

-- A loop none of whose rounds panics does not,
theorem each_ne_panic {Inv : W → Prop} {f : A → Eff W B} {items : List A}
    (round : ∀ a ∈ items, ∀ w, Inv w → Inv (f a w).2 ∧ ∀ reason, (f a w).1 ≠ .panic reason) (w : W) (start : Inv w)
    (reason : String) : (each f items w).1 ≠ .panic reason := by
  induction items generalizing w with
  | nil => nofun
  | cons a rest ih =>
    obtain ⟨middle, calm⟩ := round a (by simp) w start
    rw [each, bind_run]
    rcases ran : f a w with ⟨b | _ | other, w'⟩
    · rw [ran] at middle
      have later := ih (fun c member => round c (by simp [member])) w' middle
      dsimp only
      rw [bind_run]
      rcases rested : each f rest w' with ⟨_ | _ | other, w''⟩
      · nofun
      · nofun
      · rw [rested] at later
        exact later
    · nofun
    · rw [ran] at calm
      exact absurd rfl (calm other)

/-- and one that gets to a round that panics does. -/
theorem each_panic {Inv : W → Prop} {Bad : A → Prop} {f : A → Eff W B} {items : List A}
    (good : ∀ a ∈ items, ¬ Bad a → ∀ w, Inv w → ∃ b w', f a w = (.ok b, w') ∧ Inv w')
    (bad : ∀ a ∈ items, Bad a → ∀ w, ∃ reason w', f a w = (.panic reason, w')) (some' : ∃ a ∈ items, Bad a)
    (w : W) (start : Inv w) : ∃ reason, (each f items w).1 = .panic reason := by
  induction items generalizing w with
  | nil =>
    obtain ⟨a, member, -⟩ := some'
    cases member
  | cons a rest ih =>
    by_cases here : Bad a
    · obtain ⟨reason, w', ran⟩ := bad a (by simp) here w
      exact ⟨reason, by rw [each, bind_run, ran]⟩
    · obtain ⟨b, w', ran, middle⟩ := good a (by simp) here w start
      have later : ∃ c ∈ rest, Bad c := by
        obtain ⟨c, member, there⟩ := some'
        rcases List.mem_cons.mp member with rfl | member
        · exact absurd there here
        · exact ⟨c, member, there⟩
      obtain ⟨reason, rested⟩ := ih (fun c member => good c (by simp [member]))
        (fun c member => bad c (by simp [member])) later w' middle
      refine ⟨reason, ?_⟩
      rw [each, bind_run, ran]
      dsimp only
      rw [bind_run]
      rcases result : each f rest w' with ⟨_ | _ | _, w''⟩ <;> rw [result] at rested <;> cases rested
      rfl

-- A loop that went through has a result for each item, made in a world that keeps `Inv`.
theorem each_results {Inv : W → Prop} {R : A → B → Prop} {f : A → Eff W B}
    (round : ∀ a w b w', Inv w → f a w = (.ok b, w') → Inv w' ∧ R a b) {items : List A} {w w' : W}
    {results : List B} (start : Inv w) (ran : each f items w = (.ok results, w')) :
    List.Forall₂ R items results := by
  induction items generalizing w w' results with
  | nil =>
    obtain rfl := Outcome.ok.inj (Prod.mk.inj ran).1
    exact .nil
  | cons a rest ih =>
    obtain ⟨b, w1, first, ran⟩ := bind_eq_ok.mp ran
    obtain ⟨others, w2, rested, ran⟩ := bind_eq_ok.mp ran
    obtain rfl := Outcome.ok.inj (Prod.mk.inj ran).1
    obtain ⟨middle, here⟩ := round a w b w1 start first
    exact .cons here (ih middle rested)

theorem mem_results_iff {P : A → Prop} {c : B} {items : List A} {results : List B}
    (each : List.Forall₂ (fun a b => b = c ↔ P a) items results) : c ∈ results ↔ ∃ a ∈ items, P a := by
  induction each with
  | nil => simp
  | cons here _ ih =>
    rw [List.mem_cons, eq_comm, here]
    simp [ih]

theorem each_length {f : A → Eff W B} {items : List A} {w w' : W} {results : List B}
    (ran : each f items w = (.ok results, w')) : results.length = items.length := by
  induction items generalizing w w' results with
  | nil =>
    obtain rfl := Outcome.ok.inj (Prod.mk.inj ran).1
    rfl
  | cons a rest ih =>
    obtain ⟨b, w1, _, ran⟩ := bind_eq_ok.mp ran
    obtain ⟨others, w2, rested, ran⟩ := bind_eq_ok.mp ran
    obtain rfl := Outcome.ok.inj (Prod.mk.inj ran).1
    rw [List.length_cons, List.length_cons, ih rested]

theorem bind_of_panic {x : Eff W A} {f : A → Eff W B} {w w' : W} {reason : String}
    (h : x w = (.panic reason, w')) : (x >>= f) w = (.panic reason, w') := by
  rw [bind_run, h]

theorem bind_eq_panic {x : Eff W A} {f : A → Eff W B} {w final : W} {reason : String}
    (ran : (x >>= f) w = (.panic reason, final)) :
    x w = (.panic reason, final) ∨ ∃ a w', x w = (.ok a, w') ∧ f a w' = (.panic reason, final) := by
  rw [bind_run] at ran
  rcases h : x w with ⟨_ | _ | _, w'⟩ <;> simp_all

theorem wrap_eq_panic {message : String} {x : Eff W A} {w w' : W} {reason : String} :
    x.wrap message w = (.panic reason, w') ↔ x w = (.panic reason, w') := by
  rw [wrap_run]
  rcases h : x w with ⟨_ | _ | _, _⟩ <;> simp [Outcome.wrap]

theorem bind_assoc {C : Type} (x : Eff W A) (f : A → Eff W B) (g : B → Eff W C) :
    (x >>= f) >>= g = x >>= fun a => f a >>= g := by
  funext w
  rw [bind_run, bind_run, bind_run]
  rcases x w with ⟨_ | _ | _, w'⟩ <;> rfl

theorem pure_bind (a : A) (f : A → Eff W B) : (Pure.pure a : Eff W A) >>= f = f a := rfl

-- `x` keeps `I` however it ends.
def Keeps (I : W → Prop) (x : Eff W A) : Prop := ∀ w, I w → I (x w).2

section Keeps

variable {I : W → Prop} {x : Eff W A}

theorem keeps_lift (result : Outcome A) : Keeps I (lift result : Eff W A) := fun _ held => held

theorem keeps_pure (a : A) : Keeps I (Pure.pure a : Eff W A) := fun _ held => held

theorem Keeps.bind {f : A → Eff W B} (first : Keeps I x) (later : ∀ a, Keeps I (f a)) :
    Keeps I (x >>= f) := by
  intro w held
  have middle := first w held
  rw [bind_run]
  rcases ran : x w with ⟨_ | _ | _, w'⟩ <;> rw [ran] at middle
  · exact later _ w' middle
  · exact middle
  · exact middle

theorem Keeps.wrap (keeps : Keeps I x) (message : String) : Keeps I (x.wrap message) := keeps

theorem Keeps.each {f : A → Eff W B} (round : ∀ a, Keeps I (f a)) (items : List A) :
    Keeps I (each f items) := by
  induction items with
  | nil => exact keeps_pure _
  | cons a rest ih => exact (round a).bind fun _ => ih.bind fun _ => keeps_pure _

-- A loop that went through ran each of its rounds where `I` held.
theorem Keeps.each_rounds {f : A → Eff W B} (round : ∀ a, Keeps I (f a)) {items : List A} {w w' : W}
    {results : List B} (held : I w) (ran : Eff.each f items w = (.ok results, w')) {a : A} (member : a ∈ items) :
    ∃ w1 b w2, I w1 ∧ f a w1 = (.ok b, w2) := by
  induction items generalizing w results with
  | nil => simp at member
  | cons first rest ih =>
    obtain ⟨b, w1, once, ran⟩ := bind_eq_ok.mp ran
    obtain ⟨others, w2, rested, ran⟩ := bind_eq_ok.mp ran
    rcases List.mem_cons.mp member with rfl | later
    · exact ⟨w, b, w1, held, once⟩
    · obtain rfl := (Prod.mk.inj ran).2
      have kept := round first w held
      rw [once] at kept
      exact ih kept rested later

end Keeps

-- Started where `I` holds, `x` panics only for a reason that `P` allows.
def PanicsOnly (I : W → Prop) (P : String → Prop) (x : Eff W A) : Prop :=
  ∀ w, I w → ∀ reason, (x w).1 = .panic reason → P reason

section PanicsOnly

variable {I : W → Prop} {P : String → Prop} {x : Eff W A}

theorem panicsOnly_pure (a : A) : PanicsOnly I P (Pure.pure a : Eff W A) := nofun

theorem panicsOnly_fail (reason : GoError) : PanicsOnly I P (fail reason : Eff W A) := nofun

theorem panicsOnly_ofExcept (result : Except GoError A) : PanicsOnly I P (ofExcept result : Eff W A) :=
  fun _ _ reason panics => absurd panics (Outcome.ofExcept_ne_panic result reason)

theorem PanicsOnly.bind {f : A → Eff W B} (keeps : Keeps I x) (first : PanicsOnly I P x)
    (later : ∀ a, PanicsOnly I P (f a)) : PanicsOnly I P (x >>= f) := by
  intro w held reason panics
  have middle := keeps w held
  have here := first w held reason
  rw [bind_run] at panics
  rcases ran : x w with ⟨a | _ | _, w'⟩ <;> rw [ran] at panics middle here
  · exact later a w' middle reason panics
  · cases panics
  · obtain rfl := Outcome.panic.inj panics
    exact here rfl

theorem PanicsOnly.wrap (only : PanicsOnly I P x) (message : String) : PanicsOnly I P (x.wrap message) := by
  intro w held reason panics
  rw [wrap_run] at panics
  rcases h : (x w).1 with _ | _ | other <;> rw [h] at panics
  · cases panics
  · cases panics
  · obtain rfl := Outcome.panic.inj panics
    exact only w held other h

theorem PanicsOnly.each {f : A → Eff W B} (keeps : ∀ a, Keeps I (f a)) (only : ∀ a, PanicsOnly I P (f a))
    (items : List A) : PanicsOnly I P (each f items) := by
  induction items with
  | nil => exact panicsOnly_pure _
  | cons a rest ih =>
    exact (only a).bind (keeps a) fun _ => ih.bind (Keeps.each keeps rest) fun _ => panicsOnly_pure _

end PanicsOnly

-- `v, err := f()`, where the caller looks at the error itself. A panic goes on.
def attempt (x : Eff W A) : Eff W (Except GoError A) := fun w =>
  match x w with
  | (.ok a, w') => (.ok (.ok a), w')
  | (.error reason, w') => (.ok (.error reason), w')
  | (.panic reason, w') => (.panic reason, w')

-- `*p`, with `none` for a nil pointer.
def deref (p : Option A) : Eff W A := fun w =>
  match p with
  | some a => (.ok a, w)
  | none => (.panic "invalid memory address or nil pointer dereference", w)

end Eff

end Go
