import TrillianServerless.Shared.Text

set_option autoImplicit false

/-!
# Package filepath on Unix

Paths are byte strings. Clean keeps the elements of a path on a stack, here with the last element first.
-/

namespace Go

def slash : UInt8 := 47

def dot : Bytes := [46]

def dotDot : Bytes := [46, 46]

section Clean

def isRooted (p : Bytes) : Bool := p.head? = some slash

def cleanStep (rooted : Bool) (stack : List Bytes) (name : Bytes) : List Bytes :=
  if name = [] ∨ name = dot then stack
  else if name = dotDot then
    match stack with
    | [] => if rooted then [] else [dotDot]
    | last :: rest => if last = dotDot then dotDot :: last :: rest else rest
  else name :: stack

def cleanStack (p : Bytes) : List Bytes := (p.splitOn slash).foldl (cleanStep (isRooted p)) []

def renderPath (rooted : Bool) (stack : List Bytes) : Bytes :=
  if rooted then slash :: [slash].intercalate stack.reverse
  else if stack = [] then dot
  else [slash].intercalate stack.reverse

-- filepath.Clean.
def cleanPath (p : Bytes) : Bytes := renderPath (isRooted p) (cleanStack p)

-- filepath.Join.
def joinPath (elements : List Bytes) : Bytes :=
  match elements.dropWhile (· = []) with
  | [] => []
  | rest => cleanPath ([slash].intercalate rest)

structure PlainName (name : Bytes) : Prop where
  nonempty : name ≠ []
  notDot : name ≠ dot
  notDotDot : name ≠ dotDot
  noSlash : slash ∉ name

-- What Clean leaves on its stack: going up comes first, and not at all from the root.
def CleanStack (rooted : Bool) : List Bytes → Prop
  | [] => True
  | name :: rest => CleanStack rooted rest ∧
    (PlainName name ∨ name = dotDot ∧ rooted = false ∧ (rest = [] ∨ rest.head? = some dotDot))

theorem cleanStep_plain (rooted : Bool) (stack : List Bytes) {name : Bytes} (plain : PlainName name) :
    cleanStep rooted stack name = name :: stack := by
  unfold cleanStep
  rw [if_neg (by simp [plain.nonempty, plain.notDot]), if_neg plain.notDotDot]

theorem foldl_plain (rooted : Bool) (stack : List Bytes) {names : List Bytes}
    (plain : ∀ name ∈ names, PlainName name) :
    names.foldl (cleanStep rooted) stack = names.reverse ++ stack := by
  induction names generalizing stack with
  | nil => rfl
  | cons name rest ih =>
    rw [List.foldl_cons, cleanStep_plain rooted stack (plain name (by simp)),
      ih _ fun other member => plain other (by simp [member])]
    simp

theorem CleanStack.step {rooted : Bool} {stack : List Bytes} (clean : CleanStack rooted stack) {name : Bytes}
    (noSlash : slash ∉ name) : CleanStack rooted (cleanStep rooted stack name) := by
  unfold cleanStep
  split
  · exact clean
  next kept =>
    rw [not_or] at kept
    split
    next up =>
      subst up
      split
      · split
        · exact clean
        next relative => exact ⟨clean, .inr ⟨rfl, by simpa using relative, .inl rfl⟩⟩
      next last rest =>
        split
        next up =>
          subst up
          rcases clean.2 with plain | ⟨_, relative, _⟩
          · exact absurd rfl plain.notDotDot
          · exact ⟨clean, .inr ⟨rfl, relative, .inr rfl⟩⟩
        · exact clean.1
    next down => exact ⟨clean, .inl ⟨kept.1, kept.2, down, noSlash⟩⟩

theorem foldl_clean {rooted : Bool} {stack names : List Bytes} (clean : CleanStack rooted stack)
    (noSlash : ∀ name ∈ names, slash ∉ name) : CleanStack rooted (names.foldl (cleanStep rooted) stack) := by
  induction names generalizing stack with
  | nil => exact clean
  | cons name rest ih =>
    exact ih (clean.step (noSlash name (by simp))) fun other member => noSlash other (by simp [member])

/-- The elements on a clean stack, taken in order, give that stack. -/
theorem CleanStack.foldl_reverse {rooted : Bool} {stack : List Bytes} (clean : CleanStack rooted stack) :
    stack.reverse.foldl (cleanStep rooted) [] = stack := by
  induction stack with
  | nil => rfl
  | cons name rest ih =>
    obtain ⟨below, plain | ⟨rfl, relative, first⟩⟩ := clean
    · rw [List.reverse_cons, List.foldl_append, ih below, List.foldl_cons, List.foldl_nil,
        cleanStep_plain rooted rest plain]
    · rw [List.reverse_cons, List.foldl_append, ih below, List.foldl_cons, List.foldl_nil]
      rcases first with rfl | above
      · subst relative
        rfl
      · obtain ⟨others, rfl⟩ : ∃ others, rest = dotDot :: others := by
          cases rest with
          | nil => cases above
          | cons other others => exact ⟨others, by rw [Option.some.inj above]⟩
        rfl

theorem CleanStack.mem {rooted : Bool} {stack : List Bytes} (clean : CleanStack rooted stack) {name : Bytes}
    (member : name ∈ stack) : name ≠ [] ∧ slash ∉ name := by
  induction stack with
  | nil => cases member
  | cons first rest ih =>
    obtain ⟨below, here⟩ := clean
    rcases List.mem_cons.mp member with rfl | later
    · rcases here with plain | ⟨rfl, _⟩
      · exact ⟨plain.nonempty, plain.noSlash⟩
      · decide
    · exact ih below later

theorem not_mem_splitOn {p name : Bytes} (member : name ∈ p.splitOn slash) : slash ∉ name := by
  induction p generalizing name with
  | nil =>
    obtain rfl : name = [] := by simpa using member
    simp
  | cons c rest ih =>
    rw [List.splitOn_cons_eq_if_modifyHead] at member
    obtain ⟨first, others, split⟩ := List.exists_cons_of_ne_nil (List.splitOn_ne_nil slash rest)
    rw [split] at member ih
    by_cases sep : c = slash
    · rw [if_pos (by simpa using sep)] at member
      rcases List.mem_cons.mp member with rfl | later
      · simp
      · exact ih later
    · rw [if_neg (by simpa using sep), List.modifyHead_cons] at member
      rcases List.mem_cons.mp member with rfl | later
      · intro inside
        rcases List.mem_cons.mp inside with same | inside
        · exact sep same.symm
        · exact ih (by simp) inside
      · exact ih (by simp [later])

theorem cleanStack_clean (p : Bytes) : CleanStack (isRooted p) (cleanStack p) :=
  foldl_clean trivial fun _ member => not_mem_splitOn member

def below (names : List Bytes) : Bytes := names.flatMap fun name => slash :: name

theorem intercalate_below (first : Bytes) (names : List Bytes) :
    [slash].intercalate (first :: names) = first ++ below names := by
  induction names generalizing first with
  | nil => simp [below]
  | cons second rest ih =>
    rw [List.intercalate_cons_cons, ih second]
    simp [below]

theorem intercalate_append_below {names : List Bytes} (nonempty : names ≠ []) (more : List Bytes) :
    [slash].intercalate (names ++ more) = [slash].intercalate names ++ below more := by
  obtain ⟨first, rest, rfl⟩ := List.exists_cons_of_ne_nil nonempty
  rw [List.cons_append, intercalate_below, intercalate_below, List.append_assoc]
  simp [below]

theorem splitOn_below (p : Bytes) {names : List Bytes} (plain : ∀ name ∈ names, PlainName name) :
    (p ++ below names).splitOn slash = p.splitOn slash ++ names := by
  induction names generalizing p with
  | nil => simp [below]
  | cons name rest ih =>
    have split : p ++ below (name :: rest) = (p ++ slash :: name) ++ below rest := by simp [below]
    rw [split, ih _ fun other member => plain other (by simp [member]), List.splitOn_append_cons_self,
      List.splitOn_eq_singleton (plain name (by simp)).noSlash]
    simp

theorem isRooted_append {p : Bytes} (nonempty : p ≠ []) (more : Bytes) : isRooted (p ++ more) = isRooted p := by
  obtain ⟨c, rest, rfl⟩ := List.exists_cons_of_ne_nil nonempty
  rfl

theorem cleanStack_below {p : Bytes} (nonempty : p ≠ []) {names : List Bytes}
    (plain : ∀ name ∈ names, PlainName name) : cleanStack (p ++ below names) = names.reverse ++ cleanStack p := by
  rw [cleanStack, splitOn_below p plain, isRooted_append nonempty, List.foldl_append, foldl_plain _ _ plain]
  rfl

theorem renderPath_below (rooted : Bool) {stack : List Bytes} (nonempty : stack ≠ []) (names : List Bytes) :
    renderPath rooted (names.reverse ++ stack) = renderPath rooted stack ++ below names := by
  have turned : (names.reverse ++ stack).reverse = stack.reverse ++ names := by simp
  have some' : stack.reverse ≠ [] := by simpa using nonempty
  have grown : names.reverse ++ stack ≠ [] := by simp [nonempty]
  unfold renderPath
  rw [turned, intercalate_append_below some', if_neg nonempty, if_neg grown]
  cases rooted <;> rfl

/-- Plain names below a path stay as they are. -/
theorem cleanPath_below {p : Bytes} (nonempty : p ≠ []) (named : cleanStack p ≠ []) {names : List Bytes}
    (plain : ∀ name ∈ names, PlainName name) : cleanPath (p ++ below names) = cleanPath p ++ below names := by
  rw [cleanPath, cleanStack_below nonempty plain, isRooted_append nonempty, renderPath_below _ named]
  rfl

theorem splitOn_stack {rooted : Bool} {stack : List Bytes} (clean : CleanStack rooted stack) (nonempty : stack ≠ []) :
    ([slash].intercalate stack.reverse).splitOn slash = stack.reverse :=
  List.splitOn_intercalate slash (fun _ member => (clean.mem (List.mem_reverse.mp member)).2)
    (by simpa using nonempty)

theorem isRooted_stack {rooted : Bool} {stack : List Bytes} (clean : CleanStack rooted stack)
    (nonempty : stack ≠ []) :
    isRooted ([slash].intercalate stack.reverse) = false := by
  obtain ⟨first, rest, split⟩ := List.exists_cons_of_ne_nil (show stack.reverse ≠ [] by simpa using nonempty)
  have facts := clean.mem (List.mem_reverse.mp (split ▸ List.mem_cons_self))
  obtain ⟨c, others, rfl⟩ := List.exists_cons_of_ne_nil facts.1
  rw [split, intercalate_below]
  simp only [isRooted, List.cons_append, List.head?_cons, Option.some.injEq, decide_eq_false_iff_not]
  rintro rfl
  exact facts.2 List.mem_cons_self

theorem isRooted_cleanPath (p : Bytes) : isRooted (cleanPath p) = isRooted p := by
  have clean := cleanStack_clean p
  unfold cleanPath renderPath
  cases rooted : isRooted p with
  | true => rfl
  | false =>
    rw [if_neg (by decide)]
    split
    · rfl
    next nonempty => exact isRooted_stack clean nonempty

theorem cleanStack_cleanPath (p : Bytes) : cleanStack (cleanPath p) = cleanStack p := by
  have clean := cleanStack_clean p
  have again := clean.foldl_reverse
  rw [cleanStack, isRooted_cleanPath]
  unfold cleanPath renderPath
  cases rooted : isRooted p with
  | true =>
    rw [rooted] at clean again
    rw [if_pos rfl, show slash :: [slash].intercalate (cleanStack p).reverse =
      [] ++ slash :: [slash].intercalate (cleanStack p).reverse from rfl, List.splitOn_append_cons_self,
      List.foldl_append]
    by_cases empty : cleanStack p = []
    · rw [empty]
      rfl
    · rw [splitOn_stack clean empty]
      exact again
  | false =>
    rw [rooted] at clean again
    rw [if_neg (by decide)]
    split
    next empty =>
      rw [empty]
      rfl
    next nonempty => rw [splitOn_stack clean nonempty, again]

theorem cleanPath_cleanPath (p : Bytes) : cleanPath (cleanPath p) = cleanPath p := by
  rw [cleanPath, isRooted_cleanPath, cleanStack_cleanPath]
  rfl

theorem cleanPath_ne_nil (p : Bytes) : cleanPath p ≠ [] := by
  have clean := cleanStack_clean p
  unfold cleanPath renderPath
  split
  · simp
  · split
    · decide
    next nonempty =>
      intro empty
      have names := splitOn_stack clean nonempty
      rw [empty, List.splitOn_nil] at names
      have member : ([] : Bytes) ∈ (cleanStack p).reverse := by simp [← names]
      exact (clean.mem (List.mem_reverse.mp member)).1 rfl

theorem joinPath_nil (elements : List Bytes) : joinPath ([] :: elements) = joinPath elements := rfl

theorem joinPath_cons {first : Bytes} (nonempty : first ≠ []) (elements : List Bytes) :
    joinPath (first :: elements) = cleanPath (first ++ below elements) := by
  rw [← intercalate_below]
  simp [joinPath, nonempty]

section Join

variable {first : Bytes} (plain : PlainName first)

include plain

theorem cleanStack_plain : cleanStack first = [first] := by
  rw [cleanStack, List.splitOn_eq_singleton plain.noSlash, List.foldl_cons, List.foldl_nil, cleanStep_plain _ _ plain]

-- Join with a plain name in second place cleans what stands before the other names.
theorem joinPath_base (root : Bytes) : ∃ p, p ≠ [] ∧ cleanStack p ≠ [] ∧
    ∀ names, joinPath (root :: first :: names) = cleanPath (p ++ below names) := by
  by_cases empty : root = []
  · subst empty
    exact ⟨first, plain.nonempty, by simp [cleanStack_plain plain], fun names => by
      rw [joinPath_nil, joinPath_cons plain.nonempty]⟩
  · refine ⟨root ++ below [first], by simp [empty], ?_, fun names => ?_⟩
    · rw [cleanStack_below empty (by simpa using plain)]
      simp
    · rw [joinPath_cons empty]
      simp [below]

theorem joinPath_names (root : Bytes) {names : List Bytes} (plains : ∀ name ∈ names, PlainName name) :
    joinPath (root :: first :: names) = joinPath [root, first] ++ below names := by
  obtain ⟨p, nonempty, named, joins⟩ := joinPath_base plain root
  have short : joinPath [root, first] = cleanPath p := by simpa [below] using joins []
  rw [joins names, cleanPath_below nonempty named plains, short]

/-- A directory made by Join and a file in it are joined as they stand. -/
theorem joinPath_file (root : Bytes) {names : List Bytes} (plains : ∀ name ∈ names, PlainName name) {file : Bytes}
    (file' : PlainName file) :
    joinPath [joinPath (root :: first :: names), file] = joinPath [root, first] ++ below (names ++ [file]) := by
  obtain ⟨p, nonempty, named, joins⟩ := joinPath_base plain root
  have dir := joins names
  have named' : cleanStack (p ++ below names) ≠ [] := by
    rw [cleanStack_below nonempty plains]
    simp [named]
  rw [joinPath_names plain root plains] at dir ⊢
  rw [dir, joinPath_cons (cleanPath_ne_nil _), cleanPath_below (cleanPath_ne_nil _)
    (by rwa [cleanStack_cleanPath]) (by simpa using file'), cleanPath_cleanPath, ← dir]
  simp [below]

end Join

section Prefix

/-- What Join puts before the first plain name below a directory. -/
def joinPrefix (root : Bytes) : Bytes :=
  if cleanStack root = [] then if isRooted root then [slash] else []
  else cleanPath root ++ [slash]

theorem isRooted_plain {name : Bytes} (plain : PlainName name) : isRooted name = false := by
  cases name with
  | nil => rfl
  | cons c rest =>
    simp only [isRooted, List.head?_cons, Option.some.injEq, decide_eq_false_iff_not]
    rintro rfl
    exact plain.noSlash List.mem_cons_self

theorem joinPath_prefix (root : Bytes) {name : Bytes} (plain : PlainName name) :
    joinPath [root, name] = joinPrefix root ++ name := by
  by_cases empty : root = []
  · subst empty
    rw [joinPath_nil, joinPath_cons plain.nonempty, show below [] = [] from rfl, List.append_nil, cleanPath,
      isRooted_plain plain, cleanStack_plain plain]
    simp [renderPath, joinPrefix, cleanStack, cleanStep, isRooted]
  · have plains : ∀ other ∈ [name], PlainName other := by simpa using plain
    rw [joinPath_cons empty, joinPrefix]
    split
    next top =>
      rw [cleanPath, cleanStack_below empty plains, isRooted_append empty, top]
      cases isRooted root <;> simp [renderPath]
    next named =>
      rw [cleanPath_below empty named plains]
      simp [below]

/-- Join writes plain names one after another below what it makes of the directory. -/
theorem joinPath_elements (root : Bytes) {first : Bytes} (plain : PlainName first) {names : List Bytes}
    (plains : ∀ name ∈ names, PlainName name) :
    joinPath (root :: first :: names) = joinPrefix root ++ [slash].intercalate (first :: names) := by
  rw [joinPath_names plain root plains, joinPath_prefix root plain, intercalate_below, List.append_assoc]

theorem joinPath_intercalate (root : Bytes) {first : Bytes} (nonempty : first ≠ []) (names : List Bytes) :
    joinPath [root, [slash].intercalate (first :: names)] = joinPath (root :: first :: names) := by
  have some' : first ++ below names ≠ [] := by simp [nonempty]
  rw [intercalate_below]
  by_cases empty : root = []
  · subst empty
    rw [joinPath_nil, joinPath_nil, joinPath_cons some', joinPath_cons nonempty]
    simp [below]
  · rw [joinPath_cons empty, joinPath_cons empty]
    simp [below]

end Prefix

section Letters

theorem mem_intercalate {c : UInt8} {names : List Bytes} (member : c ∈ [slash].intercalate names) :
    c = slash ∨ ∃ name ∈ names, c ∈ name := by
  cases names with
  | nil => simp at member
  | cons first rest =>
    rw [intercalate_below, List.mem_append] at member
    rcases member with here | later
    · exact .inr ⟨first, by simp, here⟩
    · obtain ⟨name, inside, found⟩ := List.mem_flatMap.mp later
      rcases List.mem_cons.mp found with sep | found
      · exact .inl sep
      · exact .inr ⟨name, by simp [inside], found⟩

theorem mem_cleanStep {rooted : Bool} {stack : List Bytes} {name other : Bytes}
    (member : other ∈ cleanStep rooted stack name) : other = name ∨ other = dotDot ∨ other ∈ stack := by
  unfold cleanStep at member
  split at member
  · exact .inr (.inr member)
  · split at member
    · split at member
      · split at member <;> simp_all
      · split at member <;> simp_all
    · rcases List.mem_cons.mp member with here | below
      · exact .inl here
      · exact .inr (.inr below)

theorem mem_foldl_cleanStep {rooted : Bool} {names stack : List Bytes} {other : Bytes}
    (member : other ∈ names.foldl (cleanStep rooted) stack) :
    other ∈ names ∨ other = dotDot ∨ other ∈ stack := by
  induction names generalizing stack with
  | nil => exact .inr (.inr member)
  | cons name rest ih =>
    rcases ih member with later | up | here
    · exact .inl (by simp [later])
    · exact .inr (.inl up)
    · rcases mem_cleanStep here with rfl | up | below
      · exact .inl (by simp)
      · exact .inr (.inl up)
      · exact .inr (.inr below)

theorem mem_of_mem_splitOn {p name : Bytes} {c : UInt8} (member : name ∈ p.splitOn slash) (letter : c ∈ name) :
    c ∈ p := by
  have whole : [slash].intercalate (p.splitOn slash) = p := List.intercalate_splitOn slash
  rw [← whole]
  generalize p.splitOn slash = names at member
  cases names with
  | nil => cases member
  | cons first rest =>
    rw [intercalate_below, List.mem_append]
    rcases List.mem_cons.mp member with rfl | later
    · exact .inl letter
    · exact .inr (List.mem_flatMap.mpr ⟨name, later, by simp [letter]⟩)

/-- Clean writes no letter of its own but separators and dots. -/
theorem mem_cleanPath {p : Bytes} {c : UInt8} (member : c ∈ cleanPath p) : c ∈ p ∨ c = slash ∨ c = 46 := by
  have stack {c : UInt8} (inside : c ∈ [slash].intercalate (cleanStack p).reverse) : c ∈ p ∨ c = slash ∨ c = 46 := by
    rcases mem_intercalate inside with sep | ⟨name, found, letter⟩
    · exact .inr (.inl sep)
    · rcases mem_foldl_cleanStep (List.mem_reverse.mp found) with here | rfl | none
      · exact .inl (mem_of_mem_splitOn here letter)
      · exact .inr (.inr (by simpa [dotDot] using letter))
      · cases none
  unfold cleanPath renderPath at member
  split at member
  · rcases List.mem_cons.mp member with sep | inside
    · exact .inr (.inl sep)
    · exact stack inside
  · split at member
    · exact .inr (.inr (by simpa [dot] using member))
    · exact stack member

theorem mem_joinPrefix {root : Bytes} {c : UInt8} (member : c ∈ joinPrefix root) : c ∈ root ∨ c = slash ∨ c = 46 := by
  unfold joinPrefix at member
  split at member
  · split at member
    · exact .inr (.inl (by simpa using member))
    · cases member
  · rcases List.mem_append.mp member with inside | sep
    · exact mem_cleanPath inside
    · exact .inr (.inl (by simpa using sep))

end Letters

end Clean

end Go
