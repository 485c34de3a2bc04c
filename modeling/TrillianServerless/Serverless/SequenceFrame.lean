import TrillianServerless.Serverless.Sequence

set_option autoImplicit false

namespace Serverless

open Go Merkle FileSystem

-- The names that only calls for the given leaf hash create, write and remove.
def Private (hash : Bytes) (p : Path) : Prop := p = .pending hash ∨ p = .leafTmp hash

/-- What a step of a call may do to a directory: outside the call's private names it only adds a
sequence file or the leaf's index file, and no named file changes. -/
structure CallFrame (hash : Bytes) (d d' : LogDisk) : Prop where
  next : d.next ≤ d'.next
  names : ∀ p, ¬ Private hash p → d'.lookup p = d.lookup p ∨
    d.lookup p = none ∧ (p = .leaf hash ∨ ∃ k, p = .seq k)
  data : ∀ p i, ¬ Private hash p → d.lookup p = some (.file i) → d'.data i = d.data i
  sole : ∀ p i, ¬ Private hash p → d.Sole p i → d'.Sole p i

section Frames

variable {hash : Bytes} {d d' : LogDisk} {p : Path}

theorem CallFrame.refl (hash : Bytes) (d : LogDisk) : CallFrame hash d d :=
  ⟨Nat.le_refl _, fun _ _ => Or.inl rfl, fun _ _ _ _ => rfl, fun _ _ _ sole => sole⟩

theorem CallFrame.kept (frame : CallFrame hash d d') (other : ¬ Private hash p) {node : Node Path}
    (found : d.lookup p = some node) : d'.lookup p = some node := by
  rcases frame.names p other with same | ⟨missing, _⟩
  · rw [same, found]
  · rw [missing] at found
    cases found

theorem CallFrame.create (own : Private hash p) : CallFrame hash d (d.create p) where
  next := Nat.le_succ _
  names q other := Or.inl (by rw [Disk.lookup_create, if_neg]; rintro rfl; exact other own)
  data q i _ found := Function.update_of_ne (Nat.ne_of_lt (d.lookup_lt q found)) _ _
  sole q i other sole := by
    have apart : q ≠ p := by
      rintro rfl
      exact other own
    refine ⟨by rw [Disk.lookup_create, if_neg apart, sole.1], fun r same => ?_⟩
    rw [Disk.lookup_create] at same
    split at same
    · obtain rfl : d.next = i := by simpa using same
      exact absurd (d.lookup_lt q sole.1) (Nat.lt_irrefl _)
    · exact sole.2 r same

theorem CallFrame.write (own : Private hash p) {fd : Nat} (sole : d.Sole p fd) (content : Bytes) :
    CallFrame hash d (d.write fd content) where
  next := Nat.le_refl _
  names q other := Or.inl rfl
  data q i other found := by
    refine Function.update_of_ne ?_ _ _
    rintro rfl
    exact other (sole.2 q found ▸ own)
  sole q i _ unshared := unshared

theorem CallFrame.link {q : Path} {node : Node Path} (own : Private hash p)
    (found : d.lookup p = some node) (free : d.lookup q = none)
    (target : q = .leaf hash ∨ ∃ k, q = .seq k) (data : d'.data = d.data) (next : d'.next = d.next)
    (names : ∀ r, d'.lookup r = if r = q then some node else d.lookup r) : CallFrame hash d d' where
  next := Nat.le_of_eq next.symm
  names r _ := by
    rw [names r]
    by_cases new : r = q
    · exact Or.inr ⟨by rw [new, free], new ▸ target⟩
    · exact Or.inl (if_neg new)
  data r i _ _ := by rw [data]
  sole r i other sole := by
    have apart : r ≠ q := by
      rintro rfl
      exact absurd (free.symm.trans sole.1) (by simp)
    refine ⟨by rw [names, if_neg apart, sole.1], fun t same => ?_⟩
    rw [names] at same
    split at same
    · have shared := sole.2 p (found.trans same)
      exact absurd (shared ▸ own) other
    · exact sole.2 t same

theorem removed_eq (d : LogDisk) (p : Path) :
    removed d p = if d.has p = true then d.unset p else d := by
  unfold removed Disk.remove
  by_cases has : d.has p = true
  · rw [if_pos has, if_pos has]
  · rw [if_neg has, if_neg has]

theorem removed_lookup (d : LogDisk) (p q : Path) :
    (removed d p).lookup q = if q = p then none else d.lookup q := by
  rw [removed_eq]
  by_cases has : d.has p = true
  · rw [if_pos has]
    exact d.lookup_unset p q
  · rw [if_neg has]
    by_cases same : q = p
    · rw [if_pos same, same]
      simpa [Disk.has] using has
    · rw [if_neg same]

theorem removed_data (d : LogDisk) (p : Path) : (removed d p).data = d.data := by
  rw [removed_eq]
  split <;> rfl

theorem removed_next (d : LogDisk) (p : Path) : (removed d p).next = d.next := by
  rw [removed_eq]
  split <;> rfl

theorem CallFrame.removed (own : Private hash p) : CallFrame hash d (removed d p) where
  next := Nat.le_of_eq (removed_next d p).symm
  names q other := Or.inl (by rw [removed_lookup, if_neg]; rintro rfl; exact other own)
  data q i _ _ := by rw [removed_data]
  sole q i other sole := by
    have apart : q ≠ p := by
      rintro rfl
      exact other own
    refine ⟨by rw [removed_lookup, if_neg apart, sole.1], fun r same => ?_⟩
    rw [removed_lookup] at same
    split at same
    · cases same
    · exact sole.2 r same

end Frames

section Equations

variable {c : SequenceCall} {n : Nat} {d : LogDisk}

theorem openExclusive_free {p : Path} (free : d.lookup p = none) :
    Disk.openExclusive p d = .ok (d.create p) := by
  simp [Disk.openExclusive, Disk.has, free]

theorem openExclusive_taken {p : Path} {node : Node Path} (taken : d.lookup p = some node) :
    Disk.openExclusive p d = .error .exist := by
  simp [Disk.openExclusive, Disk.has, taken]

theorem link_exist {src dst : Path} {node other : Node Path} (found : d.lookup src = some node)
    (taken : d.lookup dst = some other) : Disk.link src dst d = .error .exist := by
  unfold Disk.link
  split
  next missing =>
    rw [found] at missing
    cases missing
  · rw [if_pos (by simp [Disk.has, taken])]

theorem readLeaf_missing (missing : d.lookup (.leaf c.leafhash) = none) :
    readLeaf c n d = ⟨d, n, .goto .createTmp⟩ := by
  rw [readLeaf, d.readFile_missing _ missing]

theorem readLeaf_found {j s : Nat} (found : d.lookup (.leaf c.leafhash) = some (.file j))
    (content : d.data j = formatUint 16 s) (small : s < 2 ^ 64) :
    readLeaf c n d = ⟨d, n, .finish (s, some errDupeLeaf)⟩ := by
  rw [readLeaf, d.readFile_file _ found, content]
  dsimp only
  rw [parseUint_formatUint 16 (by decide) (by decide) small]

theorem createTmp_free (free : d.lookup (.pending c.leafhash) = none) :
    createTmp c n d = ⟨d.create (.pending c.leafhash), n, .goto (.writeTmp d.next)⟩ := by
  rw [createTmp, openExclusive_free free]

theorem createTmp_taken {node : Node Path} (taken : d.lookup (.pending c.leafhash) = some node) :
    createTmp c n d = ⟨d, n, .finish (0, some (.wrap "unable to write temporary file: %w"
      (.wrap "unable to create temporary file: %w" .exist)))⟩ := by
  rw [createTmp, openExclusive_taken taken]

theorem linkSeq_taken {node other : Node Path} (found : d.lookup (.pending c.leafhash) = some node)
    (taken : d.lookup (.seq n) = some other) :
    linkSeq c n d = ⟨d, (n + 1) % 2 ^ 64, .goto .linkSeq⟩ := by
  rw [linkSeq, link_exist found taken]
  rfl

theorem createLeafTmp_free {s : Nat} (free : d.lookup (.leafTmp c.leafhash) = none) :
    createLeafTmp c n d s = ⟨d.create (.leafTmp c.leafhash), n, .goto (.writeLeafTmp s d.next)⟩ := by
  rw [createLeafTmp, openExclusive_free free]

theorem linkLeaf_taken {s : Nat} {node other : Node Path}
    (found : d.lookup (.leafTmp c.leafhash) = some node)
    (taken : d.lookup (.leaf c.leafhash) = some other) :
    linkLeaf c n d s = ⟨d, n, .goto (.removeLeafTmp (s, none))⟩ := by
  rw [linkLeaf, link_exist found taken]
  rfl

end Equations

end Serverless
