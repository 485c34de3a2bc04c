import TrillianServerless.Packages.Note

set_option autoImplicit false

/-!
# The format of signed notes

A message is a text, an empty line and the lines of the signatures. `reference` reads and writes it; the
checks that a text is UTF-8 without control characters are left out.
-/

namespace SignedNote

open Go Checkpoints

section Lines

theorem newline_not_mem (s : Bytes) : ∀ line ∈ s.splitOn newline, newline ∉ line := by
  induction s with
  | nil => simp
  | cons c rest ih =>
    intro line member
    rw [List.splitOn_cons_eq_if_modifyHead] at member
    split at member
    · rcases List.mem_cons.mp member with rfl | later
      · simp
      · exact ih line later
    next other =>
      obtain ⟨first, lines, split⟩ := List.exists_cons_of_ne_nil (List.splitOn_ne_nil newline rest)
      rw [split, List.modifyHead_cons] at member
      rcases List.mem_cons.mp member with rfl | later
      · have inFirst := ih first (by simp [split])
        simp only [List.mem_cons, not_or]
        exact ⟨fun same => other (by simp [same]), inFirst⟩
      · exact ih line (by simp [split, later])

def unlines (lines : List Bytes) : Bytes := lines.flatMap fun line => line ++ [newline]

theorem splitOn_unlines {lines : List Bytes} (plain : ∀ line ∈ lines, newline ∉ line) :
    (unlines lines).splitOn newline = lines ++ [[]] := by
  induction lines with
  | nil => rfl
  | cons line rest ih =>
    have text : unlines (line :: rest) = line ++ newline :: unlines rest := by simp [unlines]
    rw [text, List.splitOn_append_cons_self_of_not_mem (plain line (by simp)),
      ih fun other member => plain other (by simp [member])]
    rfl

end Lines

section Format

-- An em dash and a space.
def sigPrefix : Bytes := [226, 128, 148, 32]

def space : UInt8 := 32

def plus : UInt8 := 43

def bigEndian (bytes : Bytes) : UInt32 :=
  UInt32.ofNat ((bytes.take 4).foldl (fun n b => n * 256 + b.toNat) 0)

def sigLine (s : Signature) : Bytes := sigPrefix ++ s.key.name ++ space :: s.base64

def parseLine (line : Bytes) : Option Signature :=
  let name := (line.drop 4).takeWhile fun c => c ≠ space
  let base64 := (line.drop 4).drop (name.length + 1)
  match decodeBase64 base64 with
  | none => none
  | some sig =>
    if line = sigPrefix ++ name ++ space :: base64 ∧ name ≠ [] ∧ plus ∉ name ∧ 5 ≤ sig.length then
      some ⟨⟨name, bigEndian sig⟩, base64⟩
    else none

theorem sigLine_parseLine {line : Bytes} {s : Signature} (parsed : parseLine line = some s) :
    sigLine s = line := by
  unfold parseLine at parsed
  dsimp only at parsed
  split at parsed
  · cases parsed
  · split at parsed
    next shape =>
      obtain rfl := Option.some.inj parsed
      exact shape.1.symm
    · cases parsed

def decodeLines (lines : List Bytes) : Option (List Signature) :=
  if lines = [] ∨ maxSignatures < lines.length then none else lines.mapM parseLine

-- The last empty line parts the text from the signatures, and the last byte is a newline.
def splitNote (msg : Bytes) : Option (Bytes × List Bytes) :=
  match (msg.splitOn newline).reverse with
  | [] :: rest =>
    match rest.dropWhile fun line => line ≠ [] with
    | [] :: t :: text => some (unlines (t :: text).reverse, (rest.takeWhile fun line => line ≠ []).reverse)
    | _ => none
  | _ => none

def decodeNote (msg : Bytes) : Option Envelope :=
  match splitNote msg with
  | none => none
  | some (text, lines) => (decodeLines lines).map fun sigs => ⟨text, sigs⟩

def encodeNote (e : Envelope) : Bytes := e.text ++ newline :: unlines (e.lines.map sigLine)

theorem sigLine_ne_nil (s : Signature) : sigLine s ≠ [] := by simp [sigLine, sigPrefix]

theorem mapM_parseLine {lines : List Bytes} {sigs : List Signature} :
    lines.mapM parseLine = some sigs ↔
      lines = sigs.map sigLine ∧ ∀ s ∈ sigs, parseLine (sigLine s) = some s := by
  induction lines generalizing sigs with
  | nil => cases sigs <;> simp
  | cons line rest ih =>
    simp only [List.mapM_cons, Option.bind_eq_bind, Option.bind_eq_some_iff, Option.pure_def,
      Option.some.injEq]
    constructor
    · rintro ⟨s, first, others, later, rfl⟩
      obtain ⟨rfl, parsed⟩ := ih.mp later
      have own := sigLine_parseLine first
      subst own
      exact ⟨rfl, List.forall_mem_cons.mpr ⟨first, parsed⟩⟩
    · rintro ⟨shape, parsed⟩
      cases sigs with
      | nil => cases shape
      | cons s others =>
        obtain ⟨rfl, rfl⟩ := List.cons.inj shape
        obtain ⟨first, later⟩ := List.forall_mem_cons.mp parsed
        exact ⟨s, first, others, ih.mpr ⟨rfl, later⟩, rfl⟩

/-- Texts and signature lines as messages have them. -/
structure WellFormed (e : Envelope) : Prop where
  text : ∃ lines, lines ≠ [] ∧ e.text = unlines lines ∧ ∀ line ∈ lines, newline ∉ line
  lines : ∀ s ∈ e.lines, parseLine (sigLine s) = some s ∧ newline ∉ sigLine s

theorem splitNote_lines {msg text : Bytes} {lines : List Bytes} (split : splitNote msg = some (text, lines)) :
    (∃ front, front ≠ [] ∧ text = unlines front ∧ ∀ line ∈ front, newline ∉ line) ∧ ∀ line ∈ lines, newline ∉ line := by
  have plain := newline_not_mem msg
  unfold splitNote at split
  split at split
  next rest backwards =>
    have inside : ∀ line ∈ rest, newline ∉ line := fun line member =>
      plain line (List.mem_reverse.mp (by rw [backwards]; simp [member]))
    split at split
    next t front dropped =>
      obtain ⟨rfl, rfl⟩ := Prod.mk.inj (Option.some.inj split)
      have later : ∀ line ∈ t :: front, line ∈ rest := fun line member =>
        (List.dropWhile_sublist _).subset (by rw [dropped]; simp [List.mem_cons.mp member])
      refine ⟨⟨(t :: front).reverse, by simp, rfl, fun line member =>
        inside line (later line (List.mem_reverse.mp member))⟩, fun line member => ?_⟩
      exact inside line ((List.takeWhile_sublist _).subset (List.mem_reverse.mp member))
    · cases split
  · cases split

theorem decodeNote_eq_some {msg : Bytes} {e : Envelope} : decodeNote msg = some e ↔
    ∃ lines, splitNote msg = some (e.text, lines) ∧ decodeLines lines = some e.lines := by
  unfold decodeNote
  split
  next missing => simp [missing]
  next text lines split =>
    rw [split]
    constructor
    · intro decoded
      obtain ⟨sigs, read, rfl⟩ := Option.map_eq_some_iff.mp decoded
      exact ⟨lines, rfl, read⟩
    · rintro ⟨lines', same, read⟩
      obtain ⟨rfl, rfl⟩ := Prod.mk.inj (Option.some.inj same)
      rw [read]
      rfl

theorem decodeNote_wellFormed {msg : Bytes} {e : Envelope} (decoded : decodeNote msg = some e) :
    WellFormed e := by
  obtain ⟨lines, split, read⟩ := decodeNote_eq_some.mp decoded
  obtain ⟨text, plain⟩ := splitNote_lines split
  unfold decodeLines at read
  split at read
  · cases read
  · obtain ⟨rfl, parsed⟩ := mapM_parseLine.mp read
    exact ⟨text, fun s member => ⟨parsed s member, plain _ (List.mem_map_of_mem member)⟩⟩

theorem splitNote_encodeNote {e : Envelope} (wellFormed : WellFormed e) :
    splitNote (encodeNote e) = some (e.text, e.lines.map sigLine) := by
  obtain ⟨text, nonempty, same, plain⟩ := wellFormed.text
  have written : encodeNote e = unlines (text ++ [] :: e.lines.map sigLine) := by
    simp [encodeNote, same, unlines]
  have split : (encodeNote e).splitOn newline = text ++ [] :: e.lines.map sigLine ++ [[]] := by
    rw [written]
    refine splitOn_unlines fun line member => ?_
    rcases List.mem_append.mp member with front | back
    · exact plain line front
    · rcases List.mem_cons.mp back with rfl | sig
      · simp
      · obtain ⟨s, listed, rfl⟩ := List.mem_map.mp sig
        exact (wellFormed.lines s listed).2
  have backwards : ((encodeNote e).splitOn newline).reverse =
      [] :: ((e.lines.map sigLine).reverse ++ [] :: text.reverse) := by
    rw [split]
    simp
  obtain ⟨t, front, reversed⟩ := List.exists_cons_of_ne_nil
    (show text.reverse ≠ [] by simpa using nonempty)
  have sigs : ∀ line ∈ (e.lines.map sigLine).reverse, decide (line ≠ []) = true := by
    intro line member
    obtain ⟨s, _, rfl⟩ := List.mem_map.mp (List.mem_reverse.mp member)
    simpa using sigLine_ne_nil s
  have dropped : ((e.lines.map sigLine).reverse ++ [] :: text.reverse).dropWhile
      (fun line => decide (line ≠ [])) = [] :: t :: front := by
    rw [List.dropWhile_append_of_pos sigs, reversed]
    simp
  have taken : ((e.lines.map sigLine).reverse ++ [] :: text.reverse).takeWhile
      (fun line => decide (line ≠ [])) = (e.lines.map sigLine).reverse := by
    rw [List.takeWhile_append_of_pos sigs]
    simp
  have whole : (t :: front).reverse = text := by rw [← reversed, List.reverse_reverse]
  rw [splitNote, backwards]
  simp only [dropped, taken, List.reverse_reverse, whole, ← same]

/-- Writing a note and reading it gives the note, unless it has too many signatures. -/
theorem decodeNote_encodeNote {e : Envelope} (wellFormed : WellFormed e) (some' : e.lines ≠ []) :
    decodeNote (encodeNote e) = if e.lines.length ≤ maxSignatures then some e else none := by
  rw [decodeNote, splitNote_encodeNote wellFormed]
  dsimp only
  by_cases few : e.lines.length ≤ maxSignatures
  · have read : decodeLines (e.lines.map sigLine) = some e.lines := by
      rw [decodeLines, if_neg (by simpa [some'] using few)]
      exact mapM_parseLine.mpr ⟨rfl, fun s listed => (wellFormed.lines s listed).1⟩
    rw [read, if_pos few, Option.map_some]
  · have refused : decodeLines (e.lines.map sigLine) = none := by
      rw [decodeLines, if_pos (.inr (by simpa using few))]
    rw [refused, if_neg few, Option.map_none]

end Format

section Signing

def hashBytes (hash : UInt32) : Bytes :=
  [UInt8.ofNat (hash.toNat / 2 ^ 24), UInt8.ofNat (hash.toNat / 2 ^ 16), UInt8.ofNat (hash.toNat / 2 ^ 8),
    UInt8.ofNat hash.toNat]

theorem bigEndian_hashBytes (hash : UInt32) (sig : Bytes) : bigEndian (hashBytes hash ++ sig) = hash := by
  have small := hash.toNat_lt
  apply UInt32.toNat_inj.mp
  simp only [bigEndian, hashBytes, List.cons_append, List.nil_append, List.take_succ_cons, List.take_zero,
    List.foldl_cons, List.foldl_nil, UInt8.toNat_ofNat', UInt32.toNat_ofNat']
  omega

def signLine (s : Signer) (sig : Bytes) : Signature := ⟨s.key, encodeBase64 (hashBytes s.key.hash ++ sig)⟩

def signLines (text : Bytes) (signers : List Signer) : Except GoError (List Signature) :=
  signers.mapM fun s => (s.sign text).map (signLine s)

theorem signLine_parses (s : Signer) {sig : Bytes} (some' : sig ≠ []) :
    parseLine (sigLine (signLine s sig)) = some (signLine s sig) ∧ newline ∉ sigLine (signLine s sig) := by
  obtain ⟨named, plain⟩ := s.named
  have line : sigLine (signLine s sig) =
      sigPrefix ++ s.key.name ++ space :: encodeBase64 (hashBytes s.key.hash ++ sig) := rfl
  have cut : (sigLine (signLine s sig)).drop 4 =
      s.key.name ++ space :: encodeBase64 (hashBytes s.key.hash ++ sig) := by
    rw [line, List.append_assoc]
    rfl
  have name : (s.key.name ++ space :: encodeBase64 (hashBytes s.key.hash ++ sig)).takeWhile
      (fun c => decide (c ≠ space)) = s.key.name := by
    have clear : ∀ c ∈ s.key.name, decide (c ≠ space) = true := fun c member => decide_eq_true (plain c member).2.1
    rw [List.takeWhile_append_of_pos clear]
    simp
  have rest : (s.key.name ++ space :: encodeBase64 (hashBytes s.key.hash ++ sig)).drop (s.key.name.length + 1) =
      encodeBase64 (hashBytes s.key.hash ++ sig) := by
    rw [List.drop_append, List.drop_of_length_le (Nat.le_succ _), Nat.add_sub_cancel_left]
    rfl
  have long : 5 ≤ (hashBytes s.key.hash ++ sig).length := by
    have := List.length_pos_of_ne_nil some'
    simp only [List.length_append, hashBytes, List.length_cons, List.length_nil]
    omega
  constructor
  · rw [parseLine]
    simp only [cut, name, rest, decodeBase64_encodeBase64]
    rw [if_pos ⟨line, named, fun member => (plain _ member).1 rfl, long⟩, bigEndian_hashBytes]
    rfl
  · rw [line]
    simp only [List.mem_append, List.mem_cons, not_or]
    refine ⟨⟨by decide, fun member => (plain _ member).2.2 rfl⟩, by decide, fun member => ?_⟩
    exact absurd (encodeBase64_bounds _ _ member).1 (by decide)

theorem signLines_ok {text : Bytes} {signers : List Signer} {lines : List Signature}
    (signed : signLines text signers = .ok lines) :
    List.Forall₂ (fun s t => ∃ sig, s.sign text = .ok sig ∧ t = signLine s sig) signers lines := by
  induction signers generalizing lines with
  | nil =>
    obtain rfl := Except.ok.inj signed
    exact .nil
  | cons s rest ih =>
    rw [signLines, List.mapM_cons] at signed
    obtain ⟨line, own, signed⟩ := except_bind_eq_ok.mp signed
    obtain ⟨others, later, signed⟩ := except_bind_eq_ok.mp signed
    obtain rfl := Except.ok.inj signed
    obtain ⟨sig, signs, rfl⟩ := except_map_eq_ok.mp own
    exact .cons ⟨sig, signs, rfl⟩ (ih later)

theorem signLines_mem {text : Bytes} {signers : List Signer} {lines : List Signature} {t : Signature}
    (each : List.Forall₂ (fun s t => ∃ sig, s.sign text = .ok sig ∧ t = signLine s sig) signers lines)
    (member : t ∈ lines) : ∃ (s : Signer) (sig : Bytes), s.sign text = .ok sig ∧ t = signLine s sig := by
  induction each with
  | nil => cases member
  | cons own _ ih =>
    rcases List.mem_cons.mp member with rfl | later
    · exact ⟨_, own⟩
    · exact ih later

theorem signLines_some {text : Bytes} {signers : List Signer}
    (signs : ∀ s ∈ signers, ∃ sig, s.sign text = .ok sig) : ∃ lines, signLines text signers = .ok lines := by
  induction signers with
  | nil => exact ⟨[], rfl⟩
  | cons s rest ih =>
    obtain ⟨sig, own⟩ := signs s (by simp)
    obtain ⟨lines, later⟩ := ih fun s' member => signs s' (by simp [member])
    refine ⟨signLine s sig :: lines, ?_⟩
    rw [signLines] at later
    rw [signLines, List.mapM_cons, own, later]
    rfl

end Signing

section Reference

def latin1 (s : Bytes) : String := String.ofList (s.map fun c => Char.ofNat c.toNat)

def unmarshalText (text : Bytes) : Option Checkpoint :=
  match text.splitOn newline with
  | origin :: size :: hash :: _ :: _ =>
    match parseUint 10 64 size, decodeBase64 hash with
    | some size, some hash => if origin = [] then none else some ⟨latin1 origin, size, hash⟩
    | _, _ => none
  | _ => none

def format : Package where
  decode := decodeNote
  textOf msg := (splitNote msg).map Prod.fst
  payload base64 := ((decodeBase64 base64).getD []).drop 4
  unmarshal := unmarshalText
  openNote _ _ := .error (.failed (.text "malformed note"))
  sign n signers := do
    let lines ← signLines n.text signers
    return encodeNote ⟨n.text, n.others signers ++ lines⟩
  parseCheckpoint _ _ _ _ := .error (.text "failed to verify signatures on checkpoint: %v")

def reference : Package :=
  { format with
    openNote := fun msg known =>
      match opened format known msg with
      | none => .error (.failed (.text "malformed note"))
      | some n => if n.sigs = [] then .error (.unverified n) else .ok n
    parseCheckpoint := fun msg origin v others =>
      match opened format (v :: others) msg with
      | none => .error (.text "failed to verify signatures on checkpoint: %v")
      | some n =>
        if v.key ∈ n.sigs.map Signature.key then
          match unmarshalText n.text with
          | none => .error (.text "failed to unmarshal checkpoint: %v")
          | some cp =>
            if cp.origin = origin then .ok (cp, n)
            else .error (.text "got Origin %q but expected %q")
        else .error (.text "no log signature found on note") }

-- A note that was read and gets more signatures can be read again.
theorem signed_wellFormed {n : Note} {signers : List Signer} {lines : List Signature} (written : Written reference n)
    (signed : signLines n.text signers = .ok lines) : WellFormed ⟨n.text, n.others signers ++ lines⟩ := by
  refine ⟨?_, fun s member => ?_⟩
  · obtain ⟨msg, e, decoded, same⟩ := written.text
    obtain ⟨front, nonempty, text, plain⟩ := (decodeNote_wellFormed decoded).text
    exact ⟨front, nonempty, same.symm.trans text, plain⟩
  · rcases List.mem_append.mp member with kept | added
    · obtain ⟨msg, e, decoded, listed⟩ := written.lines s (List.mem_filter.mp kept).1
      exact (decodeNote_wellFormed decoded).lines s listed
    · obtain ⟨signer, sig, signs, rfl⟩ := signLines_mem (signLines_ok signed) added
      exact signLine_parses signer (signer.signs _ _ signs)

theorem reference_sign {n : Note} {signers : List Signer} {msg : Bytes} (written : Written reference n)
    (ran : reference.sign n signers = .ok msg) :
    reference.textOf msg = some n.text ∧ ∃ lines, SignedWith reference n.text signers lines ∧
      reference.decode msg = if (n.others signers ++ lines).length ≤ maxSignatures then
        some ⟨n.text, n.others signers ++ lines⟩ else none := by
  obtain ⟨lines, signed, ran⟩ := except_bind_eq_ok.mp ran
  obtain rfl := Except.ok.inj ran
  have each := signLines_ok signed
  have wellFormed := signed_wellFormed written signed
  refine ⟨?_, lines, each.imp fun s t made => ?_, decodeNote_encodeNote wellFormed ?_⟩
  · show ((splitNote _).map Prod.fst) = _
    rw [splitNote_encodeNote wellFormed]
    rfl
  · obtain ⟨sig, signs, rfl⟩ := made
    refine ⟨rfl, signs.trans (congrArg _ ?_)⟩
    show sig = ((decodeBase64 (encodeBase64 (hashBytes s.key.hash ++ sig))).getD []).drop 4
    rw [decodeBase64_encodeBase64]
    rfl
  · cases signers with
    | nil =>
      have others : n.others [] = n.sigs ++ n.unverifiedSigs := by simp [Note.others]
      rw [others]
      exact List.append_ne_nil_of_left_ne_nil written.some' _
    | cons s rest =>
      obtain ⟨line, more, -, -, rfl⟩ := List.forall₂_cons_left_iff.mp each
      simp

theorem reference_parse (msg : Bytes) (origin : String) (v : Verifier) (others : List Verifier) (cp : Checkpoint)
    (n : Note) : reference.parseCheckpoint msg origin v others = .ok (cp, n) ↔
      opened reference (v :: others) msg = some n ∧ v.key ∈ n.sigs.map Signature.key ∧
        reference.unmarshal n.text = some cp ∧ cp.origin = origin := by
  show (match opened format (v :: others) msg with
    | none => _
    | some n => _) = _ ↔ opened format (v :: others) msg = some n ∧ _ ∧ unmarshalText n.text = some cp ∧ _
  cases opened format (v :: others) msg with
  | none => simp
  | some m =>
    dsimp only
    split
    next signed =>
      cases body : unmarshalText m.text with
      | none =>
        simp only [reduceCtorEq, false_iff, Option.some.injEq]
        rintro ⟨rfl, _, read, _⟩
        rw [body] at read
        cases read
      | some cp' =>
        dsimp only
        split
        next own =>
          constructor
          · intro same
            obtain ⟨rfl, rfl⟩ := Prod.mk.inj (Except.ok.inj same)
            exact ⟨rfl, signed, body, own⟩
          · rintro ⟨same, _, read, _⟩
            obtain rfl := Option.some.inj same
            rw [body] at read
            rw [Option.some.inj read]
        next other =>
          simp only [reduceCtorEq, false_iff]
          rintro ⟨same, _, read, own⟩
          obtain rfl := Option.some.inj same
          rw [body] at read
          exact other (by rw [Option.some.inj read, own])
    next unsigned =>
      simp only [reduceCtorEq, false_iff, Option.some.injEq]
      rintro ⟨rfl, signed, _⟩
      exact unsigned signed

theorem reference_lawful : Lawful reference where
  decode_nil := rfl
  decode_text msg e decoded := by
    obtain ⟨lines, split, -⟩ := decodeNote_eq_some.mp decoded
    show (splitNote msg).map Prod.fst = _
    rw [split]
    rfl
  open_ok msg known n read some' := by
    have read' : opened format known msg = some n := read
    simp [reference, read', some']
  open_unverified msg known n read none' := by
    have read' : opened format known msg = some n := read
    simp [reference, read', none']
  open_failed msg known failed := by
    have failed' : opened format known msg = none := failed
    exact ⟨.text "malformed note", by simp [reference, failed']⟩
  sign_some n signers _ signs := by
    obtain ⟨lines, signed⟩ := signLines_some signs
    exact ⟨_, except_bind_eq_ok.mpr ⟨lines, signed, rfl⟩⟩
  sign_ok n signers msg written ran := reference_sign written ran
  parse := reference_parse

end Reference

section Tags

-- A key whose name, hash and signature of every text are one letter.
def tagVerifier (tag : UInt8) : Verifier := ⟨⟨[tag], tag.toUInt32⟩, fun _ sig => sig = [tag]⟩

def tagSigner (tag : UInt8) (plain : tag ≠ 43 ∧ tag ≠ 32 ∧ tag ≠ newline) : Signer where
  key := ⟨[tag], tag.toUInt32⟩
  sign _ := .ok [tag]
  named := ⟨List.cons_ne_nil _ _, fun c member => by rwa [List.mem_singleton.mp member]⟩
  signs text sig signed := by
    rw [← Except.ok.inj signed]
    exact List.cons_ne_nil _ _

def tagSignature (tag : UInt8) : Signature := ⟨⟨[tag], tag.toUInt32⟩, encodeBase64 [0, 0, 0, tag, tag]⟩

def tagNote (text : Bytes) (tags : List UInt8) : Bytes := encodeNote ⟨text, tags.map tagSignature⟩

end Tags

end SignedNote
