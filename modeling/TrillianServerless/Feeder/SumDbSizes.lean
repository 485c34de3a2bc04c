import TrillianServerless.Feeder.SumDb

set_option autoImplicit false

namespace SumDb

open Go Merkle

/-- A lookup that fails or returns as many hashes as it was asked for. -/
def Compliant (lookup : Lookup) : Prop :=
  ∀ q hs, lookup q = .ok hs → hs.length = q.width

/-- The broker for a tree of size `n`, with tiles of the widths it asks for. -/
structure Sized (n : Nat) (tb : TileBroker) : Prop where
  widths : tb.pts = (newTileBroker n).pts
  cached : ∀ i t, tb.ts.lookup i = some t →
    t.leaves.length = (Request.mk i.level i.offset ((newTileBroker n).width i)).width

variable {n : Nat} {lookup : Lookup}

theorem Sized.new (n : Nat) : Sized n (newTileBroker n) := ⟨rfl, nofun⟩

-- A tile that is found has the width the tree gives it.
theorem tile_sized {tb : TileBroker} (compliant : Compliant lookup) (sized : Sized n tb) (i : TileIndex) :
    Sized n (TileBroker.tile lookup i tb).2 ∧
      ((∃ q cause reason, lookup q = .error cause ∧ (TileBroker.tile lookup i tb).1 = .error reason) ∨
        ∃ t, (TileBroker.tile lookup i tb).1 = .ok t ∧
          t.leaves.length = (Request.mk i.level i.offset ((newTileBroker n).width i)).width) := by
  have same : tb.width i = (newTileBroker n).width i := by
    rw [TileBroker.width, sized.widths, TileBroker.width]
  unfold TileBroker.tile
  cases known : tb.ts.lookup i with
  | some t => exact ⟨sized, .inr ⟨t, rfl, sized.cached i t known⟩⟩
  | none =>
    dsimp only
    cases answered : lookup ⟨i.level, i.offset, tb.width i⟩ with
    | error reason => exact ⟨⟨sized.widths, sized.cached⟩, .inl ⟨_, reason, _, answered, rfl⟩⟩
    | ok hs =>
      have length := compliant _ hs answered
      rw [same] at length
      refine ⟨⟨sized.widths, fun j t found => ?_⟩, .inr ⟨⟨hs⟩, rfl, length⟩⟩
      by_cases own : j = i
      · subst own
        rw [List.lookup_cons_self] at found
        obtain rfl := Option.some.inj found
        exact length
      · rw [List.lookup_cons, beq_eq_false_iff_ne.mpr own] at found
        exact sized.cached j t found

section Nodes

variable {pkg : Compact.Package} (lawful : Compact.Lawful pkg) (h : LogHasher)
include lawful

/-- Below level 56 a node of the tree is found in its tile, unless the lookup fails. -/
theorem proofNode_low (word : n < 2 ^ 64) (compliant : Compliant lookup) {id : NodeID} (low : id.level < 56)
    (inside : id.stop ≤ n) {tb : TileBroker} (sized : Sized n tb) :
    Sized n (proofNode pkg h lookup id tb).2 ∧
      ((∃ q cause reason, lookup q = .error cause ∧ (proofNode pkg h lookup id tb).1 = .error reason) ∨
        ∃ hash, (proofNode pkg h lookup id tb).1 = .ok hash) := by
  obtain ⟨level, i⟩ := id
  obtain ⟨l, r, small, rfl⟩ : ∃ l r, r < 8 ∧ level = 8 * l + r :=
    ⟨level / 8, level % 8, Nat.mod_lt _ (by decide), (Nat.div_add_mod level 8).symm⟩
  rw [NodeID.stop] at inside
  have converted := convert_eq small low (Nat.lt_of_le_of_lt inside word)
  have within := le_tileWidth small inside
  have full : tileWidth n ⟨l, i / 2 ^ (8 - r)⟩ ≤ 256 := Nat.min_le_left _ _
  have positive : 0 < (i % 2 ^ (8 - r) + 1) * 2 ^ r := by positivity
  obtain ⟨-, width⟩ := newTileBroker_width word (Nat.lt_of_lt_of_le positive within)
  have ran : proofNode pkg h lookup ⟨8 * l + r, i⟩ tb =
      (Eff.hide "failed to lookup %s: %v" (TileBroker.tile lookup ⟨l, i / 2 ^ (8 - r)⟩) >>=
        fun t => Eff.lift (t.hash pkg h ⟨r, i % 2 ^ (8 - r)⟩)) tb := by
    rw [proofNode, Eff.bind_of_ok (show _ = (_, tb) by rw [Eff.lift_run, converted])]
  obtain ⟨after, outcome⟩ := tile_sized compliant sized ⟨l, i / 2 ^ (8 - r)⟩
  rw [ran, Eff.bind_run, Eff.hide]
  rcases found : TileBroker.tile lookup ⟨l, i / 2 ^ (8 - r)⟩ tb with ⟨result, tb'⟩
  rw [found] at after outcome
  dsimp only at after outcome
  rcases outcome with ⟨q, cause, reason, fails, rfl⟩ | ⟨t, rfl, length⟩
  · exact ⟨after, .inl ⟨q, cause, _, fails, rfl⟩⟩
  · refine ⟨after, .inr ?_⟩
    rw [width] at length
    have hashed := tile_hash lawful h (t := t) (by rw [length]; exact within) (Nat.le_trans within full)
    exact ⟨_, hashed⟩

omit lawful in
-- A tile at level 7 has 2^64 leaves, which is 0 as a number of 64 bits.
theorem convert_high {id : NodeID} (high : 56 ≤ id.level) :
    convertToSumDBTiles id = .panic "integer divide by zero" := by
  have zero : shl ((1 + id.level / tileHeight) * tileHeight) 1 = 0 := by
    have large : 64 ≤ (1 + id.level / tileHeight) * tileHeight := by
      simp only [tileHeight]
      omega
    rw [shl, Nat.one_mul]
    exact Nat.mod_eq_zero_of_dvd (pow_dvd_pow 2 large)
  unfold convertToSumDBTiles
  exact if_pos (.inl zero)

omit lawful in
theorem proofNode_high {id : NodeID} (high : 56 ≤ id.level) (tb : TileBroker) :
    proofNode pkg h lookup id tb = (.panic "integer divide by zero", tb) := by
  rw [proofNode, Eff.bind_of_panic (show _ = (_, tb) by rw [Eff.lift_run, convert_high high])]

/-- A whole aligned block of 2^56 leaves lies between the sizes. -/
def HugeBlock (fromSize toSize : Nat) : Prop := ∃ i, fromSize ≤ i * 2 ^ 56 ∧ (i + 1) * 2 ^ 56 ≤ toSize

omit lawful in
theorem hugeBlock_iff (fromSize toSize : Nat) :
    HugeBlock fromSize toSize ↔ ∃ id ∈ cover fromSize toSize, 56 ≤ id.level := by
  constructor
  · rintro ⟨i, lower, upper⟩
    exact @exists_cover_above _ _ ⟨56, i⟩ ⟨lower, upper⟩
  · rintro ⟨⟨level, i⟩, member, high⟩
    obtain ⟨lower, upper⟩ := ((mem_cover_iff _ _ _).mp member).1
    obtain ⟨d, rfl⟩ := Nat.exists_eq_add_of_le high
    simp only [NodeID.first, NodeID.stop, pow_add] at lower upper
    have some' := Nat.two_pow_pos d
    refine ⟨i * 2 ^ d, by linarith, ?_⟩
    calc (i * 2 ^ d + 1) * 2 ^ 56 ≤ (i * 2 ^ d + 2 ^ d) * 2 ^ 56 := Nat.mul_le_mul_right _ (by omega)
      _ = (i + 1) * (2 ^ 56 * 2 ^ d) := by ring
      _ ≤ toSize := upper

/-- fetchProof never panics for two sizes exactly if no block of 2^56 leaves lies between them. -/
theorem fetchProof_survives_iff (fromSize toSize : Nat) (order : fromSize ≤ toSize) (word : toSize < 2 ^ 64) :
    (∀ lookup, Compliant lookup → ∀ reason, (fetchProof pkg h lookup fromSize toSize).1 ≠ .panic reason) ↔
      ¬ HugeBlock fromSize toSize := by
  rw [hugeBlock_iff]
  constructor
  · intro calm huge
    have answers : Compliant fun q => .ok (List.replicate q.width []) := by
      intro q hs same
      cases same
      exact List.length_replicate
    have panics := @Eff.each_panic _ _ _ (Sized toSize) (fun id => 56 ≤ id.level)
      (proofNode pkg h fun q => .ok (List.replicate q.width [])) (cover fromSize toSize)
      (fun id member low tb sized => ?_) (fun id _ high tb => ⟨_, _, proofNode_high h high tb⟩) huge
      (newTileBroker toSize) (.new toSize)
    · obtain ⟨reason, panics⟩ := panics
      refine calm _ answers reason ?_
      rw [fetchProof, lawful.rangeNodes _ _ order]
      exact panics
    · obtain ⟨after, ⟨q, cause, _, fails, -⟩ | ⟨hash, ran⟩⟩ := proofNode_low lawful h word answers (Nat.not_le.mp low)
        ((mem_cover_iff _ _ id).mp member).1.2 sized
      · cases fails
      · exact ⟨hash, _, Prod.ext ran rfl, after⟩
  · intro small lookup compliant reason
    rw [fetchProof, lawful.rangeNodes _ _ order]
    refine @Eff.each_ne_panic _ _ _ (Sized toSize) _ _ (fun id member tb sized => ?_) _ (.new toSize) reason
    have low : id.level < 56 := by
      by_contra high
      exact small ⟨id, member, Nat.not_lt.mp high⟩
    obtain ⟨after, ⟨_, _, _, -, ran⟩ | ⟨hash, ran⟩⟩ := proofNode_low lawful h word compliant low
      ((mem_cover_iff _ _ id).mp member).1.2 sized
    · refine ⟨after, fun other panics => ?_⟩
      rw [ran] at panics
      cases panics
    · refine ⟨after, fun other panics => ?_⟩
      rw [ran] at panics
      cases panics

end Nodes

-- From nothing to three leaves, with any hashes.
theorem fetchProof_survives_three :
    ¬ ∃ reason, (fetchProof Compact.reference WitnessServer.pairHasher
      (fun q => .ok (List.replicate q.width [])) 0 3).1 = .panic reason := by
  rintro ⟨reason, panics⟩
  refine (fetchProof_survives_iff Compact.reference_lawful _ 0 3 (by decide) (by decide)).mpr ?_ _ ?_ reason panics
  · rintro ⟨i, -, upper⟩
    omega
  · intro q hs same
    cases same
    exact List.length_replicate

/-- The log signs a checkpoint of 2^56 leaves, and the first proof for it makes the feeder panic. -/
theorem fetchProof_huge :
    Compliant (fun q => .ok (List.replicate q.width [])) ∧ 2 ^ 56 < 2 ^ 64 ∧
      (fetchProof Compact.reference WitnessServer.pairHasher (fun q => .ok (List.replicate q.width [])) 0
        (2 ^ 56)).1 = .panic "integer divide by zero" := by
  refine ⟨fun q hs same => ?_, by decide, ?_⟩
  · cases same
    exact List.length_replicate
  · have root : cover 0 (2 ^ 56) = [⟨56, 0⟩] := by
      have perfect := cover_perfect (l := 56) (s := 0) (Nat.dvd_zero _)
      rwa [Nat.zero_add, Nat.zero_div] at perfect
    rw [fetchProof, Compact.reference_lawful.rangeNodes _ _ (Nat.zero_le _), root, Eff.each,
      Eff.bind_of_panic (proofNode_high _ (Nat.le_refl 56) _)]

end SumDb
