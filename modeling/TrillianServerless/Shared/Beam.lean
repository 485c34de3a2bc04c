import Mathlib.Data.List.Dedup
import Mathlib.Data.List.Forall2
import TrillianServerless.Shared.Go

set_option autoImplicit false

/-!
# Pipelines over collections in no order

A collection of Apache Beam is a list here, and a `Runner` gives the elements of a list out in some order of its own at
each stage of a pipeline.
-/

namespace Beam

open Go

structure Runner where
  order : {A : Type} → String → List A → List A
  permutes : ∀ {A : Type} (stage : String) (xs : List A), (order stage xs).Perm xs

-- The runner that keeps every order.
def Runner.direct : Runner := ⟨fun _ xs => xs, fun _ _ => .rfl⟩

section Stages

variable {A B E K V W : Type} [DecidableEq K] (r : Runner)

-- An error of one element ends the pipeline.
def Runner.parDo (stage : String) (f : A → Except E B) (xs : List A) : Except E (List B) :=
  (r.order stage xs).mapM f

def valuesOf (k : K) (kvs : List (K × V)) : List V := (kvs.filter fun kv => kv.1 = k).map Prod.snd

def Runner.groupByKey (stage : String) (kvs : List (K × V)) : List (K × List V) :=
  (kvs.map Prod.fst).dedup.map fun k => (k, r.order stage (valuesOf k kvs))

-- A key of either collection has a group.
def Runner.coGroupByKey (stage : String) (left : List (K × V)) (right : List (K × W)) :
    List (K × List V × List W) :=
  (left.map Prod.fst ++ right.map Prod.fst).dedup.map fun k =>
    (k, r.order stage (valuesOf k left), r.order stage (valuesOf k right))

end Stages

section Rules

variable {A B E K V W : Type} [DecidableEq K] {r : Runner} {stage : String}

theorem mapM_eq_ok {f : A → Except E B} {xs : List A} {ys : List B} :
    xs.mapM f = .ok ys ↔ List.Forall₂ (fun x y => f x = .ok y) xs ys := by
  induction xs generalizing ys with
  | nil =>
    rw [List.mapM_nil, List.forall₂_nil_left_iff]
    exact ⟨fun same => (Except.ok.inj same).symm, fun same => congrArg Except.ok same.symm⟩
  | cons x xs ih =>
    rw [List.mapM_cons, except_bind_eq_ok, List.forall₂_cons_left_iff]
    constructor
    · rintro ⟨y, first, rest⟩
      obtain ⟨others, ran, same⟩ := except_bind_eq_ok.mp rest
      exact ⟨y, others, first, ih.mp ran, (Except.ok.inj same).symm⟩
    · rintro ⟨y, others, first, ran, rfl⟩
      exact ⟨y, first, except_bind_eq_ok.mpr ⟨others, ih.mpr ran, rfl⟩⟩

theorem mapM_ok {f : A → Except E B} {xs : List A} (each : ∀ x ∈ xs, ∃ y, f x = .ok y) :
    ∃ ys, xs.mapM f = .ok ys := by
  induction xs with
  | nil => exact ⟨[], rfl⟩
  | cons x xs ih =>
    obtain ⟨y, first⟩ := each x (by simp)
    obtain ⟨ys, others⟩ := ih fun x' inside => each x' (by simp [inside])
    exact ⟨y :: ys, mapM_eq_ok.mpr (.cons first (mapM_eq_ok.mp others))⟩

theorem forall₂_filterMap {f : A → Except E B} {xs : List A} {ys : List B}
    (related : List.Forall₂ (fun x y => f x = .ok y) xs ys) : ys = xs.filterMap fun x => (f x).toOption := by
  induction related with
  | nil => rfl
  | cons first _ ih => rw [List.filterMap_cons, first, ih]; rfl

/-- A stage succeeds where it does so for each element, -/
theorem parDo_ok_iff {f : A → Except E B} {xs : List A} :
    (∃ ys, r.parDo stage f xs = .ok ys) ↔ ∀ x ∈ xs, ∃ y, f x = .ok y := by
  have perm := r.permutes stage xs
  constructor
  · rintro ⟨ys, ran⟩ x inside
    have related := mapM_eq_ok.mp ran
    obtain ⟨i, bound, rfl⟩ := List.mem_iff_getElem.mp (perm.symm.subset inside)
    have bound' : i < ys.length := related.length_eq ▸ bound
    exact ⟨ys[i], (List.forall₂_iff_get.mp related).2 i bound bound'⟩
  · intro each
    exact mapM_ok fun x inside => each x (perm.subset inside)

/-- and then gives the results, in some order. -/
theorem parDo_perm {f : A → Except E B} {xs : List A} {ys : List B} (ran : r.parDo stage f xs = .ok ys) :
    ys.Perm (xs.filterMap fun x => (f x).toOption) := by
  rw [forall₂_filterMap (mapM_eq_ok.mp ran)]
  exact (r.permutes stage xs).filterMap _

theorem mem_parDo {f : A → Except E B} {xs : List A} {ys : List B} (ran : r.parDo stage f xs = .ok ys) {y : B} :
    y ∈ ys ↔ ∃ x ∈ xs, f x = .ok y := by
  have result (x : A) : (f x).toOption = some y ↔ f x = .ok y := by cases f x <;> simp [Except.toOption]
  simp only [(parDo_perm ran).mem_iff, List.mem_filterMap, result]

-- What of the results is known from the elements.
theorem parDo_map {C : Type} {f : A → Except E B} {xs : List A} {ys : List B} (ran : r.parDo stage f xs = .ok ys)
    {g : B → C} {k : A → C} (same : ∀ x y, f x = .ok y → g y = k x) : (ys.map g).Perm (xs.map k) := by
  have related := mapM_eq_ok.mp ran
  have mapped : ys.map g = (r.order stage xs).map k := by
    generalize r.order stage xs = order at related
    clear ran
    induction related with
    | nil => rfl
    | cons first _ ih => rw [List.map_cons, List.map_cons, same _ _ first, ih]
  rw [mapped]
  exact (r.permutes stage xs).map k

-- A stage whose elements cannot fail.
theorem parDo_total {f : A → Except E B} {g : A → B} (each : ∀ x, f x = .ok (g x)) (stage : String) (xs : List A) :
    ∃ ys, r.parDo stage f xs = .ok ys ∧ ys.Perm (xs.map g) := by
  obtain ⟨ys, ran⟩ := (@parDo_ok_iff _ _ _ r stage f xs).mpr fun x _ => ⟨g x, each x⟩
  refine ⟨ys, ran, ?_⟩
  have perm := parDo_perm ran
  simp only [each, Except.toOption] at perm
  rwa [List.filterMap_eq_map'] at perm

theorem mem_valuesOf {k : K} {v : V} {kvs : List (K × V)} : v ∈ valuesOf k kvs ↔ (k, v) ∈ kvs := by
  rw [valuesOf, List.mem_map]
  constructor
  · rintro ⟨⟨k', v'⟩, inside, rfl⟩
    obtain ⟨there, same⟩ := List.mem_filter.mp inside
    obtain rfl : k' = k := by simpa using same
    exact there
  · intro inside
    exact ⟨(k, v), List.mem_filter.mpr ⟨inside, by simp⟩, rfl⟩

theorem valuesOf_map (k : K) (key : A → K) (xs : List A) :
    valuesOf k (xs.map fun x => (key x, x)) = xs.filter fun x => key x = k := by
  rw [valuesOf, List.filter_map, List.map_map]
  exact List.map_id _

variable (r stage) in
theorem groupByKey_keys (kvs : List (K × V)) : ((r.groupByKey stage kvs).map Prod.fst).Nodup := by
  rw [Runner.groupByKey, List.map_map]
  exact (List.map_id _).symm ▸ List.nodup_dedup _

theorem mem_groupByKey {kvs : List (K × V)} {k : K} {vs : List V} :
    (k, vs) ∈ r.groupByKey stage kvs ↔ (∃ v, (k, v) ∈ kvs) ∧ vs = r.order stage (valuesOf k kvs) := by
  rw [Runner.groupByKey, List.mem_map]
  constructor
  · rintro ⟨k', inside, same⟩
    obtain ⟨rfl, rfl⟩ := Prod.mk.inj same
    obtain ⟨⟨k, v⟩, there, rfl⟩ := List.mem_map.mp (List.mem_dedup.mp inside)
    exact ⟨⟨v, there⟩, rfl⟩
  · rintro ⟨⟨v, there⟩, rfl⟩
    exact ⟨k, List.mem_dedup.mpr (List.mem_map_of_mem there), rfl⟩

variable (r stage) in
theorem coGroupByKey_keys (left : List (K × V)) (right : List (K × W)) :
    ((r.coGroupByKey stage left right).map Prod.fst).Nodup := by
  rw [Runner.coGroupByKey, List.map_map]
  exact (List.map_id _).symm ▸ List.nodup_dedup _

theorem mem_coGroupByKey {left : List (K × V)} {right : List (K × W)} {k : K} {vs : List V} {ws : List W} :
    (k, vs, ws) ∈ r.coGroupByKey stage left right ↔
      ((∃ v, (k, v) ∈ left) ∨ ∃ w, (k, w) ∈ right) ∧ vs = r.order stage (valuesOf k left) ∧
        ws = r.order stage (valuesOf k right) := by
  have keys {U : Type} {kvs : List (K × U)} : k ∈ kvs.map Prod.fst ↔ ∃ u, (k, u) ∈ kvs := by simp
  rw [Runner.coGroupByKey, List.mem_map, ← keys, ← keys, ← List.mem_append, ← List.mem_dedup]
  constructor
  · rintro ⟨k', inside, same⟩
    obtain ⟨rfl, rest⟩ := Prod.mk.inj same
    obtain ⟨rfl, rfl⟩ := Prod.mk.inj rest
    exact ⟨inside, rfl, rfl⟩
  · rintro ⟨inside, rfl, rfl⟩
    exact ⟨k, inside, rfl⟩

end Rules

end Beam
