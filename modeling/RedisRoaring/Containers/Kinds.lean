import RedisRoaring.Containers.Containers

/-!
# Kinds of containers

What the bitmap level asks of the containers it holds, for any predicate on
containers: `Kind` for reading, `Stored` for adding and removing single values,
`Accumulates` for unions and differences in place. The containers that the
commands make (`Plain`, with `Sound` for accumulators) and those that a
well-formed payload may hold (`Valid`, run containers included) are kinds.
-/

namespace RedisRoaring

open Exec Intervals

/-- The members of a container are in order and counted exactly. -/
class Kind (P : Container → Prop) : Prop where
  sorted : ∀ {c : Container}, P c → c.values.Pairwise (· < ·)
  counted : ∀ {c : Container}, P c → containerGetCardinality (.owned c) = c.values.length

/-- Single values can be added to a container and removed from it. -/
class Stored (P : Container → Prop) : Prop where
  valid : ∀ {c : Container}, P c → c.Valid
  create : P (.array arrayContainerCreate)
  add : ∀ {c : Container}, P c → ∀ val, ∃ c', containerAdd (.owned c) val = .ok c' ∧ P c' ∧
    ∀ x, x ∈ c'.values ↔ x ∈ c.values ∨ x = val
  remove : ∀ {c : Container}, P c → ∀ val, ∃ c', containerRemove (.owned c) val = .ok c' ∧ P c' ∧
    ∀ x, x ∈ c'.values ↔ x ∈ c.values ∧ x ≠ val

/-- Containers of one kind are united with and subtracted from those of another in place. -/
class Accumulates (A P : Container → Prop) : Prop where
  copies : ∀ {c : Container}, P c → A c
  union : ∀ {c1 c2 : Container}, A c1 → P c2 → ¬ containerIsFull (.owned c1) = true → c1.values ≠ [] → c2.values ≠ [] →
    ∃ c, containerIor (.owned c1) (.owned c2) = .ok c ∧ A c ∧ ∀ x, x ∈ c.values ↔ x ∈ c1.values ∨ x ∈ c2.values
  difference : ∀ {c1 c2 : Container}, A c1 → P c2 → c1.values ≠ [] →
    ∃ c, containerIandnot (.owned c1) (.owned c2) = .ok c ∧ A c ∧ ∀ x, x ∈ c.values ↔ x ∈ c1.values ∧ x ∉ c2.values

/-! ## Valid containers -/

section Valid

variable {c c1 c2 : Container} {val : UInt16}

theorem Container.Valid.sorted (valid : c.Valid) : c.values.Pairwise (· < ·) := by
  cases valid with
  | plain plain => exact plain.sorted
  | run valid => exact valid.sorted

theorem Container.Valid.counted (valid : c.Valid) : containerGetCardinality (.owned c) = c.values.length := by
  cases valid with
  | plain plain => exact containerGetCardinality_spec (.plain plain)
  | run valid => exact length_runValues _

/-- A valid container is copied as it is. -/
theorem containerClone_valid (valid : c.Valid) : containerClone (.owned c) = .ok c := by
  cases valid with
  | plain plain => exact containerClone_spec plain
  | @run r valid =>
    have stored : runContainerClone r = .ok r := RunContainer.store_eq_ok valid.fits
    simp only [containerClone, containerUnwrapShared, stored, ok_bind]
    rfl

theorem containerContains_valid (valid : c.Valid) : containerContains (.owned c) val = true ↔ val ∈ c.values := by
  cases valid with
  | plain plain => exact containerContains_iff plain
  | run valid => exact runContainerContains_iff valid.ordered

theorem containerAdd_valid (valid : c.Valid) (val : UInt16) :
    ∃ c', containerAdd (.owned c) val = .ok c' ∧ c'.Valid ∧ ∀ x, x ∈ c'.values ↔ x ∈ c.values ∨ x = val := by
  cases valid with
  | plain plain =>
    obtain ⟨c', run, plain', members⟩ := containerAdd_spec plain val
    exact ⟨c', run, .plain plain', members⟩
  | @run r valid =>
    obtain ⟨r', fresh, run, valid', members⟩ := runContainerAdd_spec valid val
    refine ⟨.run r', ?_, .run valid', members⟩
    simp only [containerAdd, getWritableCopyIfShared, ok_bind, run]
    rfl

theorem containerRemove_valid (valid : c.Valid) (val : UInt16) :
    ∃ c', containerRemove (.owned c) val = .ok c' ∧ c'.Valid ∧ ∀ x, x ∈ c'.values ↔ x ∈ c.values ∧ x ≠ val := by
  cases valid with
  | plain plain =>
    obtain ⟨c', run, plain', members⟩ := containerRemove_spec plain val
    exact ⟨c', run, .plain plain', members⟩
  | @run r valid =>
    obtain ⟨r', present, run, valid', members⟩ := runContainerRemove_spec valid val
    refine ⟨.run r', ?_, .run valid', members⟩
    simp only [containerRemove, getWritableCopyIfShared, ok_bind, run]
    rfl

/-- The values of a valid container are written in order, on top of the base. -/
theorem containerToUint32Array_valid (valid : c.Valid) (base : UInt32) :
    containerToUint32Array (.owned c) base = c.values.map fun x => base + x.toUInt32 := by
  cases valid with
  | plain plain => exact containerToUint32Array_spec plain base
  | @run r valid =>
    rw [containerToUint32Array, Container.values_run, RunContainer.values, List.map_flatMap]
    apply List.flatMap_congr
    intro rle member
    have last : rle.stop ≤ 65536 := valid.ordered.within rle member
    rw [Rle16.numbers, List.range'_eq_map_range, List.map_map, List.map_map]
    apply List.map_congr_left
    intro j inRun
    have near := List.mem_range.1 inRun
    rw [Function.comp_apply, Function.comp_apply, UInt32.add_assoc]
    congr 1
    apply UInt32.toNat_inj.1
    unfold Rle16.stop at last
    simp only [UInt32.toNat_add, UInt16.toNat_toUInt32, UInt32.toNat_ofNat', UInt16.toNat_ofNat']
    omega

theorem runs_ne_nil {r : RunContainer} (nonempty : r.values ≠ []) : r.runs ≠ [] := fun none =>
  nonempty ((runValues_eq_nil_iff r).2 none)

/-- The copy of the full run. -/
theorem valid_of_full {r run : RunContainer} (full : r.Full) (runs : run.runs = r.runs)
    (fits : run.runs.length ≤ run.capacity) : Container.Valid (.run run) := by
  have all : run.Full := runs.trans full
  refine .run ⟨all.ordered, fits, ?_⟩
  rw [show run.runs = _ from all]
  decide

/-- The union of two valid containers with some members each. -/
theorem containerIor_valid (valid1 : c1.Valid) (valid2 : c2.Valid) (some1 : c1.values ≠ []) (some2 : c2.values ≠ []) :
    ∃ c, containerIor (.owned c1) (.owned c2) = .ok c ∧ c.Valid ∧
      ∀ x, x ∈ c.values ↔ x ∈ c1.values ∨ x ∈ c2.values := by
  cases valid1 with
  | plain plain1 =>
    cases valid2 with
    | plain plain2 =>
      obtain ⟨c, run, both, members⟩ := containerIor_spec plain1 plain2
      exact ⟨c, run, both.2, members⟩
    | @run r2 valid2 =>
      cases plain1 with
      | @array a1 valid1 small1 =>
        obtain ⟨run, made, union⟩ := arrayRunContainerUnion_spec valid1 valid2 some1 (runs_ne_nil some2) runContainerCreate
        obtain ⟨c, converted, valid, members⟩ := convertRunToEfficientContainer_spec union.ordered union.fits
        refine ⟨c, ?_, valid, fun x => (members x).trans (union.members x)⟩
        simp only [containerIor, getWritableCopyIfShared, containerUnwrapShared, ok_bind, made]
        exact converted
      | @bitset b1 exact1 large1 =>
        simp only [containerIor, getWritableCopyIfShared, containerUnwrapShared, ok_bind]
        by_cases full : runContainerIsFull r2 = true
        · have whole := runContainerIsFull_iff.1 full
          obtain ⟨run, copied, runs, fits⟩ := runContainerCopy_spec r2 runContainerCreate
          have all : run.Full := runs.trans whole
          refine ⟨.run run, by simp only [full, if_true, copied, ok_bind]; rfl, valid_of_full whole runs fits, fun x => ?_⟩
          exact ⟨fun _ => .inr (mem_full_values whole x), fun _ => mem_full_values all x⟩
        · obtain ⟨b, made, exact, members⟩ := runBitsetContainerUnion_spec valid2.ordered full b1
          have plain := plain_of_grown exact1 large1 exact fun x inside => (members x).2 (.inr inside)
          refine ⟨.bitset b, by simp only [full, if_false, made, ok_bind, Bool.false_eq_true]; rfl, .plain plain, fun x => ?_⟩
          exact (members x).trans or_comm
  | @run r1 valid1 =>
    cases valid2 with
    | plain plain2 =>
      cases plain2 with
      | @array a2 valid2 small2 =>
        obtain ⟨run, made, union⟩ := arrayRunContainerInplaceUnion_spec valid2 valid1 some2 (runs_ne_nil some1)
        obtain ⟨c, converted, valid, members⟩ := convertRunToEfficientContainer_spec union.ordered union.fits
        refine ⟨c, ?_, valid, fun x => ((members x).trans (union.members x)).trans or_comm⟩
        simp only [containerIor, getWritableCopyIfShared, containerUnwrapShared, ok_bind, made]
        exact converted
      | @bitset b2 exact2 large2 =>
        simp only [containerIor, getWritableCopyIfShared, containerUnwrapShared, ok_bind]
        by_cases full : runContainerIsFull r1 = true
        · have whole := runContainerIsFull_iff.1 full
          refine ⟨.run r1, by simp only [full, if_true]; rfl, .run valid1, fun x => ?_⟩
          exact ⟨fun _ => .inl (mem_full_values whole x), fun _ => mem_full_values whole x⟩
        · obtain ⟨b, made, exact, members⟩ := runBitsetContainerUnion_spec valid1.ordered full b2
          have plain := plain_of_grown exact2 large2 exact fun x inside => (members x).2 (.inr inside)
          exact ⟨.bitset b, by simp only [full, if_false, made, ok_bind, Bool.false_eq_true]; rfl, .plain plain, members⟩
    | @run r2 valid2 =>
      obtain ⟨run, made, fits, runsFor⟩ :=
        runContainerUnionInplace_spec valid1 valid2 (runs_ne_nil some1) (runs_ne_nil some2)
      obtain ⟨c, converted, valid, members⟩ := convertRunToEfficientContainer_spec runsFor.ordered fits
      refine ⟨c, ?_, valid, fun x => ?_⟩
      · simp only [containerIor, getWritableCopyIfShared, containerUnwrapShared, ok_bind, made]
        exact converted
      · rw [members, runsFor.mem_values, Container.values_run, Container.values_run, mem_runValues valid1.ordered,
          mem_runValues valid2.ordered]

/-- The difference of two valid containers, the first with some members; it may be empty. -/
theorem containerIandnot_valid (valid1 : c1.Valid) (valid2 : c2.Valid) (some1 : c1.values ≠ []) :
    ∃ c, containerIandnot (.owned c1) (.owned c2) = .ok c ∧ c.Valid ∧
      ∀ x, x ∈ c.values ↔ x ∈ c1.values ∧ x ∉ c2.values := by
  cases valid1 with
  | plain plain1 =>
    cases valid2 with
    | plain plain2 =>
      obtain ⟨c, run, plain, members⟩ := containerIandnot_spec (.plain plain1) plain2
      exact ⟨c, run, .plain plain, members⟩
    | @run r2 valid2 =>
      cases plain1 with
      | @array a1 valid1 small1 =>
        obtain ⟨arr, run, valid, members, length⟩ := arrayRunContainerIandnot_spec valid1 valid2.ordered
        refine ⟨.array arr, ?_, .plain (.array valid (length.trans small1)), members⟩
        simp only [containerIandnot, getWritableCopyIfShared, containerUnwrapShared, ok_bind, run]
        rfl
      | @bitset b1 exact1 large1 =>
        obtain ⟨c, run, plain, members⟩ := bitsetRunContainerIandnot_spec b1 valid2.ordered
        exact ⟨c, run, .plain plain, members⟩
  | @run r1 valid1 =>
    cases valid2 with
    | plain plain2 =>
      cases plain2 with
      | @array a2 valid2 small2 => exact runArrayContainerAndnot_spec valid1 (runs_ne_nil some1) valid2
      | @bitset b2 exact2 large2 =>
        obtain ⟨c, run, plain, members⟩ := runBitsetContainerAndnot_spec valid1.ordered b2
        exact ⟨c, run, .plain plain, members⟩
    | @run r2 valid2 => exact runRunContainerIandnot_spec valid1 valid2

end Valid

/-! ## The kinds -/

theorem plain_create : Container.Plain (.array arrayContainerCreate) :=
  .array ⟨List.Pairwise.nil, Nat.zero_le _⟩ (Nat.zero_le _)

instance : Kind Container.Sound where
  sorted sound := sound.sorted
  counted := containerGetCardinality_spec

instance {P : Container → Prop} [Stored P] : Kind P where
  sorted allowed := (Stored.valid allowed).sorted
  counted allowed := (Stored.valid allowed).counted

instance : Stored Container.Plain where
  valid := .plain
  create := plain_create
  add := containerAdd_spec
  remove := containerRemove_spec

instance : Stored Container.Valid where
  valid := id
  create := .plain plain_create
  add := containerAdd_valid
  remove := containerRemove_valid

instance : Accumulates Container.Sound Container.Plain where
  copies := .plain
  union sound1 plain2 partly _ _ := by
    obtain ⟨c, run, both, members⟩ := containerIor_spec (sound1.plain_of_not_full partly) plain2
    exact ⟨c, run, both.1, members⟩
  difference sound1 plain2 _ := by
    obtain ⟨c, run, plain, members⟩ := containerIandnot_spec sound1 plain2
    exact ⟨c, run, .plain plain, members⟩

/-- Valid containers accumulate whatever can be stored. -/
instance {P : Container → Prop} [Stored P] : Accumulates Container.Valid P where
  copies := Stored.valid
  union valid1 allowed2 _ some1 some2 := containerIor_valid valid1 (Stored.valid allowed2) some1 some2
  difference valid1 allowed2 some1 := containerIandnot_valid valid1 (Stored.valid allowed2) some1

/-! ## Any kind -/

section Kind

variable {P : Container → Prop} {c : Container}

/-- The emptiness test of a container. -/
theorem containerNonzeroCardinality_spec [Kind P] (allowed : P c) :
    containerNonzeroCardinality (.owned c) = true ↔ c.values ≠ [] := by
  have card := Kind.counted allowed
  cases c with
  | bitset b =>
    rw [← List.length_pos_iff, ← card]
    exact decide_eq_true_iff
  | array arr =>
    rw [← List.length_pos_iff, ← card]
    exact decide_eq_true_iff
  | run r =>
    rw [Container.values_run, ne_eq, runValues_eq_nil_iff, ← ne_eq, ← List.length_pos_iff]
    exact decide_eq_true_iff

/-- A container that tests as full has every value. -/
theorem mem_of_containerIsFull [Kind P] (allowed : P c) (full : containerIsFull (.owned c) = true) (x : UInt16) :
    x ∈ c.values := by
  have card := Kind.counted allowed
  have nodup := SortedList.nodup_of_sorted (Kind.sorted allowed)
  cases c with
  | bitset b => exact MachineOrder.mem_of_length_eq nodup (card.symm.trans (beq_iff_eq.1 full)) x
  | array arr => exact MachineOrder.mem_of_length_eq nodup (card.symm.trans (beq_iff_eq.1 full)) x
  | run r => exact mem_full_values (runContainerIsFull_iff.1 full) x

end Kind

end RedisRoaring
