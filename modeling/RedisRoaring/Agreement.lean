import RedisRoaring.Difference

/-!
# The plain operations against those in place

The library has each operation twice. In place the difference moves chunks by
32-bit positions and the union leaves the end of its first bitmap where it is;
the plain operations append that end by 16-bit indices. They agree as long as
this end is not cut off.
-/

namespace RedisRoaring

/-- The end of the first bitmap is not cut off: it does not have all chunks, or
the second bitmap has none or reaches the last. -/
def KeepsEnd (x1 x2 : RoaringBitmap) : Prop :=
  x1.highLowContainer.size = 65536 → x2.highLowContainer.size ≠ 0 → 65535 ∈ x2.highLowContainer.keys

section Agreement

variable {x1 x2 : RoaringBitmap}

theorem keepsEnd_iff (well1 : x1.Well Container.Valid) :
    KeepsEnd x1 x2 ↔ ∀ v ∈ x1.values, ¬ LostInUnion x2 x1 v := by
  constructor
  · rintro keeps v - ⟨all, some, beyond⟩
    have above := beyond 65535 (keeps all some)
    rw [UInt16.lt_iff_toNat_lt] at above
    have bounded := (highBits v).toNat_lt
    have last : (65535 : UInt16).toNat = 65535 := rfl
    omega
  · intro kept all some
    by_contra absent
    have keys := SortedList.nodup_of_sorted well1.array.chunks.sorted
    have length : (x1.highLowContainer.chunks.map Chunk.key).length = 65536 := by rwa [List.length_map]
    obtain ⟨c, inside, isLast⟩ := List.mem_map.1 (MachineOrder.mem_of_length_eq keys length 65535)
    obtain ⟨low, member⟩ := List.exists_mem_of_ne_nil _ (well1.array.chunks.holds c inside).nonempty
    have isHigh : highBits (joinBits 65535 low) = 65535 := highBits_joinBits ..
    apply kept (joinBits 65535 low)
    · exact mem_chunkValues.2 ⟨c, inside, isHigh.trans isLast.symm, by rwa [lowBits_joinBits]⟩
    · refine ⟨all, some, fun k isKey => ?_⟩
      rw [isHigh]
      have other : k ≠ 65535 := fun same => absent (same ▸ isKey)
      have bounded := k.toNat_lt
      rw [ne_eq, ← UInt16.toNat_inj] at other
      have last : (65535 : UInt16).toNat = 65535 := rfl
      rw [UInt16.lt_iff_toNat_lt]
      omega

/-- A value that is lost from the first bitmap is not in the second. -/
theorem LostInUnion.absent {v : UInt32} (lost : LostInUnion x2 x1 v) : v ∉ x2.values := fun member =>
  absurd (lost.2.2 _ (highBits_mem_keys member)) (lt_irrefl _)

end Agreement

/-! ## An end that is cut off -/

/-- The container of 0 only. -/
def zeroContainer : Container := .array { capacity := 1, array := [0] }

theorem zeroContainer_valid : zeroContainer.Valid := .plain (.array ⟨List.pairwise_singleton .., Nat.le_refl _⟩ (by decide))

/-- The run from 0 to 2. -/
def shortRun : RunContainer := { capacity := 1, runs := [{ value := 0, length := 2 }] }

theorem shortRun_valid : shortRun.Valid where
  ordered := (sorted_runValues_iff shortRun).1 (by decide)
  fits := Nat.le_refl _
  few := by decide

/-- Zero in every chunk. -/
def everyChunk : RoaringBitmap := uniformBitmap ((List.range 65536).map UInt16.ofNat) zeroContainer

theorem everyChunk_well : everyChunk.Well Container.Valid :=
  uniformBitmap_well sorted_uint16_range zeroContainer_valid (List.cons_ne_nil 0 [])

/-- Zero alone. -/
def zeroAlone : RoaringBitmap := uniformBitmap [0] zeroContainer

theorem zeroAlone_well : zeroAlone.Well Container.Valid :=
  uniformBitmap_well (List.pairwise_singleton ..) zeroContainer_valid (List.cons_ne_nil 0 [])

theorem not_keepsEnd : ¬ KeepsEnd everyChunk zeroAlone := by
  intro keeps
  have all : everyChunk.highLowContainer.size = 65536 := by
    rw [RoaringArray.size, everyChunk, size_uniformBitmap, List.length_map, List.length_range]
  have some : zeroAlone.highLowContainer.size ≠ 0 := Nat.one_ne_zero
  have last := keeps all some
  rw [zeroAlone, keys_uniformBitmap] at last
  exact absurd last (by decide)

/-! ## The agreement -/

section Agreement

variable {x1 x2 : RoaringBitmap}

/-- The plain union lacks nothing that the union in place has but the end of the
first bitmap that is cut off. -/
theorem plain_union_agrees (well1 : x1.Well Container.Valid) (well2 : x2.Well Container.Valid) :
    ∃ answer x1', roaringBitmapOr x1 x2 = .ok (answer, x1, x2) ∧ roaringBitmapOrInplace x1 x2 = .ok (x1', x2) ∧
      (∀ v, v ∈ answer.values ↔ v ∈ x1'.values ∧ ¬ (v ∈ x1.values ∧ LostInUnion x2 x1 v)) ∧
      (answer.values = x1'.values ↔ KeepsEnd x1 x2) := by
  obtain ⟨answer, run, well, values⟩ := roaringBitmapOr_spec well1 well2
  obtain ⟨x1', run', well', values'⟩ := roaringBitmapOrInplace_spec well1 well2
  have lacks : ∀ v, v ∈ answer.values ↔ v ∈ x1'.values ∧ ¬ (v ∈ x1.values ∧ LostInUnion x2 x1 v) := by
    intro v
    have absent : LostInUnion x2 x1 v → v ∉ x2.values := LostInUnion.absent
    rw [values, values']
    tauto
  refine ⟨answer, x1', run, run', lacks, ?_⟩
  rw [keepsEnd_iff well1]
  constructor
  · intro same v inside lost
    have here := (values' v).2 (.inl inside)
    rw [← same, lacks] at here
    exact here.2 ⟨inside, lost⟩
  · intro kept
    refine SortedList.eq_of_same_members well.sorted well'.sorted fun v => ?_
    rw [lacks]
    exact and_iff_left fun given => kept v given.1 given.2

theorem example_plain_union : ∃ answer x1', roaringBitmapOr everyChunk zeroAlone = .ok (answer, everyChunk, zeroAlone) ∧
    roaringBitmapOrInplace everyChunk zeroAlone = .ok (x1', zeroAlone) ∧ answer.values ≠ x1'.values := by
  obtain ⟨answer, x1', run, run', -, same⟩ := plain_union_agrees everyChunk_well zeroAlone_well
  exact ⟨answer, x1', run, run', fun equal => not_keepsEnd (same.1 equal)⟩

/-- The plain difference lacks nothing that the difference in place has but the
end of the first bitmap that is cut off. -/
theorem plain_difference_agrees (well1 : x1.Well Container.Valid) (well2 : x2.Well Container.Valid) :
    ∃ answer x1', roaringBitmapAndnot x1 x2 = .ok (answer, x1) ∧ roaringBitmapAndnotInplace x1 x2 = .ok x1' ∧
      (∀ v, v ∈ answer.values ↔ v ∈ x1'.values ∧ ¬ LostInUnion x2 x1 v) ∧
      (answer.values = x1'.values ↔ KeepsEnd x1 x2) := by
  obtain ⟨answer, run, well, values⟩ := roaringBitmapAndnot_spec well1 well2
  obtain ⟨x1', run', well', values'⟩ := roaringBitmapAndnotInplace_spec well1 well2
  have lacks : ∀ v, v ∈ answer.values ↔ v ∈ x1'.values ∧ ¬ LostInUnion x2 x1 v := by
    intro v
    rw [values, values']
  refine ⟨answer, x1', run, run', lacks, ?_⟩
  rw [keepsEnd_iff well1]
  constructor
  · intro same v inside lost
    have here := (values' v).2 ⟨inside, lost.absent⟩
    rw [← same, lacks] at here
    exact here.2 lost
  · intro kept
    refine SortedList.eq_of_same_members well.sorted well'.sorted fun v => ?_
    rw [lacks]
    exact and_iff_left_of_imp fun inside => kept v ((values' v).1 inside).1

theorem example_plain_difference : ∃ answer x1', roaringBitmapAndnot everyChunk zeroAlone = .ok (answer, everyChunk) ∧
    roaringBitmapAndnotInplace everyChunk zeroAlone = .ok x1' ∧ answer.values ≠ x1'.values := by
  obtain ⟨answer, x1', run, run', -, same⟩ := plain_difference_agrees everyChunk_well zeroAlone_well
  exact ⟨answer, x1', run, run', fun equal => not_keepsEnd (same.1 equal)⟩

/-- On containers of any of the nine pairs of kinds the operations in a new
container and those in place compute the same, and it is the union and the
difference of the values. -/
theorem container_operations_agree {c1 c2 : Container} (valid1 : c1.Valid) (valid2 : c2.Valid) (some1 : c1.values ≠ [])
    (some2 : c2.values ≠ []) :
    ∃ united united' left left', containerOr (.owned c1) (.owned c2) = .ok united ∧
      containerIor (.owned c1) (.owned c2) = .ok united' ∧ containerAndnot (.owned c1) (.owned c2) = .ok left ∧
      containerIandnot (.owned c1) (.owned c2) = .ok left' ∧
      (united.Valid ∧ united'.Valid ∧ left.Valid ∧ left'.Valid) ∧
      (united'.values = united.values ∧ ∀ x, x ∈ united.values ↔ x ∈ c1.values ∨ x ∈ c2.values) ∧
      (left'.values = left.values ∧ ∀ x, x ∈ left.values ↔ x ∈ c1.values ∧ x ∉ c2.values) := by
  obtain ⟨united, run1, valid, members⟩ := containerOr_valid valid1 valid2 some1 some2
  obtain ⟨united', run1', valid', members'⟩ := containerIor_valid valid1 valid2 some1 some2
  obtain ⟨left, run2, validLeft, kept⟩ := containerAndnot_valid valid1 valid2 some1
  obtain ⟨left', run2', validLeft', kept'⟩ := containerIandnot_valid valid1 valid2 some1
  refine ⟨united, united', left, left', run1, run1', run2, run2', ⟨valid, valid', validLeft, validLeft'⟩, ⟨?_, members⟩,
    ?_, kept⟩
  · apply SortedList.eq_of_same_members valid'.sorted valid.sorted
    exact fun x => (members' x).trans (members x).symm
  · apply SortedList.eq_of_same_members validLeft'.sorted validLeft.sorted
    exact fun x => (kept' x).trans (kept x).symm

theorem example_container_operations :
    ∃ united united' left left', containerOr (.owned zeroContainer) (.owned (.run shortRun)) = .ok united ∧
      containerIor (.owned zeroContainer) (.owned (.run shortRun)) = .ok united' ∧
      containerAndnot (.owned zeroContainer) (.owned (.run shortRun)) = .ok left ∧
      containerIandnot (.owned zeroContainer) (.owned (.run shortRun)) = .ok left' ∧
      united'.values = united.values ∧ left'.values = left.values := by
  obtain ⟨united, united', left, left', run1, run1', run2, run2', -, same, same'⟩ :=
    container_operations_agree zeroContainer_valid (.run shortRun_valid) (List.cons_ne_nil 0 []) (List.cons_ne_nil 0 [1, 2])
  exact ⟨united, united', left, left', run1, run1', run2, run2', same.1, same'.1⟩

end Agreement

end RedisRoaring
