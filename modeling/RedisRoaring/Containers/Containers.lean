import RedisRoaring.Containers.MixedUnion
import RedisRoaring.Containers.MixedAndnot
import RedisRoaring.Library.ByteCodec

/-!
# Operations on containers of any type

The dispatch on type codes. A slot of a bitmap holds a container of its own or
one shared with another bitmap; a shared container is cloned before it is
written. Each operation is specified on sound containers: it succeeds, its
result is sound, and its members are those of the set operation.
-/

namespace RedisRoaring

open Exec ByteCodec

/-- What a slot holds; `shared` is `shared_container_t`, its reference counter left out. -/
inductive SlotContainer where
  | owned (container : Container)
  | shared (container : Container)
  deriving DecidableEq, Repr

/-- `container_unwrap_shared`. -/
def containerUnwrapShared : SlotContainer → Container
  | .owned c => c
  | .shared c => c

/-- `bitset_container_clone`. -/
def bitsetContainerClone (src : BitsetContainer) : BitsetContainer := src

/-- `container_clone`. -/
def containerClone (container : SlotContainer) : Outcome Container := do
  match containerUnwrapShared container with
  | .bitset b => return .bitset (bitsetContainerClone b)
  | .array arr => return .array (← arrayContainerClone arr)
  | .run r => return .run (← runContainerClone r)

/-- `get_writable_copy_if_shared`. -/
def getWritableCopyIfShared : SlotContainer → Outcome Container
  | .owned c => .ok c
  | .shared c => containerClone (.shared c)

/-- `get_copy_of_container`: with copy on write the container becomes shared. -/
def getCopyOfContainer (container : SlotContainer) (copyOnWrite : Bool) : Outcome SlotContainer := do
  if copyOnWrite then return .shared (containerUnwrapShared container)
  else return .owned (← containerClone container)

/-- `container_get_cardinality`. -/
def containerGetCardinality (container : SlotContainer) : Nat :=
  match containerUnwrapShared container with
  | .bitset b => b.cardinality
  | .array arr => arrayContainerCardinality arr
  | .run r => runContainerCardinality r

/-- `container_nonzero_cardinality`. -/
def containerNonzeroCardinality (container : SlotContainer) : Bool :=
  match containerUnwrapShared container with
  | .bitset b => decide (0 < b.cardinality)
  | .array arr => decide (0 < arrayContainerCardinality arr)
  | .run r => decide (0 < r.nRuns)

/-- `container_is_full`. -/
def containerIsFull (container : SlotContainer) : Bool :=
  match containerUnwrapShared container with
  | .bitset b => b.cardinality == 65536
  | .array arr => arrayContainerCardinality arr == 65536
  | .run r => runContainerIsFull r

/-- `container_contains`. -/
def containerContains (container : SlotContainer) (val : UInt16) : Bool :=
  match containerUnwrapShared container with
  | .bitset b => bitsetContainerGet b val
  | .array arr => arrayContainerContains arr val
  | .run r => runContainerContains r val

/-- `container_add`. -/
def containerAdd (container : SlotContainer) (val : UInt16) : Outcome Container := do
  match ← getWritableCopyIfShared container with
  | .bitset b => return .bitset (bitsetContainerSet b val)
  | .array ac =>
    let (ac, _) ← arrayContainerAdd ac val
    if defaultMaxSize < arrayContainerCardinality ac then return .bitset (bitsetContainerFromArray ac)
    else return .array ac
  | .run r =>
    let (r, _) ← runContainerAdd r val
    return .run r

/-- `container_remove`. -/
def containerRemove (container : SlotContainer) (val : UInt16) : Outcome Container := do
  match ← getWritableCopyIfShared container with
  | .bitset b =>
    let (b, present) := bitsetContainerRemove b val
    if present && decide (b.cardinality ≤ defaultMaxSize) then return .array (← arrayContainerFromBitset b)
    else return .bitset b
  | .array arr => return .array (arrayContainerRemove arr val).1
  | .run r =>
    let (r, _) ← runContainerRemove r val
    return .run r

/-- `container_ior`. -/
def containerIor (c1 c2 : SlotContainer) : Outcome Container := do
  match ← getWritableCopyIfShared c1, containerUnwrapShared c2 with
  | .bitset b1, .bitset b2 =>
    let b1 := bitsetContainerOr b1 b2
    if b1.cardinality = 65536 then
      -- a full bitset is converted to the full run
      return .run (← runContainerCreate.store [{ value := 0, length := 0xFFFF }])
    else return .bitset b1
  | .array a1, .array a2 => arrayArrayContainerUnion a1 a2
  | .run r1, .run r2 => convertRunToEfficientContainer (← runContainerUnionInplace r1 r2)
  | .bitset b1, .array a2 => return .bitset (arrayBitsetContainerUnion a2 b1)
  | .array a1, .bitset b2 => return .bitset (arrayBitsetContainerUnion a1 b2)
  | .bitset b1, .run r2 =>
    if runContainerIsFull r2 then return .run (← runContainerCopy r2 runContainerCreate)
    else return .bitset (← runBitsetContainerUnion r2 b1)
  | .run r1, .bitset b2 =>
    if runContainerIsFull r1 then return .run r1
    else return .bitset (← runBitsetContainerUnion r1 b2)
  | .array a1, .run r2 => convertRunToEfficientContainer (← arrayRunContainerUnion a1 r2 runContainerCreate)
  | .run r1, .array a2 => convertRunToEfficientContainer (← arrayRunContainerInplaceUnion a2 r1)

/-- `container_iandnot`. -/
def containerIandnot (c1 c2 : SlotContainer) : Outcome Container := do
  match ← getWritableCopyIfShared c1, containerUnwrapShared c2 with
  | .bitset b1, .bitset b2 => bitsetBitsetContainerIandnot b1 b2
  | .array a1, .array a2 => return .array (← arrayArrayContainerIandnot a1 a2)
  | .run r1, .run r2 => runRunContainerIandnot r1 r2
  | .bitset b1, .array a2 => bitsetArrayContainerIandnot b1 a2
  | .array a1, .bitset b2 => return .array (← arrayBitsetContainerIandnot a1 b2)
  | .bitset b1, .run r2 => bitsetRunContainerIandnot b1 r2
  | .run r1, .bitset b2 => runBitsetContainerAndnot r1 b2
  | .array a1, .run r2 => return .array (← arrayRunContainerIandnot a1 r2)
  | .run r1, .array a2 => runArrayContainerAndnot r1 a2

/-! ## Output of a container -/

/-- `bitset_extract_setbits`. -/
def bitsetExtractSetbits (bitset : Words) (base : UInt32) : List UInt32 :=
  (List.finRange bitsetContainerSizeInWords).flatMap fun i =>
    (BitWords.scanWord (bitset.get i)).map fun r => UInt32.ofNat r + (base + UInt32.ofNat (64 * i.val))

/-- `container_to_uint32_array`. -/
def containerToUint32Array (container : SlotContainer) (base : UInt32) : List UInt32 :=
  match containerUnwrapShared container with
  | .bitset b => bitsetExtractSetbits b.array base
  | .array arr => arr.array.map fun val => base + val.toUInt32
  | .run r => r.runs.flatMap fun rle =>
      (List.range (rle.length.toNat + 1)).map fun j => base + rle.value.toUInt32 + UInt32.ofNat j

/-- `container_size_in_bytes`. -/
def containerSizeInBytes (container : SlotContainer) : Nat :=
  match containerUnwrapShared container with
  | .bitset _ => bitsetContainerSizeInWords * 8
  | .array arr => arrayContainerCardinality arr * 2
  | .run r => runContainerSerializedSizeInBytes r.nRuns

/-- A run, as it lies in memory. -/
def rle16Codec : Codec Rle16 where
  encode rle := u16.encode rle.value ++ u16.encode rle.length
  decode input := do
    let (value, rest) ← u16.decode input
    let (length, rest) ← u16.decode rest
    return ({ value, length }, rest)
  decode_iff input rle rest := by
    simp only [bind_eq_ok, Prod.exists, u16.decode_iff, pure_eq, Except.ok.injEq, Prod.mk.injEq]
    constructor
    · intro given
      obtain ⟨value, rest', rfl, length, rest'', rfl, rfl, rfl⟩ := given
      exact (List.append_assoc _ _ _).symm
    · rintro rfl
      exact ⟨rle.value, _, List.append_assoc _ _ _, rle.length, rest, rfl, rfl, rfl⟩

/-- `container_write`: the bytes that are written, as many as `container_size_in_bytes`. -/
def containerWrite (container : SlotContainer) : List UInt8 :=
  match containerUnwrapShared container with
  | .bitset b => u64.encodeMany b.array.toList
  | .array arr => u16.encodeMany arr.array
  | .run r => u16.encode (UInt16.ofNat r.nRuns) ++ rle16Codec.encodeMany r.runs

/-! ## Specifications -/

section Plain

variable {c c1 c2 : Container} {val : UInt16}

/-- A plain container is copied as it is. -/
theorem containerClone_spec (plain : c.Plain) : containerClone (.owned c) = .ok c := by
  cases plain with
  | @array arr valid small =>
    have stored : arrayContainerClone arr = .ok arr := store_eq_ok valid.fits
    simp only [containerClone, containerUnwrapShared, stored, ok_bind]
    rfl
  | bitset exact large => rfl

/-- The cardinality field is the number of members. -/
theorem containerGetCardinality_spec (sound : c.Sound) : containerGetCardinality (.owned c) = c.values.length := by
  cases sound with
  | plain plain =>
    cases plain with
    | array valid small => rfl
    | bitset exact large => exact exact
  | full full =>
    rw [Container.values_run, full_values full, List.length_map, List.length_range]
    exact full_cardinality full

/-- A sound container that does not test as full is plain. -/
theorem Container.Sound.plain_of_not_full (sound : c.Sound) (partly : ¬ containerIsFull (.owned c) = true) :
    c.Plain := by
  cases sound with
  | plain plain => exact plain
  | full full => exact absurd (runContainerIsFull_iff.2 full) partly

/-- The membership test. -/
theorem containerContains_iff (plain : c.Plain) : containerContains (.owned c) val = true ↔ val ∈ c.values := by
  cases plain with
  | array valid small => exact arrayContainerContains_iff valid
  | bitset exact large => exact bitsetContainerGet_iff

/-- A value is added; an array of 4097 values becomes a bitset. -/
theorem containerAdd_spec (plain : c.Plain) (val : UInt16) :
    ∃ c', containerAdd (.owned c) val = .ok c' ∧ c'.Plain ∧ ∀ x, x ∈ c'.values ↔ x ∈ c.values ∨ x = val := by
  cases plain with
  | @array arr valid small =>
    have room : arr.array.length < int32Max := small.trans_lt (by decide)
    obtain ⟨arr', fresh, run, valid', members⟩ := arrayContainerAdd_spec valid room val
    simp only [containerAdd, getWritableCopyIfShared, run, ok_bind]
    split
    case isTrue large =>
      obtain ⟨exact, values⟩ := bitsetContainerFromArray_spec valid'
      refine ⟨_, rfl, .bitset exact ?_, fun x => by rw [Container.values_bitset, values]; exact members x⟩
      have card : (bitsetContainerFromArray arr').cardinality = arr'.array.length := exact.trans (by rw [values])
      rwa [card]
    case isFalse stays => exact ⟨_, rfl, .array valid' (Nat.le_of_not_lt stays), members⟩
  | @bitset b exact large =>
    obtain ⟨exact', members⟩ := bitsetContainerSet_spec exact val
    refine ⟨_, rfl, .bitset exact' (Nat.lt_of_lt_of_le large ?_), members⟩
    have grows := SortedList.length_le_of_subset b.sorted_values fun x hx => (members x).2 (.inl hx)
    rwa [← exact, ← exact'] at grows

/-- A value is removed; a bitset left with 4096 values becomes an array. -/
theorem containerRemove_spec (plain : c.Plain) (val : UInt16) :
    ∃ c', containerRemove (.owned c) val = .ok c' ∧ c'.Plain ∧ ∀ x, x ∈ c'.values ↔ x ∈ c.values ∧ x ≠ val := by
  cases plain with
  | @array arr valid small =>
    obtain ⟨arr', present, run, valid', members⟩ := arrayContainerRemove_spec valid val
    refine ⟨.array arr', ?_, .array valid' ?_, members⟩
    · simp only [containerRemove, getWritableCopyIfShared, ok_bind, run]
      rfl
    · exact (SortedList.length_le_of_subset valid'.sorted fun x hx => ((members x).1 hx).1).trans small
  | @bitset b exact large =>
    obtain ⟨b', present, run, exact', isPresent, members⟩ := bitsetContainerRemove_spec exact val
    simp only [containerRemove, getWritableCopyIfShared, ok_bind, run]
    split
    case isTrue shrinks =>
      obtain ⟨-, small⟩ := Bool.and_eq_true_iff.1 shrinks
      obtain ⟨arr, converted, valid, values⟩ := arrayContainerFromBitset_spec exact'
      refine ⟨.array arr, by rw [converted]; rfl, .array valid ?_, fun x => by
        rw [Container.values_array, values]; exact members x⟩
      have length : b'.values.length = b'.cardinality := exact'.symm
      rw [values, length]
      exact of_decide_eq_true small
    case isFalse stays =>
      refine ⟨_, rfl, .bitset exact' ?_, members⟩
      by_contra small
      -- nothing was removed, so the members and the count are the old ones
      have absent : val ∉ b.values := fun h => stays (by
        rw [isPresent.2 h, Bool.true_and, decide_eq_true_iff]
        exact Nat.le_of_not_lt small)
      have same := SortedList.length_le_of_subset b.sorted_values fun x hx =>
        (members x).2 ⟨hx, fun e => absent (e ▸ hx)⟩
      rw [← exact, ← exact'] at same
      omega

/-- A bitset that gained members is still one of more than 4096. -/
theorem plain_of_grown {b b' : BitsetContainer} (exact : b.Exact) (large : defaultMaxSize < b.cardinality)
    (exact' : b'.Exact) (grown : ∀ x, x ∈ b.values → x ∈ b'.values) : Container.Plain (.bitset b') := by
  have length := SortedList.length_le_of_subset b.sorted_values grown
  rw [← exact, ← exact'] at length
  exact .bitset exact' (Nat.lt_of_lt_of_le large length)

/-- The union of two plain containers; a filled chunk becomes the full run. -/
theorem containerIor_spec (plain1 : c1.Plain) (plain2 : c2.Plain) :
    ∃ c, containerIor (.owned c1) (.owned c2) = .ok c ∧ (c.Sound ∧ c.Valid) ∧
      ∀ x, x ∈ c.values ↔ x ∈ c1.values ∨ x ∈ c2.values := by
  have both : ∀ {c : Container}, c.Plain → c.Sound ∧ c.Valid := fun plain => ⟨.plain plain, .plain plain⟩
  cases plain1 with
  | @array a1 valid1 small1 =>
    cases plain2 with
    | @array a2 valid2 small2 =>
      obtain ⟨c, run, plain, members⟩ := arrayArrayContainerUnion_spec valid1 valid2
      exact ⟨c, run, both plain, members⟩
    | @bitset b2 exact2 large2 =>
      obtain ⟨exact, members⟩ := arrayBitsetContainerUnion_spec a1 exact2
      have plain := plain_of_grown exact2 large2 exact fun x inside => (members x).2 (.inl inside)
      exact ⟨_, rfl, both plain, fun x => (members x).trans or_comm⟩
  | @bitset b1 exact1 large1 =>
    cases plain2 with
    | @array a2 valid2 small2 =>
      obtain ⟨exact, members⟩ := arrayBitsetContainerUnion_spec a2 exact1
      exact ⟨_, rfl, both (plain_of_grown exact1 large1 exact fun x inside => (members x).2 (.inl inside)), members⟩
    | @bitset b2 exact2 large2 =>
      obtain ⟨exact, members⟩ := bitsetContainerOr_spec b1 b2
      simp only [containerIor, getWritableCopyIfShared, containerUnwrapShared, ok_bind]
      split
      case isTrue filled =>
        have whole : RunContainer.Full { capacity := runDefaultInitSize, runs := [{ value := 0, length := 0xFFFF }] } :=
          rfl
        refine ⟨.run _, rfl, ⟨.full whole, .run ⟨whole.ordered, by decide, by decide⟩⟩, fun x =>
          ⟨fun _ => (members x).1 ?_, fun _ => mem_full_values whole x⟩⟩
        exact MachineOrder.mem_of_length_eq (SortedList.nodup_of_sorted (BitsetContainer.sorted_values _))
          (exact.symm.trans filled) x
      case isFalse =>
        exact ⟨_, rfl, both (plain_of_grown exact1 large1 exact fun x inside => (members x).2 (.inl inside)), members⟩

/-- The difference of a sound and a plain container is plain, and may be empty. -/
theorem containerIandnot_spec (sound1 : c1.Sound) (plain2 : c2.Plain) :
    ∃ c, containerIandnot (.owned c1) (.owned c2) = .ok c ∧ c.Plain ∧
      ∀ x, x ∈ c.values ↔ x ∈ c1.values ∧ x ∉ c2.values := by
  cases sound1 with
  | plain plain1 =>
    cases plain1 with
    | @array a1 valid1 small1 =>
      cases plain2 with
      | @array a2 valid2 small2 =>
        obtain ⟨arr, run, valid, members⟩ := arrayContainerAndnot_spec valid1 valid2
        refine ⟨.array arr, ?_, .array valid ?_, members⟩
        · simp only [containerIandnot, getWritableCopyIfShared, containerUnwrapShared, ok_bind,
            arrayArrayContainerIandnot, run]
          rfl
        · exact (SortedList.length_le_of_subset valid.sorted fun x hx => ((members x).1 hx).1).trans small1
      | @bitset b2 exact2 large2 =>
        obtain ⟨arr, run, valid, members, length⟩ := arrayBitsetContainerIandnot_spec valid1 b2
        refine ⟨.array arr, ?_, .array valid (length.trans small1), members⟩
        simp only [containerIandnot, getWritableCopyIfShared, containerUnwrapShared, ok_bind, run]
        rfl
    | @bitset b1 exact1 large1 =>
      cases plain2 with
      | @array a2 valid2 small2 => exact bitsetArrayContainerIandnot_spec exact1 a2
      | @bitset b2 exact2 large2 => exact bitsetBitsetContainerIandnot_spec b1 b2
  | @full r full =>
    cases plain2 with
    | @array a2 valid2 small2 =>
      obtain ⟨c, run, plain, members⟩ := runArrayContainerAndnot_full full a2
      exact ⟨c, run, plain, fun x => (members x).trans (and_iff_right (mem_full_values full x)).symm⟩
    | @bitset b2 exact2 large2 =>
      obtain ⟨c, run, plain, members⟩ := runBitsetContainerAndnot_full full b2
      exact ⟨c, run, plain, fun x => (members x).trans (and_iff_right (mem_full_values full x)).symm⟩

/-- A container writes as many bytes as it announces. -/
theorem length_containerWrite (c : SlotContainer) : (containerWrite c).length = containerSizeInBytes c := by
  unfold containerWrite containerSizeInBytes
  cases containerUnwrapShared c with
  | bitset b =>
    simp only
    rw [u64.length_encodeMany length_encode_u64, Vector.length_toList, Nat.mul_comm]
  | array arr =>
    simp only
    rw [u16.length_encodeMany length_encode_u16, Nat.mul_comm]
    rfl
  | run r =>
    have width : ∀ rle, (rle16Codec.encode rle).length = 4 := fun rle => by simp [rle16Codec]
    simp only
    rw [List.length_append, length_encode_u16, rle16Codec.length_encodeMany width]
    rfl

/-- The members of a plain container, offset by the base of its chunk. -/
theorem containerToUint32Array_spec (plain : c.Plain) (base : UInt32) :
    containerToUint32Array (.owned c) base = c.values.map fun x => base + x.toUInt32 := by
  cases plain with
  | array valid small => rfl
  | @bitset b exact large =>
    rw [containerToUint32Array, Container.values_bitset, BitsetContainer.values, ← bitsetExtractSetbitsUint16_eq,
      bitsetExtractSetbitsUint16, List.map_flatMap]
    simp only [containerUnwrapShared, bitsetExtractSetbits, List.map_map]
    apply List.flatMap_congr
    intro i _
    apply List.map_congr_left
    intro r hr
    have bit := BitVec.lt_of_getLsbD (BitWords.mem_scanWord.1 hr)
    have word := i.isLt
    have small : 64 * i.val + r < 65536 := by unfold bitsetContainerSizeInWords at word; omega
    rw [Function.comp_apply, UInt32.add_comm, UInt32.add_assoc, ← UInt32.ofNat_add]
    congr 1
    apply UInt32.toNat_inj.1
    rw [UInt16.toNat_toUInt32, UInt16.toNat_ofNat_of_lt' small, UInt32.toNat_ofNat_of_lt' (by
      show _ < 4294967296
      omega)]

end Plain

end RedisRoaring
