import RedisRoaring.Members

/-!
# Writing a bitmap

A bitmap is written in one of two forms, whichever is shorter: the portable
container form or the plain list of its values. The sizes are computed ahead of
the writing, by formulas of their own; `length_roaringBitmapSerialize` says that
they agree with what is written.
-/

namespace RedisRoaring

open Exec ByteCodec

/-- `SERIAL_COOKIE_NO_RUNCONTAINER`. -/
def serialCookieNoRuncontainer : UInt32 := 12346

/-- `SERIAL_COOKIE`. -/
def serialCookie : UInt32 := 12347

/-- `NO_OFFSET_THRESHOLD`. -/
def noOffsetThreshold : Nat := 4

/-- `SERIALIZATION_ARRAY_UINT32`. -/
def serializationArrayUint32 : UInt8 := 1

/-- `SERIALIZATION_CONTAINER`. -/
def serializationContainer : UInt8 := 2

/-! ## The container form -/

/-- `get_container_type(..) == RUN_CONTAINER_TYPE_CODE`. -/
def isRunContainer (container : SlotContainer) : Bool :=
  match containerUnwrapShared container with
  | .run _ => true
  | _ => false

/-- `ra_has_run_container`. -/
def raHasRunContainer (ra : RoaringArray) : Bool := ra.chunks.any fun chunk => isRunContainer chunk.container

/-- `ra_portable_header_size`. -/
def raPortableHeaderSize (ra : RoaringArray) : Nat :=
  if raHasRunContainer ra then
    if ra.size < noOffsetThreshold then 4 + (ra.size + 7) / 8 + 4 * ra.size
    else 4 + (ra.size + 7) / 8 + 8 * ra.size
  else 4 + 4 + 8 * ra.size

/-- `ra_portable_size_in_bytes`. -/
def raPortableSizeInBytes (ra : RoaringArray) : Nat :=
  ra.chunks.foldl (fun count chunk => count + containerSizeInBytes chunk.container) (raPortableHeaderSize ra)

/-- The `bitmapOfRunContainers` of `ra_portable_serialize`. -/
def bitmapOfRunContainers (ra : RoaringArray) : List UInt8 :=
  (List.range ra.size).foldl (fun bitmap i =>
    if ra.chunks[i]?.any fun chunk => isRunContainer chunk.container then
      bitmap.modify (i / 8) fun byte => byte ||| 1 <<< UInt8.ofNat (i % 8)
    else bitmap) (List.replicate ((ra.size + 7) / 8) 0)

/-- A key and a cardinality minus one. -/
def descriptorCodec : Codec (UInt16 × UInt16) := u16.pair u16

/-- What the header says of a chunk. -/
def Chunk.descriptor (chunk : Chunk) : UInt16 × UInt16 :=
  (chunk.key, UInt16.ofNat (containerGetCardinality chunk.container) - 1)

/-- The offsets at which the containers start. -/
def startOffsets : UInt32 → List Chunk → List UInt32
  | _, [] => []
  | startOffset, chunk :: chunks =>
    startOffset :: startOffsets (startOffset + UInt32.ofNat (containerSizeInBytes chunk.container)) chunks

/-- `ra_portable_serialize`: the bytes written, whose number it returns. -/
def raPortableSerialize (ra : RoaringArray) : List UInt8 :=
  let hasrun := raHasRunContainer ra
  let s := (ra.size + 7) / 8
  let cookie :=
    if hasrun then u32.encode (serialCookie ||| UInt32.ofNat (ra.size - 1) <<< 16) ++ bitmapOfRunContainers ra
    else u32.encode serialCookieNoRuncontainer ++ u32.encode (UInt32.ofNat ra.size)
  let startOffset :=
    if hasrun then if ra.size < noOffsetThreshold then 4 + 4 * ra.size + s else 4 + 8 * ra.size + s
    else 4 + 4 + 4 * ra.size + 4 * ra.size
  let offsets :=
    if !hasrun || decide (noOffsetThreshold ≤ ra.size) then
      u32.encodeMany (startOffsets (UInt32.ofNat startOffset) ra.chunks)
    else []
  cookie ++ descriptorCodec.encodeMany (ra.chunks.map Chunk.descriptor) ++ offsets ++
    ra.chunks.flatMap fun chunk => containerWrite chunk.container

/-! ## Both forms -/

/-- `ra_to_uint32_array`. -/
def raToUint32Array (ra : RoaringArray) : List UInt32 :=
  ra.chunks.flatMap fun (chunk : Chunk) => containerToUint32Array chunk.container (chunk.key.toUInt32 <<< 16)

/-- `roaring_bitmap_portable_size_in_bytes`. -/
def roaringBitmapPortableSizeInBytes (ra : RoaringBitmap) : Nat := raPortableSizeInBytes ra.highLowContainer

/-- `roaring_bitmap_size_in_bytes`. -/
def roaringBitmapSizeInBytes (ra : RoaringBitmap) : Nat :=
  let portablesize := roaringBitmapPortableSizeInBytes ra
  let sizeasarray := roaringBitmapGetCardinality ra * 4 + 4
  if portablesize < sizeasarray then portablesize + 1 else sizeasarray + 1

/-- `roaring_bitmap_serialize`: the bytes written, and the number returned. Of
the cardinality only the low 32 bits are written. -/
def roaringBitmapSerialize (ra : RoaringBitmap) : List UInt8 × Nat :=
  let portablesize := roaringBitmapPortableSizeInBytes ra
  let cardinality := roaringBitmapGetCardinality ra
  let sizeasarray := cardinality * 4 + 4
  if portablesize < sizeasarray then
    let written := raPortableSerialize ra.highLowContainer
    (serializationContainer :: written, written.length + 1)
  else
    (serializationArrayUint32 :: (u32.encode (UInt32.ofNat cardinality) ++
      u32.encodeMany (raToUint32Array ra.highLowContainer)), 1 + sizeasarray)

/-! ## The written length -/

theorem length_foldl_modify {α ι : Type} {f : List α → ι → List α} (keeps : ∀ l i, (f l i).length = l.length)
    (is : List ι) (l : List α) : (is.foldl f l).length = l.length := by
  induction is generalizing l with
  | nil => rfl
  | cons i is ih => rw [List.foldl_cons, ih, keeps]

theorem length_bitmapOfRunContainers (ra : RoaringArray) :
    (bitmapOfRunContainers ra).length = (ra.size + 7) / 8 := by
  rw [bitmapOfRunContainers, length_foldl_modify, List.length_replicate]
  intro bitmap i
  split
  · exact List.length_modify ..
  · rfl

theorem length_encode_descriptor (d : UInt16 × UInt16) : (descriptorCodec.encode d).length = 4 := by
  simp [descriptorCodec, Codec.pair]

theorem length_startOffsets (startOffset : UInt32) (chunks : List Chunk) :
    (startOffsets startOffset chunks).length = chunks.length := by
  induction chunks generalizing startOffset with
  | nil => rfl
  | cons chunk chunks ih => rw [startOffsets, List.length_cons, ih, List.length_cons]

/-- Summing the sizes is measuring the containers. -/
theorem foldl_containerSizeInBytes (chunks : List Chunk) (count : Nat) :
    chunks.foldl (fun count chunk => count + containerSizeInBytes chunk.container) count =
      count + (chunks.flatMap fun chunk => containerWrite chunk.container).length := by
  induction chunks generalizing count with
  | nil => rfl
  | cons chunk chunks ih =>
    rw [List.foldl_cons, ih, List.flatMap_cons, List.length_append, length_containerWrite, Nat.add_assoc]

/-- The container form is as long as `ra_portable_size_in_bytes` says. -/
theorem length_raPortableSerialize (ra : RoaringArray) :
    (raPortableSerialize ra).length = raPortableSizeInBytes ra := by
  have descriptors : (descriptorCodec.encodeMany (ra.chunks.map Chunk.descriptor)).length = 4 * ra.size := by
    rw [descriptorCodec.length_encodeMany length_encode_descriptor, List.length_map]
    rfl
  have offsets : ∀ startOffset, (u32.encodeMany (startOffsets startOffset ra.chunks)).length = 4 * ra.size := by
    intro startOffset
    rw [u32.length_encodeMany length_encode_u32, length_startOffsets]
    rfl
  rw [raPortableSizeInBytes, foldl_containerSizeInBytes, raPortableSerialize, raPortableHeaderSize]
  cases raHasRunContainer ra with
  | false =>
    simp only [Bool.false_eq_true, if_false, Bool.not_false, Bool.true_or, if_true, List.length_append,
      length_encode_u32, descriptors, offsets]
    omega
  | true =>
    by_cases few : ra.size < noOffsetThreshold
    · simp only [if_true, Bool.not_true, Bool.false_or, decide_eq_false (Nat.not_le.2 few), Bool.false_eq_true,
        if_false, few, List.length_append, length_encode_u32, length_bitmapOfRunContainers, descriptors,
        List.length_nil]
      omega
    · simp only [if_true, Bool.not_true, Bool.false_or, decide_eq_true (Nat.le_of_not_lt few), few, if_false,
        List.length_append, length_encode_u32, length_bitmapOfRunContainers, descriptors, offsets]
      omega

/-- The values of a well-formed bitmap are written in order. -/
theorem raToUint32Array_spec {P : Container → Prop} [Stored P] {r : RoaringBitmap} (well : r.Well P) :
    raToUint32Array r.highLowContainer = r.values := by
  rw [raToUint32Array, RoaringBitmap.values, chunkValues]
  apply List.flatMap_congr
  intro chunk inside
  have holds := well.array.chunks.holds chunk inside
  rw [holds.owned, containerToUint32Array_valid (Stored.valid holds.allowed)]
  rfl

/-- **What is written is as long as what is returned and what was announced.** -/
theorem length_roaringBitmapSerialize {P : Container → Prop} [Stored P] {r : RoaringBitmap} (well : r.Well P) :
    (roaringBitmapSerialize r).1.length = roaringBitmapSizeInBytes r ∧
      (roaringBitmapSerialize r).2 = roaringBitmapSizeInBytes r := by
  have card := roaringBitmapGetCardinality_spec well
  unfold roaringBitmapSerialize roaringBitmapSizeInBytes
  simp only [card]
  by_cases shorter : roaringBitmapPortableSizeInBytes r < r.values.length * 4 + 4
  · simp only [shorter, if_true, List.length_cons, length_raPortableSerialize]
    exact ⟨rfl, rfl⟩
  · simp only [shorter, if_false, List.length_cons, List.length_append, length_encode_u32,
      u32.length_encodeMany length_encode_u32, raToUint32Array_spec well]
    omega

end RedisRoaring
