import RedisRoaring.Canonical
import RedisRoaring.Deserialize
import RedisRoaring.Library.ByteFlags

/-!
# Saving and loading a value

The callbacks of the data type. What is written in the container form is an
image (`PortableImage`), run containers and their flags included, so it is read
back as the same bitmap up to capacity. The list form is read back value by
value, unless its 32-bit count is cut.
-/

namespace RedisRoaring

open Exec ByteCodec

/-! ## The callbacks -/

/-- `RoaringRdbSave`: the bytes handed to `RedisModule_SaveStringBuffer`. The
buffer has the announced size: more bytes do not fit, fewer leave a part of what
is saved unwritten. -/
def roaringRdbSave (value : RoaringBitmap) : Outcome (List UInt8) :=
  let size := roaringBitmapSizeInBytes value
  let serialized := (roaringBitmapSerialize value).1
  if size < serialized.length then .error .outOfBounds
  else if serialized.length < size then .error .uninitialized
  else .ok serialized

/-- `RoaringRdbLoad`: the length of the buffer is not looked at. -/
def roaringRdbLoad (serialized : List UInt8) : Outcome (Option RoaringBitmap) := roaringBitmapDeserialize serialized

/-- `RoaringMemUsage`. -/
def roaringMemUsage (value : RoaringBitmap) : UInt64 :=
  let stats := roaringBitmapStatistics value
  (stats.nBytesArrayContainers + stats.nBytesBitsetContainers + stats.nBytesRunContainers).toUInt64

/-! ## What is loaded from the container form -/

/-- A container as it is read: arrays without spare capacity, runs with the
capacity that their reader gives them. -/
def Container.reloaded : Container → Container
  | .bitset b => .bitset b
  | .array arr => .array { arr with capacity := arr.array.length }
  | .run r => .run { r with capacity := runReadCapacity r.runs.length }

/-- A chunk as it is read. -/
def Chunk.reloaded (chunk : Chunk) : Chunk := { chunk with container := .owned chunk.content.reloaded }

/-- A bitmap as it is read from the container form. -/
def RoaringBitmap.reloaded (r : RoaringBitmap) : RoaringBitmap where
  highLowContainer :=
    { allocationSize := r.highLowContainer.size, chunks := r.highLowContainer.chunks.map Chunk.reloaded }
  copyOnWrite := false

/-- Kinds that are read back as the same kind. -/
class Saved (P : Container → Prop) : Prop extends Stored P where
  reloaded : ∀ {c : Container}, P c → P c.reloaded

section Reloaded

variable {P : Container → Prop} {c : Container} {chunk : Chunk} {chunks : List Chunk}

@[simp] theorem Container.values_reloaded (c : Container) : c.reloaded.values = c.values := by
  cases c <;> rfl

@[simp] theorem Container.trim_reloaded (c : Container) : c.reloaded.trim = c.trim := by
  cases c <;> rfl

instance : Saved Container.Plain where
  reloaded plain := by
    cases plain with
    | array valid small => exact .array ⟨valid.sorted, Nat.le_refl _⟩ small
    | bitset exact large => exact .bitset exact large

instance : Saved Container.Valid where
  reloaded valid := by
    cases valid with
    | @plain c plain =>
      have same := Saved.reloaded plain
      exact .plain same
    | run valid => exact .run ⟨valid.ordered, le_runReadCapacity _, valid.few⟩

@[simp] theorem Chunk.content_reloaded (chunk : Chunk) : chunk.reloaded.content = chunk.content.reloaded := rfl

@[simp] theorem Chunk.values_reloaded (chunk : Chunk) : chunk.reloaded.values = chunk.values := by
  rw [Chunk.values, Chunk.content_reloaded, Container.values_reloaded]
  rfl

theorem chunkValues_reloaded (chunks : List Chunk) :
    chunkValues (chunks.map Chunk.reloaded) = chunkValues chunks := by
  rw [chunkValues, chunkValues, List.flatMap_map]
  simp only [Chunk.values_reloaded]

theorem ChunksWell.reloaded [Saved P] (well : ChunksWell P chunks) : ChunksWell P (chunks.map Chunk.reloaded) := by
  refine ⟨?_, ?_⟩
  · rw [List.map_map]
    exact well.sorted
  · intro chunk inside
    obtain ⟨chunk', inside', rfl⟩ := List.mem_map.1 inside
    have holds := well.holds chunk' inside'
    refine ⟨rfl, Saved.reloaded holds.allowed, ?_⟩
    rw [Chunk.content_reloaded, Container.values_reloaded]
    exact holds.nonempty

theorem RoaringBitmap.Well.reloaded [Saved P] {r : RoaringBitmap} (well : r.Well P) : r.reloaded.Well P :=
  ⟨⟨well.array.chunks.reloaded, Nat.le_of_eq (List.length_map ..)⟩, rfl⟩

theorem RoaringBitmap.values_reloaded (r : RoaringBitmap) : r.reloaded.values = r.values := chunkValues_reloaded _

/-- Loading changes capacities only. -/
theorem RoaringBitmap.Well.trim_reloaded {r : RoaringBitmap} (well : r.Well P) : r.reloaded.trim = r.trim := by
  have chunks : (r.highLowContainer.chunks.map Chunk.reloaded).map Chunk.trim =
      r.highLowContainer.chunks.map Chunk.trim := by
    rw [List.map_map]
    apply List.map_congr_left
    intro chunk inside
    have owned := (well.array.chunks.holds chunk inside).owned
    rw [Function.comp_apply, Chunk.reloaded, Chunk.trim, Chunk.trim, owned]
    simp only [Container.trim_reloaded]
  simp only [RoaringBitmap.trim, RoaringBitmap.reloaded, RoaringArray.size, List.length_map, chunks, well.unshared]

/-! ## The image of a bitmap -/

/-- The cardinality survives being stored minus one in 16 bits. -/
theorem cardinality_restored {n : Nat} (positive : 0 < n) (small : n ≤ 65536) : 1 + (UInt16.ofNat n - 1).toNat = n := by
  simp only [UInt16.toNat_sub, UInt16.toNat_ofNat', UInt16.reduceToNat]
  omega

/-- A container is read as `reloaded` from its flag and its cardinality. -/
theorem stores_reloaded (valid : c.Valid) :
    Stores (isRunContainer (.owned c)) (containerGetCardinality (.owned c)) c.reloaded := by
  cases valid with
  | plain plain =>
    cases plain with
    | @array arr valid small => exact .array arr.array small
    | @bitset b exact large => exact .bitset b.cardinality b.array large
  | @run r valid => exact .run _ r.runs valid.few

/-- Flags that tell the run containers of the chunks from the others. -/
def Flagged (bitmap : Option (List UInt8)) (k : Nat) (chunks : List Chunk) : Prop :=
  ∀ i chunk, chunks[i]? = some chunk → hasRunFlag bitmap (k + i) = isRunContainer chunk.container

theorem described_reloaded [Stored P] {bitmap : Option (List UInt8)} (k : Nat)
    (holds : ∀ chunk ∈ chunks, chunk.Holds P) (flagged : Flagged bitmap k chunks) :
    Described bitmap k (chunks.map Chunk.descriptor) (chunks.map Chunk.reloaded) := by
  induction chunks generalizing k with
  | nil => exact .nil k
  | cons chunk chunks ih =>
    have here := holds chunk (by simp)
    have card := Kind.counted here.allowed
    have nodup := SortedList.nodup_of_sorted (Kind.sorted here.allowed)
    have restored := cardinality_restored (n := containerGetCardinality (.owned chunk.content))
      (by rw [card]; exact List.length_pos_iff.2 here.nonempty)
      (by rw [card]; exact MachineOrder.length_le_of_nodup nodup)
    have stores := stores_reloaded (Stored.valid here.allowed)
    rw [List.map_cons, List.map_cons, Chunk.descriptor, Chunk.reloaded]
    refine .cons ?_ (ih (k + 1) (fun c inside => holds c (List.mem_cons_of_mem _ inside)) ?_)
    · have flag := flagged 0 chunk rfl
      rw [Nat.add_zero, here.owned] at flag
      rw [flag, here.owned, restored]
      exact stores
    · intro i next there
      rw [Nat.add_assoc, Nat.add_comm 1 i]
      exact flagged (i + 1) next there

/-- The flags that are written tell the run containers. -/
theorem flagged_bitmapOfRunContainers (ra : RoaringArray) :
    Flagged (some (bitmapOfRunContainers ra)) 0 ra.chunks := by
  intro i chunk here
  have inside : i < ra.size := (List.getElem?_eq_some_iff.1 here).1
  have room : ∀ k ∈ List.range ra.size, k / 8 < (List.replicate ((ra.size + 7) / 8) (0 : UInt8)).length := by
    intro k member
    have := List.mem_range.1 member
    rw [List.length_replicate]
    omega
  have flags := ByteFlags.flag_foldl_raise (p := fun i => ra.chunks[i]?.any fun chunk => isRunContainer chunk.container)
    room i
  rw [ByteFlags.flag_replicate_zero, here, Option.any_some] at flags
  rw [Nat.zero_add, Bool.eq_iff_iff]
  refine flags.trans ?_
  simp [inside]

/-- Without run containers no flags are written, and none are missed. -/
theorem flagged_none {ra : RoaringArray} (noRun : raHasRunContainer ra = false) : Flagged none 0 ra.chunks := by
  intro i chunk here
  rw [raHasRunContainer, List.any_eq_false] at noRun
  exact (Bool.eq_false_iff.2 (noRun chunk (List.mem_of_getElem? here))).symm

/-- Whether offsets are written. -/
def hasOffsets (ra : RoaringArray) : Bool := !raHasRunContainer ra || decide (noOffsetThreshold ≤ ra.size)

/-- The image of a bitmap. -/
def portableImage (r : RoaringBitmap) : PortableImage where
  bitmapOfRunContainers :=
    if raHasRunContainer r.highLowContainer then some (bitmapOfRunContainers r.highLowContainer) else none
  descriptors := r.highLowContainer.chunks.map Chunk.descriptor
  offsets :=
    if hasOffsets r.highLowContainer then
      u32.encodeMany (startOffsets (UInt32.ofNat (raPortableHeaderSize r.highLowContainer)) r.highLowContainer.chunks)
    else []
  chunks := r.highLowContainer.chunks.map Chunk.reloaded

theorem size_portableImage (r : RoaringBitmap) : (portableImage r).size = r.highLowContainer.size := List.length_map ..

/-- The flags of an image are there exactly when it has run containers. -/
theorem isSome_portableImage (r : RoaringBitmap) :
    (portableImage r).bitmapOfRunContainers.isSome = raHasRunContainer r.highLowContainer := by
  rw [portableImage]
  cases raHasRunContainer r.highLowContainer <;> rfl

theorem portableImage_fits {r : RoaringBitmap} [Stored P] (well : r.Well P) : (portableImage r).Fits where
  bitmap bitmap isSome := by
    rw [portableImage] at isSome
    split at isSome
    · rw [← Option.some.inj isSome, size_portableImage, length_bitmapOfRunContainers]
    · cases isSome
  counted isSome := by
    rw [isSome_portableImage, raHasRunContainer, List.any_eq_true] at isSome
    obtain ⟨chunk, inside, -⟩ := isSome
    rw [size_portableImage]
    exact ⟨List.length_pos_of_mem inside, well.array.chunks.length_le⟩
  offsets := by
    have omitted : ((portableImage r).bitmapOfRunContainers.isNone ||
        decide (noOffsetThreshold ≤ (portableImage r).size)) = hasOffsets r.highLowContainer := by
      rw [hasOffsets, ← isSome_portableImage, size_portableImage, Option.not_isSome]
    rw [omitted, size_portableImage, portableImage]
    cases hasOffsets r.highLowContainer with
    | false => rfl
    | true =>
      rw [if_pos rfl, if_pos rfl, u32.length_encodeMany length_encode_u32, length_startOffsets]
      exact Nat.mul_comm _ _
  bounded := by
    have length := well.array.chunks.length_le
    rw [size_portableImage, RoaringArray.size]
    omega
  chunks := by
    apply described_reloaded 0 well.array.chunks.holds
    rw [portableImage]
    cases hasrun : raHasRunContainer r.highLowContainer with
    | false => exact flagged_none hasrun
    | true => exact flagged_bitmapOfRunContainers r.highLowContainer

theorem containerWrite_reloaded (c : Container) : containerWrite (.owned c.reloaded) = containerWrite (.owned c) := by
  cases c <;> rfl

/-- What is written of a bitmap is its image. -/
theorem raPortableSerialize_eq {r : RoaringBitmap} (well : r.Well P) :
    raPortableSerialize r.highLowContainer = (portableImage r).bytes := by
  have containers : containerSection (r.highLowContainer.chunks.map Chunk.reloaded) =
      r.highLowContainer.chunks.flatMap fun chunk => containerWrite chunk.container := by
    rw [containerSection, List.flatMap_map]
    apply List.flatMap_congr
    intro chunk inside
    rw [Chunk.reloaded, containerWrite_reloaded, ← (well.array.chunks.holds chunk inside).owned]
  rw [raPortableSerialize, PortableImage.bytes, PortableImage.cookie, PortableImage.body, isSome_portableImage,
    size_portableImage]
  simp only [portableImage, containers, hasOffsets, raPortableHeaderSize]
  by_cases hasrun : raHasRunContainer r.highLowContainer = true
  · by_cases few : r.highLowContainer.size < noOffsetThreshold
    · simp only [hasrun, if_true, Bool.not_true, Bool.false_or, decide_eq_false (Nat.not_le.2 few),
        Bool.false_eq_true, if_false, Option.getD_some, List.append_assoc]
    · have header : 4 + 8 * r.highLowContainer.size + (r.highLowContainer.size + 7) / 8 =
          4 + (r.highLowContainer.size + 7) / 8 + 8 * r.highLowContainer.size := by omega
      simp only [hasrun, if_true, Bool.not_true, Bool.false_or, decide_eq_true (Nat.le_of_not_lt few), few, if_false,
        Option.getD_some, List.append_assoc, header]
  · have header : 4 + 4 + 4 * r.highLowContainer.size + 4 * r.highLowContainer.size =
        4 + 4 + 8 * r.highLowContainer.size := by omega
    simp only [hasrun, Bool.false_eq_true, if_false, Bool.not_false, Bool.true_or, if_true, Option.getD_none,
      List.nil_append, List.append_assoc, header]

end Reloaded

/-! ## The round trip -/

section RoundTrip

variable {P : Container → Prop} {r : RoaringBitmap}

/-- Saving succeeds on a well-formed bitmap. -/
theorem roaringRdbSave_spec [Stored P] (well : r.Well P) : roaringRdbSave r = .ok (roaringBitmapSerialize r).1 := by
  have length := (length_roaringBitmapSerialize well).1
  rw [roaringRdbSave, length, if_neg (Nat.lt_irrefl _), if_neg (Nat.lt_irrefl _)]

/-- The bitmap is saved in the container form. -/
def SavedInContainers (r : RoaringBitmap) : Prop :=
  roaringBitmapPortableSizeInBytes r < roaringBitmapGetCardinality r * 4 + 4

/-- What is saved in the container form is loaded as the same bitmap. -/
theorem roaringRdbLoad_containers [Stored P] (well : r.Well P) (portable : SavedInContainers r) :
    roaringRdbLoad (roaringBitmapSerialize r).1 = .ok (some r.reloaded) := by
  have read := raPortableDeserialize_bytes (portableImage_fits well) []
  rw [List.append_nil] at read
  have notList : ¬ serializationContainer = serializationArrayUint32 := by decide
  have isArray : (portableImage r).array = r.reloaded.highLowContainer := by
    rw [PortableImage.array, size_portableImage]
    rfl
  have shorter : roaringBitmapPortableSizeInBytes r < roaringBitmapGetCardinality r * 4 + 4 := portable
  simp only [roaringRdbLoad, roaringBitmapSerialize, shorter, if_true, roaringBitmapDeserialize, notList, if_false,
    raPortableSerialize_eq well, roaringBitmapPortableDeserialize, read, ok_bind, pure_eq, isArray]
  rfl

/-- What is saved as a list is loaded from as many of the values as the header says. -/
theorem roaringRdbLoad_values [Stored P] (well : r.Well P) (list : ¬ SavedInContainers r) :
    roaringRdbLoad (roaringBitmapSerialize r).1 =
      (roaringBitmapOfPtr (r.values.take (r.values.length % 2 ^ 32)) >>= fun r' => .ok (some r')) := by
  have card := roaringBitmapGetCardinality_spec well
  have longer : ¬ roaringBitmapPortableSizeInBytes r < roaringBitmapGetCardinality r * 4 + 4 := list
  have count : (UInt32.ofNat r.values.length).toNat = (r.values.take (r.values.length % 2 ^ 32)).length := by
    rw [UInt32.toNat_ofNat', List.length_take, Nat.min_eq_left (Nat.mod_le _ _)]
  have read : u32.decodeMany (r.values.take (r.values.length % 2 ^ 32)).length (u32.encodeMany r.values) =
      .ok (r.values.take (r.values.length % 2 ^ 32), u32.encodeMany (r.values.drop (r.values.length % 2 ^ 32))) := by
    rw [u32.decodeMany_iff]
    refine ⟨rfl, ?_⟩
    rw [Codec.encodeMany, Codec.encodeMany, Codec.encodeMany, ← List.flatMap_append, List.take_append_drop]
  rw [card] at longer
  simp only [roaringRdbLoad, roaringBitmapSerialize, card, longer, if_false, roaringBitmapDeserialize, if_true,
    raToUint32Array_spec well, u32.decode_encode, ok_bind, count, read, pure_eq]

/-- The list form cuts the cardinality of the bitmap of all values to 0. -/
def Cut (r : RoaringBitmap) : Prop := ¬ SavedInContainers r ∧ 2 ^ 32 ≤ roaringBitmapGetCardinality r

/-- **The round trip.** What is saved uncut is loaded as a bitmap with the same values. -/
theorem roaringRdbLoad_uncut [Saved P] (well : r.Well P) (uncut : ¬ Cut r) :
    ∃ r', roaringRdbLoad (roaringBitmapSerialize r).1 = .ok (some r') ∧ r'.Well P ∧
      ∀ v, v ∈ r'.values ↔ v ∈ r.values := by
  by_cases portable : SavedInContainers r
  · refine ⟨r.reloaded, roaringRdbLoad_containers well portable, well.reloaded, fun v => ?_⟩
    rw [r.values_reloaded]
  · have card := roaringBitmapGetCardinality_spec well
    have small : r.values.length < 2 ^ 32 := Nat.lt_of_not_le fun large => uncut ⟨portable, card ▸ large⟩
    obtain ⟨r', made, well', values⟩ := roaringBitmapAddMany_spec (well_create P) r.values
    refine ⟨r', ?_, well', fun v => by rw [values]; simp⟩
    rw [roaringRdbLoad_values well portable, Nat.mod_eq_of_lt small, List.take_length, roaringBitmapOfPtr, made,
      ok_bind]

/-- What is cut is loaded as the empty bitmap. -/
theorem roaringRdbLoad_cut [Stored P] (well : r.Well P) (cut : Cut r) :
    roaringRdbLoad (roaringBitmapSerialize r).1 = .ok (some roaringBitmapCreate) := by
  have large := cut.2
  have bounded := MachineOrder.length_le_of_nodup_u32 (SortedList.nodup_of_sorted well.sorted)
  rw [roaringBitmapGetCardinality_spec well] at large
  rw [roaringRdbLoad_values well cut.1, Nat.le_antisymm bounded large]
  rfl

/-! ## Bitmaps without large containers -/

theorem foldl_containerSizeInBytes_le {chunks : List Chunk} (count : Nat)
    (bounded : ∀ chunk ∈ chunks, containerSizeInBytes chunk.container ≤ 8192) :
    chunks.foldl (fun count chunk => count + containerSizeInBytes chunk.container) count ≤
      count + 8192 * chunks.length := by
  induction chunks generalizing count with
  | nil => exact Nat.le_refl _
  | cons chunk chunks ih =>
    obtain ⟨here, later⟩ := List.forall_mem_cons.1 bounded
    have rest := ih (count + containerSizeInBytes chunk.container) later
    rw [List.foldl_cons, List.length_cons]
    omega

theorem raPortableHeaderSize_le (ra : RoaringArray) : raPortableHeaderSize ra ≤ 8 + 9 * ra.size := by
  rw [raPortableHeaderSize]
  split
  · split <;> omega
  · omega

/-- Where no container is larger than a bitset, the list form is chosen only when
the count fits its 32-bit field. -/
theorem not_cut_of_bounded (length : r.highLowContainer.size ≤ 65536)
    (bounded : ∀ chunk ∈ r.highLowContainer.chunks, containerSizeInBytes chunk.container ≤ 8192) : ¬ Cut r := by
  have sizes := foldl_containerSizeInBytes_le (raPortableHeaderSize r.highLowContainer) bounded
  have header := raPortableHeaderSize_le r.highLowContainer
  have isSize : r.highLowContainer.size = r.highLowContainer.chunks.length := rfl
  rintro ⟨list, large⟩
  rw [SavedInContainers, roaringBitmapPortableSizeInBytes, raPortableSizeInBytes] at list
  omega

/-- The containers that commands make are at most 8192 bytes long. -/
theorem containerSizeInBytes_le {chunk : Chunk} (holds : chunk.Holds Container.Plain) :
    containerSizeInBytes chunk.container ≤ 8192 := by
  have plain := holds.allowed
  rw [holds.owned]
  generalize chunk.content = c at plain
  cases plain with
  | array valid small =>
    simp only [containerSizeInBytes, containerUnwrapShared, arrayContainerCardinality]
    unfold defaultMaxSize at small
    omega
  | bitset exact large => exact Nat.le_refl 8192

/-- Without run containers nothing is cut. -/
theorem not_cut_plain (well : r.Well Container.Plain) : ¬ Cut r :=
  not_cut_of_bounded well.array.chunks.length_le fun chunk inside =>
    containerSizeInBytes_le (well.array.chunks.holds chunk inside)

/-- What is saved is loaded as a bitmap with the same values. -/
theorem roaringRdbLoad_save (well : r.Well Container.Plain) :
    ∃ r', roaringRdbLoad (roaringBitmapSerialize r).1 = .ok (some r') ∧ r'.Well Container.Plain ∧
      ∀ v, v ∈ r'.values ↔ v ∈ r.values := roaringRdbLoad_uncut well (not_cut_plain well)

end RoundTrip

end RedisRoaring
