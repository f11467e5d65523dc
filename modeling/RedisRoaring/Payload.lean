import Mathlib.Data.Finset.Dedup
import Mathlib.Data.Finset.Empty
import RedisRoaring.Persistence

/-!
# Payloads that are safe to load

The loader trusts its input: lengths, cardinalities, the order of keys and
values and the runs are taken as they come. `LoadSafe` says what loading should
guarantee and `WellFormedPayload` describes, in terms of the bytes, the payloads
on which it does; the two coincide.
-/

namespace RedisRoaring

open Exec ByteCodec SortedList

/-! ## What loading should guarantee -/

/-- What every command relies on: increasing keys and, in each container, at
least one value, the values in order and the cardinality their number. -/
structure RoaringBitmap.Coherent (r : RoaringBitmap) : Prop where
  keys : r.highLowContainer.keys.Pairwise (· < ·)
  nonempty : ∀ chunk ∈ r.highLowContainer.chunks, chunk.content.values ≠ []
  sorted : ∀ chunk ∈ r.highLowContainer.chunks, chunk.content.values.Pairwise (· < ·)
  cardinality : ∀ chunk ∈ r.highLowContainer.chunks,
    containerGetCardinality chunk.container = chunk.content.values.length

/-- Loading stays inside the payload and rejects it or returns a coherent bitmap. -/
def LoadSafe (payload : List UInt8) : Prop :=
  ∃ loaded, roaringRdbLoad payload = .ok loaded ∧ ∀ r, loaded = some r → r.Coherent

theorem RoaringBitmap.Well.coherent {r : RoaringBitmap} (well : r.Well Container.Plain) : r.Coherent where
  keys := well.array.chunks.sorted
  nonempty chunk inside := (well.array.chunks.holds chunk inside).nonempty
  sorted chunk inside := (well.array.chunks.holds chunk inside).allowed.sorted
  cardinality chunk inside := by
    have holds := well.array.chunks.holds chunk inside
    rw [holds.owned]
    exact containerGetCardinality_spec (.plain holds.allowed)

/-! ## Well-formed payloads -/

/-- The content of a container section is in order. -/
inductive ContentOrdered : Container → Prop where
  | array {arr : ArrayContainer} (sorted : arr.array.Pairwise (· < ·)) : ContentOrdered (.array arr)
  | bitset {b : BitsetContainer} (counted : b.cardinality = bitsetContainerComputeCardinality b.array) :
      ContentOrdered (.bitset b)
  | run {r : RunContainer} (some : r.runs ≠ []) (ordered : RunsOrdered r.runs) : ContentOrdered (.run r)

/-- The fields of an image that the reader does not check. -/
structure PortableImage.Ordered (image : PortableImage) : Prop where
  keys : (image.descriptors.map Prod.fst).Pairwise (· < ·)
  contents : ∀ chunk ∈ image.chunks, ContentOrdered chunk.content

/-- The payloads that are safe to load: those of neither form, the complete
lists, and the complete images in order. Anything may follow. -/
inductive WellFormedPayload : List UInt8 → Prop where
  | neither {first : UInt8} (rest : List UInt8) (notList : first ≠ serializationArrayUint32)
      (notContainer : first ≠ serializationContainer) : WellFormedPayload (first :: rest)
  | list {card : UInt32} (elems : List UInt32) (rest : List UInt8) (length : elems.length = card.toNat) :
      WellFormedPayload (serializationArrayUint32 :: (u32.encode card ++ (u32.encodeMany elems ++ rest)))
  | container (image : PortableImage) (rest : List UInt8) (fits : image.Fits) (ordered : image.Ordered) :
      WellFormedPayload (serializationContainer :: (image.bytes ++ rest))

/-- A container that was read is coherent exactly when its content is in order. -/
theorem contentOrdered_iff {isRun : Bool} {cardinality : Nat} {c : Container} (stores : Stores isRun cardinality c)
    (positive : 0 < cardinality) :
    ContentOrdered c ↔ c.values ≠ [] ∧ c.values.Pairwise (· < ·) ∧
      containerGetCardinality (.owned c) = c.values.length := by
  cases stores with
  | run _ runs few =>
    have some := runValues_eq_nil_iff { capacity := runReadCapacity runs.length, runs }
    have sorted := sorted_runValues_iff { capacity := runReadCapacity runs.length, runs }
    constructor
    · rintro ⟨⟩
      case run nonempty ordered =>
        exact ⟨fun none => nonempty (some.1 none), sorted.2 ordered, length_runValues _⟩
    · intro given
      obtain ⟨nonempty, ordered, -⟩ := given
      exact .run (fun none => nonempty (some.2 none)) (sorted.1 ordered)
  | bitset _ array large =>
    have count := bitsetContainerComputeCardinality_eq array
    constructor
    · rintro ⟨⟩
      case bitset counted =>
        have length : cardinality = (wordValues array).length := counted.trans count
        exact ⟨List.ne_nil_of_length_pos (length ▸ positive), sorted_wordValues array, length⟩
    · intro given
      obtain ⟨-, -, length⟩ := given
      exact .bitset (length.trans count.symm)
  | array array small =>
    constructor
    · rintro ⟨⟩
      case array sorted => exact ⟨List.ne_nil_of_length_pos positive, sorted, rfl⟩
    · intro given
      obtain ⟨-, sorted, -⟩ := given
      exact .array sorted

theorem Described.keys_eq {bitmap : Option (List UInt8)} {k : Nat} {descriptors : List (UInt16 × UInt16)}
    {chunks : List Chunk} (described : Described bitmap k descriptors chunks) :
    chunks.map Chunk.key = descriptors.map Prod.fst := by
  induction described with
  | nil => rfl
  | cons _ _ ih => rw [List.map_cons, List.map_cons, ih]

theorem Described.stores {bitmap : Option (List UInt8)} {k : Nat} {descriptors : List (UInt16 × UInt16)}
    {chunks : List Chunk} (described : Described bitmap k descriptors chunks) :
    ∀ chunk ∈ chunks, chunk.container = .owned chunk.content ∧
      ∃ isRun cardinality, Stores isRun cardinality chunk.content ∧ 0 < cardinality := by
  induction described with
  | nil => simp
  | cons stores _ ih =>
    refine List.forall_mem_cons.2 ⟨⟨rfl, _, _, stores, by omega⟩, ih⟩

/-- An image is read as a coherent bitmap exactly when it is in order. -/
theorem PortableImage.Fits.coherent_iff {image : PortableImage} (fits : image.Fits) :
    ({ highLowContainer := image.array, copyOnWrite := false } : RoaringBitmap).Coherent ↔ image.Ordered := by
  have keys := fits.chunks.keys_eq
  have each := fits.chunks.stores
  constructor
  · intro coherent
    refine ⟨keys ▸ coherent.keys, ?_⟩
    intro chunk inside
    obtain ⟨owned, isRun, cardinality, stores, positive⟩ := each chunk inside
    have count := coherent.cardinality chunk inside
    rw [owned] at count
    exact (contentOrdered_iff stores positive).2 ⟨coherent.nonempty chunk inside, coherent.sorted chunk inside, count⟩
  · intro ordered
    have contents : ∀ chunk ∈ image.chunks, chunk.content.values ≠ [] ∧ chunk.content.values.Pairwise (· < ·) ∧
        containerGetCardinality chunk.container = chunk.content.values.length := by
      intro chunk inside
      obtain ⟨owned, isRun, cardinality, stores, positive⟩ := each chunk inside
      rw [owned]
      exact (contentOrdered_iff stores positive).1 (ordered.contents chunk inside)
    have sorted : (image.chunks.map Chunk.key).Pairwise (· < ·) := keys ▸ ordered.keys
    exact ⟨sorted, fun chunk inside => (contents chunk inside).1, fun chunk inside => (contents chunk inside).2.1,
      fun chunk inside => (contents chunk inside).2.2⟩

/-! ## The loader on each form -/

section Load

variable {rest : List UInt8}

theorem roaringRdbLoad_list {card : UInt32} (elems : List UInt32) (rest : List UInt8)
    (length : elems.length = card.toNat) :
    ∃ r, roaringRdbLoad (serializationArrayUint32 :: (u32.encode card ++ (u32.encodeMany elems ++ rest))) =
      .ok (some r) ∧ r.Well Container.Plain := by
  obtain ⟨r, made, well, -⟩ := roaringBitmapAddMany_spec (well_create Container.Plain) elems
  refine ⟨r, ?_, well⟩
  simp only [roaringRdbLoad, roaringBitmapDeserialize, if_true, u32.decode_encode, ok_bind, ← length,
    u32.decodeMany_encodeMany, roaringBitmapOfPtr, made, pure_eq]

theorem roaringRdbLoad_container_eq :
    roaringRdbLoad (serializationContainer :: rest) = roaringBitmapPortableDeserialize rest := by
  have notList : ¬ serializationContainer = serializationArrayUint32 := by decide
  simp only [roaringRdbLoad, roaringBitmapDeserialize, notList, if_false, if_true]

theorem roaringRdbLoad_neither {first : UInt8} (notList : first ≠ serializationArrayUint32)
    (notContainer : first ≠ serializationContainer) : roaringRdbLoad (first :: rest) = .ok none := by
  simp only [roaringRdbLoad, roaringBitmapDeserialize, notList, notContainer, if_false, pure_eq]

/-- The container form is never rejected: it loads, or loading has no defined result. -/
theorem roaringBitmapPortableDeserialize_iff {loaded : Option RoaringBitmap} :
    roaringBitmapPortableDeserialize rest = .ok loaded ↔ ∃ image : PortableImage, ∃ more : List UInt8, image.Fits ∧
      rest = image.bytes ++ more ∧ loaded = some { highLowContainer := image.array, copyOnWrite := false } := by
  unfold roaringBitmapPortableDeserialize
  constructor
  · intro run
    obtain ⟨ra, read, run⟩ := bind_eq_ok.1 run
    cases ra with
    | none => cases run
    | some ra =>
      obtain ⟨image, more, fits, rfl, rfl⟩ := raPortableDeserialize_iff.1 read
      exact ⟨image, more, fits, rfl, (Except.ok.inj run).symm⟩
  · intro given
    obtain ⟨image, more, fits, rfl, rfl⟩ := given
    rw [raPortableDeserialize_bytes fits]
    rfl

theorem WellFormedPayload.loadSafe {payload : List UInt8} (wellFormed : WellFormedPayload payload) :
    LoadSafe payload := by
  cases wellFormed with
  | neither rest notList notContainer =>
    exact ⟨none, roaringRdbLoad_neither notList notContainer, by simp⟩
  | list elems rest length =>
    obtain ⟨r, run, well⟩ := roaringRdbLoad_list elems rest length
    exact ⟨some r, run, fun r' h => Option.some.inj h ▸ well.coherent⟩
  | container image rest fits ordered =>
    refine ⟨_, ?_, fun r h => Option.some.inj h ▸ fits.coherent_iff.2 ordered⟩
    rw [roaringRdbLoad_container_eq, roaringBitmapPortableDeserialize_iff]
    exact ⟨image, rest, fits, rfl, rfl⟩

theorem LoadSafe.wellFormedPayload {payload : List UInt8} (given : LoadSafe payload) : WellFormedPayload payload := by
  obtain ⟨loaded, run, safe⟩ := given
  cases payload with
  | nil => cases run
  | cons first rest =>
    by_cases isList : first = serializationArrayUint32
    · subst isList
      simp only [roaringRdbLoad, roaringBitmapDeserialize, if_true, bind_eq_ok, Prod.exists, u32.decode_iff,
        u32.decodeMany_iff] at run
      obtain ⟨card, _, rfl, elems, more, ⟨length, rfl⟩, -⟩ := run
      exact .list elems more length
    by_cases isContainer : first = serializationContainer
    · subst isContainer
      rw [roaringRdbLoad_container_eq, roaringBitmapPortableDeserialize_iff] at run
      obtain ⟨image, more, fits, rfl, rfl⟩ := run
      exact .container image more fits (fits.coherent_iff.1 (safe _ rfl))
    · exact .neither rest isList isContainer

/-- **Loading is safe exactly on well-formed payloads.** -/
theorem loadSafe_iff (payload : List UInt8) : LoadSafe payload ↔ WellFormedPayload payload :=
  ⟨LoadSafe.wellFormedPayload, WellFormedPayload.loadSafe⟩

/-! ## What a payload stands for -/

/-- The set that a well-formed payload stands for: the values listed, or those of
the containers; a payload of neither form stands for none. -/
inductive Denotes : List UInt8 → Option (Finset UInt32) → Prop where
  | neither {first : UInt8} (rest : List UInt8) (notList : first ≠ serializationArrayUint32)
      (notContainer : first ≠ serializationContainer) : Denotes (first :: rest) none
  | list {card : UInt32} (elems : List UInt32) (rest : List UInt8) (length : elems.length = card.toNat) :
      Denotes (serializationArrayUint32 :: (u32.encode card ++ (u32.encodeMany elems ++ rest))) (some elems.toFinset)
  | container (image : PortableImage) (rest : List UInt8) (fits : image.Fits) (ordered : image.Ordered) :
      Denotes (serializationContainer :: (image.bytes ++ rest)) (some (chunkValues image.chunks).toFinset)

theorem wellFormedPayload_iff (payload : List UInt8) : WellFormedPayload payload ↔ ∃ set, Denotes payload set := by
  constructor
  · intro wellFormed
    cases wellFormed with
    | neither rest notList notContainer => exact ⟨_, .neither rest notList notContainer⟩
    | list elems rest length => exact ⟨_, .list elems rest length⟩
    | container image rest fits ordered => exact ⟨_, .container image rest fits ordered⟩
  · intro given
    obtain ⟨set, denotes⟩ := given
    cases denotes with
    | neither rest notList notContainer => exact .neither rest notList notContainer
    | list elems rest length => exact .list elems rest length
    | container image rest fits ordered => exact .container image rest fits ordered

/-- A container that is read in order is valid. -/
theorem Stores.valid {isRun : Bool} {cardinality : Nat} {c : Container} (stores : Stores isRun cardinality c)
    (ordered : ContentOrdered c) : c.Valid := by
  cases stores with
  | run _ runs few =>
    obtain ⟨⟩ | ⟨⟩ | ⟨some, inOrder⟩ := ordered
    exact .run ⟨inOrder, le_runReadCapacity _, few⟩
  | bitset _ array large =>
    obtain ⟨⟩ | ⟨counted⟩ | ⟨⟩ := ordered
    have exact : BitsetContainer.Exact { cardinality, array } :=
      Eq.trans counted (bitsetContainerComputeCardinality_eq array)
    exact .plain (.bitset exact large)
  | array array small =>
    obtain ⟨sorted⟩ | ⟨⟩ | ⟨⟩ := ordered
    exact .plain (.array ⟨sorted, Nat.le_refl _⟩ small)

/-- An image in order is read as a bitmap of valid containers. -/
theorem PortableImage.Fits.well {image : PortableImage} (fits : image.Fits) (ordered : image.Ordered) :
    RoaringBitmap.Well Container.Valid { highLowContainer := image.array, copyOnWrite := false } := by
  have keys := fits.chunks.keys_eq
  refine ⟨⟨⟨?_, ?_⟩, Nat.le_of_eq fits.chunks.length_eq⟩, rfl⟩
  · show (image.chunks.map Chunk.key).Pairwise (· < ·)
    exact keys ▸ ordered.keys
  · intro chunk inside
    obtain ⟨owned, isRun, cardinality, stores, positive⟩ := fits.chunks.stores chunk inside
    have inOrder := ordered.contents chunk inside
    exact ⟨owned, stores.valid inOrder, ((contentOrdered_iff stores positive).1 inOrder).1⟩

/-- What is loaded from a payload against what the payload stands for. -/
inductive LoadedAs : Option RoaringBitmap → Option (Finset UInt32) → Prop where
  | rejected : LoadedAs none none
  | loaded {bitmap : RoaringBitmap} {set : Finset UInt32} (well : bitmap.Well Container.Valid)
      (members : ∀ v, v ∈ bitmap.values ↔ v ∈ set) : LoadedAs (some bitmap) (some set)

/-- **A well-formed payload is loaded as what it stands for.** -/
theorem Denotes.load {payload : List UInt8} {set : Option (Finset UInt32)} (denotes : Denotes payload set) :
    ∃ loaded, roaringRdbLoad payload = .ok loaded ∧ LoadedAs loaded set := by
  cases denotes with
  | neither rest notList notContainer => exact ⟨none, roaringRdbLoad_neither notList notContainer, .rejected⟩
  | list elems rest length =>
    obtain ⟨r, made, well, values⟩ := roaringBitmapAddMany_spec (well_create Container.Valid) elems
    refine ⟨some r, ?_, .loaded well fun v => ?_⟩
    · simp only [roaringRdbLoad, roaringBitmapDeserialize, if_true, u32.decode_encode, ok_bind, ← length,
        u32.decodeMany_encodeMany, roaringBitmapOfPtr, made, pure_eq]
    · rw [values, values_create, List.mem_toFinset]
      simp
  | container image rest fits ordered =>
    refine ⟨_, ?_, .loaded (fits.well ordered) fun v => List.mem_toFinset.symm⟩
    rw [roaringRdbLoad_container_eq, roaringBitmapPortableDeserialize_iff]
    exact ⟨image, rest, fits, rfl, rfl⟩

/-! ## What is saved is well-formed -/

section Saved

variable {P : Container → Prop} [Stored P] {r : RoaringBitmap}

theorem contentOrdered_reloaded {c : Container} (valid : c.Valid) (nonempty : c.values ≠ []) :
    ContentOrdered c.reloaded := by
  cases valid with
  | plain plain =>
    cases plain with
    | array valid small => exact .array valid.sorted
    | @bitset b exact large => exact .bitset (exact.trans (bitsetContainerComputeCardinality_eq b.array).symm)
  | run valid => exact .run (runs_ne_nil nonempty) valid.ordered

/-- The image of a well-formed bitmap is in order. -/
theorem portableImage_ordered (well : r.Well P) : (portableImage r).Ordered where
  keys := by
    have keys : (portableImage r).descriptors.map Prod.fst = r.highLowContainer.chunks.map Chunk.key :=
      List.map_map ..
    rw [keys]
    exact well.array.chunks.sorted
  contents := by
    intro chunk inside
    obtain ⟨chunk', inside', rfl⟩ := List.mem_map.1 inside
    have holds := well.array.chunks.holds chunk' inside'
    exact contentOrdered_reloaded (Stored.valid holds.allowed) holds.nonempty

/-- What is saved uncut stands for the values of the bitmap. -/
theorem saved_denotes (well : r.Well P) (uncut : ¬ Cut r) :
    Denotes (roaringBitmapSerialize r).1 (some r.values.toFinset) := by
  have card := roaringBitmapGetCardinality_spec well
  unfold roaringBitmapSerialize
  by_cases portable : roaringBitmapPortableSizeInBytes r < roaringBitmapGetCardinality r * 4 + 4
  · have denotes := Denotes.container (portableImage r) [] (portableImage_fits well) (portableImage_ordered well)
    have contents : chunkValues (portableImage r).chunks = r.values := chunkValues_reloaded _
    rw [List.append_nil, contents, ← raPortableSerialize_eq well] at denotes
    simp only [portable, if_true]
    exact denotes
  · have small : r.values.length < 2 ^ 32 := Nat.lt_of_not_le fun large => uncut ⟨portable, card ▸ large⟩
    have count : r.values.length = (UInt32.ofNat r.values.length).toNat := (UInt32.toNat_ofNat_of_lt' small).symm
    have denotes := Denotes.list r.values [] count
    rw [List.append_nil] at denotes
    rw [card] at portable
    simp only [portable, if_false, card, raToUint32Array_spec well]
    exact denotes

/-- What is saved cut stands for the empty set. -/
theorem cut_denotes (well : r.Well P) (cut : Cut r) : Denotes (roaringBitmapSerialize r).1 (some ∅) := by
  have card := roaringBitmapGetCardinality_spec well
  have bounded := MachineOrder.length_le_of_nodup_u32 (SortedList.nodup_of_sorted well.sorted)
  have all : r.values.length = 2 ^ 32 := Nat.le_antisymm bounded (card ▸ cut.2)
  have list : ¬ roaringBitmapPortableSizeInBytes r < roaringBitmapGetCardinality r * 4 + 4 := cut.1
  rw [card, all] at list
  unfold roaringBitmapSerialize
  simp only [card, all, list, if_false, raToUint32Array_spec well]
  have count : ([] : List UInt32).length = (UInt32.ofNat (2 ^ 32)).toNat := rfl
  exact Denotes.list [] (u32.encodeMany r.values) count

end Saved

/-- A list form that announces five values and holds none: the sixth byte does not exist. -/
theorem short_list_not_safe : ¬ LoadSafe [1, 5, 0, 0, 0] := by
  intro given
  obtain ⟨loaded, run, -⟩ := given
  cases run

end Load

end RedisRoaring
