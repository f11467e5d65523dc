import RedisRoaring.Canonical
import RedisRoaring.Reachable

/-!
# Durability

What is saved of a stored bitmap fills its buffer exactly and is loaded back as
a bitmap with the same chunks. By canonicity the saved bytes and the reported
memory depend on the set of values alone, whatever the history.
-/

namespace RedisRoaring

open Exec

/-- The type code of a slot, as in `BITSET_CONTAINER_TYPE_CODE` and the others. -/
def slotTypecode : SlotContainer → Nat
  | .owned (.bitset _) => 1
  | .owned (.array _) => 2
  | .owned (.run _) => 3
  | .shared _ => 4

/-- The type codes of a bitmap, which go with its keys. -/
def RoaringBitmap.typecodes (r : RoaringBitmap) : List Nat :=
  r.highLowContainer.chunks.map fun chunk => slotTypecode chunk.container

section Trim

variable {r r' : RoaringBitmap}

theorem keys_trim : r.trim.highLowContainer.keys = r.highLowContainer.keys := by
  rw [RoaringArray.keys, RoaringArray.keys, RoaringBitmap.trim, List.map_map]
  rfl

theorem slotTypecode_trim (chunk : Chunk) : slotTypecode chunk.trim.container = slotTypecode chunk.container := by
  rw [Chunk.trim]
  rcases chunk.container with c | c <;> cases c <;> rfl

theorem typecodes_trim : r.trim.typecodes = r.typecodes := by
  rw [RoaringBitmap.typecodes, RoaringBitmap.typecodes, RoaringBitmap.trim, List.map_map]
  exact List.map_congr_left fun chunk _ => slotTypecode_trim chunk

/-- Bitmaps with the same values have the same keys and types. -/
theorem RoaringBitmap.Well.same_chunks (well : r.Well Container.Plain) (well' : r'.Well Container.Plain)
    (same : ∀ v, v ∈ r.values ↔ v ∈ r'.values) :
    r.highLowContainer.keys = r'.highLowContainer.keys ∧ r.typecodes = r'.typecodes ∧ r.values = r'.values := by
  have trims := well.trim_eq well' same
  refine ⟨?_, ?_, SortedList.eq_of_same_members well.sound.sorted well'.sound.sorted same⟩
  · rw [← keys_trim, trims, keys_trim]
  · rw [← typecodes_trim, trims, typecodes_trim]

/-- Bitmaps with the same values are saved alike and use as much memory. -/
theorem RoaringBitmap.Well.same_save (well : r.Well Container.Plain) (well' : r'.Well Container.Plain)
    (same : ∀ v, v ∈ r.values ↔ v ∈ r'.values) :
    roaringBitmapSerialize r = roaringBitmapSerialize r' ∧ roaringMemUsage r = roaringMemUsage r' := by
  have trims := well.trim_eq well' same
  constructor
  · rw [← roaringBitmapSerialize_trim, trims, roaringBitmapSerialize_trim]
  · rw [roaringMemUsage, roaringMemUsage, ← roaringBitmapStatistics_trim, trims, roaringBitmapStatistics_trim]

end Trim

/-- The list form of a well-formed bitmap holds its cardinality uncut. -/
theorem cardinality_lt_of_saved_list {r : RoaringBitmap} (well : r.Well Container.Plain)
    (list : (roaringBitmapSerialize r).1.head? = some serializationArrayUint32) :
    roaringBitmapGetCardinality r < 2 ^ 32 := by
  by_contra large
  refine not_cut_plain well ⟨fun portable => ?_, Nat.not_lt.1 large⟩
  rw [SavedInContainers] at portable
  simp only [roaringBitmapSerialize, portable, if_true, List.head?_cons, Option.some.injEq] at list
  exact absurd list (by decide)

variable {O O' : Type} {parse : RedisString → Option Int64}

/-- **Durability.** A stored bitmap is saved in a buffer of exactly the size
computed before, and loading what was saved gives a bitmap with the same keys,
container types and values. In the list form the cardinality fits its field. -/
theorem saved_value_loads {keyspace : Keyspace O} {key : RedisString} {bitmap : RoaringBitmap}
    (reachable : Reachable parse keyspace) (stored : keyspace key = some (.roaring bitmap)) :
    ∃ serialized bitmap', roaringBitmapSerialize bitmap = (serialized, roaringBitmapSizeInBytes bitmap) ∧
      serialized.length = roaringBitmapSizeInBytes bitmap ∧ roaringRdbSave bitmap = .ok serialized ∧
      roaringRdbLoad serialized = .ok (some bitmap') ∧
      bitmap'.highLowContainer.keys = bitmap.highLowContainer.keys ∧ bitmap'.typecodes = bitmap.typecodes ∧
      bitmap'.values = bitmap.values ∧
      (serialized.head? = some serializationArrayUint32 → roaringBitmapGetCardinality bitmap < 2 ^ 32) := by
  obtain ⟨well, -⟩ := reachable.well stored
  obtain ⟨length, written⟩ := length_roaringBitmapSerialize well
  obtain ⟨bitmap', loaded, well', members⟩ := roaringRdbLoad_save well
  obtain ⟨keys, types, values⟩ := well'.same_chunks well members
  exact ⟨_, bitmap', Prod.ext rfl written, length, roaringRdbSave_spec well, loaded, keys, types, values,
    cardinality_lt_of_saved_list well⟩

/-- Eleven values in two chunks are saved in the container form. -/
theorem example_saved_value_loads :
    ∃ serialized bitmap', roaringBitmapSerialize exampleEleven = (serialized, roaringBitmapSizeInBytes exampleEleven) ∧
      serialized.head? = some serializationContainer ∧
      serialized.length = roaringBitmapSizeInBytes exampleEleven ∧ roaringRdbSave exampleEleven = .ok serialized ∧
      roaringRdbLoad serialized = .ok (some bitmap') ∧
      bitmap'.highLowContainer.keys = exampleEleven.highLowContainer.keys ∧
      bitmap'.typecodes = exampleEleven.typecodes ∧ bitmap'.values = exampleEleven.values := by
  have reachable := reachable_keyspaceAfter exampleFill
  obtain ⟨serialized, bitmap', written, length, saved, loaded, keys, types, values, -⟩ :=
    saved_value_loads reachable stored_eleven
  have container : (roaringBitmapSerialize exampleEleven).1.head? = some serializationContainer := by decide +kernel
  rw [written] at container
  exact ⟨serialized, bitmap', written, container, length, saved, loaded, keys, types, values⟩

/-- **Canonicity.** Two histories that leave the same set of values under a key
leave bitmaps that are saved as the same bytes and report the same memory. -/
theorem saved_form_canonical {keyspace : Keyspace O} {keyspace' : Keyspace O'} {key key' : RedisString}
    {bitmap bitmap' : RoaringBitmap} (reachable : Reachable parse keyspace) (reachable' : Reachable parse keyspace')
    (stored : keyspace key = some (.roaring bitmap)) (stored' : keyspace' key' = some (.roaring bitmap'))
    (same : ∀ v, v ∈ bitmap.values ↔ v ∈ bitmap'.values) :
    ∃ serialized, roaringRdbSave bitmap = .ok serialized ∧ roaringRdbSave bitmap' = .ok serialized ∧
      roaringMemUsage bitmap = roaringMemUsage bitmap' := by
  obtain ⟨well, -⟩ := reachable.well stored
  obtain ⟨well', -⟩ := reachable'.well stored'
  obtain ⟨bytes, usage⟩ := well.same_save well' same
  refine ⟨_, roaringRdbSave_spec well, ?_, usage⟩
  rw [roaringRdbSave_spec well', bytes]

/-- The numerals from 0 to 16, without 7. -/
def exampleNumerals : List RedisString :=
  [[48], [49], [50], [51], [52], [53], [54], [56], [57], [49, 48], [49, 49], [49, 50], [49, 51], [49, 52], [49, 53],
    [49, 54]]

/-- The value 7 in an array that has held more. -/
def exampleGrown : RoaringBitmap :=
  { exampleBitmap with
    highLowContainer :=
      { allocationSize := 4, chunks := [{ key := 0, container := .owned (.array { capacity := 32, array := [7] }) }] } }

/-- The history `ROARING.ADD k 7 0 ... 16`, `ROARING.REMOVE k 0 ... 16`. -/
def exampleHistory : List Invocation :=
  [⟨.add, exampleKey :: [55] :: exampleNumerals⟩, ⟨.remove, exampleKey :: exampleNumerals⟩]

theorem stored_grown : keyspaceAfter exampleHistory exampleKey = some (.roaring exampleGrown) := by decide +kernel

theorem example_saved_form_canonical :
    ∃ serialized, roaringRdbSave exampleBitmap = .ok serialized ∧ roaringRdbSave exampleGrown = .ok serialized ∧
      roaringMemUsage exampleBitmap = roaringMemUsage exampleGrown :=
  saved_form_canonical example_reachable (reachable_keyspaceAfter exampleHistory)
    (show exampleKeyspace exampleKey = some (.roaring exampleBitmap) from rfl) stored_grown fun _ => Iff.rfl

end RedisRoaring
