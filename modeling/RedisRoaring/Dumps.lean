import RedisRoaring.Durability
import RedisRoaring.Histories

/-!
# What a server saves

The saved form of a value, also of one with run containers: it is as long as
announced, safe to load wherever it is taken, and stands for the values of the
bitmap, unless the list form cuts the count of all 2^32 values (`Cut`). Saving
again what was loaded writes the same bytes from the first reload on. Memory is
counted modulo 2^32.
-/

namespace RedisRoaring

open Exec ByteCodec

variable {O : Type} {parse : RedisString → Option Int64} {foreign : RedisString → Option O} {history : List (Event O)}

/-! ## Payloads -/

/-- **What can be restored.** The payloads of a history are those that are safe to load. -/
theorem restorable_iff_loadSafe (bytes : List UInt8) : (∃ payload : Payload, payload.bytes = bytes) ↔ LoadSafe bytes := by
  constructor
  · rintro ⟨payload, rfl⟩
    exact ((wellFormedPayload_iff _).2 ⟨_, payload.denotes⟩).loadSafe
  · intro safe
    obtain ⟨contents, denotes⟩ := (wellFormedPayload_iff bytes).1 safe.wellFormedPayload
    exact ⟨⟨bytes, contents, denotes⟩, rfl⟩

/-- A payload stands for one thing. -/
theorem Denotes.unique {payload : List UInt8} {contents contents' : Option (Finset UInt32)}
    (denotes : Denotes payload contents) (denotes' : Denotes payload contents') : contents = contents' := by
  obtain ⟨loaded, run, as⟩ := denotes.load
  obtain ⟨loaded', run', as'⟩ := denotes'.load
  obtain rfl := Except.ok.inj (run.symm.trans run')
  cases as with
  | rejected =>
    cases as' with
    | rejected => rfl
  | loaded well members =>
    cases as' with
    | loaded well' members' =>
      congr 1
      exact Finset.ext fun v => (members v).symm.trans (members' v)

theorem roaringBitmapGetCardinality_pos_of_cut {r : RoaringBitmap} (cut : Cut r) : 0 < roaringBitmapGetCardinality r :=
  (Nat.two_pow_pos 32).trans_le cut.2

/-- **What is saved is safe to load.** After any history each stored value is
saved in a buffer of exactly the announced size, and the bytes are a well-formed
payload; it stands for the set of the key, and nothing else, exactly when the
count is not cut. -/
theorem saved_value_denotes (fit : ReloadsFit parse foreign history) :
    ∃ keyspace, runAll (serve parse) (freshKeyspace foreign) history = .ok (keyspace, reportsOf parse foreign history) ∧
      ∀ key bitmap, keyspace key = some (.roaring bitmap) → ∃ set serialized saved,
        storeAfter parse foreign history key = some (.set set) ∧ roaringRdbSave bitmap = .ok serialized ∧
        serialized.length = roaringBitmapSizeInBytes bitmap ∧ Denotes serialized (some saved) ∧
        (∀ contents, Denotes serialized contents → contents = some saved) ∧ (saved = set ↔ ¬ Cut bitmap) := by
  obtain ⟨keyspace, run, holds⟩ := server_run fit
  refine ⟨keyspace, run, fun key bitmap stored => ?_⟩
  obtain ⟨well, set, isSet, members⟩ := holds.roaring stored
  have values : bitmap.values.toFinset = set := Finset.ext fun v => List.mem_toFinset.trans (members v)
  have length := (length_roaringBitmapSerialize well).1
  have save := roaringRdbSave_spec well
  by_cases cut : Cut bitmap
  · have positive := roaringBitmapGetCardinality_pos_of_cut cut
    rw [card_eq_length well members, Finset.card_pos] at positive
    have denotes := cut_denotes well cut
    refine ⟨set, _, ∅, isSet, save, length, denotes, fun _ other => other.unique denotes, ?_⟩
    simp only [cut, not_true_eq_false, iff_false]
    exact positive.ne_empty.symm
  · have denotes := saved_denotes well cut
    refine ⟨set, _, bitmap.values.toFinset, isSet, save, length, denotes, fun _ other => other.unique denotes, ?_⟩
    simp only [cut, not_false_eq_true, iff_true]
    exact values

/-- What is saved of the restored run with 7 stands for these values. -/
theorem example_saved_value_denotes :
    ∃ keyspace bitmap serialized, runAll (serve decimal) (freshKeyspace fun _ => none) exampleEvents =
        .ok (keyspace, reportsOf decimal (fun _ => none) exampleEvents) ∧
      keyspace exampleKey = some (.roaring bitmap) ∧ roaringRdbSave bitmap = .ok serialized ∧
      serialized.length = roaringBitmapSizeInBytes bitmap ∧
      ∀ contents, Denotes serialized contents ↔ contents = some ((chunkValues exampleImage.chunks).toFinset ∪ {7}) := by
  obtain ⟨keyspace, run, saves⟩ := saved_value_denotes exampleEvents_fit
  obtain ⟨bitmap, stored, well, values⟩ := (exampleEvents_stored run).1
  obtain ⟨set, serialized, saved, isSet, save, length, denotes, unique, uncut⟩ := saves _ _ stored
  obtain rfl : (chunkValues exampleImage.chunks).toFinset ∪ {7} = set := SetValue.set.inj (Option.some.inj isSet)
  have four : roaringBitmapGetCardinality bitmap = 4 := by rw [roaringBitmapGetCardinality_spec well, values]; rfl
  obtain rfl := uncut.2 fun cut => absurd (four ▸ cut.2) (by decide)
  refine ⟨keyspace, bitmap, serialized, run, stored, save, length, fun contents => ⟨unique contents, ?_⟩⟩
  rintro rfl
  exact denotes

/-! ## Saving again -/

/-- Bitmaps that differ in capacities only are saved alike. -/
theorem roaringBitmapSerialize_reloaded {P : Container → Prop} {r : RoaringBitmap} (well : r.Well P) :
    roaringBitmapSerialize r.reloaded = roaringBitmapSerialize r := by
  rw [← roaringBitmapSerialize_trim, well.trim_reloaded, roaringBitmapSerialize_trim]

/-- What was loaded from a list has no run containers. -/
theorem loaded_list_plain {P : Container → Prop} [Stored P] {r : RoaringBitmap} (well : r.Well P)
    (list : ¬ SavedInContainers r) :
    ∃ r', roaringRdbLoad (roaringBitmapSerialize r).1 = .ok (some r') ∧ r'.Well Container.Plain := by
  obtain ⟨r', made, well', -⟩ :=
    roaringBitmapAddMany_spec (well_create Container.Plain) (r.values.take (r.values.length % 2 ^ 32))
  refine ⟨r', ?_, well'⟩
  rw [roaringRdbLoad_values well list, roaringBitmapOfPtr, made, ok_bind]

/-- Without run containers loading settles the bytes at once. -/
theorem settled_plain {r : RoaringBitmap} (well : r.Well Container.Plain) :
    ∃ r', roaringRdbLoad (roaringBitmapSerialize r).1 = .ok (some r') ∧
      roaringRdbSave r' = .ok (roaringBitmapSerialize r).1 := by
  obtain ⟨r', loaded, well', members⟩ := roaringRdbLoad_save well
  refine ⟨r', loaded, ?_⟩
  rw [roaringRdbSave_spec well', (well'.same_save well members).1]

/-- **One reload settles the bytes.** After any history each stored value is saved
and loaded; saving that again writes the bytes that every later round of loading
and saving writes. From the container form they are the first bytes already. -/
theorem one_reload_settles (fit : ReloadsFit parse foreign history) :
    ∃ keyspace, runAll (serve parse) (freshKeyspace foreign) history = .ok (keyspace, reportsOf parse foreign history) ∧
      ∀ key bitmap, keyspace key = some (.roaring bitmap) → ∃ serialized bitmap' settled bitmap'',
        roaringRdbSave bitmap = .ok serialized ∧ roaringRdbLoad serialized = .ok (some bitmap') ∧
        roaringRdbSave bitmap' = .ok settled ∧ roaringRdbLoad settled = .ok (some bitmap'') ∧
        roaringRdbSave bitmap'' = .ok settled ∧ (SavedInContainers bitmap → settled = serialized) := by
  obtain ⟨keyspace, run, holds⟩ := server_run fit
  refine ⟨keyspace, run, fun key bitmap stored => ?_⟩
  obtain ⟨well, -⟩ := holds.roaring stored
  by_cases portable : SavedInContainers bitmap
  · have same := roaringBitmapSerialize_reloaded well
    have load := roaringRdbLoad_containers well portable
    have save : roaringRdbSave bitmap.reloaded = .ok (roaringBitmapSerialize bitmap).1 := by
      rw [roaringRdbSave_spec well.reloaded, same]
    exact ⟨_, _, _, _, roaringRdbSave_spec well, load, save, load, save, fun _ => rfl⟩
  · obtain ⟨bitmap', load, plain⟩ := loaded_list_plain well portable
    obtain ⟨bitmap'', load', save'⟩ := settled_plain plain
    exact ⟨_, bitmap', _, bitmap'', roaringRdbSave_spec well, load, roaringRdbSave_spec plain, load', save',
      fun inContainers => absurd inContainers portable⟩

theorem example_one_reload_settles :
    ∃ keyspace bitmap serialized bitmap' settled bitmap'',
      runAll (serve decimal) (freshKeyspace fun _ => none) exampleEvents =
        .ok (keyspace, reportsOf decimal (fun _ => none) exampleEvents) ∧
      keyspace exampleKey = some (.roaring bitmap) ∧ bitmap.values = [1, 2, 3, 7] ∧
      roaringRdbSave bitmap = .ok serialized ∧ roaringRdbLoad serialized = .ok (some bitmap') ∧
      roaringRdbSave bitmap' = .ok settled ∧ roaringRdbLoad settled = .ok (some bitmap'') ∧
      roaringRdbSave bitmap'' = .ok settled := by
  obtain ⟨keyspace, run, settles⟩ := one_reload_settles exampleEvents_fit
  obtain ⟨bitmap, stored, -, values⟩ := (exampleEvents_stored run).1
  obtain ⟨serialized, bitmap', settled, bitmap'', save, load, save', load', save'', -⟩ := settles _ _ stored
  exact ⟨keyspace, bitmap, serialized, bitmap', settled, bitmap'', run, stored, values, save, load, save', load', save''⟩

/-! ## Memory -/

/-- The sum of the byte counters. -/
def RoaringStatistics.bytes (stat : RoaringStatistics) : UInt32 :=
  stat.nBytesArrayContainers + stat.nBytesBitsetContainers + stat.nBytesRunContainers

/-- The containers of a bitmap, in bytes. -/
def containerBytes (chunks : List Chunk) : Nat := (chunks.map fun chunk => containerSizeInBytes chunk.container).sum

theorem foldl_containerBytes (chunks : List Chunk) (count : Nat) :
    chunks.foldl (fun count chunk => count + containerSizeInBytes chunk.container) count = count + containerBytes chunks := by
  induction chunks generalizing count with
  | nil => rfl
  | cons chunk chunks ih =>
    rw [List.foldl_cons, ih, containerBytes, containerBytes, List.map_cons, List.sum_cons, Nat.add_assoc]

/-- Each container is counted once, modulo 2^32. -/
theorem bytes_roaringBitmapStatistics (r : RoaringBitmap) :
    (roaringBitmapStatistics r).bytes = UInt32.ofNat (containerBytes r.highLowContainer.chunks) := by
  rw [roaringBitmapStatistics, ← UInt32.zero_add (UInt32.ofNat _)]
  change _ = RoaringStatistics.bytes ⟨0, 0, 0⟩ + _
  generalize (⟨0, 0, 0⟩ : RoaringStatistics) = stat
  induction r.highLowContainer.chunks generalizing stat with
  | nil => rw [List.foldl_nil, containerBytes, List.map_nil, List.sum_nil]; simp
  | cons chunk chunks ih =>
    rw [List.foldl_cons, ih, containerBytes, containerBytes, List.map_cons, List.sum_cons, UInt32.ofNat_add, ← UInt32.add_assoc]
    congr 1
    cases containerUnwrapShared chunk.container <;> simp only [RoaringStatistics.bytes] <;> ac_rfl

/-- Without run containers the containers are arrays and bitsets as commands make them. -/
theorem RoaringBitmap.Well.plain_of_no_runs {r : RoaringBitmap} (well : r.Well Container.Valid)
    (noRun : raHasRunContainer r.highLowContainer = false) : r.Well Container.Plain := by
  refine ⟨⟨⟨well.array.chunks.sorted, fun chunk inside => ?_⟩, well.array.fits⟩, well.unshared⟩
  have holds := well.array.chunks.holds chunk inside
  refine ⟨holds.owned, ?_, holds.nonempty⟩
  rw [raHasRunContainer, List.any_eq_false] at noRun
  have notRun := noRun chunk inside
  have valid := holds.allowed
  rw [holds.owned] at notRun
  generalize chunk.content = c at valid notRun
  cases valid with
  | plain plain => exact plain
  | run valid => exact absurd rfl notRun

/-- The portable form is its header and the containers. -/
theorem roaringBitmapPortableSizeInBytes_eq (r : RoaringBitmap) : roaringBitmapPortableSizeInBytes r =
    raPortableHeaderSize r.highLowContainer + containerBytes r.highLowContainer.chunks :=
  foldl_containerBytes ..

/-- The containers that commands make fit the counters. -/
theorem RoaringBitmap.Well.containerBytes_lt {r : RoaringBitmap} (well : r.Well Container.Plain) :
    containerBytes r.highLowContainer.chunks < 2 ^ 32 := by
  have length : r.highLowContainer.chunks.length ≤ 65536 := well.array.chunks.length_le
  have sizes := foldl_containerSizeInBytes_le 0 fun chunk inside =>
    containerSizeInBytes_le (well.array.chunks.holds chunk inside)
  rw [foldl_containerBytes] at sizes
  omega

theorem toNat_roaringMemUsage (r : RoaringBitmap) :
    (roaringMemUsage r).toNat = containerBytes r.highLowContainer.chunks % 2 ^ 32 := by
  have bytes := bytes_roaringBitmapStatistics r
  rw [RoaringStatistics.bytes] at bytes
  rw [roaringMemUsage, bytes, UInt32.toNat_toUInt64, UInt32.toNat_ofNat']

/-- **Memory.** After any history the memory reported for a stored value is the
size of its containers in the portable form, which is the form without its
header. The counters have 32 bits; without run containers they do not wrap. -/
theorem memory_counts_containers (fit : ReloadsFit parse foreign history) :
    ∃ keyspace, runAll (serve parse) (freshKeyspace foreign) history = .ok (keyspace, reportsOf parse foreign history) ∧
      ∀ key bitmap, keyspace key = some (.roaring bitmap) →
        (roaringMemUsage bitmap).toNat =
          (roaringBitmapPortableSizeInBytes bitmap - raPortableHeaderSize bitmap.highLowContainer) % 2 ^ 32 ∧
        (raHasRunContainer bitmap.highLowContainer = false →
          roaringBitmapPortableSizeInBytes bitmap =
            raPortableHeaderSize bitmap.highLowContainer + (roaringMemUsage bitmap).toNat) := by
  obtain ⟨keyspace, run, holds⟩ := server_run fit
  refine ⟨keyspace, run, fun key bitmap stored => ?_⟩
  obtain ⟨well, -⟩ := holds.roaring stored
  rw [toNat_roaringMemUsage, roaringBitmapPortableSizeInBytes_eq]
  constructor
  · rw [Nat.add_sub_cancel_left]
  · intro noRun
    rw [Nat.mod_eq_of_lt (well.plain_of_no_runs noRun).containerBytes_lt]

theorem example_memory_counts :
    ∃ keyspace bitmap, runAll (serve decimal) (freshKeyspace fun _ => none) exampleEvents =
        .ok (keyspace, reportsOf decimal (fun _ => none) exampleEvents) ∧
      keyspace exampleKey = some (.roaring bitmap) ∧ bitmap.values = [1, 2, 3, 7] ∧
      (roaringMemUsage bitmap).toNat =
        (roaringBitmapPortableSizeInBytes bitmap - raPortableHeaderSize bitmap.highLowContainer) % 2 ^ 32 := by
  obtain ⟨keyspace, run, counts⟩ := memory_counts_containers exampleEvents_fit
  obtain ⟨bitmap, stored, -, values⟩ := (exampleEvents_stored run).1
  exact ⟨keyspace, bitmap, run, stored, values, (counts _ _ stored).1⟩

/-! ## A count that is cut -/

section Uniform

variable {keys : List UInt16} {c : Container}

theorem foldl_constant {f : Chunk → Nat} {n : Nat} {chunks : List Chunk} (constant : ∀ chunk ∈ chunks, f chunk = n)
    (start : Nat) : chunks.foldl (fun sum chunk => sum + f chunk) start = start + n * chunks.length := by
  induction chunks generalizing start with
  | nil => rfl
  | cons chunk chunks ih =>
    rw [List.foldl_cons, ih fun other inside => constant other (List.mem_cons_of_mem _ inside), constant chunk (by simp),
      List.length_cons, Nat.mul_succ]
    omega

theorem card_uniformBitmap :
    roaringBitmapGetCardinality (uniformBitmap keys c) = containerGetCardinality (.owned c) * keys.length := by
  have each : ∀ chunk ∈ (uniformBitmap keys c).highLowContainer.chunks,
      containerGetCardinality chunk.container = containerGetCardinality (.owned c) :=
    fun chunk inside => congrArg containerGetCardinality (chunk_uniformBitmap inside)
  rw [roaringBitmapGetCardinality, foldl_constant each, size_uniformBitmap, Nat.zero_add]

theorem le_raPortableHeaderSize (ra : RoaringArray) : 4 * ra.size ≤ raPortableHeaderSize ra := by
  rw [raPortableHeaderSize]
  split
  · split <;> omega
  · omega

theorem le_size_uniformBitmap : 4 * keys.length + containerSizeInBytes (.owned c) * keys.length ≤
    roaringBitmapPortableSizeInBytes (uniformBitmap keys c) := by
  have each : ∀ chunk ∈ (uniformBitmap keys c).highLowContainer.chunks,
      containerSizeInBytes chunk.container = containerSizeInBytes (.owned c) :=
    fun chunk inside => congrArg containerSizeInBytes (chunk_uniformBitmap inside)
  have header := le_raPortableHeaderSize (uniformBitmap keys c).highLowContainer
  rw [RoaringArray.size, size_uniformBitmap] at header
  rw [roaringBitmapPortableSizeInBytes, raPortableSizeInBytes, foldl_constant each, size_uniformBitmap]
  exact Nat.add_le_add_right header _

/-- All values in containers that take about four bytes for each are not saved
in the container form. -/
theorem cut_uniformBitmap (all : keys.length = 65536) (full : containerGetCardinality (.owned c) = 65536)
    (long : 262142 ≤ containerSizeInBytes (.owned c)) : Cut (uniformBitmap keys c) := by
  have card := @card_uniformBitmap keys c
  have bytes := @le_size_uniformBitmap keys c
  rw [full] at card
  rw [all] at card bytes
  constructor
  · rw [SavedInContainers, card]
    omega
  · omega

end Uniform

theorem runsValues_singles (array : List UInt16) : runsValues (singles array) = array := by
  induction array with
  | nil => rfl
  | cons value array ih =>
    have here : Rle16.numbers { value, length := 0 } = [value.toNat] := rfl
    rw [singles_cons, runsValues_cons, ih, here, List.map_singleton, UInt16.ofNat_toNat]
    rfl

/-- All values in as many runs as 16 bits count: one of two values, the others
of one each. -/
def cutRuns : RunContainer where
  capacity := 65535
  runs := { value := 0, length := 1 } :: singles ((List.range' 2 65534).map UInt16.ofNat)

theorem values_cutRuns : cutRuns.values = (List.range 65536).map UInt16.ofNat := by
  have tail := runsValues_singles ((List.range' 2 65534).map UInt16.ofNat)
  have split : List.range 65536 = List.range' 0 2 ++ List.range' 2 65534 := by
    rw [List.range_eq_range', List.range'_append]
  show runsValues (_ :: _) = _
  rw [runsValues_cons, tail, split, List.map_append]
  rfl

theorem nRuns_cutRuns : cutRuns.runs.length = 65535 := by
  rw [cutRuns, List.length_cons, singles, List.length_map, List.length_map, List.length_range']

theorem cutRuns_valid : cutRuns.Valid where
  ordered := (sorted_runValues_iff cutRuns).1 (values_cutRuns ▸ sorted_uint16_range)
  fits := Nat.le_of_eq nRuns_cutRuns
  few := nRuns_cutRuns ▸ Nat.lt_succ_self _

theorem length_values_cutRuns : cutRuns.values.length = 65536 := by
  rw [values_cutRuns, List.length_map, List.length_range]

theorem cutRuns_nonempty : cutRuns.values ≠ [] :=
  List.ne_nil_of_length_pos (length_values_cutRuns ▸ Nat.two_pow_pos 16)

/-- There is a well-formed bitmap that is cut. -/
theorem exists_cut : ∃ bitmap : RoaringBitmap, bitmap.Well Container.Valid ∧ Cut bitmap := by
  have valid : Container.Valid (.run cutRuns) := .run cutRuns_valid
  have full : containerGetCardinality (.owned (.run cutRuns)) = 65536 := by
    rw [Kind.counted valid, Container.values_run, length_values_cutRuns]
  have long : 262142 ≤ containerSizeInBytes (.owned (.run cutRuns)) := by
    have bytes : ∀ r : RunContainer, containerSizeInBytes (.owned (.run r)) = 2 + 4 * r.runs.length := fun _ => rfl
    rw [bytes, nRuns_cutRuns]
  have all : ((List.range 65536).map UInt16.ofNat).length = 65536 := by rw [List.length_map, List.length_range]
  exact ⟨_, uniformBitmap_well sorted_uint16_range valid cutRuns_nonempty, cut_uniformBitmap all full long⟩

/-- Whether a bitmap is cut does not depend on capacities. -/
theorem cut_reloaded {P : Container → Prop} {r : RoaringBitmap} (well : r.Well P) : Cut r.reloaded ↔ Cut r := by
  rw [Cut, Cut, SavedInContainers, SavedInContainers, ← roaringBitmapPortableSizeInBytes_trim r.reloaded,
    ← roaringBitmapGetCardinality_trim r.reloaded, well.trim_reloaded, roaringBitmapPortableSizeInBytes_trim,
    roaringBitmapGetCardinality_trim]

/-- The condition on reloads is needed: there is a payload of all values that a
reload loses, without an error. -/
theorem full_set_lost (parse : RedisString → Option Int64) (foreign : RedisString → Option O) (key : RedisString) :
    ∃ payload : Payload, (∃ set, payload.contents = some set ∧ ∀ v, v ∈ set) ∧ ∃ keyspace : Keyspace O,
      runAll (serve parse) (freshKeyspace foreign) [.restore key payload, .reload key] = .ok (keyspace, [.changed, .silent]) ∧
        keyspace key = some (.roaring roaringBitmapCreate) := by
  obtain ⟨bitmap, well, cut⟩ := exists_cut
  have fits := portableImage_fits well
  let payload : Payload :=
    { bytes := serializationContainer :: ((portableImage bitmap).bytes ++ [])
      contents := some (chunkValues (portableImage bitmap).chunks).toFinset
      denotes := .container _ [] fits (portableImage_ordered well) }
  have isArray : (portableImage bitmap).array = bitmap.reloaded.highLowContainer := by
    rw [PortableImage.array, size_portableImage]
    rfl
  have restored : roaringRdbLoad payload.bytes = .ok (some bitmap.reloaded) := by
    rw [roaringRdbLoad_container_eq, roaringBitmapPortableDeserialize_iff]
    exact ⟨_, [], fits, rfl, by rw [isArray]; rfl⟩
  have lost := roaringRdbLoad_cut well.reloaded ((cut_reloaded well).2 cut)
  have large := cut.2
  rw [roaringBitmapGetCardinality_spec well] at large
  refine ⟨payload, ⟨_, rfl, fun v => ?_⟩, ?_⟩
  · rw [List.mem_toFinset, portableImage, chunkValues_reloaded]
    exact MachineOrder.mem_of_length_ge_u32 (SortedList.nodup_of_sorted well.sorted) large v
  · let loaded : Keyspace O := Function.update (freshKeyspace foreign) key (some (.roaring bitmap.reloaded))
    refine ⟨Function.update loaded key (some (.roaring roaringBitmapCreate)), ?_, Function.update_self ..⟩
    simp only [runAll, serve, restored, ok_bind, pure_eq, Function.update_self, roaringRdbSave_spec well.reloaded, lost,
      loaded]

end RedisRoaring
