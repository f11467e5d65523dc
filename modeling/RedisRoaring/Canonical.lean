import RedisRoaring.Serialize

/-!
# The canonical form

Up to the capacities of its arrays, a stored bitmap is a function of its set of
values: the keys are their high halves and the type of a container follows from
its cardinality. `trim` forgets the capacities, and nothing that is written or
counted depends on them.
-/

namespace RedisRoaring

open Exec SortedList

/-- A container without spare capacity. -/
def Container.trim : Container → Container
  | .bitset b => .bitset b
  | .array arr => .array { arr with capacity := arr.array.length }
  | .run r => .run { r with capacity := r.runs.length }

/-- A chunk without spare capacity. -/
def Chunk.trim (chunk : Chunk) : Chunk :=
  { chunk with
    container := match chunk.container with
      | .owned c => .owned c.trim
      | .shared c => .shared c.trim }

section Trim

variable {c c' : Container}

@[simp] theorem Chunk.key_trim (chunk : Chunk) : chunk.trim.key = chunk.key := rfl

/-- **Container types are canonical**: equal members make equal containers. -/
theorem Container.Plain.trim_eq (plain : c.Plain) (plain' : c'.Plain) (same : c.values = c'.values) :
    c.trim = c'.trim := by
  cases plain with
  | @array arr valid small =>
    cases plain' with
    | @array arr' valid' small' =>
      have arrays : arr.array = arr'.array := same
      rw [Container.trim, Container.trim, arrays]
    | @bitset b' exact' large' =>
      have length : arr.array.length = b'.values.length := congrArg List.length same
      rw [← exact'] at length
      exact absurd small (by omega)
  | @bitset b exact large =>
    cases plain' with
    | @array arr' valid' small' =>
      have length : b.values.length = arr'.array.length := congrArg List.length same
      rw [← exact] at length
      exact absurd small' (by omega)
    | @bitset b' exact' large' =>
      have words : b.array = b'.array := words_eq_of_values_eq same
      have cards : b.cardinality = b'.cardinality := by
        rw [exact, exact', show b.values = b'.values from same]
      rw [Container.trim, Container.trim, show b = b' by cases b; cases b'; simp_all]

end Trim

/-- The keys are the high halves of the values. -/
theorem ChunksWell.mem_keys_iff {P : Container → Prop} {chunks : List Chunk} (well : ChunksWell P chunks) (k : UInt16) :
    k ∈ chunks.map Chunk.key ↔ ∃ v ∈ chunkValues chunks, highBits v = k := by
  constructor
  · intro inside
    obtain ⟨chunk, member, rfl⟩ := List.mem_map.1 inside
    obtain ⟨low, isLow⟩ := List.exists_mem_of_ne_nil _ (well.holds chunk member).nonempty
    exact ⟨joinBits chunk.key low, mem_chunkValues.2 ⟨chunk, member, by simp, by simpa using isLow⟩, by simp⟩
  · intro given
    obtain ⟨v, member, rfl⟩ := given
    exact highBits_mem_keys member

/-- Equal sets whose first chunks have one key have the same values there and
the same values after it. -/
theorem ChunksWell.uncons {P P' : Container → Prop} [Kind P] [Kind P'] {chunk chunk' : Chunk}
    {chunks chunks' : List Chunk} (well : ChunksWell P (chunk :: chunks)) (well' : ChunksWell P' (chunk' :: chunks'))
    (key : chunk.key = chunk'.key)
    (same : ∀ v, v ∈ chunkValues (chunk :: chunks) ↔ v ∈ chunkValues (chunk' :: chunks')) :
    chunk.content.values = chunk'.content.values ∧ ∀ v, v ∈ chunkValues chunks ↔ v ∈ chunkValues chunks' := by
  have others : ∀ v, highBits v = chunk.key → v ∉ chunkValues chunks := fun v high =>
    (show ChunksWell _ ([] ++ chunk :: chunks) from well).not_mem_others high
  have others' : ∀ v, highBits v = chunk.key → v ∉ chunkValues chunks' := fun v high =>
    (show ChunksWell _ ([] ++ chunk' :: chunks') from well').not_mem_others (high.trans key)
  have split : ∀ v, highBits v = chunk.key ∧ lowBits v ∈ chunk.content.values ∨ v ∈ chunkValues chunks ↔
      highBits v = chunk.key ∧ lowBits v ∈ chunk'.content.values ∨ v ∈ chunkValues chunks' := by
    intro v
    have all := same v
    rwa [← List.nil_append (chunk :: chunks), ← List.nil_append (chunk' :: chunks'), mem_chunkValues_split,
      mem_chunkValues_split, ← key] at all
  constructor
  · apply eq_of_same_members (Kind.sorted (well.holds chunk (by simp)).allowed)
      (Kind.sorted (well'.holds chunk' (by simp)).allowed)
    intro low
    have here := split (joinBits chunk.key low)
    rw [highBits_joinBits, lowBits_joinBits] at here
    have none := others (joinBits chunk.key low) (by simp)
    have none' := others' (joinBits chunk.key low) (by simp)
    tauto
  · intro v
    have here := split v
    have none := others v
    have none' := others' v
    tauto

/-- Equal sets have the same values in their chunks, one by one. -/
theorem ChunksWell.same_contents {P P' : Container → Prop} [Kind P] [Kind P'] {chunks chunks' : List Chunk}
    (well : ChunksWell P chunks) (well' : ChunksWell P' chunks')
    (same : ∀ v, v ∈ chunkValues chunks ↔ v ∈ chunkValues chunks') :
    List.Forall₂ (fun chunk chunk' => chunk.key = chunk'.key ∧ chunk.content.values = chunk'.content.values)
      chunks chunks' := by
  induction chunks generalizing chunks' with
  | nil =>
    have empty : chunks' = [] := by
      by_contra some
      obtain ⟨v, member⟩ := List.exists_mem_of_ne_nil _ (well'.values_ne_nil some)
      simpa using (same v).2 member
    rw [empty]
    exact .nil
  | cons chunk chunks ih =>
    have keys : (chunk :: chunks).map Chunk.key = chunks'.map Chunk.key :=
      eq_of_same_members well.sorted well'.sorted fun k => by
        simp only [well.mem_keys_iff, well'.mem_keys_iff, same]
    obtain ⟨chunk', rest', rfl⟩ : ∃ chunk' rest', chunks' = chunk' :: rest' := by
      cases chunks' with
      | nil => simp at keys
      | cons chunk' rest' => exact ⟨chunk', rest', rfl⟩
    obtain ⟨key, -⟩ := List.cons.inj keys
    obtain ⟨contents, rest⟩ := well.uncons well' key same
    exact .cons ⟨key, contents⟩ (ih (well.sublist (List.sublist_cons_self ..))
      (well'.sublist (List.sublist_cons_self ..)) rest)

/-- **Equal sets have equal chunks.** -/
theorem ChunksWell.trim_eq {chunks chunks' : List Chunk} (well : ChunksWell Container.Plain chunks)
    (well' : ChunksWell Container.Plain chunks') (same : ∀ v, v ∈ chunkValues chunks ↔ v ∈ chunkValues chunks') :
    chunks.map Chunk.trim = chunks'.map Chunk.trim := by
  have contents := well.same_contents well' same
  have holds := well.holds
  have holds' := well'.holds
  clear well well' same
  induction contents with
  | nil => rfl
  | @cons chunk chunk' chunks chunks' head _ ih =>
    obtain ⟨key, values⟩ := head
    obtain ⟨here, later⟩ := List.forall_mem_cons.1 holds
    obtain ⟨here', later'⟩ := List.forall_mem_cons.1 holds'
    have heads : chunk.trim = chunk'.trim := by
      rw [Chunk.trim, Chunk.trim, here.owned, here'.owned, key]
      simp only [here.allowed.trim_eq here'.allowed values]
    rw [List.map_cons, List.map_cons, heads, ih later later']

/-! ## What does not depend on the capacities -/

/-- A bitmap without spare capacity. -/
def RoaringBitmap.trim (r : RoaringBitmap) : RoaringBitmap :=
  { r with highLowContainer :=
    { allocationSize := r.highLowContainer.size, chunks := r.highLowContainer.chunks.map Chunk.trim } }

section Invariance

variable (chunk : Chunk) (r : RoaringBitmap)

@[simp] theorem containerUnwrapShared_trim :
    containerUnwrapShared chunk.trim.container = (containerUnwrapShared chunk.container).trim := by
  rw [Chunk.trim]
  cases chunk.container <;> rfl

@[simp] theorem containerSizeInBytes_trim :
    containerSizeInBytes chunk.trim.container = containerSizeInBytes chunk.container := by
  rw [containerSizeInBytes, containerSizeInBytes, containerUnwrapShared_trim]
  cases containerUnwrapShared chunk.container <;> rfl

@[simp] theorem containerWrite_trim : containerWrite chunk.trim.container = containerWrite chunk.container := by
  rw [containerWrite, containerWrite, containerUnwrapShared_trim]
  cases containerUnwrapShared chunk.container <;> rfl

@[simp] theorem containerGetCardinality_trim :
    containerGetCardinality chunk.trim.container = containerGetCardinality chunk.container := by
  rw [containerGetCardinality, containerGetCardinality, containerUnwrapShared_trim]
  cases containerUnwrapShared chunk.container <;> rfl

@[simp] theorem isRunContainer_trim : isRunContainer chunk.trim.container = isRunContainer chunk.container := by
  rw [isRunContainer, isRunContainer, containerUnwrapShared_trim]
  cases containerUnwrapShared chunk.container <;> rfl

@[simp] theorem containerToUint32Array_trim (base : UInt32) :
    containerToUint32Array chunk.trim.container base = containerToUint32Array chunk.container base := by
  rw [containerToUint32Array, containerToUint32Array, containerUnwrapShared_trim]
  cases containerUnwrapShared chunk.container <;> rfl

@[simp] theorem descriptor_trim : chunk.trim.descriptor = chunk.descriptor := by
  rw [Chunk.descriptor, Chunk.descriptor, containerGetCardinality_trim, Chunk.key_trim]

theorem size_trim : r.trim.highLowContainer.size = r.highLowContainer.size := List.length_map ..

theorem startOffsets_trim (startOffset : UInt32) (chunks : List Chunk) :
    startOffsets startOffset (chunks.map Chunk.trim) = startOffsets startOffset chunks := by
  induction chunks generalizing startOffset with
  | nil => rfl
  | cons chunk chunks ih => rw [List.map_cons, startOffsets, startOffsets, containerSizeInBytes_trim, ih]

theorem raHasRunContainer_trim : raHasRunContainer r.trim.highLowContainer = raHasRunContainer r.highLowContainer := by
  simp [raHasRunContainer, RoaringBitmap.trim, List.any_map, Function.comp_def]

theorem bitmapOfRunContainers_trim :
    bitmapOfRunContainers r.trim.highLowContainer = bitmapOfRunContainers r.highLowContainer := by
  have flags : ∀ i : Nat, (r.trim.highLowContainer.chunks[i]?.any fun chunk => isRunContainer chunk.container) =
      r.highLowContainer.chunks[i]?.any fun chunk => isRunContainer chunk.container := by
    intro i
    rw [RoaringBitmap.trim, List.getElem?_map]
    cases r.highLowContainer.chunks[i]? <;> simp
  rw [bitmapOfRunContainers, bitmapOfRunContainers, size_trim]
  simp only [flags]

theorem roaringBitmapPortableSizeInBytes_trim :
    roaringBitmapPortableSizeInBytes r.trim = roaringBitmapPortableSizeInBytes r := by
  have header : raPortableHeaderSize r.trim.highLowContainer = raPortableHeaderSize r.highLowContainer := by
    rw [raPortableHeaderSize, raPortableHeaderSize, raHasRunContainer_trim, size_trim]
  rw [roaringBitmapPortableSizeInBytes, roaringBitmapPortableSizeInBytes, raPortableSizeInBytes, header,
    RoaringBitmap.trim, List.foldl_map]
  simp only [containerSizeInBytes_trim]
  rfl

theorem roaringBitmapGetCardinality_trim : roaringBitmapGetCardinality r.trim = roaringBitmapGetCardinality r := by
  rw [roaringBitmapGetCardinality, RoaringBitmap.trim, List.foldl_map]
  simp only [containerGetCardinality_trim]
  rfl

theorem raPortableSerialize_trim :
    raPortableSerialize r.trim.highLowContainer = raPortableSerialize r.highLowContainer := by
  have descriptors : Chunk.descriptor ∘ Chunk.trim = Chunk.descriptor := funext descriptor_trim
  rw [raPortableSerialize, raHasRunContainer_trim, size_trim, bitmapOfRunContainers_trim, RoaringBitmap.trim,
    List.map_map, descriptors, List.flatMap_map]
  simp only [startOffsets_trim, containerWrite_trim]
  rfl

theorem raToUint32Array_trim : raToUint32Array r.trim.highLowContainer = raToUint32Array r.highLowContainer := by
  rw [raToUint32Array, RoaringBitmap.trim, List.flatMap_map]
  simp only [containerToUint32Array_trim, Chunk.key_trim]
  rfl

/-- Capacities are not written. -/
theorem roaringBitmapSerialize_trim : roaringBitmapSerialize r.trim = roaringBitmapSerialize r := by
  rw [roaringBitmapSerialize, roaringBitmapSerialize, roaringBitmapPortableSizeInBytes_trim,
    roaringBitmapGetCardinality_trim, raPortableSerialize_trim, raToUint32Array_trim]

/-- Capacities are not counted. -/
theorem roaringBitmapStatistics_trim : roaringBitmapStatistics r.trim = roaringBitmapStatistics r := by
  rw [roaringBitmapStatistics, RoaringBitmap.trim, List.foldl_map, roaringBitmapStatistics]
  congr 1
  funext stat chunk
  simp only [containerSizeInBytes_trim, containerUnwrapShared_trim]
  cases containerUnwrapShared chunk.container <;> rfl

end Invariance

/-- **The canonical form.** Stored bitmaps with the same values are equal up to
spare capacity. -/
theorem RoaringBitmap.Well.trim_eq {r r' : RoaringBitmap} (well : r.Well Container.Plain)
    (well' : r'.Well Container.Plain) (same : ∀ v, v ∈ r.values ↔ v ∈ r'.values) : r.trim = r'.trim := by
  have chunks := well.array.chunks.trim_eq well'.array.chunks same
  have sizes : r.highLowContainer.size = r'.highLowContainer.size := by
    simpa [RoaringArray.size] using congrArg List.length chunks
  rw [RoaringBitmap.trim, RoaringBitmap.trim, chunks, sizes, well.unshared, well'.unshared]

end RedisRoaring
