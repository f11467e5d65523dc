import RedisRoaring.RoaringArray

/-!
# Chunk lists as sets of 32-bit values

The values of a list of chunks, and the invariant under which the list is a
map: keys strictly increasing, every container of its own, nonempty and of an
allowed kind (`ChunksWell`). Every update of a bitmap is the replacement,
insertion or removal of one chunk at a split of the list; `mem_chunkValues_split`
says what each does to the values.
-/

namespace RedisRoaring

open Exec SortedList

/-- The container of a slot. -/
def Chunk.content (chunk : Chunk) : Container := containerUnwrapShared chunk.container

/-- The values of a chunk in increasing order. -/
def Chunk.values (chunk : Chunk) : List UInt32 := chunk.content.values.map (joinBits chunk.key)

/-- The values of a list of chunks. -/
def chunkValues (chunks : List Chunk) : List UInt32 := chunks.flatMap Chunk.values

/-- A chunk with a nonempty container of its own of the allowed kind. -/
structure Chunk.Holds (P : Container → Prop) (chunk : Chunk) : Prop where
  owned : chunk.container = .owned chunk.content
  allowed : P chunk.content
  nonempty : chunk.content.values ≠ []

/-- Strictly increasing keys and allowed, nonempty containers. -/
structure ChunksWell (P : Container → Prop) (chunks : List Chunk) : Prop where
  sorted : (chunks.map Chunk.key).Pairwise (· < ·)
  holds : ∀ chunk ∈ chunks, chunk.Holds P

/-- A roaring array whose chunks are well and within the allocation. -/
structure RoaringArray.Well (P : Container → Prop) (ra : RoaringArray) : Prop where
  chunks : ChunksWell P ra.chunks
  fits : ra.chunks.length ≤ ra.allocationSize

/-! ## Values -/

theorem mem_chunk_values {chunk : Chunk} {v : UInt32} :
    v ∈ chunk.values ↔ highBits v = chunk.key ∧ lowBits v ∈ chunk.content.values := by
  rw [Chunk.values, List.mem_map]
  constructor
  · intro given
    obtain ⟨low, member, rfl⟩ := given
    exact ⟨highBits_joinBits .., by rwa [lowBits_joinBits]⟩
  · intro given
    obtain ⟨key, member⟩ := given
    exact ⟨lowBits v, member, by rw [← key, joinBits_eq]⟩

theorem mem_chunkValues {chunks : List Chunk} {v : UInt32} :
    v ∈ chunkValues chunks ↔ ∃ chunk ∈ chunks, highBits v = chunk.key ∧ lowBits v ∈ chunk.content.values := by
  simp only [chunkValues, List.mem_flatMap, mem_chunk_values]

@[simp] theorem chunkValues_nil : chunkValues [] = [] := rfl

@[simp] theorem chunkValues_cons (chunk : Chunk) (chunks : List Chunk) :
    chunkValues (chunk :: chunks) = chunk.values ++ chunkValues chunks := List.flatMap_cons ..

@[simp] theorem chunkValues_append (front back : List Chunk) :
    chunkValues (front ++ back) = chunkValues front ++ chunkValues back := List.flatMap_append

/-- A value of a list of chunks has its high half among the keys. -/
theorem highBits_mem_keys {chunks : List Chunk} {v : UInt32} (member : v ∈ chunkValues chunks) :
    highBits v ∈ chunks.map Chunk.key := by
  obtain ⟨chunk, inside, key, -⟩ := mem_chunkValues.1 member
  exact key ▸ List.mem_map_of_mem inside

/-- The values around one chunk are those of the chunk and those of the others. -/
theorem mem_chunkValues_split {pre post : List Chunk} {chunk : Chunk} {v : UInt32} :
    v ∈ chunkValues (pre ++ chunk :: post) ↔
      highBits v = chunk.key ∧ lowBits v ∈ chunk.content.values ∨ v ∈ chunkValues (pre ++ post) := by
  simp only [chunkValues_append, chunkValues_cons, List.mem_append, mem_chunk_values]
  tauto

theorem mem_chunkValues_owned {pre post : List Chunk} {key : UInt16} {c : Container} {v : UInt32} :
    v ∈ chunkValues (pre ++ { key, container := .owned c } :: post) ↔
      highBits v = key ∧ lowBits v ∈ c.values ∨ v ∈ chunkValues (pre ++ post) := mem_chunkValues_split

section Well

variable {P : Container → Prop} {pre post : List Chunk} {chunk : Chunk}

theorem ChunksWell.nil : ChunksWell P [] := ⟨List.Pairwise.nil, by simp⟩

/-- The invariant of the kinds is monotone. -/
theorem ChunksWell.mono {Q : Container → Prop} {chunks : List Chunk} (well : ChunksWell P chunks)
    (weaker : ∀ c, P c → Q c) : ChunksWell Q chunks :=
  ⟨well.sorted, fun chunk inside =>
    ⟨(well.holds chunk inside).owned, weaker _ (well.holds chunk inside).allowed, (well.holds chunk inside).nonempty⟩⟩

theorem ChunksWell.sublist {chunks chunks' : List Chunk} (well : ChunksWell P chunks) (part : chunks'.Sublist chunks) :
    ChunksWell P chunks' :=
  ⟨well.sorted.sublist (part.map _), fun chunk inside => well.holds chunk (part.subset inside)⟩

/-- A chunk in its place among the keys. -/
theorem ChunksWell.insert (well : ChunksWell P (pre ++ post)) (holds : chunk.Holds P)
    (below : ∀ c ∈ pre, c.key < chunk.key) (above : ∀ c ∈ post, chunk.key < c.key) :
    ChunksWell P (pre ++ chunk :: post) := by
  constructor
  · have sorted := well.sorted
    rw [List.map_append] at sorted
    rw [List.map_append, List.map_cons]
    apply sorted_insert sorted
    · intro k hk
      obtain ⟨c, hc, rfl⟩ := List.mem_map.1 hk
      exact below c hc
    · intro k hk
      obtain ⟨c, hc, rfl⟩ := List.mem_map.1 hk
      exact above c hc
  · intro c hc
    rcases List.mem_append.1 hc with h | h
    · exact well.holds c (List.mem_append_left _ h)
    · rcases List.mem_cons.1 h with rfl | h
      · exact holds
      · exact well.holds c (List.mem_append_right _ h)

/-- Chunks one after the other. -/
theorem ChunksWell.append {front back : List Chunk} (well : ChunksWell P front) (well' : ChunksWell P back)
    (apart : ∀ c ∈ front, ∀ d ∈ back, c.key < d.key) : ChunksWell P (front ++ back) := by
  refine ⟨?_, fun c inside => (List.mem_append.1 inside).elim (well.holds c) (well'.holds c)⟩
  rw [List.map_append]
  refine List.pairwise_append.2 ⟨well.sorted, well'.sorted, ?_⟩
  intro k hk k' hk'
  obtain ⟨c, hc, rfl⟩ := List.mem_map.1 hk
  obtain ⟨d, hd, rfl⟩ := List.mem_map.1 hk'
  exact apart c hc d hd

/-- The keys around a chunk are below and above its key. -/
theorem ChunksWell.around (well : ChunksWell P (pre ++ chunk :: post)) :
    (∀ c ∈ pre, c.key < chunk.key) ∧ ∀ c ∈ post, chunk.key < c.key := by
  have sorted := well.sorted
  rw [List.map_append, List.map_cons] at sorted
  obtain ⟨below, above⟩ := sorted_split sorted
  exact ⟨fun c hc => below _ (List.mem_map_of_mem hc), fun c hc => above _ (List.mem_map_of_mem hc)⟩

theorem ChunksWell.above {chunks : List Chunk} (well : ChunksWell P chunks) (split : chunks = pre ++ chunk :: post) :
    ∀ c ∈ post, chunk.key < c.key := by
  rw [split] at well
  exact well.around.2

theorem ChunksWell.erase (well : ChunksWell P (pre ++ chunk :: post)) : ChunksWell P (pre ++ post) :=
  well.sublist ((List.sublist_cons_self chunk post).append_left pre)

/-- Replacing a chunk's container. -/
theorem ChunksWell.replace {chunk' : Chunk} (well : ChunksWell P (pre ++ chunk :: post)) (holds : chunk'.Holds P)
    (same : chunk'.key = chunk.key) : ChunksWell P (pre ++ chunk' :: post) := by
  obtain ⟨below, above⟩ := well.around
  exact well.erase.insert holds (fun c hc => same ▸ below c hc) fun c hc => same ▸ above c hc

/-- The chunks below and above a value's key do not have the value. -/
theorem not_mem_chunkValues_gap {v : UInt32} (below : ∀ c ∈ pre, c.key < highBits v)
    (above : ∀ c ∈ post, highBits v < c.key) : v ∉ chunkValues (pre ++ post) := by
  intro member
  obtain ⟨c, inside, key, -⟩ := mem_chunkValues.1 member
  rcases List.mem_append.1 inside with h | h
  · exact absurd key (ne_of_gt (below c h))
  · exact absurd key (ne_of_lt (above c h))

/-- The other chunks have no value with the chunk's key. -/
theorem ChunksWell.not_mem_others (well : ChunksWell P (pre ++ chunk :: post)) {v : UInt32}
    (key : highBits v = chunk.key) : v ∉ chunkValues (pre ++ post) := by
  obtain ⟨below, above⟩ := well.around
  rw [← key] at below above
  exact not_mem_chunkValues_gap below above

/-- There are at most 65536 chunks. -/
theorem ChunksWell.length_le {chunks : List Chunk} (well : ChunksWell P chunks) : chunks.length ≤ 65536 := by
  have keys := MachineOrder.length_le_of_nodup (nodup_of_sorted well.sorted)
  rwa [List.length_map] at keys

/-- The position of a chunk fits a 16-bit index. -/
theorem ChunksWell.index_small {chunks : List Chunk} (well : ChunksWell P chunks)
    (split : chunks = pre ++ chunk :: post) : pre.length < 65536 := by
  have length := well.length_le
  rw [split, List.length_append, List.length_cons] at length
  omega

/-- The values come out in increasing order. -/
theorem ChunksWell.sorted_values {chunks : List Chunk} (well : ChunksWell P chunks)
    (sorted : ∀ c, P c → c.values.Pairwise (· < ·)) : (chunkValues chunks).Pairwise (· < ·) := by
  refine List.pairwise_flatMap.2 ⟨?_, ?_⟩
  · intro chunk inside
    refine List.pairwise_map.2 ((sorted _ (well.holds chunk inside).allowed).imp fun less => ?_)
    exact joinBits_lt_joinBits.2 (.inr ⟨rfl, less⟩)
  · refine (List.pairwise_map.1 well.sorted).imp fun {chunk chunk'} less => ?_
    intro x hx y hy
    obtain ⟨low, -, rfl⟩ := List.mem_map.1 hx
    obtain ⟨low', -, rfl⟩ := List.mem_map.1 hy
    exact joinBits_lt_joinBits.2 (.inl less)

/-- Well chunks with at least one chunk have a value. -/
theorem ChunksWell.values_ne_nil {chunks : List Chunk} (well : ChunksWell P chunks) (some : chunks ≠ []) :
    chunkValues chunks ≠ [] := by
  obtain ⟨chunk, rest, rfl⟩ := List.exists_cons_of_ne_nil some
  obtain ⟨low, more, values⟩ := List.exists_cons_of_ne_nil (well.holds chunk (by simp)).nonempty
  simp [Chunk.values, values]

end Well

/-- The chunk of an owned container. -/
theorem holds_owned {P : Container → Prop} {key : UInt16} {c : Container} (allowed : P c) (nonempty : c.values ≠ []) :
    Chunk.Holds P { key, container := .owned c } := ⟨rfl, allowed, nonempty⟩

/-! ## Finding a key -/

/-- What `ra_get_index` finds: the chunk with the key, or the place for it. -/
inductive Located (chunks : List Chunk) (x : UInt16) : Int → Prop where
  | hit (pre : List Chunk) (chunk : Chunk) (post : List Chunk) (split : chunks = pre ++ chunk :: post)
      (key : chunk.key = x) : Located chunks x pre.length
  | miss (pre post : List Chunk) (split : chunks = pre ++ post) (below : ∀ c ∈ pre, c.key < x)
      (above : ∀ c ∈ post, x < c.key) : Located chunks x (-(pre.length + 1 : Int))

theorem raGetIndex_located {P : Container → Prop} {ra : RoaringArray} (well : ChunksWell P ra.chunks) (x : UInt16) :
    Located ra.chunks x (raGetIndex ra x) := by
  unfold raGetIndex
  split
  case isTrue last =>
    rcases List.eq_nil_or_concat ra.chunks with empty | ⟨front, chunk, split⟩
    · have miss : Located ra.chunks x _ := .miss [] [] empty (by simp) (by simp)
      simpa [RoaringArray.size, empty] using miss
    · rw [List.concat_eq_append] at split
      rw [split] at last
      have isKey : chunk.key = x := by simpa using last
      have hit := Located.hit front chunk [] split isKey
      simpa [RoaringArray.size, split] using hit
  case isFalse =>
    have search := (binarySearch_search well.sorted x).by_key
    rw [RoaringArray.keys]
    generalize binarySearch (ra.chunks.map Chunk.key) x = loc at search
    cases search with
    | hit pre chunk post split isKey => exact .hit pre chunk post split isKey
    | miss pre post split below above => exact .miss pre post split below above

/-! ## Access at a split -/

section Access

variable {ra : RoaringArray} {pre post : List Chunk} {chunk : Chunk}

theorem getElem_at_split : (pre ++ chunk :: post)[pre.length]? = some chunk := by simp

/-- A position below 65536 survives the conversion to a 16-bit index. -/
theorem toNat_index {i : Nat} (small : i < 65536) : (UInt16.ofNat i).toNat = i := UInt16.toNat_ofNat_of_lt' small

theorem raGetContainerAtIndex_split (split : ra.chunks = pre ++ chunk :: post) (small : pre.length < 65536) :
    raGetContainerAtIndex ra (UInt16.ofNat pre.length) = .ok chunk.container := by
  rw [raGetContainerAtIndex, toNat_index small, split, getElem_at_split]

theorem raGetKeyAtIndex_split (split : ra.chunks = pre ++ chunk :: post) (small : pre.length < 65536) :
    raGetKeyAtIndex ra (UInt16.ofNat pre.length) = .ok chunk.key := by
  rw [raGetKeyAtIndex, toNat_index small, split, getElem_at_split]

theorem raGetKeyAtIndex_first (isChunks : ra.chunks = chunk :: post) : raGetKeyAtIndex ra 0 = .ok chunk.key :=
  raGetKeyAtIndex_split (show ra.chunks = [] ++ chunk :: post from isChunks) (by decide)

/-- A walk that goes on past the chunk at hand. -/
theorem walk_on {P : Container → Prop} {next : Chunk} {pos : Nat} (well : ChunksWell P ra.chunks)
    (split : ra.chunks = pre ++ chunk :: next :: post) (here : pre.length = pos) :
    ra.chunks = (pre ++ [chunk]) ++ next :: post ∧ (pre ++ [chunk]).length = pos + 1 ∧
      raGetKeyAtIndex ra (UInt16.ofNat (pos + 1)) = .ok next.key := by
  have split' : ra.chunks = (pre ++ [chunk]) ++ next :: post := by rw [split, List.append_assoc]; rfl
  have there : (pre ++ [chunk]).length = pos + 1 := by rw [List.length_append, here]; rfl
  have key := raGetKeyAtIndex_split split' (well.index_small split')
  rw [there] at key
  exact ⟨split', there, key⟩

theorem raSetContainerAtIndex_split (split : ra.chunks = pre ++ chunk :: post) (c : SlotContainer) :
    raSetContainerAtIndex ra pre.length c = .ok { ra with chunks := pre ++ { chunk with container := c } :: post } := by
  rw [raSetContainerAtIndex, split, getElem_at_split]
  simp

/-- Containers that are not shared stay as they are. -/
theorem raUnshareContainerAtIndex_split {P : Container → Prop} (split : ra.chunks = pre ++ chunk :: post)
    (small : pre.length < 65536) (holds : chunk.Holds P) :
    raUnshareContainerAtIndex ra (UInt16.ofNat pre.length) = .ok ra := by
  have same : ({ chunk with container := .owned chunk.content } : Chunk) = chunk := by rw [← holds.owned]
  have unchanged : (pre ++ chunk :: post).set pre.length chunk = ra.chunks := by rw [split]; simp
  rw [raUnshareContainerAtIndex, toNat_index small, split, getElem_at_split]
  simp only [holds.owned, getWritableCopyIfShared, ok_bind, same, unchanged, pure_eq]

/-- The allocation grows before it is exceeded. -/
theorem extendArray_spec (ra : RoaringArray) (k : Int) (fits : ra.chunks.length ≤ ra.allocationSize) :
    ∃ allocationSize, extendArray ra k = .ok { allocationSize, chunks := ra.chunks } ∧
      (ra.chunks.length : Int) + k ≤ allocationSize ∧ ra.chunks.length ≤ allocationSize := by
  have isSize : ra.size = ra.chunks.length := rfl
  unfold extendArray
  by_cases short : (ra.allocationSize : Int) < ra.size + k
  · have grown : ra.chunks.length ≤
        (if ra.size < 1024 then 2 * ((ra.size : Int) + k) else 5 * ((ra.size : Int) + k) / 4).toNat := by
      split <;> omega
    refine ⟨_, ?_, ?_, grown⟩
    · rw [if_pos short, reallocArray, raInitWithCapacity, RoaringArray.store, if_pos grown]
    · split <;> omega
  · exact ⟨ra.allocationSize, if_neg short, by omega, fits⟩

/-- Inserting a chunk at a split. -/
theorem raInsertNewKeyValueAt_split (split : ra.chunks = pre ++ post) (fits : ra.chunks.length ≤ ra.allocationSize)
    (key : UInt16) (c : SlotContainer) :
    ∃ ra', raInsertNewKeyValueAt ra pre.length key c = .ok ra' ∧
      ra'.chunks = pre ++ { key, container := c } :: post ∧ ra'.chunks.length ≤ ra'.allocationSize := by
  obtain ⟨allocationSize, grown, room, -⟩ := extendArray_spec ra 1 fits
  have length : (pre ++ { key, container := c } :: post).length ≤ allocationSize := by
    rw [split] at room
    simp only [List.length_append, List.length_cons] at room ⊢
    omega
  refine ⟨{ allocationSize, chunks := pre ++ { key, container := c } :: post }, ?_, rfl, length⟩
  rw [raInsertNewKeyValueAt, grown, ok_bind]
  simp only [split, List.take_left, List.drop_left]
  exact if_pos length

theorem raRemoveAtIndexAndFree_split (split : ra.chunks = pre ++ chunk :: post) :
    raRemoveAtIndexAndFree ra pre.length = { ra with chunks := pre ++ post } := by
  simp [raRemoveAtIndexAndFree, split, List.drop_append]

end Access

end RedisRoaring
