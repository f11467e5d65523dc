import RedisRoaring.Members

/-!
# The in-place union

`roaring_bitmap_or_inplace` walks both bitmaps by their keys. Behind the walk
every chunk of the second bitmap is united into the first; it ends at the end
of the second bitmap, or at the end of the first with the rest of the second
still to be appended (`OrWalked`). The append takes 16-bit indices, and 65536
chunks wrap to an end index of 0: `LostInUnion` says which values that costs.
-/

namespace RedisRoaring

open Exec

variable {A P : Container → Prop} {x1 x2 : RoaringBitmap}

/-! ## Appending copies -/

/-- A well chunk is cloned as it is. -/
theorem cloneUnderTypecode_holds [Stored P] {chunk : Chunk} (holds : chunk.Holds P) :
    cloneUnderTypecode chunk.container = .ok chunk.container := by
  rw [holds.owned, cloneUnderTypecode, containerClone_valid (Stored.valid holds.allowed)]
  rfl

/-- The loop of `ra_append_copy_range` over a stretch of the source. -/
theorem foldlM_raAppendCopyAt [Stored P] {sa ra : RoaringArray} {pre mid post : List Chunk}
    (split : sa.chunks = pre ++ mid ++ post) (holds : ∀ chunk ∈ mid, chunk.Holds P)
    (room : ra.chunks.length + mid.length ≤ ra.allocationSize) :
    (List.range' pre.length mid.length).foldlM (raAppendCopyAt false) (ra, sa) =
      .ok ({ ra with chunks := ra.chunks ++ mid }, sa) := by
  induction mid generalizing pre ra with
  | nil =>
    rw [List.append_nil]
    rfl
  | cons chunk mid ih =>
    have isSplit : sa.chunks = pre ++ chunk :: (mid ++ post) := by rw [split]; simp
    have isNext : sa.chunks = (pre ++ [chunk]) ++ mid ++ post := by rw [split]; simp
    have stored : ra.store (ra.chunks ++ [chunk]) = .ok { ra with chunks := ra.chunks ++ [chunk] } := by
      rw [RoaringArray.store, if_pos]
      simp only [List.length_append, List.length_cons, List.length_nil] at room ⊢
      omega
    have step : raAppendCopyAt false (ra, sa) pre.length = .ok ({ ra with chunks := ra.chunks ++ [chunk] }, sa) := by
      simp only [raAppendCopyAt, isSplit, getElem_at_split, Bool.false_eq_true, if_false,
        cloneUnderTypecode_holds (holds chunk (by simp)), ok_bind, stored, pure_eq]
    have left : ({ ra with chunks := ra.chunks ++ [chunk] } : RoaringArray).chunks.length + mid.length ≤
        ({ ra with chunks := ra.chunks ++ [chunk] } : RoaringArray).allocationSize := by
      simp only [List.length_append, List.length_cons, List.length_nil] at room ⊢
      omega
    have rest := ih isNext (fun c hc => holds c (List.mem_cons_of_mem _ hc)) left
    rw [List.length_append, List.length_singleton] at rest
    rw [List.length_cons, List.range'_succ, List.foldlM_cons, step, ok_bind, rest, List.append_assoc,
      List.singleton_append]

/-- Appending a stretch of a well-formed bitmap. -/
theorem raAppendCopyRange_spec [Stored P] {ra sa : RoaringArray} {pre mid post : List Chunk} (startIndex endIndex : UInt16)
    (split : sa.chunks = pre ++ mid ++ post) (holds : ∀ chunk ∈ mid, chunk.Holds P)
    (fits : ra.chunks.length ≤ ra.allocationSize) (start : mid ≠ [] → startIndex.toNat = pre.length)
    (length : endIndex.toNat - startIndex.toNat = mid.length) :
    ∃ ra', raAppendCopyRange ra sa startIndex endIndex false = .ok (ra', sa) ∧
      ra'.chunks = ra.chunks ++ mid ∧ ra'.chunks.length ≤ ra'.allocationSize := by
  obtain ⟨allocationSize, grown, room, fits'⟩ :=
    extendArray_spec ra ((endIndex.toNat : Int) - startIndex.toNat) fits
  have enough : ra.chunks.length + mid.length ≤ allocationSize := by
    rcases Nat.le_total endIndex.toNat startIndex.toNat with h | h <;> omega
  refine ⟨{ allocationSize, chunks := ra.chunks ++ mid }, ?_, rfl, by simpa using enough⟩
  rw [raAppendCopyRange, grown, ok_bind, length]
  rcases List.eq_nil_or_concat mid with rfl | ⟨front, last, isConcat⟩
  · rw [List.append_nil]
    rfl
  · rw [start (by simp [isConcat])]
    exact foldlM_raAppendCopyAt split holds enough

/-- Cloning every chunk of a well-formed bitmap. -/
theorem mapM_cloneUnderTypecode [Stored P] {chunks : List Chunk} (holds : ∀ chunk ∈ chunks, chunk.Holds P) :
    (chunks.mapM fun chunk => do
      let container ← cloneUnderTypecode chunk.container
      Except.ok { chunk with container }) = (.ok chunks : Outcome (List Chunk)) := by
  induction chunks with
  | nil => rfl
  | cons chunk chunks ih =>
    rw [List.mapM_cons, cloneUnderTypecode_holds (holds chunk (by simp)),
      ih fun c hc => holds c (List.mem_cons_of_mem _ hc)]
    rfl

/-- `roaring_bitmap_overwrite` copies every chunk. -/
theorem roaringBitmapOverwrite_spec [Stored P] (x1 : RoaringBitmap) (well2 : x2.Well P) :
    ∃ x1', roaringBitmapOverwrite x1 x2 = .ok (x1', x2) ∧
      x1'.highLowContainer.chunks = x2.highLowContainer.chunks ∧ x1'.copyOnWrite = x1.copyOnWrite ∧
      x1'.highLowContainer.chunks.length ≤ x1'.highLowContainer.allocationSize := by
  have cloned := mapM_cloneUnderTypecode well2.array.chunks.holds
  have same : ({ x2 with copyOnWrite := false } : RoaringBitmap) = x2 := by rw [← well2.unshared]
  by_cases short : x1.highLowContainer.allocationSize < x2.highLowContainer.size
  · have room : x2.highLowContainer.chunks.length ≤ x2.highLowContainer.size := Nat.le_refl _
    refine ⟨{ x1 with highLowContainer :=
      { allocationSize := x2.highLowContainer.size, chunks := x2.highLowContainer.chunks } }, ?_, rfl, rfl, room⟩
    simp only [roaringBitmapOverwrite, raOverwrite, well2.unshared, short, if_true, reallocArray, raInitWithCapacity,
      RoaringArray.store, List.length_nil, Nat.zero_le, Bool.false_eq_true, if_false, pure_eq, ok_bind, cloned, room,
      same]
  · have room : x2.highLowContainer.chunks.length ≤ x1.highLowContainer.allocationSize := Nat.le_of_not_lt short
    refine ⟨{ x1 with highLowContainer :=
      { x1.highLowContainer with chunks := x2.highLowContainer.chunks } }, ?_, rfl, rfl, room⟩
    simp only [roaringBitmapOverwrite, raOverwrite, well2.unshared, short, RoaringArray.store, Bool.false_eq_true,
      if_false, pure_eq, ok_bind, cloned, room, if_true, same]

/-! ## One round of the walk -/

section Step

variable {pre1 rest1 pre2 rest2 : List Chunk} {c1 c2 : Chunk}

/-- `x1'` is `x1` with a chunk of the second bitmap united into it; its chunks
are `chunks`. -/
structure United (A : Container → Prop) (x1 x1' : RoaringBitmap) (c2 : Chunk) (chunks : List Chunk) : Prop where
  well : x1'.Well A
  chunks : x1'.highLowContainer.chunks = chunks
  keys : ∀ k, k ∈ x1'.highLowContainer.keys ↔ k ∈ x1.highLowContainer.keys ∨ k = c2.key
  values : ∀ v, v ∈ x1'.values ↔ v ∈ x1.values ∨ v ∈ c2.values

/-- The container's members decide what a replaced chunk adds. -/
theorem united_replace (well1 : x1.Well A) (split1 : x1.highLowContainer.chunks = pre1 ++ c1 :: rest1)
    (same : c1.key = c2.key) {c : Container} (allowed : A c) (nonempty : c.values ≠ [])
    (members : ∀ x, x ∈ c.values ↔ x ∈ c1.content.values ∨ x ∈ c2.content.values) :
    United A x1 { x1 with highLowContainer :=
      { x1.highLowContainer with chunks := pre1 ++ { c1 with container := .owned c } :: rest1 } } c2
      (pre1 ++ { c1 with container := .owned c } :: rest1) := by
  have chunks := well1.array.chunks
  have fits := well1.array.fits
  rw [split1] at chunks fits
  refine ⟨⟨⟨chunks.replace (holds_owned allowed nonempty) rfl, by simpa using fits⟩, well1.unshared⟩, rfl,
    ?_, ?_⟩
  · intro k
    simp only [RoaringArray.keys, split1, List.map_append, List.map_cons, List.mem_append, List.mem_cons, ← same]
    tauto
  · intro v
    rw [RoaringBitmap.values, RoaringBitmap.values, split1, mem_chunkValues_owned, mem_chunkValues_split, members,
      mem_chunk_values, ← same]
    tauto

theorem orAligned_spec [Kind A] [Stored P] [Accumulates A P] (well1 : x1.Well A) (well2 : x2.Well P)
    (split1 : x1.highLowContainer.chunks = pre1 ++ c1 :: rest1)
    (split2 : x2.highLowContainer.chunks = pre2 ++ c2 :: rest2) (same : c1.key = c2.key) :
    ∃ x1' c1', orAligned x1 x2 pre1.length pre2.length = .ok x1' ∧ c1'.key = c1.key ∧
      United A x1 x1' c2 (pre1 ++ c1' :: rest1) := by
  have holds1 := well1.array.chunks.holds c1 (by rw [split1]; simp)
  have holds2 := well2.array.chunks.holds c2 (by rw [split2]; simp)
  have small1 := well1.array.chunks.index_small split1
  have small2 := well2.array.chunks.index_small split2
  unfold orAligned
  rw [raGetContainerAtIndex_split split1 small1, ok_bind]
  by_cases full : containerIsFull c1.container = true
  · -- a full chunk has every value of the other
    rw [holds1.owned] at full
    have all := mem_of_containerIsFull holds1.allowed full
    refine ⟨x1, c1, by rw [holds1.owned, if_pos full]; rfl, rfl, ⟨well1, split1, ?_, ?_⟩⟩
    · intro k
      refine ⟨.inl, ?_⟩
      rintro (h | rfl)
      · exact h
      · rw [RoaringArray.keys, split1, ← same]
        simp
    · intro v
      refine ⟨.inl, ?_⟩
      rintro (h | h)
      · exact h
      · rw [RoaringBitmap.values, split1, mem_chunkValues_split]
        exact .inl ⟨(mem_chunk_values.1 h).1.trans same.symm, all _⟩
  · rw [holds1.owned] at full
    obtain ⟨c, run, allowed, members⟩ :=
      Accumulates.union holds1.allowed holds2.allowed full holds1.nonempty holds2.nonempty
    have nonempty : c.values ≠ [] := by
      obtain ⟨x, inside⟩ := List.exists_mem_of_ne_nil _ holds1.nonempty
      exact List.ne_nil_of_mem ((members x).2 (.inl inside))
    refine ⟨_, { c1 with container := .owned c }, ?_, rfl, united_replace well1 split1 same allowed nonempty members⟩
    rw [holds1.owned, if_neg full, getWritableCopyIfShared, raGetContainerAtIndex_split split2 small2, holds2.owned]
    simp only [ok_bind, run, raSetContainerAtIndex_split split1, pure_eq]

theorem orInsert_spec [Stored P] [Accumulates A P] (well1 : x1.Well A) (well2 : x2.Well P)
    (split1 : x1.highLowContainer.chunks = pre1 ++ c1 :: rest1)
    (split2 : x2.highLowContainer.chunks = pre2 ++ c2 :: rest2) (below : ∀ c ∈ pre1, c.key < c2.key)
    (less : c2.key < c1.key) :
    ∃ x1', orInsert x1 x2 pre1.length pre2.length c2.key = .ok (x1', x2) ∧
      United A x1 x1' c2 (pre1 ++ c2 :: c1 :: rest1) := by
  have holds2 := well2.array.chunks.holds c2 (by rw [split2]; simp)
  have small2 := well2.array.chunks.index_small split2
  have chunks := well1.array.chunks
  have above : ∀ c ∈ c1 :: rest1, c2.key < c.key := by
    rw [split1] at chunks
    intro c inside
    rcases List.mem_cons.1 inside with rfl | h
    · exact less
    · exact less.trans (chunks.around.2 c h)
  obtain ⟨ra, inserted, isChunks, fits⟩ :=
    raInsertNewKeyValueAt_split split1 well1.array.fits c2.key c2.container
  refine ⟨{ x1 with highLowContainer := ra }, ?_, ⟨⟨⟨?_, fits⟩, well1.unshared⟩, isChunks, ?_, ?_⟩⟩
  · have copied : getCopyOfContainer c2.container false = .ok c2.container := by
      rw [holds2.owned, getCopyOfContainer, containerClone_valid (Stored.valid holds2.allowed)]
      rfl
    simp only [orInsert, raGetContainerAtIndex_split split2 small2, ok_bind, well2.unshared, copied, Bool.false_eq_true,
      if_false, inserted, pure_eq]
    rw [← well2.unshared]
  · rw [isChunks]
    rw [split1] at chunks
    exact chunks.insert ⟨holds2.owned, Accumulates.copies holds2.allowed, holds2.nonempty⟩ below above
  · intro k
    simp only [RoaringArray.keys, isChunks, split1, List.map_append, List.map_cons, List.mem_append, List.mem_cons]
    tauto
  · intro v
    rw [RoaringBitmap.values, RoaringBitmap.values, isChunks, split1, mem_chunkValues_split, mem_chunk_values]
    tauto

end Step

/-! ## The walk -/

/-- How the walk ends: of the chunks ahead of it in `x2`, `used` are united into
the first bitmap and `left` lie beyond its last key. -/
structure OrWalked (A : Container → Prop) (x1 x2 : RoaringBitmap) (walk : OrWalk) (used left : List Chunk) : Prop where
  well : walk.x1.Well A
  same : walk.x2 = x2
  length : walk.length1 = walk.x1.highLowContainer.size
  pos2 : walk.pos2 + left.length = x2.highLowContainer.size
  values : ∀ v, v ∈ walk.x1.values ↔ v ∈ x1.values ∨ v ∈ chunkValues used
  keys : ∀ k ∈ x1.highLowContainer.keys, k ∈ walk.x1.highLowContainer.keys
  within : ∀ c ∈ used, ∃ k ∈ x1.highLowContainer.keys, c.key ≤ k
  beyond : ∀ c ∈ left, ∀ k ∈ walk.x1.highLowContainer.keys, k < c.key
  finished : walk.pos1 = walk.length1 ∨ left = []

/-- A round before a walk. -/
theorem OrWalked.after {x1' : RoaringBitmap} {c2 : Chunk} {chunks used left : List Chunk} {walk : OrWalk}
    (walked : OrWalked A x1' x2 walk used left) (united : United A x1 x1' c2 chunks)
    (within : ∃ k ∈ x1.highLowContainer.keys, c2.key ≤ k) : OrWalked A x1 x2 walk (c2 :: used) left where
  well := walked.well
  same := walked.same
  length := walked.length
  pos2 := walked.pos2
  values v := by
    rw [walked.values, united.values, chunkValues_cons, List.mem_append, or_assoc]
  keys k inside := walked.keys k ((united.keys k).2 (.inl inside))
  within c inside := by
    rcases List.mem_cons.1 inside with rfl | h
    · exact within
    · obtain ⟨k, isKey, le⟩ := walked.within c h
      rcases (united.keys k).1 isKey with isKey | rfl
      · exact ⟨k, isKey, le⟩
      · obtain ⟨k', isKey', le'⟩ := within
        exact ⟨k', isKey', le.trans le'⟩
  beyond := walked.beyond
  finished := walked.finished

/-- A walk that ends where it stands. -/
theorem OrWalked.here {left : List Chunk} {pos1 pos2 : Nat} (well1 : x1.Well A)
    (rest : pos2 + left.length = x2.highLowContainer.size)
    (beyond : ∀ c ∈ left, ∀ k ∈ x1.highLowContainer.keys, k < c.key)
    (finished : pos1 = x1.highLowContainer.size ∨ left = []) :
    OrWalked A x1 x2 { x1, x2, length1 := x1.highLowContainer.size, pos1, pos2 } [] left :=
  ⟨well1, rfl, rfl, rest, by simp, fun _ h => h, by simp, beyond, finished⟩

/-- Stepping past a chunk keeps the keys behind below the key ahead. -/
theorem behind_step {pre : List Chunk} {chunk : Chunk} {key : UInt16} (behind : ∀ c ∈ pre, c.key < key)
    (last : chunk.key < key) : ∀ c ∈ pre ++ [chunk], c.key < key :=
  List.forall_mem_append.2 ⟨behind, List.forall_mem_singleton.2 last⟩

/-- The keys of a bitmap that ends with the chunk at hand. -/
theorem keys_below {pre1 : List Chunk} {c1 : Chunk} {key : UInt16}
    (split1 : x1.highLowContainer.chunks = pre1 ++ [c1]) (behind : ∀ c ∈ pre1, c.key < key) (last : c1.key < key) :
    ∀ k ∈ x1.highLowContainer.keys, k < key := by
  intro k inside
  rw [RoaringArray.keys, split1] at inside
  obtain ⟨c, member, rfl⟩ := List.mem_map.1 inside
  exact behind_step behind last c member

/-- The walk succeeds from any position where the chunks behind it in `x1` have
keys below those ahead of it in `x2`. -/
theorem orWalkLoop_spec [Kind A] [Stored P] [Accumulates A P] {x1 : RoaringBitmap} {c1 c2 : Chunk} {pre1 rest1 pre2 rest2 : List Chunk} {pos1 pos2 : Nat}
    (well1 : x1.Well A) (well2 : x2.Well P)
    (split1 : x1.highLowContainer.chunks = pre1 ++ c1 :: rest1) (at1 : pre1.length = pos1)
    (split2 : x2.highLowContainer.chunks = pre2 ++ c2 :: rest2) (at2 : pre2.length = pos2)
    (behind : ∀ c ∈ pre1, c.key < c2.key) :
    ∃ walk used left, orWalkLoop x2.highLowContainer.size x1 x2 x1.highLowContainer.size pos1 pos2
      c1.key c2.key = .ok walk ∧ c2 :: rest2 = used ++ left ∧ OrWalked A x1 x2 walk used left := by
  induction total : rest1.length + rest2.length using Nat.strong_induction_on
    generalizing x1 c1 c2 pre1 rest1 pre2 rest2 pos1 pos2 with | _ total ih
  have size1 : x1.highLowContainer.size = pos1 + (rest1.length + 1) := by
    rw [RoaringArray.size, split1, List.length_append, List.length_cons, at1]
  have size2 : x2.highLowContainer.size = pos2 + (rest2.length + 1) := by
    rw [RoaringArray.size, split2, List.length_append, List.length_cons, at2]
  have isKey1 : c1.key ∈ x1.highLowContainer.keys := by simp [RoaringArray.keys, split1]
  have above2 : ∀ c ∈ rest2, c2.key < c.key := well2.array.chunks.above split2
  unfold orWalkLoop
  rcases lt_trichotomy c1.key c2.key with less | same | greater
  · -- `s1 < s2`: one step in the first bitmap
    simp only [ne_of_lt less, less, if_false, if_true]
    cases rest1 with
    | nil =>
      have keys := keys_below split1 behind less
      refine ⟨_, [], c2 :: rest2, if_pos (by simp [size1]), rfl, .here well1 size2.symm (fun c inside k isKey => ?_)
        (.inl size1.symm)⟩
      rcases List.mem_cons.1 inside with rfl | h
      · exact keys k isKey
      · exact (keys k isKey).trans (above2 c h)
    | cons c1' rest1 =>
      obtain ⟨next, at1', key⟩ := walk_on well1.array.chunks split1 at1
      obtain ⟨walk, used, left, run, isRest, walked⟩ := ih _ (by rw [← total, List.length_cons]; omega)
        well1 next at1' split2 at2 (behind_step behind less) rfl
      refine ⟨walk, used, left, ?_, isRest, walked⟩
      rw [if_neg (by simp [size1]), key, ok_bind, run]
  · -- `s1 == s2`: the containers are united
    obtain ⟨x1', c1', aligned, isKey, united⟩ := orAligned_spec well1 well2 split1 split2 same
    rw [at1, at2] at aligned
    have size' : x1'.highLowContainer.size = x1.highLowContainer.size := by
      rw [size1, RoaringArray.size, united.chunks, List.length_append, List.length_cons, at1]
    have within : ∃ k ∈ x1.highLowContainer.keys, c2.key ≤ k := ⟨c1.key, isKey1, le_of_eq same.symm⟩
    have rest : pos2 + 1 + rest2.length = x2.highLowContainer.size := by omega
    have last : c1'.key = c2.key := isKey.trans same
    have behind' : ∀ c ∈ rest2, ∀ d ∈ pre1 ++ [c1'], d.key < c.key := by
      intro c inside
      exact behind_step (fun d h => (behind d h).trans (above2 c inside)) (last ▸ above2 c inside)
    simp only [same, if_true, aligned, ok_bind, pure_eq]
    cases rest1 with
    | nil =>
      refine ⟨_, [c2], rest2, if_pos (by simp [size1]), rfl, ?_⟩
      rw [← size']
      refine (OrWalked.here united.well rest (fun c inside => ?_) (.inl (by rw [size', size1]; rfl))).after united within
      exact keys_below united.chunks (fun d h => behind' c inside d (List.mem_append_left _ h))
        (behind' c inside c1' (by simp))
    | cons c1'' rest1 =>
      rw [if_neg (by simp [size1])]
      cases rest2 with
      | nil =>
        refine ⟨_, [c2], [], if_pos (by simp [size2]), rfl, ?_⟩
        rw [← size']
        exact (OrWalked.here united.well rest (by simp) (.inr rfl)).after united within
      | cons c2' rest2 =>
        obtain ⟨next1, at1', key1⟩ := walk_on united.well.array.chunks united.chunks at1
        obtain ⟨next2, at2', key2⟩ := walk_on well2.array.chunks split2 at2
        obtain ⟨walk, used, left, run, isRest, walked⟩ :=
          ih _ (by rw [← total, List.length_cons, List.length_cons]; omega) united.well next1 at1' next2 at2'
            (behind' c2' (by simp)) rfl
        refine ⟨walk, c2 :: used, left, ?_, by rw [isRest]; rfl, walked.after united within⟩
        rw [if_neg (by simp [size2]), key1, key2, ok_bind, ok_bind, ← size', run]
  · -- `s1 > s2`: a copy is inserted
    obtain ⟨x1', inserted, united⟩ := orInsert_spec well1 well2 split1 split2 behind greater
    rw [at1, at2] at inserted
    have size' : x1'.highLowContainer.size = x1.highLowContainer.size + 1 := by
      rw [size1, RoaringArray.size, united.chunks, List.length_append, List.length_cons, List.length_cons, at1]
      rfl
    have within : ∃ k ∈ x1.highLowContainer.keys, c2.key ≤ k := ⟨c1.key, isKey1, le_of_lt greater⟩
    simp only [ne_of_gt greater, not_lt_of_gt greater, if_false, inserted, ok_bind, pure_eq, ← size']
    cases rest2 with
    | nil =>
      refine ⟨_, [c2], [], if_pos (by simp [size2]), rfl, ?_⟩
      exact (OrWalked.here united.well size2.symm (by simp) (.inr rfl)).after united within
    | cons c2' rest2 =>
      obtain ⟨next1, at1', -⟩ := walk_on united.well.array.chunks united.chunks at1
      obtain ⟨next2, at2', key2⟩ := walk_on well2.array.chunks split2 at2
      have next : c2.key < c2'.key := above2 c2' (by simp)
      have behind' : ∀ d ∈ pre1 ++ [c2], d.key < c2'.key := behind_step (fun d h => (behind d h).trans next) next
      obtain ⟨walk, used, left, run, isRest, walked⟩ := ih _ (by rw [← total, List.length_cons]; omega)
        united.well next1 at1' next2 at2' behind' rfl
      refine ⟨walk, c2 :: used, left, ?_, by rw [isRest]; rfl, walked.after united within⟩
      rw [if_neg (by simp [size2]), key2, ok_bind, run]

/-! ## The union -/

/-- The values of `x2` that the in-place union drops: those beyond the last key
of a nonempty `x1`, when `x2` has all 65536 chunks. -/
def LostInUnion (x1 x2 : RoaringBitmap) (v : UInt32) : Prop :=
  x2.highLowContainer.size = 65536 ∧ x1.highLowContainer.size ≠ 0 ∧ ∀ k ∈ x1.highLowContainer.keys, k < highBits v

section Ends

variable {walk : OrWalk} {used left : List Chunk}

theorem OrWalked.not_lost (walked : OrWalked A x1 x2 walk used left) {v : UInt32} (member : v ∈ chunkValues used) :
    ¬ LostInUnion x1 x2 v := by
  intro given
  obtain ⟨-, -, beyond⟩ := given
  obtain ⟨c, inside, isKey, -⟩ := mem_chunkValues.1 member
  obtain ⟨k, isKey', le⟩ := walked.within c inside
  exact absurd (beyond k isKey') (not_lt_of_ge (isKey ▸ le))

theorem OrWalked.lost (walked : OrWalked A x1 x2 walk used left) (all : x2.highLowContainer.size = 65536)
    (some : x1.highLowContainer.size ≠ 0) {v : UInt32} (member : v ∈ chunkValues left) : LostInUnion x1 x2 v := by
  obtain ⟨c, inside, isKey, -⟩ := mem_chunkValues.1 member
  exact ⟨all, some, fun k isKey' => isKey ▸ walked.beyond c inside k (walked.keys k isKey')⟩

/-- The append after a walk to the end of the first bitmap. -/
theorem append_after_walk [Stored P] [Accumulates A P] (well2 : x2.Well P) (walked : OrWalked A x1 x2 walk used left)
    (split2 : x2.highLowContainer.chunks = used ++ left) (some : x1.highLowContainer.size ≠ 0) :
    ∃ ra, raAppendCopyRange walk.x1.highLowContainer walk.x2.highLowContainer (UInt16.ofNat walk.pos2)
        (UInt16.ofNat x2.highLowContainer.size) walk.x2.copyOnWrite = .ok (ra, x2.highLowContainer) ∧
      ra.Well A ∧
      ∀ v, v ∈ chunkValues ra.chunks ↔ v ∈ x1.values ∨ v ∈ x2.values ∧ ¬ LostInUnion x1 x2 v := by
  have size2 := well2.array.chunks.length_le
  have chunks2 := well2.array.chunks
  have length : x2.highLowContainer.chunks.length = used.length + left.length := by rw [split2, List.length_append]
  have isPos2 : walk.pos2 = used.length := by
    have := walked.pos2
    rw [RoaringArray.size, length] at this
    omega
  have values2 : ∀ v, v ∈ x2.values ↔ v ∈ chunkValues used ∨ v ∈ chunkValues left := by
    intro v
    rw [RoaringBitmap.values, split2, chunkValues_append, List.mem_append]
  have notLost : ∀ {v}, v ∈ chunkValues used → ¬ LostInUnion x1 x2 v := walked.not_lost
  rw [walked.same, well2.unshared]
  by_cases all : x2.highLowContainer.size = 65536
  · -- the end index wraps to 0 and nothing is appended
    obtain ⟨ra, run, isChunks, fits⟩ := raAppendCopyRange_spec (P := P) (UInt16.ofNat walk.pos2)
      (UInt16.ofNat x2.highLowContainer.size)
      (show x2.highLowContainer.chunks = used ++ [] ++ left by simpa using split2) (by simp) walked.well.array.fits
      (by simp) (by rw [all]; simp)
    rw [List.append_nil] at isChunks
    have lost : ∀ {v}, v ∈ chunkValues left → LostInUnion x1 x2 v := walked.lost all some
    refine ⟨ra, run, ⟨isChunks ▸ walked.well.array.chunks, fits⟩, ?_⟩
    intro v
    rw [isChunks, show (v ∈ chunkValues walk.x1.highLowContainer.chunks ↔ _) from walked.values v, values2]
    have dropped := @lost v
    have kept := @notLost v
    tauto
  · -- every chunk that is left is appended
    rw [RoaringArray.size] at all
    have isEnd : (UInt16.ofNat x2.highLowContainer.size).toNat = x2.highLowContainer.chunks.length :=
      toNat_index (by rw [RoaringArray.size]; omega)
    have isStart : (UInt16.ofNat walk.pos2).toNat = used.length := by rw [isPos2, toNat_index (by omega)]
    obtain ⟨ra, run, isChunks, fits⟩ := raAppendCopyRange_spec (UInt16.ofNat walk.pos2)
      (UInt16.ofNat x2.highLowContainer.size)
      (show x2.highLowContainer.chunks = used ++ left ++ [] by simpa using split2)
      (fun c inside => chunks2.holds c (by rw [split2]; exact List.mem_append_right _ inside)) walked.well.array.fits
      (fun _ => isStart) (by omega)
    refine ⟨ra, run, ⟨?_, fits⟩, ?_⟩
    · rw [isChunks]
      rw [split2] at chunks2
      refine walked.well.array.chunks.append ((chunks2.sublist (List.sublist_append_right ..)).mono fun _ => Accumulates.copies)
        fun c inside d inside' => walked.beyond d inside' c.key (List.mem_map_of_mem inside)
    · intro v
      have kept : ¬ LostInUnion x1 x2 v := fun lost => all lost.1
      rw [isChunks, chunkValues_append, List.mem_append,
        show (v ∈ chunkValues walk.x1.highLowContainer.chunks ↔ _) from walked.values v, values2]
      tauto

end Ends

/-- **The in-place union.** It leaves the second bitmap alone and adds its
values to the first, except those that are lost to the 16-bit end index. -/
theorem roaringBitmapOrInplace_spec [Kind A] [Stored P] [Accumulates A P] (well1 : x1.Well A) (well2 : x2.Well P) :
    ∃ x1', roaringBitmapOrInplace x1 x2 = .ok (x1', x2) ∧ x1'.Well A ∧
      ∀ v, v ∈ x1'.values ↔ v ∈ x1.values ∨ v ∈ x2.values ∧ ¬ LostInUnion x1 x2 v := by
  unfold roaringBitmapOrInplace
  rcases isChunks2 : x2.highLowContainer.chunks with _ | ⟨c2, rest2⟩
  · have none2 : x2.highLowContainer.size = 0 := by rw [RoaringArray.size, isChunks2]; rfl
    refine ⟨x1, by simp only [none2, if_true, pure_eq], well1, ?_⟩
    intro v
    rw [x2.values_eq isChunks2]
    simp
  have some2 : x2.highLowContainer.size ≠ 0 := by simp [RoaringArray.size, isChunks2]
  rcases isChunks1 : x1.highLowContainer.chunks with _ | ⟨c1, rest1⟩
  · have none1 : x1.highLowContainer.size = 0 := by rw [RoaringArray.size, isChunks1]; rfl
    obtain ⟨x1', run, isChunks, unshared, fits⟩ := roaringBitmapOverwrite_spec x1 well2
    refine ⟨x1', by simp only [some2, none1, if_true, if_false, run, pure_eq],
      ⟨⟨isChunks ▸ well2.array.chunks.mono fun _ => Accumulates.copies, fits⟩, unshared.trans well1.unshared⟩, ?_⟩
    intro v
    have kept : ¬ LostInUnion x1 x2 v := fun lost => lost.2.1 none1
    rw [RoaringBitmap.values, isChunks, x1.values_eq isChunks1]
    simp [kept, RoaringBitmap.values]
  have some1 : x1.highLowContainer.size ≠ 0 := by simp [RoaringArray.size, isChunks1]
  have key1 := raGetKeyAtIndex_first isChunks1
  have key2 := raGetKeyAtIndex_first isChunks2
  obtain ⟨walk, used, left, run, isRest, walked⟩ :=
    orWalkLoop_spec well1 well2 (show x1.highLowContainer.chunks = [] ++ c1 :: rest1 from isChunks1) List.length_nil
      (show x2.highLowContainer.chunks = [] ++ c2 :: rest2 from isChunks2) List.length_nil (by simp)
  simp only [some1, some2, if_false, key1, key2, run, ok_bind]
  have split2 := isChunks2.trans isRest
  by_cases atEnd : walk.pos1 = walk.length1
  · obtain ⟨ra, appended, well, values⟩ := append_after_walk well2 walked split2 some1
    have same : ({ walk.x2 with highLowContainer := x2.highLowContainer } : RoaringBitmap) = x2 := by rw [walked.same]
    refine ⟨{ walk.x1 with highLowContainer := ra }, ?_, ⟨well, walked.well.unshared⟩, values⟩
    simp only [atEnd, if_true, appended, ok_bind, pure_eq, same]
  · refine ⟨walk.x1, by simp only [atEnd, if_false, walked.same, pure_eq], walked.well, ?_⟩
    intro v
    have allUsed : left = [] := walked.finished.resolve_left atEnd
    rw [allUsed, List.append_nil] at split2
    rw [walked.values, x2.values_eq split2]
    have kept : v ∈ chunkValues used → ¬ LostInUnion x1 x2 v := walked.not_lost
    tauto

end RedisRoaring
