import RedisRoaring.InplaceDifference
import RedisRoaring.Union

/-!
# The difference in a new bitmap

`roaring_bitmap_andnot` gallops over both bitmaps: the stretches of the first
that the second does not reach are copied whole. The last of them is appended
by 16-bit indices, and is lost when the first bitmap has all 65536 chunks.
-/

namespace RedisRoaring

open Exec

/-! ## The algorithm -/

/-- The walk of `roaring_bitmap_andnot`. -/
structure PlainAndnotWalk where
  answer : RoaringBitmap
  x1 : RoaringBitmap
  pos1 : Nat
  pos2 : Nat
  deriving DecidableEq, Repr

/-- The branch `s1 == s2`: the difference of the containers is appended unless it is empty. -/
def plainAndnotAligned (answer x1 x2 : RoaringBitmap) (pos1 pos2 : Nat) (s1 : UInt16) : Outcome RoaringBitmap := do
  let c1 ← raGetContainerAtIndex x1.highLowContainer (UInt16.ofNat pos1)
  let c2 ← raGetContainerAtIndex x2.highLowContainer (UInt16.ofNat pos2)
  let c ← containerAndnot c1 c2
  if containerNonzeroCardinality (.owned c) then
    return { answer with highLowContainer := ← raAppend answer.highLowContainer s1 (.owned c) }
  else return answer

/-- `ra_append_copy_range` onto the answer. -/
def plainAndnotCopy (answer x1 : RoaringBitmap) (startIndex endIndex : Nat) :
    Outcome (RoaringBitmap × RoaringBitmap) := do
  let (ra, source) ← raAppendCopyRange answer.highLowContainer x1.highLowContainer (UInt16.ofNat startIndex)
    (UInt16.ofNat endIndex) x1.copyOnWrite
  return ({ answer with highLowContainer := ra }, { x1 with highLowContainer := source })

/-- The loop of `roaring_bitmap_andnot`. It breaks when a position reaches its length. -/
def plainAndnotLoop (x2 : RoaringBitmap) (length1 length2 : Nat) (answer x1 : RoaringBitmap) (pos1 pos2 : Nat) :
    Outcome PlainAndnotWalk := do
  let s1 ← raGetKeyAtIndex x1.highLowContainer (UInt16.ofNat pos1)
  let s2 ← raGetKeyAtIndex x2.highLowContainer (UInt16.ofNat pos2)
  if s1 = s2 then
    let answer ← plainAndnotAligned answer x1 x2 pos1 pos2 s1
    if length1 ≤ pos1 + 1 then return { answer, x1, pos1 := pos1 + 1, pos2 := pos2 + 1 }
    else if length2 ≤ pos2 + 1 then return { answer, x1, pos1 := pos1 + 1, pos2 := pos2 + 1 }
    else plainAndnotLoop x2 length1 length2 answer x1 (pos1 + 1) (pos2 + 1)
  else if s1 < s2 then
    let nextPos1 := raAdvanceUntil x1.highLowContainer s2 pos1
    have _forward : pos1 < nextPos1 := SortedList.le_gallop x1.highLowContainer.keys (pos1 + 1) s2
    let (answer, x1) ← plainAndnotCopy answer x1 pos1 nextPos1
    if length1 ≤ nextPos1 then return { answer, x1, pos1 := nextPos1, pos2 }
    else plainAndnotLoop x2 length1 length2 answer x1 nextPos1 pos2
  else
    let nextPos2 := raAdvanceUntil x2.highLowContainer s1 pos2
    have _forward : pos2 < nextPos2 := SortedList.le_gallop x2.highLowContainer.keys (pos2 + 1) s1
    if length2 ≤ nextPos2 then return { answer, x1, pos1, pos2 := nextPos2 }
    else plainAndnotLoop x2 length1 length2 answer x1 pos1 nextPos2
termination_by (length1 - pos1) + (length2 - pos2)

/-- `roaring_bitmap_andnot`: the answer and the first bitmap. -/
def roaringBitmapAndnot (x1 x2 : RoaringBitmap) : Outcome (RoaringBitmap × RoaringBitmap) := do
  let length1 := x1.highLowContainer.size
  let length2 := x2.highLowContainer.size
  if length1 = 0 then
    return ({ roaringBitmapCreate with copyOnWrite := x1.copyOnWrite && x2.copyOnWrite }, x1)
  if length2 = 0 then return ← roaringBitmapCopy x1
  let answer := roaringBitmapCreateWithCapacity length1
  let answer := { answer with copyOnWrite := x1.copyOnWrite && x2.copyOnWrite }
  let walk ← plainAndnotLoop x2 length1 length2 answer x1 0 0
  if walk.pos2 = length2 then return ← plainAndnotCopy walk.answer walk.x1 walk.pos1 length1
  else return (walk.answer, walk.x1)

/-! ## The walk -/

/-- Where the walk stands: the answer has what is behind it in the first bitmap
and not in the second, and all of this is below what is ahead. -/
structure AndnotPosition (x1 x2 answer : RoaringBitmap) (used1 left1 used2 left2 : List Chunk) : Prop where
  split1 : x1.highLowContainer.chunks = used1 ++ left1
  split2 : x2.highLowContainer.chunks = used2 ++ left2
  well : answer.Well Container.Valid
  values : ∀ v, v ∈ answer.values ↔ v ∈ chunkValues used1 ∧ v ∉ x2.values
  ahead : ∀ c ∈ answer.highLowContainer.chunks, ∀ d ∈ left1, c.key < d.key
  behind : ∀ c ∈ used2, ∀ d ∈ left1, c.key < d.key
  within : ∀ c ∈ used1, ∃ d ∈ x2.highLowContainer.chunks, c.key ≤ d.key

section Walk

variable {answer x1 x2 : RoaringBitmap} {used1 left1 used2 left2 : List Chunk} {c1 c2 : Chunk}

/-- A stretch of the first bitmap that the second does not reach is appended. -/
theorem AndnotPosition.append {stretch : List Chunk}
    (position : AndnotPosition x1 x2 answer used1 (stretch ++ left1) used2 left2) (well1 : x1.Well Container.Valid)
    (small : used1.length + stretch.length < 65536) (reaches : ∀ c ∈ stretch, ∀ d ∈ left2, c.key < d.key)  :
    ∃ answer', plainAndnotCopy answer x1 used1.length (used1.length + stretch.length) = .ok (answer', x1) ∧
      answer'.Well Container.Valid ∧ answer'.highLowContainer.chunks = answer.highLowContainer.chunks ++ stretch ∧
      ∀ v, v ∈ answer'.values ↔ v ∈ chunkValues (used1 ++ stretch) ∧ v ∉ x2.values := by
  have chunks1 := well1.array.chunks
  have split1 := position.split1
  have part : ChunksWell Container.Valid stretch := by
    rw [split1] at chunks1
    exact chunks1.sublist ((List.sublist_append_left ..).trans (List.sublist_append_right ..))
  have isStart : (UInt16.ofNat used1.length).toNat = used1.length := toNat_index (by omega)
  have isEnd : (UInt16.ofNat (used1.length + stretch.length)).toNat = used1.length + stretch.length := toNat_index small
  obtain ⟨ra, run, chunks, fits⟩ := raAppendCopyRange_spec (UInt16.ofNat used1.length)
    (UInt16.ofNat (used1.length + stretch.length))
    (show x1.highLowContainer.chunks = used1 ++ stretch ++ left1 by rw [split1, List.append_assoc])
    part.holds position.well.array.fits (fun _ => isStart) (by omega)
  have same : ({ x1 with copyOnWrite := false } : RoaringBitmap) = x1 := by rw [← well1.unshared]
  refine ⟨{ answer with highLowContainer := ra }, ?_, ⟨⟨?_, fits⟩, position.well.unshared⟩, chunks, fun v => ?_⟩
  · simp only [plainAndnotCopy, well1.unshared, run, ok_bind, same, pure_eq]
  · rw [chunks]
    exact position.well.array.chunks.append part fun c inside d here =>
      position.ahead c inside d (List.mem_append_left _ here)
  · have apart : v ∈ chunkValues stretch → v ∉ x2.values := by
      rw [x2.values_eq position.split2, chunkValues_append, List.mem_append, not_or]
      intro member
      exact ⟨chunkValues_apart (fun c here d before =>
          ne_of_gt (position.behind d before c (List.mem_append_left _ here))) member,
        chunkValues_apart (fun c here d later => ne_of_lt (reaches c here d later)) member⟩
    have values : v ∈ chunkValues answer.highLowContainer.chunks ↔ _ := position.values v
    rw [RoaringBitmap.values, chunks, chunkValues_append, chunkValues_append, List.mem_append, List.mem_append, values]
    tauto

/-- The chunks at hand have the same key. -/
theorem AndnotPosition.align (position : AndnotPosition x1 x2 answer used1 (c1 :: left1) used2 (c2 :: left2))
    (well1 : x1.Well Container.Valid) (well2 : x2.Well Container.Valid) (same : c1.key = c2.key) :
    ∃ answer', plainAndnotAligned answer x1 x2 used1.length used2.length c1.key = .ok answer' ∧
      AndnotPosition x1 x2 answer' (used1 ++ [c1]) left1 (used2 ++ [c2]) left2 := by
  have split1 := position.split1
  have split2 := position.split2
  have holds1 := well1.array.chunks.holds c1 (by rw [split1]; simp)
  have holds2 := well2.array.chunks.holds c2 (by rw [split2]; simp)
  have above1 := well1.array.chunks.above split1
  obtain ⟨c, run, valid, members⟩ := containerAndnot_valid holds1.allowed holds2.allowed holds1.nonempty
  have appended : ∀ v, v ∈ c1.values ∧ v ∉ x2.values ↔ highBits v = c1.key ∧ lowBits v ∈ c.values := by
    intro v
    have others : highBits v = c2.key → v ∉ chunkValues (used2 ++ left2) := by
      have chunks2 := well2.array.chunks
      rw [split2] at chunks2
      exact chunks2.not_mem_others
    rw [x2.values_eq split2, mem_chunkValues_split, mem_chunk_values, members, ← same]
    rw [← same] at others
    tauto
  have behind : ∀ d ∈ used2 ++ [c2], ∀ e ∈ left1, d.key < e.key := by
    intro d inside e later
    rcases List.mem_append.1 inside with before | here
    · exact position.behind d before e (List.mem_cons_of_mem _ later)
    · rw [List.mem_singleton.1 here, ← same]
      exact above1 e later
  have within : ∀ d ∈ used1 ++ [c1], ∃ e ∈ x2.highLowContainer.chunks, d.key ≤ e.key := by
    intro d inside
    rcases List.mem_append.1 inside with before | here
    · exact position.within d before
    · rw [List.mem_singleton.1 here]
      exact ⟨c2, by rw [split2]; simp, same.le⟩
  have isSplit1 : x1.highLowContainer.chunks = (used1 ++ [c1]) ++ left1 := by rw [split1, List.append_assoc]; rfl
  have isSplit2 : x2.highLowContainer.chunks = (used2 ++ [c2]) ++ left2 := by rw [split2, List.append_assoc]; rfl
  simp only [plainAndnotAligned, raGetContainerAtIndex_split split1 (well1.array.chunks.index_small split1),
    raGetContainerAtIndex_split split2 (well2.array.chunks.index_small split2), ok_bind, holds1.owned, holds2.owned, run]
  by_cases some : containerNonzeroCardinality (.owned c) = true
  · have nonempty := (containerNonzeroCardinality_spec valid).1 some
    have holds : Chunk.Holds Container.Valid { key := c1.key, container := .owned c } := holds_owned valid nonempty
    obtain ⟨ra, grown, chunks, well⟩ :=
      raAppend_spec position.well holds fun d inside => position.ahead d inside c1 (by simp)
    have grown' : raAppend answer.highLowContainer c1.key (.owned c) = .ok ra := grown
    refine ⟨{ answer with highLowContainer := ra }, by rw [if_pos some, grown', ok_bind, pure_eq], isSplit1, isSplit2, well, fun v => ?_, ?_,
      behind, within⟩
    · have values : v ∈ chunkValues answer.highLowContainer.chunks ↔ _ := position.values v
      rw [RoaringBitmap.values, chunks, chunkValues_append, chunkValues_append, List.mem_append, List.mem_append,
        values, chunkValues_cons, chunkValues_cons, chunkValues_nil, List.append_nil, List.append_nil]
      have content : v ∈ Chunk.values { key := c1.key, container := .owned c } ↔ _ := mem_chunk_values.trans (appended v).symm
      rw [content]
      tauto
    · intro d inside e later
      rw [chunks] at inside
      rcases List.mem_append.1 inside with before | here
      · exact position.ahead d before e (List.mem_cons_of_mem _ later)
      · rw [List.mem_singleton.1 here]
        exact above1 e later
  · have empty : c.values = [] := not_not.1 fun h => some ((containerNonzeroCardinality_spec valid).2 h)
    refine ⟨answer, by rw [if_neg some, pure_eq], isSplit1, isSplit2, position.well, fun v => ?_, ?_, behind, within⟩
    · have none := appended v
      rw [empty] at none
      rw [position.values, chunkValues_append, chunkValues_cons, chunkValues_nil, List.append_nil, List.mem_append]
      have gone : ¬ (v ∈ c1.values ∧ v ∉ x2.values) := fun here => List.not_mem_nil (none.1 here).2
      tauto
    · exact fun d inside e later => position.ahead d inside e (List.mem_cons_of_mem _ later)

/-- Chunks with keys below a key are not all 65536. -/
theorem length_below {chunks : List Chunk} (well : ChunksWell Container.Valid chunks) {key : UInt16}
    (below : ∀ c ∈ chunks, c.key < key) : chunks.length < 65536 := by
  have absent : key ∉ chunks.map Chunk.key := by
    intro member
    obtain ⟨c, inside, same⟩ := List.mem_map.1 member
    exact absurd same (ne_of_lt (below c inside))
  have length := MachineOrder.length_le_of_nodup (List.nodup_cons.2 ⟨absent, SortedList.nodup_of_sorted well.sorted⟩)
  rwa [List.length_cons, List.length_map] at length

/-- The search in the first bitmap: the stretch it skips is appended. -/
theorem AndnotPosition.copy (position : AndnotPosition x1 x2 answer used1 (c1 :: left1) used2 (c2 :: left2))
    (well1 : x1.Well Container.Valid) (well2 : x2.Well Container.Valid) (less : c1.key < c2.key) :
    ∃ answer' stretch left, c1 :: left1 = stretch ++ left ∧ 0 < stretch.length ∧
      raAdvanceUntil x1.highLowContainer c2.key used1.length = used1.length + stretch.length ∧
      plainAndnotCopy answer x1 used1.length (used1.length + stretch.length) = .ok (answer', x1) ∧
      AndnotPosition x1 x2 answer' (used1 ++ stretch) left used2 (c2 :: left2) := by
  have chunks1 := well1.array.chunks
  have above2 := well2.array.chunks.above position.split2
  obtain ⟨stretch, left, isLeft, some, advanced, below⟩ := raAdvanceUntil_spec chunks1 position.split1 rfl less
  have position' := position
  rw [isLeft] at position'
  have sorted := chunks1
  rw [position'.split1] at sorted
  have small : used1.length + stretch.length < 65536 := by
    rw [← List.append_assoc] at sorted
    rw [← List.length_append]
    refine @length_below _ (sorted.sublist (List.sublist_append_left ..)) c2.key fun c inside => ?_
    rcases List.mem_append.1 inside with before | here
    · have first : c1.key < c2.key := less
      have order := chunks1
      rw [position.split1] at order
      exact (order.around.1 c before).trans first
    · exact below c here
  have reaches : ∀ c ∈ stretch, ∀ d ∈ c2 :: left2, c.key < d.key := by
    intro c here d later
    rcases List.mem_cons.1 later with rfl | after
    · exact below c here
    · exact (below c here).trans (above2 d after)
  obtain ⟨answer', run, well, chunks, values⟩ := position'.append well1 small reaches
  refine ⟨answer', stretch, left, isLeft, some, advanced, run, by rw [List.append_assoc]; exact position'.split1,
    position.split2, well, values, ?_, fun c here d later => position'.behind c here d (List.mem_append_right _ later), ?_⟩
  · intro c inside d later
    rw [chunks] at inside
    rcases List.mem_append.1 inside with before | here
    · exact position'.ahead c before d (List.mem_append_right _ later)
    · have pairs := (sorted.sublist (List.sublist_append_right ..)).sorted
      rw [List.map_append] at pairs
      exact (List.pairwise_append.1 pairs).2.2 _ (List.mem_map_of_mem here) _ (List.mem_map_of_mem later)
  · intro c inside
    rcases List.mem_append.1 inside with before | here
    · exact position.within c before
    · exact ⟨c2, by rw [position.split2]; simp, (below c here).le⟩

/-- The search in the second bitmap. -/
theorem AndnotPosition.skip (position : AndnotPosition x1 x2 answer used1 (c1 :: left1) used2 (c2 :: left2))
    (well1 : x1.Well Container.Valid) (well2 : x2.Well Container.Valid) (greater : c2.key < c1.key) :
    ∃ skipped left, c2 :: left2 = skipped ++ left ∧ 0 < skipped.length ∧
      raAdvanceUntil x2.highLowContainer c1.key used2.length = used2.length + skipped.length ∧
      AndnotPosition x1 x2 answer used1 (c1 :: left1) (used2 ++ skipped) left := by
  have above1 := well1.array.chunks.above position.split1
  obtain ⟨skipped, left, isLeft, some, advanced, below⟩ :=
    raAdvanceUntil_spec well2.array.chunks position.split2 rfl greater
  refine ⟨skipped, left, isLeft, some, advanced, position.split1,
    by rw [position.split2, isLeft, List.append_assoc], position.well, position.values, position.ahead, ?_, position.within⟩
  intro c inside d later
  rcases List.mem_append.1 inside with before | here
  · exact position.behind c before d later
  · rcases List.mem_cons.1 later with rfl | after
    · exact below c here
    · exact (below c here).trans (above1 d after)

end Walk

/-- How the walk ends: at the end of one of the bitmaps. -/
structure PlainAndnotWalked (x1 x2 : RoaringBitmap) (walk : PlainAndnotWalk) (used1 left1 used2 left2 : List Chunk) : Prop where
  position : AndnotPosition x1 x2 walk.answer used1 left1 used2 left2
  same : walk.x1 = x1
  pos1 : used1.length = walk.pos1
  pos2 : used2.length = walk.pos2
  finished : left1 = [] ∨ left2 = []

section Loop

variable {answer x1 x2 : RoaringBitmap} {used1 left1 used2 left2 : List Chunk} {c1 c2 : Chunk} {pos1 pos2 : Nat}

/-- The walk succeeds from any position. -/
theorem plainAndnotLoop_spec (well1 : x1.Well Container.Valid) (well2 : x2.Well Container.Valid)
    (position : AndnotPosition x1 x2 answer used1 (c1 :: left1) used2 (c2 :: left2)) (at1 : used1.length = pos1)
    (at2 : used2.length = pos2) :
    ∃ walk used1' left1' used2' left2',
      plainAndnotLoop x2 x1.highLowContainer.size x2.highLowContainer.size answer x1 pos1 pos2 = .ok walk ∧
        PlainAndnotWalked x1 x2 walk used1' left1' used2' left2' := by
  induction total : left1.length + left2.length using Nat.strong_induction_on
    generalizing answer used1 left1 used2 left2 c1 c2 pos1 pos2 with | _ total ih
  have size1 := size_at position.split1 at1
  have size2 := size_at position.split2 at2
  have key1 := raGetKeyAtIndex_split position.split1 (well1.array.chunks.index_small position.split1)
  have key2 := raGetKeyAtIndex_split position.split2 (well2.array.chunks.index_small position.split2)
  rw [at1] at key1
  rw [at2] at key2
  unfold plainAndnotLoop
  rw [key1, ok_bind, key2, ok_bind]
  rcases lt_trichotomy c1.key c2.key with less | same | greater
  · -- `s1 < s2`
    obtain ⟨answer', stretch, left, isLeft, some, advanced, run, position'⟩ := position.copy well1 well2 less
    have here := @List.length_append _ used1 stretch
    rw [at1] at advanced run here
    have length : left1.length + 1 = stretch.length + left.length := by simpa using congrArg List.length isLeft
    simp only [ne_of_lt less, less, if_false, if_true, advanced, run, ok_bind, pure_eq]
    cases left with
    | nil =>
      rw [List.length_nil] at length
      exact ⟨_, _, _, _, _, if_pos (by omega), position', rfl, here, at2, .inl rfl⟩
    | cons c1' left =>
      rw [List.length_cons] at length
      rw [if_neg (by omega)]
      exact ih _ (by omega) position' here at2 rfl
  · -- `s1 == s2`
    obtain ⟨answer', run, position'⟩ := position.align well1 well2 same
    have at1' := length_snoc at1 c1
    have at2' := length_snoc at2 c2
    rw [at1, at2] at run
    simp only [← same, if_true, run, ok_bind, pure_eq]
    cases left1 with
    | nil => exact ⟨_, _, _, _, _, if_pos (by simp [size1]), position', rfl, at1', at2', .inl rfl⟩
    | cons c1' left1 =>
      rw [if_neg (by simp [size1])]
      cases left2 with
      | nil => exact ⟨_, _, _, _, _, if_pos (by simp [size2]), position', rfl, at1', at2', .inr rfl⟩
      | cons c2' left2 =>
        rw [if_neg (by simp [size2])]
        exact ih _ (by rw [← total, List.length_cons, List.length_cons]; omega) position' at1' at2' rfl
  · -- `s1 > s2`
    obtain ⟨skipped, left, isLeft, some, advanced, position'⟩ := position.skip well1 well2 greater
    have here := @List.length_append _ used2 skipped
    rw [at2] at advanced here
    have length : left2.length + 1 = skipped.length + left.length := by simpa using congrArg List.length isLeft
    simp only [ne_of_gt greater, not_lt_of_gt greater, if_false, advanced, pure_eq]
    cases left with
    | nil =>
      rw [List.length_nil] at length
      exact ⟨_, _, _, _, _, if_pos (by omega), position', rfl, at1, here, .inr rfl⟩
    | cons c2' left =>
      rw [List.length_cons] at length
      rw [if_neg (by omega)]
      exact ih _ (by omega) position' at1 here rfl

end Loop

/-! ## The difference -/

section Difference

variable {answer x1 x2 : RoaringBitmap} {used1 left1 used2 left2 : List Chunk}

/-- The walk starts with nothing behind it. -/
theorem andnotPosition_start (cap : Nat) (isChunks1 : x1.highLowContainer.chunks = left1) (isChunks2 : x2.highLowContainer.chunks = left2) :
    AndnotPosition x1 x2 (roaringBitmapCreateWithCapacity cap) [] left1 [] left2 where
  split1 := isChunks1
  split2 := isChunks2
  well := ⟨⟨.nil, Nat.zero_le _⟩, rfl⟩
  values v := by simp [RoaringBitmap.values, roaringBitmapCreateWithCapacity, raInitWithCapacity]
  ahead := List.forall_mem_nil _
  behind := List.forall_mem_nil _
  within := List.forall_mem_nil _

/-- What is behind the walk is not lost. -/
theorem AndnotPosition.not_lost (position : AndnotPosition x1 x2 answer used1 left1 used2 left2) {v : UInt32}
    (member : v ∈ chunkValues used1) : ¬ LostInUnion x2 x1 v := by
  rintro ⟨-, -, beyond⟩
  obtain ⟨c, inside, isKey, -⟩ := mem_chunkValues.1 member
  obtain ⟨d, there, le⟩ := position.within c inside
  exact absurd (beyond d.key (List.mem_map_of_mem there)) (not_lt_of_ge (isKey ▸ le))

/-- What is ahead at the end of the second bitmap is lost when the first has all chunks. -/
theorem AndnotPosition.lost (position : AndnotPosition x1 x2 answer used1 left1 used2 []) (all : x1.highLowContainer.size = 65536)
    (some : x2.highLowContainer.size ≠ 0) {v : UInt32} (member : v ∈ chunkValues left1) : LostInUnion x2 x1 v := by
  refine ⟨all, some, fun k isKey => ?_⟩
  obtain ⟨c, inside, isKey', -⟩ := mem_chunkValues.1 member
  rw [RoaringArray.keys, position.split2, List.append_nil] at isKey
  obtain ⟨d, there, rfl⟩ := List.mem_map.1 isKey
  rw [isKey']
  exact position.behind d there c inside

/-- The append at the end of the second bitmap. -/
theorem AndnotPosition.finish (position : AndnotPosition x1 x2 answer used1 left1 used2 []) (well1 : x1.Well Container.Valid)
    (some : x2.highLowContainer.size ≠ 0) :
    ∃ answer', plainAndnotCopy answer x1 used1.length x1.highLowContainer.size = .ok (answer', x1) ∧
      answer'.Well Container.Valid ∧
      ∀ v, v ∈ answer'.values ↔ (v ∈ x1.values ∧ v ∉ x2.values) ∧ ¬ LostInUnion x2 x1 v := by
  have length : x1.highLowContainer.size = used1.length + left1.length := by
    rw [RoaringArray.size, position.split1, List.length_append]
  have values1 : ∀ v, v ∈ x1.values ↔ v ∈ chunkValues used1 ∨ v ∈ chunkValues left1 := by
    intro v
    rw [x1.values_eq position.split1, chunkValues_append, List.mem_append]
  have bounded := well1.array.chunks.length_le
  by_cases all : x1.highLowContainer.size = 65536
  · -- the end index wraps to 0 and nothing is appended
    obtain ⟨ra, run, chunks, fits⟩ := raAppendCopyRange_spec (P := Container.Valid) (UInt16.ofNat used1.length)
      (UInt16.ofNat x1.highLowContainer.size)
      (show x1.highLowContainer.chunks = used1 ++ [] ++ left1 by simpa using position.split1) (by simp)
      position.well.array.fits (by simp) (by rw [all]; simp)
    rw [List.append_nil] at chunks
    have same : ({ x1 with copyOnWrite := false } : RoaringBitmap) = x1 := by rw [← well1.unshared]
    refine ⟨{ answer with highLowContainer := ra }, ?_,
      ⟨⟨chunks ▸ position.well.array.chunks, fits⟩, position.well.unshared⟩, fun v => ?_⟩
    · simp only [plainAndnotCopy, well1.unshared, run, ok_bind, same, pure_eq]
    · have values : v ∈ chunkValues answer.highLowContainer.chunks ↔ _ := position.values v
      have dropped : v ∈ chunkValues left1 → LostInUnion x2 x1 v := position.lost all some
      have kept : v ∈ chunkValues used1 → ¬ LostInUnion x2 x1 v := position.not_lost
      rw [RoaringBitmap.values, chunks, values, values1]
      tauto
  · -- every chunk that is left is appended
    have isLeft : left1 = left1 ++ [] := (List.append_nil left1).symm
    rw [isLeft] at position
    obtain ⟨answer', run, well, -, values⟩ :=
      position.append well1 (by rw [← length]; exact lt_of_le_of_ne bounded all) (by simp)
    refine ⟨answer', by rw [length, run], well, fun v => ?_⟩
    have kept : ¬ LostInUnion x2 x1 v := fun lost => all lost.1
    rw [values, chunkValues_append, List.mem_append, values1]
    tauto

/-- **The difference in a new bitmap.** It leaves both bitmaps alone and has the
values of the first that the second does not have, except those that are lost
to the 16-bit end index. -/
theorem roaringBitmapAndnot_spec (well1 : x1.Well Container.Valid) (well2 : x2.Well Container.Valid) :
    ∃ answer, roaringBitmapAndnot x1 x2 = .ok (answer, x1) ∧ answer.Well Container.Valid ∧
      ∀ v, v ∈ answer.values ↔ (v ∈ x1.values ∧ v ∉ x2.values) ∧ ¬ LostInUnion x2 x1 v := by
  unfold roaringBitmapAndnot
  rcases isChunks1 : x1.highLowContainer.chunks with _ | ⟨c1, rest1⟩
  · have none1 : x1.highLowContainer.size = 0 := by rw [RoaringArray.size, isChunks1]; rfl
    refine ⟨roaringBitmapCreate, ?_, well_create _, fun v => ?_⟩
    · simp only [none1, if_true, well1.unshared, well2.unshared, Bool.and_self, pure_eq]
      rfl
    · have empty : roaringBitmapCreate.values = [] := rfl
      rw [empty, x1.values_eq isChunks1]
      simp
  have some1 : x1.highLowContainer.size ≠ 0 := by simp [RoaringArray.size, isChunks1]
  rcases isChunks2 : x2.highLowContainer.chunks with _ | ⟨c2, rest2⟩
  · have none2 : x2.highLowContainer.size = 0 := by rw [RoaringArray.size, isChunks2]; rfl
    obtain ⟨answer, copied, well, chunks⟩ := roaringBitmapCopy_spec well1
    refine ⟨answer, by simp only [some1, none2, if_true, if_false, copied, pure_eq], well, fun v => ?_⟩
    have kept : ¬ LostInUnion x2 x1 v := fun lost => lost.2.1 none2
    rw [RoaringBitmap.values, chunks, x2.values_eq isChunks2]
    simp [kept, RoaringBitmap.values]
  have some2 : x2.highLowContainer.size ≠ 0 := by simp [RoaringArray.size, isChunks2]
  obtain ⟨walk, used1, left1, used2, left2, run, walked⟩ :=
    plainAndnotLoop_spec well1 well2 (andnotPosition_start x1.highLowContainer.size isChunks1 isChunks2) List.length_nil List.length_nil
  have position := walked.position
  have capacity : (⟨(roaringBitmapCreateWithCapacity x1.highLowContainer.size).highLowContainer, false⟩ : RoaringBitmap) =
      roaringBitmapCreateWithCapacity x1.highLowContainer.size := rfl
  have length2 : x2.highLowContainer.size = used2.length + left2.length := by
    rw [RoaringArray.size, position.split2, List.length_append]
  simp only [some1, some2, if_false, well1.unshared, well2.unshared, Bool.and_self, capacity, run, ok_bind, walked.same,
    ← walked.pos1, ← walked.pos2]
  by_cases end2 : left2 = []
  · -- the second bitmap is at its end
    subst end2
    obtain ⟨answer, finished, well, values⟩ := position.finish well1 some2
    exact ⟨answer, by rw [if_pos (by simpa using length2.symm), finished], well, values⟩
  · -- the first bitmap is at its end
    have end1 : left1 = [] := walked.finished.resolve_right end2
    subst end1
    have ahead : 0 < left2.length := List.length_pos_of_ne_nil end2
    refine ⟨walk.answer, by rw [if_neg (by omega), pure_eq], position.well, fun v => ?_⟩
    have kept : v ∈ chunkValues used1 → ¬ LostInUnion x2 x1 v := position.not_lost
    rw [position.values, x1.values_eq position.split1, List.append_nil]
    tauto

end Difference

end RedisRoaring
