import RedisRoaring.InplaceUnion

/-!
# The in-place difference

`roaring_bitmap_andnot_inplace` keeps three cursors. In the array of the first
bitmap the chunks that survived come first, then the room that dropped chunks
left (`junk`), then the chunks still ahead of the walk (`AndnotCursor`). The
invariant is on what survived and what is ahead; the junk is cut off at the end.
-/

namespace RedisRoaring

open Exec SortedList

/-- The first bitmap, of `length1` chunks, during the walk. -/
structure AndnotCursor (A : Container → Prop) (length1 : Nat) (x1 : RoaringBitmap) (kept junk rest1 : List Chunk)
    (pos1 intersectionSize : Nat) : Prop where
  chunks : x1.highLowContainer.chunks = kept ++ junk ++ rest1
  well : ChunksWell A (kept ++ rest1)
  fits : x1.highLowContainer.chunks.length ≤ x1.highLowContainer.allocationSize
  isLength1 : x1.highLowContainer.chunks.length = length1
  bound : length1 ≤ 65536
  unshared : x1.copyOnWrite = false
  isSize : kept.length = intersectionSize
  isPos1 : (kept ++ junk).length = pos1

/-- What a walk makes of the chunks `kept` behind it and `rest1` ahead of it:
the values of `gone` are taken out of the latter. -/
def AndnotValues (kept rest1 kept' rest1' gone : List Chunk) : Prop :=
  ∀ v, v ∈ chunkValues (kept' ++ rest1') ↔ v ∈ chunkValues kept ∨ v ∈ chunkValues rest1 ∧ v ∉ chunkValues gone

section Step

variable {A P : Container → Prop} {x1 x2 : RoaringBitmap} {kept junk rest1 pre2 rest2 : List Chunk} {c1 c2 : Chunk}
  {length1 pos1 pos2 intersectionSize : Nat}

theorem AndnotCursor.length1_eq (cursor : AndnotCursor A length1 x1 kept junk rest1 pos1 intersectionSize) :
    length1 = pos1 + rest1.length := by
  rw [← cursor.isLength1, cursor.chunks, List.length_append, cursor.isPos1]

theorem AndnotCursor.pos1_small (cursor : AndnotCursor A length1 x1 kept junk (c1 :: rest1) pos1 intersectionSize) :
    (kept ++ junk).length < 65536 := by
  have length1_eq := cursor.length1_eq
  have bound := cursor.bound
  rw [List.length_cons] at length1_eq
  rw [cursor.isPos1]
  omega

theorem AndnotCursor.raGetKey (cursor : AndnotCursor A length1 x1 kept junk (c1 :: rest1) pos1 intersectionSize) :
    raGetKeyAtIndex x1.highLowContainer (UInt16.ofNat pos1) = .ok c1.key := by
  rw [← cursor.isPos1]
  exact raGetKeyAtIndex_split cursor.chunks cursor.pos1_small

theorem AndnotCursor.raGetContainer (cursor : AndnotCursor A length1 x1 kept junk (c1 :: rest1) pos1 intersectionSize) :
    raGetContainerAtIndex x1.highLowContainer (UInt16.ofNat pos1) = .ok c1.container := by
  rw [← cursor.isPos1]
  exact raGetContainerAtIndex_split cursor.chunks cursor.pos1_small

theorem AndnotCursor.holds (cursor : AndnotCursor A length1 x1 kept junk (c1 :: rest1) pos1 intersectionSize) :
    c1.Holds A := cursor.well.holds c1 (by simp)

/-- The chunk at hand is dropped. -/
theorem AndnotCursor.drop (cursor : AndnotCursor A length1 x1 kept junk (c1 :: rest1) pos1 intersectionSize) :
    AndnotCursor A length1 x1 kept (junk ++ [c1]) rest1 (pos1 + 1) intersectionSize where
  chunks := by rw [cursor.chunks]; simp
  well := cursor.well.erase
  fits := cursor.fits
  isLength1 := cursor.isLength1
  bound := cursor.bound
  unshared := cursor.unshared
  isSize := cursor.isSize
  isPos1 := by rw [← List.append_assoc, List.length_append, cursor.isPos1]; rfl

/-- The chunk at hand survives in place of the first one that was dropped. -/
theorem AndnotCursor.keep (cursor : AndnotCursor A length1 x1 kept junk (c1 :: rest1) pos1 intersectionSize)
    {c : SlotContainer} (holds : ({ key := c1.key, container := c } : Chunk).Holds A) :
    ∃ ra junk', raReplaceKeyAndContainerAtIndex x1.highLowContainer intersectionSize c1.key c = .ok ra ∧
      AndnotCursor A length1 { x1 with highLowContainer := ra } (kept ++ [{ key := c1.key, container := c }]) junk' rest1
        (pos1 + 1) (intersectionSize + 1) := by
  obtain ⟨first, junk', isJunk⟩ := List.exists_cons_of_ne_nil (List.concat_ne_nil c1 junk)
  have chunks : x1.highLowContainer.chunks = kept ++ first :: (junk' ++ rest1) := by
    rw [cursor.chunks, ← List.cons_append, ← isJunk]
    simp
  have inside : intersectionSize < x1.highLowContainer.size := by
    rw [RoaringArray.size, chunks, List.length_append, List.length_cons, cursor.isSize]
    omega
  have fits := cursor.fits
  have isLength1 := cursor.isLength1
  have isPos1 := cursor.isPos1
  have length : junk.length + 1 = junk'.length + 1 := by simpa using congrArg List.length isJunk
  simp only [chunks, List.length_append, List.length_cons] at fits isLength1 isPos1
  refine ⟨{ x1.highLowContainer with chunks := kept ++ { key := c1.key, container := c } :: (junk' ++ rest1) }, junk',
    ?_, ⟨by simp, ?_, by simpa using fits, by simpa using isLength1, cursor.bound, cursor.unshared,
    by simp [cursor.isSize], ?_⟩⟩
  · rw [raReplaceKeyAndContainerAtIndex, if_pos inside, chunks, ← cursor.isSize]
    simp
  · rw [List.append_assoc, List.singleton_append]
    exact cursor.well.replace holds rfl
  · simp only [List.length_append, List.length_singleton]
    omega

/-- The chunk with the key of a chunk of the second bitmap. -/
theorem andnotAligned_spec [Kind A] [Accumulates A P] (cursor : AndnotCursor A length1 x1 kept junk (c1 :: rest1) pos1 intersectionSize)
    (well2 : x2.Well P) (split2 : x2.highLowContainer.chunks = pre2 ++ c2 :: rest2)
    (at2 : pre2.length = pos2) (same : c1.key = c2.key) :
    ∃ x1' kept' junk' intersectionSize', andnotAligned x1 x2 pos1 pos2 intersectionSize c1.key =
        .ok (x1', intersectionSize') ∧
      AndnotCursor A length1 x1' kept' junk' rest1 (pos1 + 1) intersectionSize' ∧
      ∀ v, v ∈ chunkValues kept' ↔ v ∈ chunkValues kept ∨ v ∈ c1.values ∧ v ∉ c2.values := by
  have holds1 := cursor.holds
  have holds2 := well2.array.chunks.holds c2 (by rw [split2]; simp)
  have get2 := raGetContainerAtIndex_split split2 (well2.array.chunks.index_small split2)
  rw [at2] at get2
  obtain ⟨c, run, allowed, members⟩ : ∃ c, _ ∧ A c ∧ _ :=
    Accumulates.difference holds1.allowed holds2.allowed holds1.nonempty
  have values : ∀ v, v ∈ c1.values ∧ v ∉ c2.values ↔ highBits v = c1.key ∧ lowBits v ∈ c.values := by
    intro v
    rw [mem_chunk_values, mem_chunk_values, members, ← same]
    tauto
  unfold andnotAligned
  simp only [cursor.raGetContainer, get2, holds1.owned, getWritableCopyIfShared, ok_bind, holds2.owned, run]
  by_cases some : containerNonzeroCardinality (.owned c) = true
  · have nonempty := (containerNonzeroCardinality_spec allowed).1 some
    obtain ⟨ra, junk', replaced, cursor'⟩ := cursor.keep (holds_owned allowed nonempty)
    refine ⟨_, _, junk', _, by rw [if_pos some, replaced]; rfl, cursor', ?_⟩
    intro v
    rw [values, chunkValues_append, List.mem_append, chunkValues_cons, chunkValues_nil, List.append_nil,
      mem_chunk_values]
    rfl
  · have empty : c.values = [] := not_not.1 fun h => some ((containerNonzeroCardinality_spec allowed).2 h)
    refine ⟨x1, kept, _, intersectionSize, if_neg some, cursor.drop, ?_⟩
    intro v
    rw [values, empty]
    simp

/-- The chunk whose key the second bitmap does not have. -/
theorem andnotKeep_spec (cursor : AndnotCursor A length1 x1 kept junk (c1 :: rest1) pos1 intersectionSize) :
    ∃ x1' junk', andnotKeep x1 pos1 intersectionSize c1.key = .ok x1' ∧
      AndnotCursor A length1 x1' (kept ++ [c1]) junk' rest1 (pos1 + 1) (intersectionSize + 1) := by
  unfold andnotKeep
  by_cases apart : pos1 ≠ intersectionSize
  · obtain ⟨ra, junk', replaced, cursor'⟩ := cursor.keep (c := c1.container) cursor.holds
    exact ⟨_, junk', by rw [if_pos apart, cursor.raGetContainer, ok_bind, replaced]; rfl, cursor'⟩
  · -- nothing was dropped yet, and the chunk stays where it is
    have none : junk = [] := by
      have isPos1 := cursor.isPos1
      rw [List.length_append, cursor.isSize, not_not.1 apart] at isPos1
      exact List.length_eq_zero_iff.1 (by omega)
    refine ⟨x1, [], if_neg apart, ⟨by rw [cursor.chunks, none]; simp, by simpa using cursor.well, cursor.fits,
      cursor.isLength1, cursor.bound, cursor.unshared, by simp [cursor.isSize], ?_⟩⟩
    rw [List.append_nil, List.length_append, ← cursor.isPos1, none, List.append_nil]
    rfl

/-- The galloping search skips the chunks of the second bitmap below the key at hand. -/
theorem raAdvanceUntil_spec {ra : RoaringArray} (well : ChunksWell P ra.chunks)
    (split : ra.chunks = pre2 ++ c2 :: rest2) (at2 : pre2.length = pos2) {x : UInt16} (less : c2.key < x) :
    ∃ skipped left, c2 :: rest2 = skipped ++ left ∧ 0 < skipped.length ∧
      raAdvanceUntil ra x pos2 = pos2 + skipped.length ∧ ∀ c ∈ skipped, c.key < x := by
  have sorted : ra.keys.Pairwise (· < ·) := well.sorted
  have length : ra.keys.length = pos2 + (rest2.length + 1) := by
    rw [RoaringArray.keys, List.length_map, split, List.length_append, List.length_cons, at2]
  have isKey : ∀ i (inside : i < (c2 :: rest2).length), ra.keys[pos2 + i]? = some (c2 :: rest2)[i].key := by
    intro i inside
    rw [RoaringArray.keys, List.getElem?_map, split, List.getElem?_append_right (by omega),
      show pos2 + i - pre2.length = i by omega, List.getElem?_eq_getElem inside]
    rfl
  have upTo : ∀ i (inside : i < ra.keys.length), i < pos2 + 1 → ra.keys[i] < x := by
    intro i inside le
    have here : ra.keys[pos2] = c2.key := by
      have := isKey 0 (by simp)
      rw [List.getElem?_eq_getElem (by omega)] at this
      exact Option.some.inj this
    rcases Nat.lt_or_eq_of_le (Nat.le_of_lt_succ le) with before | rfl
    · exact (here ▸ List.pairwise_iff_getElem.1 sorted i pos2 inside (by omega) before).trans less
    · exact here ▸ less
  have bound := gallop_lowerBound sorted x (show pos2 + 1 ≤ ra.keys.length by omega) upTo
  rw [raAdvanceUntil]
  generalize gallop ra.keys (pos2 + 1) x = r at bound
  have lower := bound.lower
  have upper := bound.upper
  refine ⟨(c2 :: rest2).take (r - pos2), (c2 :: rest2).drop (r - pos2), (List.take_append_drop ..).symm, ?_, ?_,
    ?_⟩
  · rw [List.length_take, List.length_cons]
    omega
  · rw [List.length_take, List.length_cons]
    omega
  · intro c member
    obtain ⟨i, inside, rfl⟩ := List.getElem_of_mem member
    rw [List.length_take] at inside
    rw [List.getElem_take]
    have key := isKey i (by omega)
    have below := bound.below (pos2 + i) (by simp only [List.length_cons] at inside; omega) (by omega)
    rw [List.getElem?_eq_getElem (by simp only [List.length_cons] at inside; omega)] at key
    exact Option.some.inj key ▸ below

end Step

/-! ## The walk -/

/-- Lists of chunks with different keys have different values. -/
theorem chunkValues_apart {chunks chunks' : List Chunk} (apart : ∀ c ∈ chunks, ∀ d ∈ chunks', c.key ≠ d.key)
    {v : UInt32} (member : v ∈ chunkValues chunks) : v ∉ chunkValues chunks' := by
  intro member'
  obtain ⟨c, inside, key, -⟩ := mem_chunkValues.1 member
  obtain ⟨d, inside', key', -⟩ := mem_chunkValues.1 member'
  exact apart c inside d inside' (key.symm.trans key')

section Values

variable {kept rest1 rest2 kept' left kept1 : List Chunk} {c1 c2 : Chunk}

/-- A walk after a round on a chunk with the same key on both sides. -/
theorem AndnotValues.aligned (same : c1.key = c2.key) (above1 : ∀ c ∈ rest1, c1.key < c.key)
    (above2 : ∀ c ∈ rest2, c2.key < c.key)
    (members : ∀ v, v ∈ chunkValues kept1 ↔ v ∈ chunkValues kept ∨ v ∈ c1.values ∧ v ∉ c2.values)
    (walked : AndnotValues kept1 rest1 kept' left rest2) :
    AndnotValues kept (c1 :: rest1) kept' left (c2 :: rest2) := by
  intro v
  have apart1 : v ∈ c1.values → v ∉ chunkValues rest2 := fun h =>
    chunkValues_apart (fun c hc d hd => by
      rw [List.mem_singleton.1 hc, same]
      exact ne_of_lt (above2 d hd)) (show v ∈ chunkValues [c1] by simpa using h)
  have apart2 : v ∈ chunkValues rest1 → v ∉ c2.values := fun h h' =>
    chunkValues_apart (fun c hc d hd => by
      rw [List.mem_singleton.1 hd, ← same]
      exact ne_of_gt (above1 c hc)) h (show v ∈ chunkValues [c2] by simpa using h')
  rw [walked, members, chunkValues_cons, chunkValues_cons, List.mem_append, List.mem_append, not_or]
  constructor
  · rintro ((h | ⟨h, gone⟩) | ⟨h, gone⟩)
    · exact .inl h
    · exact .inr ⟨.inl h, gone, apart1 h⟩
    · exact .inr ⟨.inr h, apart2 h, gone⟩
  · rintro (h | ⟨h | h, gone, gone'⟩)
    · exact .inl (.inl h)
    · exact .inl (.inr ⟨h, gone⟩)
    · exact .inr ⟨h, gone'⟩

/-- A walk after a round on a chunk with no counterpart. -/
theorem AndnotValues.keep {gone : List Chunk} (apart : ∀ c ∈ gone, c1.key < c.key)
    (walked : AndnotValues (kept ++ [c1]) rest1 kept' left gone) : AndnotValues kept (c1 :: rest1) kept' left gone := by
  intro v
  have apart1 : v ∈ c1.values → v ∉ chunkValues gone := fun h =>
    chunkValues_apart (fun c hc d hd => by
      rw [List.mem_singleton.1 hc]
      exact ne_of_lt (apart d hd)) (show v ∈ chunkValues [c1] by simpa using h)
  rw [walked, chunkValues_append, chunkValues_cons, chunkValues_cons, chunkValues_nil, List.append_nil,
    List.mem_append, List.mem_append]
  tauto

/-- A walk after the search has skipped chunks of the second bitmap. -/
theorem AndnotValues.skip {skipped gone : List Chunk} (apart : ∀ c ∈ rest1, ∀ d ∈ skipped, d.key < c.key)
    (walked : AndnotValues kept rest1 kept' left gone) : AndnotValues kept rest1 kept' left (skipped ++ gone) := by
  intro v
  have apart1 : v ∈ chunkValues rest1 → v ∉ chunkValues skipped :=
    chunkValues_apart fun c hc d hd => ne_of_gt (apart c hc d hd)
  rw [walked, chunkValues_append, List.mem_append]
  tauto

theorem andnotValues_stop1 : AndnotValues kept [] kept [] rest2 := fun v => by simp

theorem andnotValues_stop2 : AndnotValues kept rest1 kept rest1 [] := fun v => by simp

end Values

/-- The walk succeeds and keeps the values that are not among those ahead of it
in the second bitmap. -/
theorem andnotWalkLoop_spec {A P : Container → Prop} [Kind A] [Accumulates A P] {x1 x2 : RoaringBitmap} {kept junk rest1 pre2 rest2 : List Chunk} {c1 c2 : Chunk}
    {pos1 pos2 intersectionSize length1 : Nat}
    (cursor : AndnotCursor A length1 x1 kept junk (c1 :: rest1) pos1 intersectionSize)
    (well2 : x2.Well P) (split2 : x2.highLowContainer.chunks = pre2 ++ c2 :: rest2)
    (at2 : pre2.length = pos2) :
    ∃ walk kept' junk' left, andnotWalkLoop x2 length1 x2.highLowContainer.size x1 pos1 pos2 intersectionSize
        c1.key c2.key = .ok walk ∧
      AndnotCursor A length1 walk.x1 kept' junk' left walk.pos1 walk.intersectionSize ∧
      AndnotValues kept (c1 :: rest1) kept' left (c2 :: rest2) := by
  induction total : rest1.length + rest2.length using Nat.strong_induction_on
    generalizing x1 kept junk rest1 pre2 rest2 c1 c2 pos1 pos2 intersectionSize with | _ total ih
  have size1 : length1 = pos1 + (rest1.length + 1) := cursor.length1_eq
  have size2 : x2.highLowContainer.size = pos2 + (rest2.length + 1) := by
    rw [RoaringArray.size, split2, List.length_append, List.length_cons, at2]
  have above1 : ∀ c ∈ rest1, c1.key < c.key := cursor.well.around.2
  have above2 : ∀ c ∈ rest2, c2.key < c.key := well2.array.chunks.above split2
  unfold andnotWalkLoop
  rcases lt_trichotomy c1.key c2.key with less | same | greater
  · -- `s1 < s2`: the chunk survives
    obtain ⟨x1', junk', run, cursor'⟩ := andnotKeep_spec cursor
    have apart : ∀ c ∈ c2 :: rest2, c1.key < c.key := by
      intro c inside
      rcases List.mem_cons.1 inside with rfl | h
      · exact less
      · exact less.trans (above2 c h)
    simp only [ne_of_lt less, less, if_false, if_true, run, ok_bind]
    cases rest1 with
    | nil => exact ⟨_, _, _, [], if_pos (by simp [size1]), cursor', andnotValues_stop1.keep apart⟩
    | cons c1' rest1 =>
      obtain ⟨walk, kept', junk'', left, rest, done, values⟩ :=
        ih _ (by rw [← total, List.length_cons]; omega) cursor' split2 at2 rfl
      refine ⟨walk, kept', junk'', left, ?_, done, values.keep apart⟩
      rw [if_neg (by simp [size1]), cursor'.raGetKey, ok_bind, rest]
  · -- `s1 == s2`: the difference of the containers survives unless it is empty
    obtain ⟨x1', kept1, junk1, intersectionSize', run, cursor', members⟩ :=
      andnotAligned_spec cursor well2 split2 at2 same
    simp only [← same, if_true, run, ok_bind, pure_eq]
    cases rest1 with
    | nil =>
      exact ⟨_, _, _, [], if_pos (by simp [size1]), cursor', andnotValues_stop1.aligned same above1 above2 members⟩
    | cons c1' rest1 =>
      rw [if_neg (by simp [size1])]
      cases rest2 with
      | nil =>
        exact ⟨_, _, _, _, if_pos (by simp [size2]), cursor', andnotValues_stop2.aligned same above1 above2 members⟩
      | cons c2' rest2 =>
        obtain ⟨next2, at2', key2⟩ := walk_on well2.array.chunks split2 at2
        obtain ⟨walk, kept', junk'', left, rest, done, values⟩ :=
          ih _ (by rw [← total, List.length_cons, List.length_cons]; omega) cursor' next2 at2' rfl
        refine ⟨walk, kept', junk'', left, ?_, done, values.aligned same above1 above2 members⟩
        rw [if_neg (by simp [size2]), cursor'.raGetKey, key2, ok_bind, ok_bind, rest]
  · -- `s1 > s2`: the search skips chunks of the second bitmap
    obtain ⟨skipped, gone, isRest, some, advanced, below⟩ := raAdvanceUntil_spec well2.array.chunks split2 at2 greater
    have apart : ∀ c ∈ c1 :: rest1, ∀ d ∈ skipped, d.key < c.key := by
      intro c inside d inside'
      rcases List.mem_cons.1 inside with rfl | h
      · exact below d inside'
      · exact (below d inside').trans (above1 c h)
    have length : rest2.length + 1 = skipped.length + gone.length := by simpa using congrArg List.length isRest
    simp only [ne_of_gt greater, not_lt_of_gt greater, if_false, advanced, isRest]
    cases gone with
    | nil =>
      refine ⟨_, _, _, _, if_pos ?_, cursor, andnotValues_stop2.skip apart⟩
      rw [List.length_nil] at length
      omega
    | cons c2' gone =>
      have next2 : x2.highLowContainer.chunks = (pre2 ++ skipped) ++ c2' :: gone := by
        rw [split2, isRest, List.append_assoc]
      have at2' : (pre2 ++ skipped).length = pos2 + skipped.length := by rw [List.length_append, at2]
      have key2 := raGetKeyAtIndex_split next2 (well2.array.chunks.index_small next2)
      rw [at2'] at key2
      rw [List.length_cons] at length
      obtain ⟨walk, kept', junk', left, rest, done, values⟩ :=
        ih _ (by omega) cursor next2 at2' rfl
      refine ⟨walk, kept', junk', left, ?_, done, values.skip apart⟩
      rw [if_neg (by omega), key2, ok_bind, rest]

/-! ## The difference -/

theorem raDownsize_split {ra : RoaringArray} {front back : List Chunk} (split : ra.chunks = front ++ back) :
    raDownsize ra front.length = .ok { ra with chunks := front } := by
  have inside : front.length ≤ ra.size := by
    rw [RoaringArray.size, split, List.length_append]
    omega
  rw [raDownsize, if_pos inside, split, List.take_left]

theorem raCopyRange_split {ra : RoaringArray} {kept junk left : List Chunk} (split : ra.chunks = kept ++ junk ++ left)
    (some : 0 < junk.length) :
    raCopyRange ra (kept ++ junk).length (kept.length + junk.length + left.length) kept.length =
      .ok { ra with chunks := kept ++ left ++ (kept ++ junk ++ left).drop (kept.length + left.length) } := by
  have moved : kept.length + junk.length + left.length - (kept ++ junk).length = left.length := by
    rw [List.length_append]
    omega
  have front : (kept ++ junk ++ left).take kept.length = kept := by rw [List.append_assoc, List.take_left]
  rw [raCopyRange, if_pos (by rw [List.length_append]; omega), split, moved, List.drop_left, List.take_length, front]

/-- The junk between the survivors and the rest is cut out at the end. -/
theorem AndnotCursor.finish {A : Container → Prop} {x1 : RoaringBitmap} {kept junk left : List Chunk} {length1 pos1 intersectionSize : Nat}
    (cursor : AndnotCursor A length1 x1 kept junk left pos1 intersectionSize) (some : pos1 < length1) :
    ∃ ra back, (intersectionSize < pos1 ∧ raCopyRange x1.highLowContainer pos1 length1 intersectionSize = .ok ra ∨
        ¬ intersectionSize < pos1 ∧ x1.highLowContainer = ra) ∧
      ra.chunks = (kept ++ left) ++ back ∧ ra.allocationSize = x1.highLowContainer.allocationSize ∧
      intersectionSize + (length1 - pos1) = (kept ++ left).length := by
  have length1_eq := cursor.length1_eq
  have isPos1 := cursor.isPos1
  have length : intersectionSize + (length1 - pos1) = (kept ++ left).length := by
    rw [List.length_append, cursor.isSize]
    omega
  rw [List.length_append] at isPos1
  by_cases apart : intersectionSize < pos1
  · have isSize := cursor.isSize
    have copied := raCopyRange_split cursor.chunks (by omega)
    rw [isPos1, cursor.isPos1, cursor.isSize, ← length1_eq] at copied
    exact ⟨_, _, .inl ⟨apart, copied⟩, rfl, rfl, length⟩
  · have none : junk = [] := List.length_eq_zero_iff.1 (by
      have := cursor.isSize
      omega)
    refine ⟨x1.highLowContainer, [], .inr ⟨apart, rfl⟩, ?_, rfl, length⟩
    rw [cursor.chunks, none, List.append_nil, List.append_nil]

/-- **The in-place difference** removes exactly the values of the second bitmap. -/
theorem roaringBitmapAndnotInplace_spec {A P : Container → Prop} [Kind A] [Stored P] [Accumulates A P]
    {x1 x2 : RoaringBitmap} (well1 : x1.Well A)
    (well2 : x2.Well P) :
    ∃ x1', roaringBitmapAndnotInplace x1 x2 = .ok x1' ∧ x1'.Well A ∧
      ∀ v, v ∈ x1'.values ↔ v ∈ x1.values ∧ v ∉ x2.values := by
  unfold roaringBitmapAndnotInplace
  rcases isChunks2 : x2.highLowContainer.chunks with _ | ⟨c2, rest2⟩
  · have none2 : x2.highLowContainer.size = 0 := by rw [RoaringArray.size, isChunks2]; rfl
    refine ⟨x1, by simp only [none2, if_true, pure_eq], well1, ?_⟩
    intro v
    rw [x2.values_eq isChunks2]
    simp
  have some2 : x2.highLowContainer.size ≠ 0 := by simp [RoaringArray.size, isChunks2]
  rcases isChunks1 : x1.highLowContainer.chunks with _ | ⟨c1, rest1⟩
  · have none1 : x1.highLowContainer.size = 0 := by rw [RoaringArray.size, isChunks1]; rfl
    obtain ⟨x1', run, isChunks, unshared, fits⟩ :=
      roaringBitmapOverwrite_spec x1 (well_create P)
    have empty : x1'.highLowContainer.chunks = [] := isChunks
    refine ⟨x1', by simp only [some2, none1, if_true, if_false, run, ok_bind, pure_eq],
      ⟨⟨empty ▸ .nil, fits⟩, unshared.trans well1.unshared⟩, ?_⟩
    intro v
    rw [x1'.values_eq empty, x1.values_eq isChunks1]
    simp
  have some1 : x1.highLowContainer.size ≠ 0 := by simp [RoaringArray.size, isChunks1]
  have key1 := raGetKeyAtIndex_first isChunks1
  have key2 := raGetKeyAtIndex_first isChunks2
  have start : AndnotCursor A x1.highLowContainer.size x1 [] [] (c1 :: rest1) 0 0 :=
    ⟨isChunks1, isChunks1 ▸ well1.array.chunks, well1.array.fits, rfl, well1.array.chunks.length_le, well1.unshared,
      rfl, rfl⟩
  obtain ⟨walk, kept, junk, left, run, cursor, values⟩ := andnotWalkLoop_spec start well2
    (show x2.highLowContainer.chunks = [] ++ c2 :: rest2 from isChunks2) List.length_nil
  have members : ∀ v, v ∈ chunkValues (kept ++ left) ↔ v ∈ x1.values ∧ v ∉ x2.values := by
    intro v
    rw [values, x1.values_eq isChunks1, x2.values_eq isChunks2]
    simp
  have fits := cursor.fits
  rw [cursor.chunks, List.length_append, List.length_append] at fits
  simp only [some1, some2, if_false, key1, key2, run, ok_bind]
  by_cases more : walk.pos1 < x1.highLowContainer.size
  · obtain ⟨ra, back, copied, split, allocation, length⟩ := cursor.finish more
    refine ⟨{ walk.x1 with highLowContainer := { ra with chunks := kept ++ left } }, ?_,
      ⟨⟨cursor.well, ?_⟩, cursor.unshared⟩, members⟩
    · rcases copied with ⟨apart, copied⟩ | ⟨together, stays⟩
      · simp only [more, apart, if_true, copied, length, raDownsize_split split, ok_bind, pure_eq]
      · simp only [more, together, if_true, if_false, stays, length, raDownsize_split split, ok_bind, pure_eq]
    · rw [allocation, List.length_append]
      omega
  · have none : left = [] := List.length_eq_zero_iff.1 (by
      have := cursor.length1_eq
      omega)
    have split : walk.x1.highLowContainer.chunks = kept ++ junk := by rw [cursor.chunks, none, List.append_nil]
    have well := cursor.well
    rw [none, List.append_nil] at members well
    have fits' : kept.length ≤ walk.x1.highLowContainer.allocationSize := by omega
    refine ⟨{ walk.x1 with highLowContainer := { walk.x1.highLowContainer with chunks := kept } }, ?_,
      ⟨⟨well, fits'⟩, cursor.unshared⟩, members⟩
    simp only [more, if_false, ← cursor.isSize, raDownsize_split split, ok_bind, pure_eq]

/-- The differences with a list of bitmaps, one after the other. -/
theorem foldlM_roaringBitmapAndnotInplace {A P : Container → Prop} [Kind A] [Stored P] [Accumulates A P]
    {l : List RoaringBitmap} (wells : ∀ x2 ∈ l, x2.Well P)
    {x1 : RoaringBitmap} (well1 : x1.Well A) :
    ∃ x1', l.foldlM roaringBitmapAndnotInplace x1 = .ok x1' ∧ x1'.Well A ∧
      ∀ v, v ∈ x1'.values ↔ v ∈ x1.values ∧ ∀ x2 ∈ l, v ∉ x2.values := by
  apply foldlM_loop (P := fun (seen : List RoaringBitmap) (mid : RoaringBitmap) => mid.Well A ∧
    ∀ v, v ∈ mid.values ↔ v ∈ x1.values ∧ ∀ x2 ∈ seen, v ∉ x2.values)
  · intro seen x2 left mid split here
    obtain ⟨well, values⟩ := here
    have well2 := wells x2 (by rw [split]; simp)
    obtain ⟨x1', run, well', values'⟩ := roaringBitmapAndnotInplace_spec well well2
    refine ⟨x1', run, well', ?_⟩
    intro v
    rw [values', values, List.forall_mem_append, List.forall_mem_singleton, and_assoc]
  · exact ⟨well1, by simp⟩

end RedisRoaring
