import RedisRoaring.Containers.Binary
import RedisRoaring.InplaceUnion

/-!
# The union in a new bitmap

`roaring_bitmap_or` walks both bitmaps like the in-place union and appends to a
new one. What is left of either when the other is at its end is appended by the
same 16-bit indices: the plain union can lose the end of either operand.
-/

namespace RedisRoaring

open Exec

/-! ## The algorithm -/

/-- `roaring_bitmap_copy`: the copy, and the bitmap whose containers may now be shared. -/
def roaringBitmapCopy (r : RoaringBitmap) : Outcome (RoaringBitmap × RoaringBitmap) := do
  let (source, ra) ← raCopy r.highLowContainer r.copyOnWrite
  return ({ highLowContainer := ra, copyOnWrite := r.copyOnWrite }, { r with highLowContainer := source })

/-- `roaring_bitmap_create_with_capacity`. -/
def roaringBitmapCreateWithCapacity (cap : Nat) : RoaringBitmap :=
  { highLowContainer := raInitWithCapacity cap, copyOnWrite := false }

/-- The walk of `roaring_bitmap_or`. -/
structure PlainOrWalk where
  answer : RoaringBitmap
  x1 : RoaringBitmap
  x2 : RoaringBitmap
  pos1 : Nat
  pos2 : Nat
  deriving DecidableEq, Repr

/-- The branch `s1 == s2`: the union of the containers is appended. -/
def plainOrAligned (answer x1 x2 : RoaringBitmap) (pos1 pos2 : Nat) (s1 : UInt16) : Outcome RoaringBitmap := do
  let c1 ← raGetContainerAtIndex x1.highLowContainer (UInt16.ofNat pos1)
  let c2 ← raGetContainerAtIndex x2.highLowContainer (UInt16.ofNat pos2)
  let c ← containerOr c1 c2
  return { answer with highLowContainer := ← raAppend answer.highLowContainer s1 (.owned c) }

/-- The branches `s1 < s2` and `s1 > s2`: a copy of the chunk with the smaller
key is appended. -/
def plainOrCopy (answer x : RoaringBitmap) (pos : Nat) (s : UInt16) : Outcome (RoaringBitmap × RoaringBitmap) := do
  let c ← raGetContainerAtIndex x.highLowContainer (UInt16.ofNat pos)
  let c ← getCopyOfContainer c x.copyOnWrite
  let ra ← if x.copyOnWrite then raSetContainerAtIndex x.highLowContainer pos c else .ok x.highLowContainer
  let answered ← raAppend answer.highLowContainer s c
  return ({ answer with highLowContainer := answered }, { x with highLowContainer := ra })

/-- The loop of `roaring_bitmap_or`, with `s1` and `s2` the keys at the two
positions. It breaks when a position reaches its length. -/
def plainOrLoop (length1 length2 : Nat) (answer x1 x2 : RoaringBitmap) (pos1 pos2 : Nat) (s1 s2 : UInt16) :
    Outcome PlainOrWalk := do
  if s1 = s2 then
    let answer ← plainOrAligned answer x1 x2 pos1 pos2 s1
    if length1 ≤ pos1 + 1 then return { answer, x1, x2, pos1 := pos1 + 1, pos2 := pos2 + 1 }
    else if length2 ≤ pos2 + 1 then return { answer, x1, x2, pos1 := pos1 + 1, pos2 := pos2 + 1 }
    else
      let s1 ← raGetKeyAtIndex x1.highLowContainer (UInt16.ofNat (pos1 + 1))
      let s2 ← raGetKeyAtIndex x2.highLowContainer (UInt16.ofNat (pos2 + 1))
      plainOrLoop length1 length2 answer x1 x2 (pos1 + 1) (pos2 + 1) s1 s2
  else if s1 < s2 then
    let (answer, x1) ← plainOrCopy answer x1 pos1 s1
    if length1 ≤ pos1 + 1 then return { answer, x1, x2, pos1 := pos1 + 1, pos2 }
    else
      let s1 ← raGetKeyAtIndex x1.highLowContainer (UInt16.ofNat (pos1 + 1))
      plainOrLoop length1 length2 answer x1 x2 (pos1 + 1) pos2 s1 s2
  else
    let (answer, x2) ← plainOrCopy answer x2 pos2 s2
    if length2 ≤ pos2 + 1 then return { answer, x1, x2, pos1, pos2 := pos2 + 1 }
    else
      let s2 ← raGetKeyAtIndex x2.highLowContainer (UInt16.ofNat (pos2 + 1))
      plainOrLoop length1 length2 answer x1 x2 pos1 (pos2 + 1) s1 s2
termination_by (length1 - pos1) + (length2 - pos2)

/-- `roaring_bitmap_or`: the answer and both bitmaps. -/
def roaringBitmapOr (x1 x2 : RoaringBitmap) : Outcome (RoaringBitmap × RoaringBitmap × RoaringBitmap) := do
  let length1 := x1.highLowContainer.size
  let length2 := x2.highLowContainer.size
  if length1 = 0 then
    let (answer, x2) ← roaringBitmapCopy x2
    return (answer, x1, x2)
  if length2 = 0 then
    let (answer, x1) ← roaringBitmapCopy x1
    return (answer, x1, x2)
  let answer := roaringBitmapCreateWithCapacity (length1 + length2)
  let answer := { answer with copyOnWrite := x1.copyOnWrite && x2.copyOnWrite }
  let s1 ← raGetKeyAtIndex x1.highLowContainer 0
  let s2 ← raGetKeyAtIndex x2.highLowContainer 0
  let walk ← plainOrLoop length1 length2 answer x1 x2 0 0 s1 s2
  let answer := walk.answer
  if walk.pos1 = length1 then
    let (ra, ra2) ← raAppendCopyRange answer.highLowContainer walk.x2.highLowContainer
      (UInt16.ofNat walk.pos2) (UInt16.ofNat length2) walk.x2.copyOnWrite
    return ({ answer with highLowContainer := ra }, walk.x1, { walk.x2 with highLowContainer := ra2 })
  else if walk.pos2 = length2 then
    let (ra, ra1) ← raAppendCopyRange answer.highLowContainer walk.x1.highLowContainer
      (UInt16.ofNat walk.pos1) (UInt16.ofNat length1) walk.x1.copyOnWrite
    return ({ answer with highLowContainer := ra }, { walk.x1 with highLowContainer := ra1 }, walk.x2)
  else return (answer, walk.x1, walk.x2)

/-! ## Appending -/

section Append

variable {answer x x1 x2 : RoaringBitmap} {chunk : Chunk}

/-- A chunk above all others is appended. -/
theorem raAppend_spec (well : answer.Well Container.Valid) (holds : chunk.Holds Container.Valid)
    (above : ∀ c ∈ answer.highLowContainer.chunks, c.key < chunk.key) :
    ∃ ra, raAppend answer.highLowContainer chunk.key chunk.container = .ok ra ∧
      ra.chunks = answer.highLowContainer.chunks ++ [chunk] ∧
      RoaringBitmap.Well Container.Valid { answer with highLowContainer := ra } := by
  obtain ⟨allocationSize, grown, room, -⟩ := extendArray_spec answer.highLowContainer 1 well.array.fits
  have length : (answer.highLowContainer.chunks ++ [chunk]).length ≤ allocationSize := by
    rw [List.length_append, List.length_singleton]
    omega
  refine ⟨{ allocationSize, chunks := answer.highLowContainer.chunks ++ [chunk] }, ?_, rfl, ⟨⟨?_, length⟩, well.unshared⟩⟩
  · rw [raAppend, grown, ok_bind, RoaringArray.store, if_pos length]
  · have single : ChunksWell Container.Valid [chunk] := ⟨List.pairwise_singleton .., List.forall_mem_singleton.2 holds⟩
    apply well.array.chunks.append single
    intro c inside d member
    rw [List.mem_singleton.1 member]
    exact above c inside

/-- A copy has the same chunks. -/
theorem roaringBitmapCopy_spec (well : x.Well Container.Valid) :
    ∃ answer, roaringBitmapCopy x = .ok (answer, x) ∧ answer.Well Container.Valid ∧
      answer.highLowContainer.chunks = x.highLowContainer.chunks := by
  obtain ⟨answer, run, chunks, -, fits⟩ :=
    roaringBitmapOverwrite_spec (roaringBitmapCreateWithCapacity x.highLowContainer.size) well
  obtain ⟨⟨source, ra⟩, copied, done⟩ := bind_eq_ok.1 run
  obtain ⟨isAnswer, isSource⟩ := Prod.mk.inj (Except.ok.inj done)
  have copy : raCopy x.highLowContainer x.copyOnWrite = .ok (source, ra) := copied
  refine ⟨{ highLowContainer := ra, copyOnWrite := x.copyOnWrite }, ?_, ?_, ?_⟩
  · rw [roaringBitmapCopy, copy, ok_bind]
    exact congrArg (fun source => Except.ok (_, source)) isSource
  · rw [← isAnswer] at chunks fits
    exact ⟨⟨chunks ▸ well.array.chunks, fits⟩, well.unshared⟩
  · rw [← isAnswer] at chunks
    exact chunks

end Append

/-! ## The walk -/

/-- Where the walk stands: the chunks behind it, of both bitmaps, are in the
answer, and their keys are below those ahead. -/
structure OrPosition (x1 x2 answer : RoaringBitmap) (used1 left1 used2 left2 : List Chunk) : Prop where
  split1 : x1.highLowContainer.chunks = used1 ++ left1
  split2 : x2.highLowContainer.chunks = used2 ++ left2
  well : answer.Well Container.Valid
  values : ∀ v, v ∈ answer.values ↔ v ∈ chunkValues used1 ∨ v ∈ chunkValues used2
  ahead1 : ∀ c ∈ answer.highLowContainer.chunks, ∀ d ∈ left1, c.key < d.key
  ahead2 : ∀ c ∈ answer.highLowContainer.chunks, ∀ d ∈ left2, c.key < d.key
  kept1 : ∀ c ∈ used1, ∃ d ∈ answer.highLowContainer.chunks, d.key = c.key
  kept2 : ∀ c ∈ used2, ∃ d ∈ answer.highLowContainer.chunks, d.key = c.key
  within1 : ∀ c ∈ used1, ∃ d ∈ x2.highLowContainer.chunks, c.key ≤ d.key
  within2 : ∀ c ∈ used2, ∃ d ∈ x1.highLowContainer.chunks, c.key ≤ d.key

section Walk

variable {answer x1 x2 : RoaringBitmap} {used1 left1 used2 left2 : List Chunk} {c1 c2 : Chunk}

/-- The operands play the same part. -/
theorem OrPosition.swap (position : OrPosition x1 x2 answer used1 left1 used2 left2) :
    OrPosition x2 x1 answer used2 left2 used1 left1 where
  split1 := position.split2
  split2 := position.split1
  well := position.well
  values v := (position.values v).trans or_comm
  ahead1 := position.ahead2
  ahead2 := position.ahead1
  kept1 := position.kept2
  kept2 := position.kept1
  within1 := position.within2
  within2 := position.within1

/-- The chunk at hand of the first bitmap has the smaller key: a copy is appended. -/
theorem OrPosition.copy (position : OrPosition x1 x2 answer used1 (c1 :: left1) used2 (c2 :: left2))
    (well1 : x1.Well Container.Valid) (well2 : x2.Well Container.Valid) (less : c1.key < c2.key) :
    ∃ answer', plainOrCopy answer x1 used1.length c1.key = .ok (answer', x1) ∧
      OrPosition x1 x2 answer' (used1 ++ [c1]) left1 used2 (c2 :: left2) := by
  have split1 := position.split1
  have holds := well1.array.chunks.holds c1 (by rw [split1]; simp)
  have above1 := well1.array.chunks.above split1
  have above2 := well2.array.chunks.above position.split2
  obtain ⟨ra, appended, chunks, well⟩ :=
    raAppend_spec position.well holds fun c inside => position.ahead1 c inside c1 (by simp)
  have copied : getCopyOfContainer c1.container false = .ok c1.container := by
    rw [holds.owned, getCopyOfContainer, containerClone_valid holds.allowed]
    rfl
  have same : ({ x1 with copyOnWrite := false } : RoaringBitmap) = x1 := by rw [← well1.unshared]
  refine ⟨{ answer with highLowContainer := ra }, ?_, ?_⟩
  · simp only [plainOrCopy, raGetContainerAtIndex_split split1 (well1.array.chunks.index_small split1), ok_bind,
      well1.unshared, copied, Bool.false_eq_true, if_false, appended, pure_eq, same]
  · have grown : ∀ c, c ∈ ra.chunks ↔ c ∈ answer.highLowContainer.chunks ∨ c = c1 := by
      intro c
      rw [chunks, List.mem_append, List.mem_singleton]
    refine ⟨by rw [split1, List.append_assoc]; rfl, position.split2, well, fun v => ?_, ?_, ?_, ?_, ?_, ?_, position.within2⟩
    · have values := position.values v
      rw [RoaringBitmap.values] at values ⊢
      rw [chunks, chunkValues_append, chunkValues_append, List.mem_append, List.mem_append, values]
      tauto
    · intro c inside d later
      rcases (grown c).1 inside with before | rfl
      · exact position.ahead1 c before d (List.mem_cons_of_mem _ later)
      · exact above1 d later
    · intro c inside d later
      rcases (grown c).1 inside with before | rfl
      · exact position.ahead2 c before d later
      · rcases List.mem_cons.1 later with rfl | after
        · exact less
        · exact less.trans (above2 d after)
    · intro c inside
      rcases List.mem_append.1 inside with before | here
      · obtain ⟨d, member, key⟩ := position.kept1 c before
        exact ⟨d, (grown d).2 (.inl member), key⟩
      · exact ⟨c1, (grown c1).2 (.inr rfl), by rw [List.mem_singleton.1 here]⟩
    · intro c inside
      obtain ⟨d, member, key⟩ := position.kept2 c inside
      exact ⟨d, (grown d).2 (.inl member), key⟩
    · intro c inside
      rcases List.mem_append.1 inside with before | here
      · exact position.within1 c before
      · rw [List.mem_singleton.1 here]
        exact ⟨c2, by rw [position.split2]; simp, less.le⟩

/-- The chunks at hand have the same key: the union of their containers is appended. -/
theorem OrPosition.align (position : OrPosition x1 x2 answer used1 (c1 :: left1) used2 (c2 :: left2))
    (well1 : x1.Well Container.Valid) (well2 : x2.Well Container.Valid) (same : c1.key = c2.key) :
    ∃ answer', plainOrAligned answer x1 x2 used1.length used2.length c1.key = .ok answer' ∧
      OrPosition x1 x2 answer' (used1 ++ [c1]) left1 (used2 ++ [c2]) left2 := by
  have split1 := position.split1
  have split2 := position.split2
  have holds1 := well1.array.chunks.holds c1 (by rw [split1]; simp)
  have holds2 := well2.array.chunks.holds c2 (by rw [split2]; simp)
  have above1 := well1.array.chunks.above split1
  have above2 := well2.array.chunks.above split2
  obtain ⟨c, united, valid, members⟩ :=
    containerOr_valid holds1.allowed holds2.allowed holds1.nonempty holds2.nonempty
  have nonempty : c.values ≠ [] := by
    obtain ⟨x, inside⟩ := List.exists_mem_of_ne_nil _ holds1.nonempty
    exact List.ne_nil_of_mem ((members x).2 (.inl inside))
  have holds : Chunk.Holds Container.Valid { key := c1.key, container := .owned c } := holds_owned valid nonempty
  obtain ⟨ra, appended, chunks, well⟩ :=
    raAppend_spec position.well holds fun c inside => position.ahead1 c inside c1 (by simp)
  have appended' : raAppend answer.highLowContainer c1.key (.owned c) = .ok ra := appended
  refine ⟨{ answer with highLowContainer := ra }, ?_, ?_⟩
  · simp only [plainOrAligned, raGetContainerAtIndex_split split1 (well1.array.chunks.index_small split1),
      raGetContainerAtIndex_split split2 (well2.array.chunks.index_small split2), ok_bind, holds1.owned, holds2.owned,
      united, appended', pure_eq]
  · have grown : ∀ d, d ∈ ra.chunks ↔ d ∈ answer.highLowContainer.chunks ∨ d = { key := c1.key, container := .owned c } := by
      intro d
      rw [chunks, List.mem_append, List.mem_singleton]
    have kept : ∀ {used : List Chunk} {e : Chunk}, e.key = c1.key →
        (∀ c ∈ used, ∃ d ∈ answer.highLowContainer.chunks, d.key = c.key) →
        ∀ c ∈ used ++ [e], ∃ d ∈ ra.chunks, d.key = c.key := by
      intro used e isKey kept d inside
      rcases List.mem_append.1 inside with before | here
      · obtain ⟨d', member, key⟩ := kept d before
        exact ⟨d', (grown d').2 (.inl member), key⟩
      · rw [List.mem_singleton.1 here]
        exact ⟨_, (grown _).2 (.inr rfl), isKey.symm⟩
    refine ⟨by rw [split1, List.append_assoc]; rfl, by rw [split2, List.append_assoc]; rfl, well, fun v => ?_, ?_, ?_,
      kept rfl position.kept1, kept same.symm position.kept2, ?_, ?_⟩
    · have values := position.values v
      rw [RoaringBitmap.values] at values ⊢
      rw [chunks, chunkValues_append, chunkValues_append, chunkValues_append, List.mem_append, List.mem_append,
        List.mem_append, values]
      simp only [chunkValues_cons, chunkValues_nil, List.append_nil, mem_chunk_values, ← same]
      have content : Chunk.content { key := c1.key, container := .owned c } = c := rfl
      rw [content, members]
      tauto
    · intro d inside e later
      rcases (grown d).1 inside with before | rfl
      · exact position.ahead1 d before e (List.mem_cons_of_mem _ later)
      · exact above1 e later
    · intro d inside e later
      rcases (grown d).1 inside with before | rfl
      · exact position.ahead2 d before e (List.mem_cons_of_mem _ later)
      · show c1.key < e.key
        exact same ▸ above2 e later
    · intro d inside
      rcases List.mem_append.1 inside with before | here
      · exact position.within1 d before
      · rw [List.mem_singleton.1 here]
        exact ⟨c2, by rw [split2]; simp, same.le⟩
    · intro d inside
      rcases List.mem_append.1 inside with before | here
      · exact position.within2 d before
      · rw [List.mem_singleton.1 here]
        exact ⟨c1, by rw [split1]; simp, same.ge⟩

end Walk

/-- How the walk ends: at the end of one of the bitmaps. -/
structure PlainOrWalked (x1 x2 : RoaringBitmap) (walk : PlainOrWalk) (used1 left1 used2 left2 : List Chunk) : Prop where
  position : OrPosition x1 x2 walk.answer used1 left1 used2 left2
  same1 : walk.x1 = x1
  same2 : walk.x2 = x2
  pos1 : used1.length = walk.pos1
  pos2 : used2.length = walk.pos2
  finished : left1 = [] ∨ left2 = []

section Loop

variable {answer x1 x2 : RoaringBitmap} {used1 left1 used2 left2 : List Chunk} {c1 c2 : Chunk} {pos1 pos2 : Nat}

/-- The length of a bitmap from a position on. -/
theorem size_at {x : RoaringBitmap} {used left : List Chunk} {c : Chunk} {pos : Nat}
    (split : x.highLowContainer.chunks = used ++ c :: left) (here : used.length = pos) :
    x.highLowContainer.size = pos + 1 + left.length := by
  rw [RoaringArray.size, split, List.length_append, List.length_cons, here]
  omega

theorem length_snoc {used : List Chunk} {pos : Nat} (here : used.length = pos) (c : Chunk) : (used ++ [c]).length = pos + 1 := by
  rw [List.length_append, here, List.length_singleton]

/-- The walk succeeds from any position. -/
theorem plainOrLoop_spec (well1 : x1.Well Container.Valid) (well2 : x2.Well Container.Valid)
    (position : OrPosition x1 x2 answer used1 (c1 :: left1) used2 (c2 :: left2)) (at1 : used1.length = pos1)
    (at2 : used2.length = pos2) :
    ∃ walk used1' left1' used2' left2', plainOrLoop x1.highLowContainer.size x2.highLowContainer.size answer x1 x2 pos1 pos2
      c1.key c2.key = .ok walk ∧ PlainOrWalked x1 x2 walk used1' left1' used2' left2' := by
  induction total : left1.length + left2.length using Nat.strong_induction_on
    generalizing answer used1 left1 used2 left2 c1 c2 pos1 pos2 with | _ total ih
  have size1 := size_at position.split1 at1
  have size2 := size_at position.split2 at2
  have at1' := length_snoc at1 c1
  have at2' := length_snoc at2 c2
  unfold plainOrLoop
  rcases lt_trichotomy c1.key c2.key with less | same | greater
  · -- `s1 < s2`
    obtain ⟨answer', copied, position'⟩ := position.copy well1 well2 less
    rw [at1] at copied
    simp only [ne_of_lt less, less, if_false, if_true, copied, ok_bind, pure_eq]
    cases left1 with
    | nil => exact ⟨_, _, _, _, _, if_pos (by simp [size1]), position', rfl, rfl, at1', at2, .inl rfl⟩
    | cons c1' left1 =>
      obtain ⟨-, -, key⟩ := walk_on well1.array.chunks position.split1 at1
      obtain ⟨walk, used1', left1', used2', left2', run, walked⟩ :=
        ih _ (by rw [← total, List.length_cons]; omega) position' at1' at2 rfl
      exact ⟨walk, used1', left1', used2', left2', by rw [if_neg (by simp [size1]), key, ok_bind, run], walked⟩
  · -- `s1 == s2`
    obtain ⟨answer', aligned, position'⟩ := position.align well1 well2 same
    rw [at1, at2] at aligned
    simp only [same, if_true]
    rw [same] at aligned
    simp only [aligned, ok_bind, pure_eq]
    cases left1 with
    | nil => exact ⟨_, _, _, _, _, if_pos (by simp [size1]), position', rfl, rfl, at1', at2', .inl rfl⟩
    | cons c1' left1 =>
      rw [if_neg (by simp [size1])]
      cases left2 with
      | nil => exact ⟨_, _, _, _, _, if_pos (by simp [size2]), position', rfl, rfl, at1', at2', .inr rfl⟩
      | cons c2' left2 =>
        obtain ⟨-, -, key1⟩ := walk_on well1.array.chunks position.split1 at1
        obtain ⟨-, -, key2⟩ := walk_on well2.array.chunks position.split2 at2
        obtain ⟨walk, used1', left1', used2', left2', run, walked⟩ :=
          ih _ (by rw [← total, List.length_cons, List.length_cons]; omega) position' at1' at2' rfl
        exact ⟨walk, used1', left1', used2', left2',
          by rw [if_neg (by simp [size2]), key1, key2, ok_bind, ok_bind, run], walked⟩
  · -- `s1 > s2`
    obtain ⟨answer', copied, position'⟩ := position.swap.copy well2 well1 greater
    rw [at2] at copied
    simp only [ne_of_gt greater, not_lt_of_gt greater, if_false, copied, ok_bind, pure_eq]
    cases left2 with
    | nil => exact ⟨_, _, _, _, _, if_pos (by simp [size2]), position'.swap, rfl, rfl, at1, at2', .inr rfl⟩
    | cons c2' left2 =>
      obtain ⟨-, -, key⟩ := walk_on well2.array.chunks position.split2 at2
      obtain ⟨walk, used1', left1', used2', left2', run, walked⟩ :=
        ih _ (by rw [← total, List.length_cons]; omega) position'.swap at1 at2' rfl
      exact ⟨walk, used1', left1', used2', left2', by rw [if_neg (by simp [size2]), key, ok_bind, run], walked⟩

end Loop

/-! ## The union -/

section Union

variable {answer x1 x2 : RoaringBitmap} {used1 left1 used2 left2 : List Chunk}

/-- The walk starts with nothing behind it. -/
theorem orPosition_start (cap : Nat) (isChunks1 : x1.highLowContainer.chunks = left1) (isChunks2 : x2.highLowContainer.chunks = left2) :
    OrPosition x1 x2 (roaringBitmapCreateWithCapacity cap) [] left1 [] left2 where
  split1 := isChunks1
  split2 := isChunks2
  well := ⟨⟨.nil, Nat.zero_le _⟩, rfl⟩
  values v := by simp [RoaringBitmap.values, roaringBitmapCreateWithCapacity, raInitWithCapacity]
  ahead1 := List.forall_mem_nil _
  ahead2 := List.forall_mem_nil _
  kept1 := List.forall_mem_nil _
  kept2 := List.forall_mem_nil _
  within1 := List.forall_mem_nil _
  within2 := List.forall_mem_nil _

/-- What is behind the walk is not lost. -/
theorem OrPosition.not_lost (position : OrPosition x1 x2 answer used1 left1 used2 left2) {v : UInt32}
    (member : v ∈ chunkValues used2) : ¬ LostInUnion x1 x2 v := by
  rintro ⟨-, -, beyond⟩
  obtain ⟨c, inside, isKey, -⟩ := mem_chunkValues.1 member
  obtain ⟨d, there, le⟩ := position.within2 c inside
  exact absurd (beyond d.key (List.mem_map_of_mem there)) (not_lt_of_ge (isKey ▸ le))

/-- What the second bitmap has beyond the first is lost when it has all chunks. -/
theorem OrPosition.lost (position : OrPosition x1 x2 answer used1 [] used2 left2) (all : x2.highLowContainer.size = 65536)
    (some : x1.highLowContainer.size ≠ 0) {v : UInt32} (member : v ∈ chunkValues left2) : LostInUnion x1 x2 v := by
  refine ⟨all, some, fun k isKey => ?_⟩
  obtain ⟨c, inside, isKey', -⟩ := mem_chunkValues.1 member
  rw [RoaringArray.keys, position.split1, List.append_nil] at isKey
  obtain ⟨d, there, rfl⟩ := List.mem_map.1 isKey
  obtain ⟨e, kept, same⟩ := position.kept1 d there
  rw [isKey', ← same]
  exact position.ahead2 e kept c inside

/-- The append at the end of the first bitmap. -/
theorem OrPosition.append (position : OrPosition x1 x2 answer used1 [] used2 left2) (well2 : x2.Well Container.Valid)
    (some : x1.highLowContainer.size ≠ 0) :
    ∃ ra, raAppendCopyRange answer.highLowContainer x2.highLowContainer (UInt16.ofNat used2.length)
        (UInt16.ofNat x2.highLowContainer.size) false = .ok (ra, x2.highLowContainer) ∧
      RoaringBitmap.Well Container.Valid { answer with highLowContainer := ra } ∧
      ∀ v, v ∈ chunkValues ra.chunks ↔ v ∈ x1.values ∨ v ∈ x2.values ∧ ¬ LostInUnion x1 x2 v := by
  have chunks2 := well2.array.chunks
  have split2 := position.split2
  have length : x2.highLowContainer.chunks.length = used2.length + left2.length := by rw [split2, List.length_append]
  have bounded := chunks2.length_le
  have values1 : ∀ v, v ∈ x1.values ↔ v ∈ chunkValues used1 := by
    intro v
    rw [RoaringBitmap.values, position.split1, List.append_nil]
  have values2 : ∀ v, v ∈ x2.values ↔ v ∈ chunkValues used2 ∨ v ∈ chunkValues left2 := by
    intro v
    rw [RoaringBitmap.values, split2, chunkValues_append, List.mem_append]
  have answered : ∀ v, v ∈ chunkValues answer.highLowContainer.chunks ↔ _ := position.values
  have notLost : ∀ {v}, v ∈ chunkValues used2 → ¬ LostInUnion x1 x2 v := position.not_lost
  by_cases all : x2.highLowContainer.size = 65536
  · -- the end index wraps to 0 and nothing is appended
    obtain ⟨ra, run, isChunks, fits⟩ := raAppendCopyRange_spec (P := Container.Valid) (UInt16.ofNat used2.length)
      (UInt16.ofNat x2.highLowContainer.size)
      (show x2.highLowContainer.chunks = used2 ++ [] ++ left2 by simpa using split2) (by simp) position.well.array.fits
      (by simp) (by rw [all]; simp)
    rw [List.append_nil] at isChunks
    refine ⟨ra, run, ⟨⟨isChunks ▸ position.well.array.chunks, fits⟩, position.well.unshared⟩, fun v => ?_⟩
    have dropped : v ∈ chunkValues left2 → LostInUnion x1 x2 v := position.lost all some
    have kept := @notLost v
    rw [isChunks, answered, values1, values2]
    tauto
  · -- every chunk that is left is appended
    rw [RoaringArray.size] at all
    have isEnd : (UInt16.ofNat x2.highLowContainer.size).toNat = x2.highLowContainer.chunks.length :=
      toNat_index (by rw [RoaringArray.size]; omega)
    have isStart : (UInt16.ofNat used2.length).toNat = used2.length := toNat_index (by omega)
    obtain ⟨ra, run, isChunks, fits⟩ := raAppendCopyRange_spec (UInt16.ofNat used2.length)
      (UInt16.ofNat x2.highLowContainer.size)
      (show x2.highLowContainer.chunks = used2 ++ left2 ++ [] by simpa using split2)
      (fun c inside => chunks2.holds c (by rw [split2]; exact List.mem_append_right _ inside)) position.well.array.fits
      (fun _ => isStart) (by omega)
    refine ⟨ra, run, ⟨⟨?_, fits⟩, position.well.unshared⟩, fun v => ?_⟩
    · rw [isChunks]
      rw [split2] at chunks2
      exact position.well.array.chunks.append (chunks2.sublist (List.sublist_append_right ..)) position.ahead2
    · have kept : ¬ LostInUnion x1 x2 v := fun lost => all lost.1
      rw [isChunks, chunkValues_append, List.mem_append, answered, values1, values2]
      tauto

/-- **The union in a new bitmap.** It leaves both bitmaps alone and has the
values of both, except those of either that are lost to the 16-bit end index. -/
theorem roaringBitmapOr_spec (well1 : x1.Well Container.Valid) (well2 : x2.Well Container.Valid) :
    ∃ answer, roaringBitmapOr x1 x2 = .ok (answer, x1, x2) ∧ answer.Well Container.Valid ∧
      ∀ v, v ∈ answer.values ↔ v ∈ x1.values ∧ ¬ LostInUnion x2 x1 v ∨ v ∈ x2.values ∧ ¬ LostInUnion x1 x2 v := by
  unfold roaringBitmapOr
  rcases isChunks1 : x1.highLowContainer.chunks with _ | ⟨c1, rest1⟩
  · have none1 : x1.highLowContainer.size = 0 := by rw [RoaringArray.size, isChunks1]; rfl
    obtain ⟨answer, copied, well, chunks⟩ := roaringBitmapCopy_spec well2
    refine ⟨answer, by simp only [none1, if_true, copied, ok_bind, pure_eq], well, ?_⟩
    intro v
    have kept : ¬ LostInUnion x1 x2 v := fun lost => lost.2.1 none1
    rw [RoaringBitmap.values, chunks, x1.values_eq isChunks1]
    simp [kept, RoaringBitmap.values]
  have some1 : x1.highLowContainer.size ≠ 0 := by simp [RoaringArray.size, isChunks1]
  rcases isChunks2 : x2.highLowContainer.chunks with _ | ⟨c2, rest2⟩
  · have none2 : x2.highLowContainer.size = 0 := by rw [RoaringArray.size, isChunks2]; rfl
    obtain ⟨answer, copied, well, chunks⟩ := roaringBitmapCopy_spec well1
    refine ⟨answer, by simp only [some1, none2, if_true, if_false, copied, ok_bind, pure_eq], well, ?_⟩
    intro v
    have kept : ¬ LostInUnion x2 x1 v := fun lost => lost.2.1 none2
    rw [RoaringBitmap.values, chunks, x2.values_eq isChunks2]
    simp [kept, RoaringBitmap.values]
  have some2 : x2.highLowContainer.size ≠ 0 := by simp [RoaringArray.size, isChunks2]
  have key1 := raGetKeyAtIndex_first isChunks1
  have key2 := raGetKeyAtIndex_first isChunks2
  obtain ⟨walk, used1, left1, used2, left2, run, walked⟩ := plainOrLoop_spec well1 well2
    (orPosition_start (x1.highLowContainer.size + x2.highLowContainer.size) isChunks1 isChunks2) List.length_nil List.length_nil
  have start : (⟨(roaringBitmapCreateWithCapacity (x1.highLowContainer.size + x2.highLowContainer.size)).highLowContainer,
      false⟩ : RoaringBitmap) = roaringBitmapCreateWithCapacity (x1.highLowContainer.size + x2.highLowContainer.size) := rfl
  have position := walked.position
  have length1 : x1.highLowContainer.size = used1.length + left1.length := by
    rw [RoaringArray.size, position.split1, List.length_append]
  have length2 : x2.highLowContainer.size = used2.length + left2.length := by
    rw [RoaringArray.size, position.split2, List.length_append]
  simp only [some1, some2, if_false, key1, key2, ok_bind, well1.unshared, well2.unshared, Bool.and_self, start, run,
    walked.same1, walked.same2, ← walked.pos1, ← walked.pos2]
  by_cases end1 : left1 = []
  · -- the first bitmap is at its end
    subst end1
    obtain ⟨ra, appended, well, values⟩ := position.append well2 some1
    refine ⟨{ walk.answer with highLowContainer := ra }, ?_, well, fun v => ?_⟩
    · have same : ({ x2 with copyOnWrite := false } : RoaringBitmap) = x2 := by rw [← well2.unshared]
      rw [if_pos (by simpa using length1.symm), appended, ok_bind, same, pure_eq]
    · rw [RoaringBitmap.values, values]
      have kept : v ∈ x1.values → ¬ LostInUnion x2 x1 v := by
        intro inside
        apply position.swap.not_lost
        rwa [← List.append_nil used1, ← position.split1]
      tauto
  · -- the second bitmap is at its end
    have end2 : left2 = [] := walked.finished.resolve_left end1
    subst end2
    obtain ⟨ra, appended, well, values⟩ := position.swap.append well1 some2
    refine ⟨{ walk.answer with highLowContainer := ra }, ?_, well, fun v => ?_⟩
    · have ahead : 0 < left1.length := List.length_pos_of_ne_nil end1
      have same : ({ x1 with copyOnWrite := false } : RoaringBitmap) = x1 := by rw [← well1.unshared]
      rw [if_neg (by omega), if_pos (by simpa using length2.symm), appended, ok_bind, same, pure_eq]
    · rw [RoaringBitmap.values, values]
      have kept : v ∈ x2.values → ¬ LostInUnion x1 x2 v := by
        intro inside
        apply position.not_lost
        rwa [← List.append_nil used2, ← position.split2]
      tauto

end Union

end RedisRoaring
