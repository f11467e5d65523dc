import RedisRoaring.Roaring

/-!
# Adding, removing and finding values

On a well-formed bitmap the single-value operations succeed and act on the set
of values as their names say. The batch insert is followed with the invariant
that the container at hand is the chunk of the previous value (`AtHand`).
-/

namespace RedisRoaring

open Exec SortedList

/-- The values of a bitmap. -/
def RoaringBitmap.values (r : RoaringBitmap) : List UInt32 := chunkValues r.highLowContainer.chunks

theorem RoaringBitmap.values_eq (r : RoaringBitmap) {chunks : List Chunk}
    (isChunks : r.highLowContainer.chunks = chunks) : r.values = chunkValues chunks := isChunks ▸ rfl

/-- A bitmap whose containers are of the allowed kinds, none shared. -/
structure RoaringBitmap.Well (P : Container → Prop) (r : RoaringBitmap) : Prop where
  array : r.highLowContainer.Well P
  unshared : r.copyOnWrite = false

theorem RoaringBitmap.Well.sorted {P : Container → Prop} [Kind P] {r : RoaringBitmap} (well : r.Well P) :
    r.values.Pairwise (· < ·) := well.array.chunks.sorted_values fun _ allowed => Kind.sorted allowed

/-- The invariant of the kinds is monotone. -/
theorem RoaringBitmap.Well.mono {P Q : Container → Prop} {r : RoaringBitmap} (well : r.Well P)
    (weaker : ∀ c, P c → Q c) : r.Well Q :=
  ⟨⟨well.array.chunks.mono weaker, well.array.fits⟩, well.unshared⟩

theorem RoaringBitmap.Well.sound {r : RoaringBitmap} (well : r.Well Container.Plain) : r.Well Container.Sound :=
  well.mono fun _ => .plain

theorem well_create (P : Container → Prop) : roaringBitmapCreate.Well P :=
  ⟨⟨.nil, Nat.zero_le _⟩, rfl⟩

@[simp] theorem values_create : roaringBitmapCreate.values = [] := rfl

/-- A value is its two halves. -/
theorem eq_iff_halves {v w : UInt32} : v = w ↔ highBits v = highBits w ∧ lowBits v = lowBits w := by
  refine ⟨fun same => by rw [same]; exact ⟨rfl, rfl⟩, fun ⟨high, low⟩ => ?_⟩
  rw [← joinBits_eq v, high, low, joinBits_eq]

/-- The emptiness test. -/
theorem roaringBitmapIsEmpty_iff {P : Container → Prop} {r : RoaringBitmap} (well : r.Well P) :
    roaringBitmapIsEmpty r = true ↔ r.values = [] := by
  rw [roaringBitmapIsEmpty, beq_iff_eq, RoaringArray.size, List.length_eq_zero_iff]
  constructor
  · intro none
    rw [RoaringBitmap.values, none, chunkValues_nil]
  · intro none
    by_contra some
    exact well.array.chunks.values_ne_nil some none

/-- The cardinality fields add up to the number of values. -/
theorem foldl_cardinality {P : Container → Prop} [Kind P] {chunks : List Chunk} (well : ChunksWell P chunks) (card : Nat) :
    chunks.foldl (fun card chunk => card + containerGetCardinality chunk.container) card =
      card + (chunkValues chunks).length := by
  induction chunks generalizing card with
  | nil => rfl
  | cons chunk chunks ih =>
    have holds := well.holds chunk (by simp)
    rw [List.foldl_cons, ih (well.sublist (List.sublist_cons_self ..)), holds.owned,
      Kind.counted holds.allowed, chunkValues_cons, List.length_append, Chunk.values, List.length_map,
      Nat.add_assoc]

theorem roaringBitmapGetCardinality_spec {P : Container → Prop} [Kind P] {r : RoaringBitmap} (well : r.Well P) :
    roaringBitmapGetCardinality r = r.values.length := by
  rw [roaringBitmapGetCardinality, foldl_cardinality well.array.chunks, Nat.zero_add]
  rfl

/-- The membership test. -/
theorem roaringBitmapContains_spec {P : Container → Prop} [Stored P] {r : RoaringBitmap} (well : r.Well P) (val : UInt32) :
    ∃ found, roaringBitmapContains r val = .ok found ∧ (found = true ↔ val ∈ r.values) := by
  have located := raGetIndex_located well.array.chunks (highBits val)
  unfold roaringBitmapContains
  generalize raGetIndex r.highLowContainer (highBits val) = i at located
  cases located with
  | hit pre chunk post split key =>
    have small := well.array.chunks.index_small split
    have chunks := well.array.chunks
    rw [split] at chunks
    have holds := chunks.holds chunk (by simp)
    have others : val ∉ chunkValues (pre ++ post) := chunks.not_mem_others key.symm
    refine ⟨containerContains chunk.container (lowBits val), ?_, ?_⟩
    · simp only [show ¬ ((pre.length : Int) < 0) by omega, if_false, Int.toNat_natCast,
        raGetContainerAtIndex_split split small, ok_bind, pure_eq]
    · rw [holds.owned, containerContains_valid (Stored.valid holds.allowed), RoaringBitmap.values, split, mem_chunkValues_split]
      simp only [key, true_and, others, or_false]
  | miss pre post split below above =>
    have absent : val ∉ r.values := by
      rw [RoaringBitmap.values, split]
      exact not_mem_chunkValues_gap below above
    refine ⟨false, by simp only [show -(pre.length + 1 : Int) < 0 by omega, if_true, pure_eq], ?_⟩
    simp only [absent, Bool.false_eq_true]

/-- One container under each of the keys. -/
def uniformBitmap (keys : List UInt16) (c : Container) : RoaringBitmap where
  highLowContainer :=
    { allocationSize := keys.length
      chunks := keys.map fun key => { key, container := .owned c } }
  copyOnWrite := false

section Uniform

variable {keys : List UInt16} {c : Container}

theorem chunk_uniformBitmap {chunk : Chunk} (inside : chunk ∈ (uniformBitmap keys c).highLowContainer.chunks) :
    chunk.container = .owned c := by
  obtain ⟨key, -, rfl⟩ := List.mem_map.1 inside
  rfl

theorem size_uniformBitmap : (uniformBitmap keys c).highLowContainer.chunks.length = keys.length := List.length_map ..

theorem keys_uniformBitmap : (uniformBitmap keys c).highLowContainer.keys = keys := by
  rw [uniformBitmap, RoaringArray.keys, List.map_map]
  exact List.map_id keys

theorem uniformBitmap_well {P : Container → Prop} (sorted : keys.Pairwise (· < ·)) (allowed : P c)
    (nonempty : c.values ≠ []) : (uniformBitmap keys c).Well P := by
  refine ⟨⟨⟨?_, fun chunk inside => ?_⟩, Nat.le_of_eq size_uniformBitmap⟩, rfl⟩
  · show (uniformBitmap keys c).highLowContainer.keys.Pairwise (· < ·)
    exact keys_uniformBitmap.symm ▸ sorted
  · have owned := chunk_uniformBitmap inside
    have content : chunk.content = c := congrArg containerUnwrapShared owned
    exact ⟨content ▸ owned, content ▸ allowed, content ▸ nonempty⟩

end Uniform

/-! ## Adding -/

/-- The container at hand is the chunk of `val`. -/
def AtHand (r : RoaringBitmap) (containerindex : Nat) (val : UInt32) : Prop :=
  ∃ pre chunk post, r.highLowContainer.chunks = pre ++ chunk :: post ∧ pre.length = containerindex ∧
    chunk.key = highBits val

/-- `r'` is `r` with one more value, whose chunk is at hand. -/
structure Added (P : Container → Prop) (r r' : RoaringBitmap) (containerindex : Nat) (val : UInt32) : Prop where
  well : r'.Well P
  values : ∀ v, v ∈ r'.values ↔ v ∈ r.values ∨ v = val
  atHand : AtHand r' containerindex val

section Add

variable {P : Container → Prop} [Stored P] {r : RoaringBitmap} {val : UInt32} {pre post : List Chunk} {chunk : Chunk}

/-- Adding a value to the container of its chunk. -/
theorem add_in_chunk (well : r.Well P) (split : r.highLowContainer.chunks = pre ++ chunk :: post)
    (key : chunk.key = highBits val) :
    ∃ c ra, containerAdd chunk.container (lowBits val) = .ok c ∧
      raSetContainerAtIndex r.highLowContainer pre.length (.owned c) = .ok ra ∧
      Added P r { r with highLowContainer := ra } pre.length val := by
  have chunks := well.array.chunks
  have fits := well.array.fits
  rw [split] at chunks fits
  have holds := chunks.holds chunk (by simp)
  obtain ⟨c, run, allowed, members⟩ := Stored.add holds.allowed (lowBits val)
  have nonempty : c.values ≠ [] := List.ne_nil_of_mem ((members (lowBits val)).2 (.inr rfl))
  refine ⟨c, _, by rw [holds.owned]; exact run, raSetContainerAtIndex_split split (.owned c),
    ⟨⟨chunks.replace (holds_owned allowed nonempty) rfl, ?_⟩, well.unshared⟩, ?_, pre, _, post, rfl, rfl, key⟩
  · simpa using fits
  · intro v
    rw [RoaringBitmap.values, RoaringBitmap.values, split, mem_chunkValues_owned, mem_chunkValues_split, members, key,
      eq_iff_halves (v := v)]
    tauto

/-- A new chunk for a value whose key is absent. -/
theorem add_new_chunk (well : r.Well P) (split : r.highLowContainer.chunks = pre ++ post)
    (below : ∀ c ∈ pre, c.key < highBits val) (above : ∀ c ∈ post, highBits val < c.key) :
    ∃ c ra, containerAdd (.owned (.array arrayContainerCreate)) (lowBits val) = .ok c ∧
      raInsertNewKeyValueAt r.highLowContainer pre.length (highBits val) (.owned c) = .ok ra ∧
      Added P r { r with highLowContainer := ra } pre.length val := by
  obtain ⟨c, run, allowed, members⟩ := Stored.add (Stored.create : P _) (lowBits val)
  have only : ∀ x, x ∈ c.values ↔ x = lowBits val := fun x => (members x).trans (or_iff_right List.not_mem_nil)
  have nonempty : c.values ≠ [] := List.ne_nil_of_mem ((only (lowBits val)).2 rfl)
  obtain ⟨ra, inserted, isChunks, fits⟩ :=
    raInsertNewKeyValueAt_split split well.array.fits (highBits val) (.owned c)
  have chunks := well.array.chunks
  rw [split] at chunks
  refine ⟨c, ra, run, inserted, ⟨⟨?_, fits⟩, well.unshared⟩, ?_, pre, _, post, isChunks, rfl, rfl⟩
  · rw [isChunks]
    exact chunks.insert (holds_owned allowed nonempty) below above
  · intro v
    rw [RoaringBitmap.values, RoaringBitmap.values, isChunks, split, mem_chunkValues_owned, only,
      eq_iff_halves (v := v)]
    tauto

theorem containerptrRoaringBitmapAdd_spec (well : r.Well P) (val : UInt32) :
    ∃ r' containerindex, containerptrRoaringBitmapAdd r val = .ok (r', containerindex) ∧
      Added P r r' containerindex val := by
  have located := raGetIndex_located well.array.chunks (highBits val)
  unfold containerptrRoaringBitmapAdd
  generalize loc : raGetIndex r.highLowContainer (highBits val) = i at located
  cases located with
  | hit pre chunk post split key =>
    have small := well.array.chunks.index_small split
    have holds := well.array.chunks.holds chunk (by rw [split]; simp)
    obtain ⟨c, ra, added, set, done⟩ := add_in_chunk well split key
    refine ⟨{ r with highLowContainer := ra }, pre.length, ?_, done⟩
    simp only [loc, Int.natCast_nonneg, if_true, Int.toNat_natCast, raUnshareContainerAtIndex_split split small holds,
      raGetContainerAtIndex_split split small, added, set, ok_bind, pure_eq]
  | miss pre post split below above =>
    obtain ⟨c, ra, added, inserted, done⟩ := add_new_chunk well split below above
    have index : (-(-(pre.length + 1 : Int)) - 1).toNat = pre.length := by omega
    refine ⟨{ r with highLowContainer := ra }, pre.length, ?_, done⟩
    simp only [loc, show ¬ (0 ≤ -(pre.length + 1 : Int)) by omega, if_false, index, added, inserted, ok_bind, pure_eq]

/-- The test for the same chunk. -/
theorem xor_shift_eq_zero_iff (v w : UInt32) : (v ^^^ w) >>> 16 = 0 ↔ highBits v = highBits w := by
  have shift : ((v ^^^ w) >>> 16).toNat = v.toNat / 65536 ^^^ w.toNat / 65536 := by
    simp only [UInt32.toNat_shiftRight, UInt32.toNat_xor, UInt32.reduceToNat, Nat.reduceMod, Nat.shiftRight_xor_distrib]
    rw [Nat.shiftRight_eq_div_pow, Nat.shiftRight_eq_div_pow]
  rw [← UInt32.toNat_inj, shift, ← UInt16.toNat_inj, toNat_highBits, toNat_highBits]
  exact Nat.xor_eq_zero_iff

/-- One more round of the batch insert, whichever way the container is found. -/
theorem addManyStep_spec {containerindex : Nat} {prev : UInt32} (well : r.Well P)
    (atHand : AtHand r containerindex prev) (val : UInt32) :
    ∃ r' containerindex', addManyStep (r, containerindex, prev) val = .ok (r', containerindex', val) ∧
      Added P r r' containerindex' val := by
  unfold addManyStep
  by_cases same : (prev ^^^ val) >>> 16 = 0
  · obtain ⟨pre, chunk, post, split, rfl, key⟩ := atHand
    have small := well.array.chunks.index_small split
    obtain ⟨c, ra, added, set, done⟩ := add_in_chunk well split (key.trans ((xor_shift_eq_zero_iff _ _).1 same))
    refine ⟨{ r with highLowContainer := ra }, pre.length, ?_, done⟩
    simp only [same, if_true, raGetContainerAtIndex_split split small, added, set, ok_bind, pure_eq]
  · obtain ⟨r', containerindex', run, done⟩ := containerptrRoaringBitmapAdd_spec well val
    refine ⟨r', containerindex', ?_, done⟩
    simp only [same, if_false, run, ok_bind, pure_eq]

/-- The rounds of the batch insert. -/
theorem foldlM_addManyStep (vals : List UInt32) {containerindex : Nat} {prev : UInt32} (well : r.Well P)
    (atHand : AtHand r containerindex prev) :
    ∃ last, vals.foldlM addManyStep (r, containerindex, prev) = .ok last ∧ last.1.Well P ∧
      ∀ v, v ∈ last.1.values ↔ v ∈ r.values ∨ v ∈ vals := by
  -- between the rounds a container is at hand, and the values seen so far are in
  have walked : ∃ last, vals.foldlM addManyStep (r, containerindex, prev) = .ok last ∧
      last.1.Well P ∧ AtHand last.1 last.2.1 last.2.2 ∧
      ∀ v, v ∈ last.1.values ↔ v ∈ r.values ∨ v ∈ vals := by
    apply foldlM_loop (P := fun (seen : List UInt32) (s : RoaringBitmap × Nat × UInt32) =>
      s.1.Well P ∧ AtHand s.1 s.2.1 s.2.2 ∧ ∀ v, v ∈ s.1.values ↔ v ∈ r.values ∨ v ∈ seen)
    · intro seen val left s _ here
      obtain ⟨well', atHand', values'⟩ := here
      obtain ⟨r', containerindex', run, added⟩ := addManyStep_spec well' atHand' val
      refine ⟨_, run, added.well, added.atHand, ?_⟩
      intro v
      rw [added.values, values', List.mem_append, List.mem_singleton, or_assoc]
    · exact ⟨well, atHand, by simp⟩
  obtain ⟨last, run, done, -, values⟩ := walked
  exact ⟨last, run, done, values⟩

/-- The batch insert adds exactly the given values. -/
theorem roaringBitmapAddMany_spec (well : r.Well P) (vals : List UInt32) :
    ∃ r', roaringBitmapAddMany r vals = .ok r' ∧ r'.Well P ∧
      ∀ v, v ∈ r'.values ↔ v ∈ r.values ∨ v ∈ vals := by
  cases vals with
  | nil => exact ⟨r, rfl, well, by simp⟩
  | cons val vals =>
    obtain ⟨r', containerindex, run, added⟩ := containerptrRoaringBitmapAdd_spec well val
    obtain ⟨last, rest, done, values⟩ := foldlM_addManyStep vals added.well added.atHand
    refine ⟨last.1, ?_, done, ?_⟩
    · simp only [roaringBitmapAddMany, run, rest, ok_bind, pure_eq]
    · intro v
      rw [values, added.values, List.mem_cons, or_assoc]

end Add

/-! ## Removing -/

section Remove

variable {P : Container → Prop} {r : RoaringBitmap} {val : UInt32} {pre post : List Chunk} {chunk : Chunk} {c : Container}

/-- The chunk goes with its last value. -/
theorem remove_chunk (well : r.Well P) (split : r.highLowContainer.chunks = pre ++ chunk :: post)
    (key : chunk.key = highBits val) (members : ∀ x, x ∈ c.values ↔ x ∈ chunk.content.values ∧ x ≠ lowBits val)
    (emptied : c.values = []) :
    ∃ ra, raSetContainerAtIndex r.highLowContainer pre.length (.owned c) = .ok ra ∧
      RoaringBitmap.Well P { r with highLowContainer := raRemoveAtIndexAndFree ra pre.length } ∧
      ∀ v, v ∈ RoaringBitmap.values { r with highLowContainer := raRemoveAtIndexAndFree ra pre.length } ↔
        v ∈ r.values ∧ v ≠ val := by
  have chunks := well.array.chunks
  have fits := well.array.fits
  rw [split] at chunks fits
  refine ⟨_, raSetContainerAtIndex_split split (.owned c), ?_⟩
  rw [raRemoveAtIndexAndFree_split rfl]
  refine ⟨⟨⟨chunks.erase, ?_⟩, well.unshared⟩, ?_⟩
  · simp only [List.length_append, List.length_cons] at fits ⊢
    omega
  · intro v
    have only : ∀ x, x ∈ chunk.content.values → x = lowBits val := by
      intro x inside
      by_contra apart
      exact List.ne_nil_of_mem ((members x).2 ⟨inside, apart⟩) emptied
    have others : highBits v = highBits val → v ∉ chunkValues (pre ++ post) := fun high =>
      chunks.not_mem_others (high.trans key.symm)
    rw [RoaringBitmap.values, RoaringBitmap.values, split, mem_chunkValues_split, key, ne_eq, eq_iff_halves (v := v)]
    constructor
    · intro member
      exact ⟨.inr member, fun same => others same.1 member⟩
    · intro given
      obtain ⟨⟨high, low⟩ | member, apart⟩ := given
      · exact absurd ⟨high, only _ low⟩ apart
      · exact member

/-- Removing a value from the container of its chunk, when others stay. -/
theorem remove_in_chunk (well : r.Well P) (split : r.highLowContainer.chunks = pre ++ chunk :: post)
    (key : chunk.key = highBits val) (members : ∀ x, x ∈ c.values ↔ x ∈ chunk.content.values ∧ x ≠ lowBits val)
    (allowed : P c) (nonempty : c.values ≠ []) :
    ∃ ra, raSetContainerAtIndex r.highLowContainer pre.length (.owned c) = .ok ra ∧
      RoaringBitmap.Well P { r with highLowContainer := ra } ∧
      ∀ v, v ∈ RoaringBitmap.values { r with highLowContainer := ra } ↔ v ∈ r.values ∧ v ≠ val := by
  have chunks := well.array.chunks
  have fits := well.array.fits
  rw [split] at chunks fits
  refine ⟨_, raSetContainerAtIndex_split split (.owned c),
    ⟨⟨chunks.replace (holds_owned allowed nonempty) rfl, ?_⟩, well.unshared⟩, ?_⟩
  · simpa using fits
  · intro v
    have others : highBits v = highBits val → v ∉ chunkValues (pre ++ post) := fun high =>
      chunks.not_mem_others (high.trans key.symm)
    rw [RoaringBitmap.values, RoaringBitmap.values, split, mem_chunkValues_owned, mem_chunkValues_split, members, key,
      ne_eq v val, eq_iff_halves (v := v)]
    tauto

/-- Removing a value removes exactly that value, and its chunk with the last one. -/
theorem roaringBitmapRemove_spec [Stored P] (well : r.Well P) (val : UInt32) :
    ∃ r', roaringBitmapRemove r val = .ok r' ∧ r'.Well P ∧
      ∀ v, v ∈ r'.values ↔ v ∈ r.values ∧ v ≠ val := by
  have located := raGetIndex_located well.array.chunks (highBits val)
  unfold roaringBitmapRemove
  generalize raGetIndex r.highLowContainer (highBits val) = i at located
  cases located with
  | hit pre chunk post split key =>
    have small := well.array.chunks.index_small split
    have holds := well.array.chunks.holds chunk (by rw [split]; simp)
    obtain ⟨c, run, allowed, members⟩ := Stored.remove holds.allowed (lowBits val)
    rw [← holds.owned] at run
    simp only [Int.natCast_nonneg, if_true, Int.toNat_natCast, raUnshareContainerAtIndex_split split small holds,
      raGetContainerAtIndex_split split small, run, ok_bind, pure_eq, Kind.counted allowed, ne_eq,
      List.length_eq_zero_iff]
    by_cases emptied : c.values = []
    · obtain ⟨ra, set, done⟩ := remove_chunk well split key members emptied
      refine ⟨{ r with highLowContainer := raRemoveAtIndexAndFree ra pre.length }, ?_, done⟩
      simp only [emptied, not_true_eq_false, if_false, set, ok_bind]
    · obtain ⟨ra, set, done⟩ := remove_in_chunk well split key members allowed emptied
      refine ⟨{ r with highLowContainer := ra }, ?_, done⟩
      simp only [emptied, not_false_eq_true, if_true, set, ok_bind]
  | miss pre post split below above =>
    have absent : val ∉ r.values := by
      rw [RoaringBitmap.values, split]
      exact not_mem_chunkValues_gap below above
    refine ⟨r, by simp only [show ¬ (0 ≤ -(pre.length + 1 : Int)) by omega, if_false, pure_eq], well, ?_⟩
    intro v
    exact ⟨fun member => ⟨member, ne_of_mem_of_not_mem member absent⟩, fun member => member.1⟩

end Remove

end RedisRoaring
