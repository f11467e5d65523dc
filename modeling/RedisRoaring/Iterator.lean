import RedisRoaring.Members

/-!
# The value iterator

`roaring_uint32_iterator_t` walks the chunks and, inside a chunk, the positions
of an array, the set bits of a bitset or the runs. Its reads are checked: a scan
past the last word or an index past the cardinality is a fault. `At` says which
values are still to come, beginning with the current one.
-/

namespace RedisRoaring

open Exec

/-- `roaring_uint32_iterator_t`, without the bitmap it is created for. -/
structure Iterator where
  containerIndex : Nat
  inContainerIndex : Nat
  runIndex : Nat
  inRunIndex : UInt32
  currentValue : UInt32
  hasValue : Bool
  deriving DecidableEq, Repr

/-- The scan of `loadfirstvalue` for a word that is not zero: it has no bound. -/
def firstWord (array : Words) (wordindex : Nat) : Outcome (Nat × BitVec 64) :=
  if h : wordindex < bitsetContainerSizeInWords then
    if array[wordindex] = 0 then firstWord array (wordindex + 1) else .ok (wordindex, array[wordindex])
  else .error .outOfBounds
termination_by bitsetContainerSizeInWords - wordindex

/-- The scan of `roaring_advance_uint32_iterator`, up to the last word. -/
def nextWord (array : Words) (wordindex : Nat) (word : BitVec 64) : Nat × BitVec 64 :=
  if h : word = 0 ∧ wordindex + 1 < bitsetContainerSizeInWords then
    have inside := h.2
    nextWord array (wordindex + 1) array[wordindex + 1]
  else (wordindex, word)
termination_by bitsetContainerSizeInWords - wordindex

/-- `loadfirstvalue`: the first value of the container at `container_index`. -/
def loadfirstvalue (ra : RoaringBitmap) (newit : Iterator) : Outcome Iterator := do
  let newit := { newit with inContainerIndex := 0, runIndex := 0, inRunIndex := 0, currentValue := 0 }
  match ra.highLowContainer.chunks[newit.containerIndex]? with
  | none => return { newit with currentValue := 0xFFFFFFFF, hasValue := false }
  | some chunk =>
    let newit := { newit with hasValue := true }
    let highbits := chunk.key.toUInt32 <<< 16
    match containerUnwrapShared chunk.container with
    | .bitset b =>
      let (wordindex, word) ← firstWord b.array 0
      let index := wordindex * 64 + word.ctz.toNat
      return { newit with inContainerIndex := index, currentValue := highbits ||| UInt32.ofNat index }
    | .array arr => return { newit with currentValue := highbits ||| (← readAt arr.array 0).toUInt32 }
    | .run r => return { newit with currentValue := highbits ||| (← readAt r.runs 0).value.toUInt32 }

/-- `roaring_create_iterator`. -/
def roaringCreateIterator (ra : RoaringBitmap) : Outcome Iterator :=
  loadfirstvalue ra
    { containerIndex := 0, inContainerIndex := 0, runIndex := 0, inRunIndex := 0, currentValue := 0, hasValue := false }

/-- The switch of `roaring_advance_uint32_iterator`: the iterator, and whether
it found a value in the same container. -/
def advanceInContainer (container : Container) (highbits : UInt32) (it : Iterator) : Outcome (Iterator × Bool) := do
  match container with
  | .bitset b =>
    let it := { it with inContainerIndex := it.inContainerIndex + 1 }
    if h : it.inContainerIndex / 64 < bitsetContainerSizeInWords then
      let masked := b.array[it.inContainerIndex / 64] &&& BitVec.allOnes 64 <<< (it.inContainerIndex % 64)
      let (wordindex, word) := nextWord b.array (it.inContainerIndex / 64) masked
      if word ≠ 0 then
        let index := wordindex * 64 + word.ctz.toNat
        return ({ it with inContainerIndex := index, currentValue := highbits ||| UInt32.ofNat index }, true)
      else return (it, false)
    else return (it, false)
  | .array arr =>
    let it := { it with inContainerIndex := it.inContainerIndex + 1 }
    if it.inContainerIndex < arrayContainerCardinality arr then
      let value ← readAt arr.array it.inContainerIndex
      return ({ it with currentValue := highbits ||| value.toUInt32 }, true)
    else return (it, false)
  | .run r =>
    let it := { it with inRunIndex := it.inRunIndex + 1 }
    let run ← readAt r.runs it.runIndex
    if it.inRunIndex ≤ run.length.toUInt32 then
      return ({ it with currentValue := highbits ||| (run.value.toUInt32 + it.inRunIndex) }, true)
    else
      let it := { it with inRunIndex := 0, runIndex := it.runIndex + 1 }
      if it.runIndex < r.nRuns then
        let run ← readAt r.runs it.runIndex
        return ({ it with currentValue := highbits ||| run.value.toUInt32 }, true)
      else return (it, false)

/-- `roaring_advance_uint32_iterator`. -/
def roaringAdvanceUint32Iterator (ra : RoaringBitmap) (it : Iterator) : Outcome (Iterator × Bool) := do
  match ra.highLowContainer.chunks[it.containerIndex]? with
  | none => return (it, false)
  | some chunk =>
    let (it, found) ← advanceInContainer (containerUnwrapShared chunk.container) (chunk.key.toUInt32 <<< 16) it
    if found then return (it, true)
    else
      let it ← loadfirstvalue ra { it with containerIndex := it.containerIndex + 1 }
      return (it, it.hasValue)

/-! ## Scanning a bitset -/

section Scan

variable {array : Words}

/-- The scan for the first word stops on a bitset that has a value. -/
theorem firstWord_spec {k : Nat} (scanned : ∃ h : k < bitsetContainerSizeInWords, BitWords.Scanned array 0 k array[k])
    {p : Nat} (some : BitWords.test array p = true) :
    ∃ k' word, firstWord array k = .ok (k', word) ∧ BitWords.IsNext array 0 (64 * k' + word.ctz.toNat) := by
  fun_induction firstWord array k with
  | case1 k h zero ih =>
    obtain ⟨_, scanned⟩ := scanned
    rw [zero] at scanned
    refine ih ⟨?_, scanned.next ?_⟩ <;>
    · by_contra last
      have passed := scanned.not_mem p (Nat.zero_le _)
      have inside : p / 64 < bitsetContainerSizeInWords := by
        by_contra outside
        rw [BitWords.test, dif_neg outside] at some
        exact Bool.false_ne_true some
      rw [passed (by omega)] at some
      exact Bool.false_ne_true some
  | case2 k h nonzero => exact ⟨k, _, rfl, scanned.2.found nonzero⟩
  | case3 k h => exact absurd scanned.1 h

/-- The scan for the next word finds the next value if there is one. -/
theorem nextWord_spec {i k : Nat} {word : BitVec 64} (scanned : BitWords.Scanned array i k word) :
    ((nextWord array k word).2 ≠ 0 →
      BitWords.IsNext array i (64 * (nextWord array k word).1 + (nextWord array k word).2.ctz.toNat)) ∧
    ((nextWord array k word).2 = 0 → ∀ j, i ≤ j → BitWords.test array j = false) := by
  fun_induction nextWord array k word with
  | case1 k word h inside ih =>
    obtain ⟨zero, -⟩ := h
    subst zero
    exact ih (scanned.next inside)
  | case2 k word h =>
    refine ⟨scanned.found, ?_⟩
    intro zero j after
    rw [show word = 0 from zero] at scanned h
    rcases Nat.lt_or_ge j (64 * (k + 1)) with here | beyond
    · exact scanned.not_mem j after here
    · rw [BitWords.test, dif_neg]
      intro inside
      exact h ⟨rfl, by omega⟩

/-- The next set bit is the head of the values that are left. -/
theorem next_value {b : BitsetContainer} {seen rest : List UInt16} {i : Nat} (split : b.values = seen ++ rest)
    (before : ∀ y ∈ seen, y.toNat < i) (after : ∀ y ∈ rest, i ≤ y.toNat) {p : Nat}
    (next : BitWords.IsNext b.array i p) : ∃ y later, rest = y :: later ∧ y.toNat = p := by
  have small : p < 65536 := position_lt (BitWords.mem_positions.2 next.set)
  have isP : (UInt16.ofNat p).toNat = p := UInt16.toNat_ofNat_of_lt' small
  have member : UInt16.ofNat p ∈ seen ++ rest := by
    rw [← split, BitsetContainer.values, mem_wordValues, isP]
    exact next.set
  have later : UInt16.ofNat p ∈ rest := by
    rcases List.mem_append.1 member with h | h
    · have := before _ h
      have := next.from_
      omega
    · exact h
  obtain ⟨y, more, rfl⟩ := List.exists_cons_of_ne_nil (List.ne_nil_of_mem later)
  refine ⟨y, more, rfl, ?_⟩
  have sorted := b.sorted_values
  rw [split] at sorted
  have least : p ≤ y.toNat := by
    apply next.least y.toNat (after y (by simp))
    rw [← mem_wordValues, ← BitsetContainer.values, split]
    simp
  rcases List.mem_cons.1 later with h | h
  · rw [← h, isP]
  · have less := UInt16.lt_iff_toNat_lt.1 ((List.pairwise_cons.1 (List.pairwise_append.1 sorted).2.1).1 _ h)
    rw [isP] at less
    omega

/-- Without a set bit no value is left. -/
theorem no_next_value {b : BitsetContainer} {seen rest : List UInt16} {i : Nat} (split : b.values = seen ++ rest)
    (after : ∀ y ∈ rest, i ≤ y.toNat) (none : ∀ j, i ≤ j → BitWords.test b.array j = false) : rest = [] := by
  apply List.eq_nil_iff_forall_not_mem.2
  intro y inside
  have set : y ∈ b.values := split ▸ List.mem_append_right _ inside
  rw [BitsetContainer.values, mem_wordValues, none _ (after y inside)] at set
  exact Bool.false_ne_true set

end Scan

/-! ## What is still to come -/

/-- The two halves do not overlap. -/
theorem joinBits_or (key low : UInt16) : key.toUInt32 <<< 16 ||| low.toUInt32 = joinBits key low := by
  have small : low.toNat < 2 ^ 16 := low.toNat_lt
  have whole : (key.toUInt32 <<< 16).toNat = key.toNat <<< 16 := by
    have := key.toNat_lt
    simp only [UInt32.toNat_shiftLeft, UInt16.toNat_toUInt32, UInt32.reduceToNat, Nat.reduceMod, Nat.shiftLeft_eq]
    omega
  apply UInt32.toNat_inj.1
  rw [toNat_joinBits, UInt32.toNat_or, whole, UInt16.toNat_toUInt32, ← Nat.shiftLeft_add_eq_or_of_lt small,
    Nat.shiftLeft_eq]

/-- The values of a run from the `k`th on. -/
def Rle16.valuesFrom (rle : Rle16) (k : Nat) : List UInt16 :=
  (List.range' (rle.value.toNat + k) (rle.length.toNat + 1 - k)).map UInt16.ofNat

theorem Rle16.valuesFrom_zero (rle : Rle16) : rle.valuesFrom 0 = rle.numbers.map UInt16.ofNat := rfl

theorem Rle16.valuesFrom_eq_cons (rle : Rle16) {k : Nat} (inside : k ≤ rle.length.toNat) :
    rle.valuesFrom k = UInt16.ofNat (rle.value.toNat + k) :: rle.valuesFrom (k + 1) := by
  rw [valuesFrom, show rle.length.toNat + 1 - k = rle.length.toNat + 1 - (k + 1) + 1 by omega, List.range'_succ,
    List.map_cons]
  rfl

theorem Rle16.valuesFrom_eq_nil (rle : Rle16) {k : Nat} (past : rle.length.toNat < k) : rle.valuesFrom k = [] := by
  rw [valuesFrom, show rle.length.toNat + 1 - k = 0 by omega]
  rfl

/-- The iterator is at the first of `rest`, the values of a container from there on. -/
inductive InContainer (it : Iterator) : Container → List UInt16 → Prop where
  | array {arr : ArrayContainer} {seen rest : List UInt16} (split : arr.array = seen ++ rest)
      (index : it.inContainerIndex = seen.length) : InContainer it (.array arr) rest
  | bitset {b : BitsetContainer} {seen rest : List UInt16} {x : UInt16} (split : b.values = seen ++ x :: rest)
      (index : it.inContainerIndex = x.toNat) : InContainer it (.bitset b) (x :: rest)
  | run {r : RunContainer} {pre post : List Rle16} {rle : Rle16} (split : r.runs = pre ++ rle :: post)
      (index : it.runIndex = pre.length) (within : ∀ c ∈ r.runs, c.stop ≤ 65536)
      (inside : it.inRunIndex.toNat ≤ rle.length.toNat) :
      InContainer it (.run r) (rle.valuesFrom it.inRunIndex.toNat ++ runsValues post)

/-- The position in a run, by the value there. -/
theorem InContainer.at_run (it : Iterator) {r : RunContainer} {pre post : List Rle16} {rle : Rle16}
    (split : r.runs = pre ++ rle :: post) (index : it.runIndex = pre.length) (within : ∀ c ∈ r.runs, c.stop ≤ 65536)
    (inside : it.inRunIndex.toNat ≤ rle.length.toNat) :
    InContainer it (.run r) (UInt16.ofNat (rle.value.toNat + it.inRunIndex.toNat) ::
      (rle.valuesFrom (it.inRunIndex.toNat + 1) ++ runsValues post)) := by
  rw [← List.cons_append, ← rle.valuesFrom_eq_cons inside]
  exact .run split index within inside

/-- The values still to come, the current one first. -/
inductive At (r : RoaringBitmap) : Iterator → List UInt32 → Prop where
  | value {it : Iterator} {pre post : List Chunk} {chunk : Chunk} {x : UInt16} {rest : List UInt16}
      (split : r.highLowContainer.chunks = pre ++ chunk :: post) (index : pre.length = it.containerIndex)
      (position : InContainer it chunk.content (x :: rest)) (has : it.hasValue = true)
      (current : it.currentValue = joinBits chunk.key x) :
      At r it (joinBits chunk.key x :: rest.map (joinBits chunk.key) ++ chunkValues post)
  | finished {it : Iterator} (none : it.hasValue = false) : At r it []

section Walk

variable {P : Container → Prop} {r : RoaringBitmap} {it : Iterator}

/-- Loading the first value of the next container, of those in `post`. -/
theorem loadfirstvalue_spec [Stored P] (it : Iterator) {pre post : List Chunk} (well : r.Well P)
    (split : r.highLowContainer.chunks = pre ++ post) (index : pre.length = it.containerIndex) :
    ∃ it', loadfirstvalue r it = .ok it' ∧ At r it' (chunkValues post) := by
  unfold loadfirstvalue
  cases post with
  | nil =>
    have beyond : r.highLowContainer.chunks[it.containerIndex]? = none := by
      rw [split, List.append_nil, ← index, List.getElem?_eq_none (Nat.le_refl _)]
    simp only [beyond, pure_eq]
    exact ⟨_, rfl, .finished rfl⟩
  | cons chunk post =>
    have here : r.highLowContainer.chunks[it.containerIndex]? = some chunk := by
      rw [split, ← index, getElem_at_split]
    have holds := well.array.chunks.holds chunk (by rw [split]; simp)
    have valid := Stored.valid holds.allowed
    have nonempty := holds.nonempty
    have start : ∀ {it' : Iterator} {x : UInt16} {rest : List UInt16}, chunk.content.values = x :: rest →
        it'.containerIndex = it.containerIndex → InContainer it' chunk.content (x :: rest) →
        it'.hasValue = true → it'.currentValue = joinBits chunk.key x → At r it' (chunkValues (chunk :: post)) := by
      intro it' x rest values same position has current
      have all := At.value split (index.trans same.symm) position has current
      rwa [← List.map_cons, ← values, ← Chunk.values, ← chunkValues_cons] at all
    have isContent : containerUnwrapShared chunk.container = chunk.content := rfl
    simp only [here, isContent]
    cases content : chunk.content with
    | run run =>
      rw [content] at nonempty valid start
      obtain ⟨rle, rest, isRuns⟩ := List.exists_cons_of_ne_nil (runs_ne_nil nonempty)
      have within : ∀ c ∈ run.runs, c.stop ≤ 65536 := by
        cases valid with
        | plain plain => cases plain
        | run valid => exact valid.ordered.within
      have first : UInt16.ofNat (rle.value.toNat + 0) = rle.value := UInt16.ofNat_toNat
      have values : run.values = rle.value :: (rle.valuesFrom 1 ++ runsValues rest) := by
        have all := rle.valuesFrom_eq_cons (Nat.zero_le _)
        rw [Rle16.valuesFrom_zero, first] at all
        rw [show run.values = runsValues run.runs from rfl, isRuns, runsValues_cons, all]
        rfl
      have split' : run.runs = [] ++ rle :: rest := isRuns
      simp only [readAt_split (i := 0) split' rfl, ok_bind, pure_eq, joinBits_or]
      have position := InContainer.at_run { it with
        inContainerIndex := 0, runIndex := 0, inRunIndex := 0, currentValue := joinBits chunk.key rle.value, hasValue := true }
          split' rfl within (Nat.zero_le _)
      rw [UInt32.toNat_zero, first] at position
      exact ⟨_, rfl, start values rfl position rfl rfl⟩
    | array arr =>
      rw [content] at nonempty start
      obtain ⟨x, rest, values⟩ := List.exists_cons_of_ne_nil nonempty
      have isArray : arr.array = [] ++ x :: rest := values
      simp only [readAt_split (i := 0) isArray rfl, ok_bind, pure_eq, joinBits_or]
      exact ⟨_, rfl, start values rfl (.array isArray rfl) rfl rfl⟩
    | bitset b =>
      rw [content] at nonempty start
      obtain ⟨x, rest, values⟩ := List.exists_cons_of_ne_nil nonempty
      have set : BitWords.test b.array x.toNat = true := by
        rw [← mem_wordValues, ← BitsetContainer.values, show b.values = x :: rest from values]
        simp
      have words : 0 < bitsetContainerSizeInWords := by decide
      obtain ⟨k, word, found, next⟩ := firstWord_spec ⟨words, .start words⟩ set
      obtain ⟨y, later, isRest, isNext⟩ := next_value (show b.values = [] ++ (x :: rest) from values)
        (by simp) (by simp) next
      obtain ⟨rfl, rfl⟩ := List.cons.inj isRest
      simp only [found, ok_bind, pure_eq, Nat.mul_comm k 64, ← isNext, UInt32.ofNat_uInt16ToNat, joinBits_or]
      exact ⟨_, rfl, start values rfl (.bitset (show b.values = [] ++ x :: rest from values) rfl) rfl rfl⟩

/-- What the switch of the advance finds in the container it is in: the next
value, or nothing when the container has no more. -/
structure Advanced (c : Container) (highbits : UInt32) (it it' : Iterator) (found : Bool) (rest : List UInt16) :
    Prop where
  index : it'.containerIndex = it.containerIndex
  has : it'.hasValue = it.hasValue
  none : found = false → rest = []
  some : found = true → ∃ y more, rest = y :: more ∧ it'.currentValue = highbits ||| y.toUInt32 ∧
    InContainer it' c (y :: more)

theorem Advanced.exhausted {c : Container} {highbits : UInt32} {it it' : Iterator} {rest : List UInt16}
    (index : it'.containerIndex = it.containerIndex) (has : it'.hasValue = it.hasValue) (last : rest = []) :
    Advanced c highbits it it' false rest :=
  ⟨index, has, fun _ => last, fun found => absurd found Bool.false_ne_true⟩

theorem Advanced.next {c : Container} {highbits : UInt32} {it it' : Iterator} {y : UInt16} {more : List UInt16}
    (index : it'.containerIndex = it.containerIndex) (has : it'.hasValue = it.hasValue)
    (current : it'.currentValue = highbits ||| y.toUInt32) (position : InContainer it' c (y :: more)) :
    Advanced c highbits it it' true (y :: more) :=
  ⟨index, has, fun found => absurd found.symm Bool.false_ne_true, fun _ => ⟨y, more, rfl, current, position⟩⟩

section Switch

variable {seen rest : List UInt16} {x : UInt16} (highbits : UInt32)

theorem advance_in_array {arr : ArrayContainer} (isIndex : it.inContainerIndex = seen.length)
    (split : arr.array = seen ++ x :: rest) :
    ∃ it' found, advanceInContainer (.array arr) highbits it = .ok (it', found) ∧
      Advanced (.array arr) highbits it it' found rest := by
  have isSplit : arr.array = (seen ++ [x]) ++ rest := by rw [split]; simp
  have length : (seen ++ [x]).length = seen.length + 1 := by simp
  unfold advanceInContainer
  cases rest with
  | nil =>
    have last : ¬ seen.length + 1 < arrayContainerCardinality arr := by
      rw [arrayContainerCardinality, split]
      simp
    simp only [isIndex, last, if_false, pure_eq]
    exact ⟨_, _, rfl, .exhausted rfl rfl rfl⟩
  | cons y more =>
    have inside : seen.length + 1 < arrayContainerCardinality arr := by
      rw [arrayContainerCardinality, split]
      simp
    simp only [isIndex, inside, if_true, readAt_split isSplit length, ok_bind, pure_eq]
    exact ⟨_, _, rfl, .next rfl rfl rfl (.array isSplit length.symm)⟩

theorem advance_in_bitset {b : BitsetContainer} (isIndex : it.inContainerIndex = x.toNat)
    (split : b.values = seen ++ x :: rest) :
    ∃ it' found, advanceInContainer (.bitset b) highbits it = .ok (it', found) ∧
      Advanced (.bitset b) highbits it it' found rest := by
  have isSplit : b.values = (seen ++ [x]) ++ rest := by rw [split]; simp
  have sorted := b.sorted_values
  rw [split] at sorted
  obtain ⟨below, above⟩ := SortedList.sorted_split sorted
  have before : ∀ y ∈ seen ++ [x], y.toNat < x.toNat + 1 := by
    intro y inside
    rcases List.mem_append.1 inside with h | h
    · exact Nat.lt_succ_of_lt (UInt16.lt_iff_toNat_lt.1 (below y h))
    · rw [List.mem_singleton.1 h]
      exact Nat.lt_succ_self _
  have after : ∀ y ∈ rest, x.toNat + 1 ≤ y.toNat := fun y inside => UInt16.lt_iff_toNat_lt.1 (above y inside)
  unfold advanceInContainer
  by_cases inside : (x.toNat + 1) / 64 < bitsetContainerSizeInWords
  · -- the scan finds the next set bit, or there is none
    obtain ⟨found, empty⟩ := nextWord_spec (BitWords.Scanned.mask b.array inside)
    simp only [isIndex, inside, dif_pos]
    generalize nextWord b.array ((x.toNat + 1) / 64)
      (b.array[(x.toNat + 1) / 64] &&& BitVec.allOnes 64 <<< ((x.toNat + 1) % 64)) = scanned at found empty
    obtain ⟨k, word⟩ := scanned
    by_cases zero : word = 0
    · have last := no_next_value isSplit after (empty zero)
      simp only [zero, ne_eq, not_true_eq_false, if_false, pure_eq]
      exact ⟨_, _, rfl, .exhausted rfl rfl last⟩
    · obtain ⟨y, more, rfl, isNext⟩ := next_value isSplit before after (found zero)
      simp only [zero, ne_eq, not_false_eq_true, if_true, Nat.mul_comm k 64, ← isNext, UInt32.ofNat_uInt16ToNat,
        pure_eq]
      exact ⟨_, _, rfl, .next rfl rfl rfl (.bitset isSplit rfl)⟩
  · -- the current value is the last position
    have last := no_next_value isSplit after fun j hj => by
      rw [BitWords.test, dif_neg]
      intro h
      exact inside (by omega)
    simp only [isIndex, inside, dif_neg, not_false_eq_true, pure_eq]
    exact ⟨_, _, rfl, .exhausted rfl rfl last⟩

theorem advance_in_run {r : RunContainer} {pre post : List Rle16} {rle : Rle16} (split : r.runs = pre ++ rle :: post)
    (index : it.runIndex = pre.length) (within : ∀ c ∈ r.runs, c.stop ≤ 65536)
    (inside : it.inRunIndex.toNat ≤ rle.length.toNat)
    (isAll : x :: rest = rle.valuesFrom it.inRunIndex.toNat ++ runsValues post) :
    ∃ it' found, advanceInContainer (.run r) highbits it = .ok (it', found) ∧
      Advanced (.run r) highbits it it' found rest := by
  have isRest : rest = rle.valuesFrom (it.inRunIndex.toNat + 1) ++ runsValues post := by
    rw [rle.valuesFrom_eq_cons inside, List.cons_append] at isAll
    exact (List.cons.inj isAll).2
  have last := rle.length.toNat_lt
  have isNext : (it.inRunIndex + 1).toNat = it.inRunIndex.toNat + 1 := by
    rw [UInt32.toNat_add, UInt32.toNat_one]
    omega
  unfold advanceInContainer
  simp only [readAt_split split index.symm, ok_bind, pure_eq]
  by_cases more : it.inRunIndex + 1 ≤ rle.length.toUInt32
  · -- the next value of the run
    have inside' : it.inRunIndex.toNat + 1 ≤ rle.length.toNat := by
      rw [UInt32.le_iff_toNat_le, isNext, UInt16.toNat_toUInt32] at more
      exact more
    have current : rle.value.toUInt32 + (it.inRunIndex + 1) =
        (UInt16.ofNat (rle.value.toNat + (it.inRunIndex + 1).toNat)).toUInt32 := by
      have := within rle (by rw [split]; simp)
      rw [Rle16.stop] at this
      apply UInt32.toNat_inj.1
      rw [UInt32.toNat_add, UInt16.toNat_toUInt32, UInt16.toNat_toUInt32,
        UInt16.toNat_ofNat_of_lt' (by show _ < 65536; omega)]
      omega
    have position := InContainer.at_run { it with
      inRunIndex := it.inRunIndex + 1, currentValue := highbits ||| (rle.value.toUInt32 + (it.inRunIndex + 1)) }
        split index within (isNext ▸ inside')
    rw [if_pos more, isRest, ← isNext, rle.valuesFrom_eq_cons (isNext ▸ inside'), List.cons_append]
    exact ⟨_, true, rfl, .next rfl rfl (by rw [current]) position⟩
  · -- the run is over
    have past : rle.length.toNat < it.inRunIndex.toNat + 1 := by
      rw [UInt32.le_iff_toNat_le, isNext, UInt16.toNat_toUInt32] at more
      omega
    rw [if_neg more, isRest, rle.valuesFrom_eq_nil past, List.nil_append]
    cases post with
    | nil =>
      have none : ¬ it.runIndex + 1 < r.nRuns := by
        rw [RunContainer.nRuns, split, index]
        simp
      rw [if_neg none]
      exact ⟨_, false, rfl, .exhausted rfl rfl rfl⟩
    | cons next post =>
      have some : it.runIndex + 1 < r.nRuns := by
        rw [RunContainer.nRuns, split, index]
        simp
      have split' : r.runs = (pre ++ [rle]) ++ next :: post := by rw [split]; simp
      have index' : (pre ++ [rle]).length = it.runIndex + 1 := by rw [index]; simp
      have first : UInt16.ofNat (next.value.toNat + 0) = next.value := UInt16.ofNat_toNat
      have position := InContainer.at_run { it with
        runIndex := it.runIndex + 1, inRunIndex := 0, currentValue := highbits ||| next.value.toUInt32 }
          split' index'.symm within (Nat.zero_le _)
      rw [if_pos some, readAt_split split' index', runsValues_cons, ← Rle16.valuesFrom_zero,
        next.valuesFrom_eq_cons (Nat.zero_le _), List.cons_append]
      rw [UInt32.toNat_zero, first] at position
      rw [first]
      exact ⟨_, true, rfl, .next rfl rfl rfl position⟩

theorem advanceInContainer_spec {c : Container} (position : InContainer it c (x :: rest)) :
    ∃ it' found, advanceInContainer c highbits it = .ok (it', found) ∧ Advanced c highbits it it' found rest := by
  generalize isAll : x :: rest = all at position
  cases position with
  | array split index => exact advance_in_array highbits index (isAll ▸ split)
  | bitset split index =>
    obtain ⟨rfl, rfl⟩ := List.cons.inj isAll
    exact advance_in_bitset highbits index split
  | run split index within inside => exact advance_in_run highbits split index within inside isAll

end Switch

/-- Advancing drops the current value from those still to come. -/
theorem roaringAdvanceUint32Iterator_spec {v : UInt32} {vals : List UInt32} [Stored P] (well : r.Well P)
    (here : At r it (v :: vals)) :
    it.hasValue = true ∧ it.currentValue = v ∧
      ∃ it' more, roaringAdvanceUint32Iterator r it = .ok (it', more) ∧ At r it' vals := by
  generalize isAll : v :: vals = all at here
  cases here with
  | finished none => simp at isAll
  | @value pre post chunk x rest split index position has current =>
    obtain ⟨rfl, rfl⟩ := List.cons.inj isAll
    refine ⟨has, current, ?_⟩
    have isChunk : r.highLowContainer.chunks[it.containerIndex]? = some chunk := by
      rw [split, ← index, getElem_at_split]
    have isContent : containerUnwrapShared chunk.container = chunk.content := rfl
    obtain ⟨it', found, run, advanced⟩ := advanceInContainer_spec (chunk.key.toUInt32 <<< 16) position
    unfold roaringAdvanceUint32Iterator
    simp only [isChunk, isContent, run, ok_bind]
    cases found with
    | true =>
      obtain ⟨y, more, rfl, current', position'⟩ := advanced.some rfl
      refine ⟨it', true, rfl, ?_⟩
      exact .value split (index.trans advanced.index.symm) position' (advanced.has.trans has)
        (current'.trans (joinBits_or ..))
    | false =>
      have next : r.highLowContainer.chunks = (pre ++ [chunk]) ++ post := by rw [split]; simp
      obtain ⟨it'', loaded, there⟩ := loadfirstvalue_spec { it' with containerIndex := it'.containerIndex + 1 }
        well next (by simp [index, advanced.index])
      refine ⟨it'', it''.hasValue, by simp only [Bool.false_eq_true, if_false, loaded, ok_bind, pure_eq], ?_⟩
      rwa [advanced.none rfl]

/-- A created iterator has every value still to come. -/
theorem roaringCreateIterator_spec [Stored P] (well : r.Well P) :
    ∃ it, roaringCreateIterator r = .ok it ∧ At r it r.values :=
  loadfirstvalue_spec _ well (List.nil_append _).symm rfl

end Walk

end RedisRoaring
