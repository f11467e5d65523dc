import RedisRoaring.Containers.Kinds
import RedisRoaring.Library.BitRuns

/-!
# Run optimisation of containers

`convert_run_optimize` turns an array or a bitset into a run container when
that is smaller. The room for the runs is allocated from a count made before,
`add_run` does not check it: the conversions write as many runs as were counted.
-/

namespace RedisRoaring

open Exec Intervals

/-! ## The conversions -/

/-- `array_container_number_of_runs`. -/
def arrayContainerNumberOfRuns (a : ArrayContainer) : Nat :=
  (a.array.foldl (fun (state : Nat × Int) p =>
    (if (p.toNat : Int) ≠ state.2 + 1 then state.1 + 1 else state.1, (p.toNat : Int))) (0, -2)).1

/-- `bitset_container_number_of_runs`. -/
def bitsetContainerNumberOfRuns (b : BitsetContainer) : Nat :=
  let numRuns := (List.finRange (bitsetContainerSizeInWords - 1)).foldl (fun numRuns i =>
    let word := b.array.get i.castSucc
    let nextWord := b.array.get i.succ
    numRuns + (hamming (~~~word &&& (word <<< 1)) + ((word >>> 63) &&& ~~~nextWord).toNat)) 0
  let word := b.array[1023]
  let numRuns := numRuns + hamming (~~~word &&& (word <<< 1))
  if word &&& 0x8000000000000000#64 ≠ 0 then numRuns + 1 else numRuns

/-- `add_run`: the run from `s` to `e`, both included. -/
def addRun (r : RunContainer) (s e : Nat) : Outcome RunContainer :=
  r.store (r.runs ++ [{ value := UInt16.ofNat s, length := UInt16.ofNat (e - s) }])

/-- The loop over an array: its last value and the start of the run at hand. -/
structure ArrayRuns where
  answer : RunContainer
  prev : Int
  runStart : Int
  deriving DecidableEq, Repr

/-- One value of the array. -/
def arrayRunsStep (state : ArrayRuns) (curVal : UInt16) : Outcome ArrayRuns := do
  if (curVal.toNat : Int) ≠ state.prev + 1 then
    let answer ←
      if state.runStart ≠ -1 then addRun state.answer state.runStart.toNat state.prev.toNat else .ok state.answer
    return { answer, prev := curVal.toNat, runStart := curVal.toNat }
  else return { state with prev := curVal.toNat }

/-- The inner loops over a bitset: words that are all `filler` are skipped. -/
def skipWords (filler : BitVec 64) (array : Words) (word : BitVec 64) (longCtr : Nat) : BitVec 64 × Nat :=
  if h : word = filler ∧ longCtr < bitsetContainerSizeInWords - 1 then
    skipWords filler array (array.get ⟨longCtr + 1, by omega⟩) (longCtr + 1)
  else (word, longCtr)
termination_by bitsetContainerSizeInWords - longCtr

theorem addRun_room {r r' : RunContainer} {s e : Nat} (run : addRun r s e = .ok r') :
    r'.capacity - r'.runs.length < r.capacity - r.runs.length := by
  rw [addRun, RunContainer.store] at run
  split at run
  case isTrue fits =>
    rw [← Except.ok.inj run]
    rw [List.length_append, List.length_singleton] at fits
    simp only [List.length_append, List.length_singleton]
    omega
  case isFalse => exact nomatch run

/-- The loop over a bitset. -/
def bitsetRunsLoop (array : Words) (answer : RunContainer) (curWord : BitVec 64) (longCtr : Nat) :
    Outcome RunContainer :=
  let (curWord, longCtr) := skipWords 0 array curWord longCtr
  if curWord = 0 then .ok answer
  else
    let runStart := curWord.ctz.toNat + 64 * longCtr
    let (curWordWith1s, longCtr) := skipWords (-1) array (curWord ||| (curWord - 1)) longCtr
    if curWordWith1s = -1 then addRun answer runStart (64 + longCtr * 64 - 1)
    else
      let runEnd := (~~~curWordWith1s).ctz.toNat + longCtr * 64
      match _added : addRun answer runStart (runEnd - 1) with
      | .error fault => .error fault
      | .ok answer' => bitsetRunsLoop array answer' (curWordWith1s &&& (curWordWith1s + 1)) longCtr
termination_by answer.capacity - answer.runs.length
decreasing_by exact addRun_room _added

/-- `convert_run_optimize`. -/
def convertRunOptimize (c : Container) : Outcome Container := do
  match c with
  | .run run => convertRunToEfficientContainer run
  | .array arr =>
    let nRuns := arrayContainerNumberOfRuns arr
    if arrayContainerSerializedSizeInBytes arr.array.length ≤ runContainerSerializedSizeInBytes nRuns then return .array arr
    if arr.array.length = 0 then .error .assertFailed
    let state ← arr.array.foldlM arrayRunsStep
      { answer := runContainerCreateGivenCapacity nRuns, prev := -2, runStart := -1 }
    if state.runStart < 0 then .error .assertFailed
    return .run (← addRun state.answer state.runStart.toNat state.prev.toNat)
  | .bitset bitset =>
    let nRuns := bitsetContainerNumberOfRuns bitset
    if bitsetContainerSerializedSizeInBytes ≤ runContainerSerializedSizeInBytes nRuns then return .bitset bitset
    if nRuns = 0 then .error .assertFailed
    return .run (← bitsetRunsLoop bitset.array (runContainerCreateGivenCapacity nRuns) bitset.array[0] 0)

/-! ## Counting runs in a bitset -/

section Bitset

variable {words : Words}

theorem finRange_split {m : Nat} {seen left : List (Fin m)} {i : Fin m} (split : List.finRange m = seen ++ i :: left) :
    i.val = seen.length := by
  have here : (List.finRange m)[seen.length]? = some i := by
    rw [split, List.getElem?_append_right (Nat.le_refl _), Nat.sub_self]
    rfl
  obtain ⟨inside, isIndex⟩ := List.getElem?_eq_some_iff.1 here
  rw [List.getElem_finRange] at isIndex
  exact congrArg Fin.val isIndex.symm

/-- The last bit of a word against the first of the next. -/
theorem toNat_lastBit (word next : BitVec 64) :
    ((word >>> 63) &&& ~~~next).toNat = if word.getLsbD 63 && !next.getLsbD 0 then 1 else 0 := by
  have value : (word >>> 63) &&& ~~~next = if word.getLsbD 63 && !next.getLsbD 0 then 1#64 else 0#64 := by
    ext j inside
    rw [← BitVec.getLsbD_eq_getElem, BitVec.getLsbD_and, BitVec.getLsbD_ushiftRight, BitVec.getLsbD_not,
      ← BitVec.getLsbD_eq_getElem]
    by_cases first : j = 0
    · subst first
      cases word.getLsbD 63 <;> cases next.getLsbD 0 <;> simp
    · have outside := BitVec.getLsbD_of_ge word (63 + j) (by omega)
      rw [outside]
      split <;> simp [BitVec.getLsbD_one, first]
  rw [value]
  split <;> rfl

theorem and_lastBit (word : BitVec 64) : word &&& 0x8000000000000000#64 ≠ 0 ↔ word.getLsbD 63 = true := by
  have mask : ∀ j, (0x8000000000000000#64).getLsbD j = (decide (j < 64) && decide (j = 63)) := BitWords.getLsbD_mask 63
  constructor
  · intro nonzero
    by_contra clear
    apply nonzero
    apply BitVec.eq_of_getLsbD_eq
    intro j inside
    have none : (0 : BitVec 64).getLsbD j = false := BitVec.getLsbD_zero
    rw [BitVec.getLsbD_and, mask, none]
    by_cases last : j = 63
    · rw [last, Bool.eq_false_iff.2 clear, Bool.false_and]
    · rw [decide_eq_false last, Bool.and_false, Bool.and_false]
  · intro set zero
    have bit := congrArg (fun word => word.getLsbD 63) zero
    rw [BitVec.getLsbD_and, set, mask] at bit
    exact absurd bit (by decide)

/-- The count is that of the maximal runs. -/
theorem bitsetContainerNumberOfRuns_eq (b : BitsetContainer) :
    bitsetContainerNumberOfRuns b = ends (BitWords.test b.array) 65536 := by
  have word : ∀ k (h : k < bitsetContainerSizeInWords), ends (BitWords.test b.array) (64 * (k + 1)) =
      ends (BitWords.test b.array) (64 * k) + (hamming (~~~b.array[k] &&& (b.array[k] <<< 1)) +
        if b.array[k].getLsbD 63 && !BitWords.test b.array (64 * (k + 1)) then 1 else 0) := fun k h => BitWords.ends_word h
  have inner : (List.finRange (bitsetContainerSizeInWords - 1)).foldl (fun numRuns i =>
      numRuns + (hamming (~~~b.array.get i.castSucc &&& (b.array.get i.castSucc <<< 1)) +
        ((b.array.get i.castSucc >>> 63) &&& ~~~b.array.get i.succ).toNat)) 0 =
      ends (BitWords.test b.array) (64 * (List.finRange (bitsetContainerSizeInWords - 1)).length) := by
    apply foldl_loop (P := fun seen numRuns => numRuns = ends (BitWords.test b.array) (64 * seen.length))
    · intro seen i left numRuns split here
      have isIndex := finRange_split split
      have next : BitWords.test b.array (64 * (i.val + 1) + 0) = (b.array.get i.succ).getLsbD 0 :=
        BitWords.test_word (Nat.succ_lt_succ i.isLt) (by omega)
      have step := word i.val (Nat.lt_succ_of_lt i.isLt)
      rw [Nat.add_zero] at next
      rw [List.length_append, List.length_singleton, here, ← isIndex, step, toNat_lastBit, ← next]
      rfl
    · rfl
  have last := word 1023 (by decide)
  have outside : BitWords.test b.array (64 * (1023 + 1)) = false := BitWords.test_outside (Nat.le_refl _)
  rw [outside, Bool.not_false, Bool.and_true] at last
  show (if b.array[1023] &&& 0x8000000000000000#64 ≠ 0 then _ else _) = _
  have size : 64 * (bitsetContainerSizeInWords - 1) = 64 * 1023 := rfl
  have all : 65536 = 64 * (1023 + 1) := rfl
  rw [inner, List.length_finRange, size, all, last]
  by_cases set : b.array[1023].getLsbD 63 = true
  · rw [if_pos ((and_lastBit _).2 set), if_pos set, Nat.add_assoc]
  · rw [if_neg (fun h => set ((and_lastBit _).1 h)), if_neg set, Nat.add_zero]

end Bitset

/-! ## Cutting a set into runs -/

/-- A container that is being filled with the runs of a set below a position. It
has room for as many as the set has. -/
structure Cutting (p : Nat → Bool) (pos : Nat) (answer : RunContainer) : Prop where
  below : RunsBelow p pos (intervals answer.runs)
  within : ∀ rle ∈ answer.runs, rle.stop ≤ 65536
  capacity : answer.capacity = ends p 65536
  outside : p 65536 = false

section Cutting

variable {p : Nat → Bool} {pos start e : Nat} {answer : RunContainer}

theorem Cutting.empty {nRuns : Nat} (counted : nRuns = ends p 65536) (outside : p 65536 = false) :
    Cutting p 0 (runContainerCreateGivenCapacity nRuns) := ⟨.nil, List.forall_mem_nil _, counted, outside⟩

theorem Cutting.gap (cutting : Cutting p pos answer) (le : pos ≤ start) (free : ∀ i, pos ≤ i → i < start → p i = false) :
    Cutting p start answer := ⟨cutting.below.gap le free, cutting.within, cutting.capacity, cutting.outside⟩

/-- There is room for the next run. -/
theorem Cutting.add (cutting : Cutting p start answer) (some : start ≤ e) (small : e < 65536)
    (filled : ∀ i, start ≤ i → i ≤ e → p i = true) (out : p (e + 1) = false) :
    ∃ answer', addRun answer start e = .ok answer' ∧ Cutting p (e + 1) answer' := by
  have room := cutting.below.room (filled start (Nat.le_refl _) some) (Nat.lt_of_le_of_lt some small) cutting.outside
  rw [intervals, List.length_map, ← cutting.capacity] at room
  have isStart : (UInt16.ofNat start).toNat = start := UInt16.toNat_ofNat_of_lt' (by show start < 65536; omega)
  have isLength : (UInt16.ofNat (e - start)).toNat = e - start := UInt16.toNat_ofNat_of_lt' (by show _ < 65536; omega)
  have isStop : Rle16.stop { value := UInt16.ofNat start, length := UInt16.ofNat (e - start) } = e + 1 := by
    rw [Rle16.stop, isStart, isLength]
    omega
  have stored : answer.store (answer.runs ++ [{ value := UInt16.ofNat start, length := UInt16.ofNat (e - start) }]) = _ :=
    if_pos (by rw [List.length_append, List.length_singleton]; exact room)
  refine ⟨_, stored, ?_, ?_, cutting.capacity, cutting.outside⟩
  · have isInterval : Rle16.interval { value := UInt16.ofNat start, length := UInt16.ofNat (e - start) } = ⟨start, e + 1⟩ := by
      rw [Rle16.interval, isStart, isStop]
    rw [intervals_append, intervals_cons, intervals_nil, isInterval]
    exact cutting.below.run (Nat.lt_succ_of_le some) (fun i above before => filled i above (Nat.le_of_lt_succ before)) out
  · exact List.forall_mem_append.2 ⟨cutting.within, List.forall_mem_singleton.2 (isStop ▸ small)⟩

/-- All runs are cut. -/
theorem Cutting.valid (cutting : Cutting p 65536 answer) (few : ends p 65536 < 65536) :
    answer.Valid ∧ ∀ x, x ∈ answer.values ↔ p x.toNat = true := by
  have ordered : RunsOrdered answer.runs := runsOrdered_iff.2 ⟨cutting.below.ordered, cutting.within⟩
  have length := cutting.below.length
  rw [intervals, List.length_map] at length
  refine ⟨⟨ordered, by rw [length, cutting.capacity], by rw [length]; exact few⟩, fun x => ?_⟩
  rw [mem_runValues ordered, cutting.below.covers]
  exact and_iff_right x.toNat_lt

end Cutting

/-! ## The runs of a bitset -/

section Bitset

variable {words : Words} {word : BitVec 64} {i longCtr : Nat} {answer : RunContainer}

/-- The search for a word that is not zero. -/
theorem skipWords_zero (scanned : BitWords.Scanned words i longCtr word) :
    BitWords.Scanned words i (skipWords 0 words word longCtr).2 (skipWords 0 words word longCtr).1 ∧
      ((skipWords 0 words word longCtr).1 = 0 → (skipWords 0 words word longCtr).2 = 1023) := by
  fun_induction skipWords 0 words word longCtr with
  | case1 word longCtr more ih =>
    obtain ⟨empty, inside⟩ := more
    subst empty
    exact ih (scanned.next (Nat.add_lt_of_lt_sub inside))
  | case2 word longCtr stop =>
    refine ⟨scanned, fun empty => ?_⟩
    have inside := scanned.inside
    have last : ¬ longCtr < 1024 - 1 := fun more => stop ⟨empty, more⟩
    have below : longCtr < 1024 := inside
    omega

/-- The search for a word that is not full is that in the complement. -/
theorem skipWords_ones (word : BitVec 64) (longCtr : Nat) :
    skipWords 0 (BitWords.complement words) (~~~word) longCtr =
      (~~~(skipWords (-1) words word longCtr).1, (skipWords (-1) words word longCtr).2) := by
  have full : ∀ word : BitVec 64, ~~~word = 0 ↔ word = -1 := fun word => BitVec.not_eq_comm
  fun_induction skipWords (-1) words word longCtr with
  | case1 word longCtr more ih =>
    have next : (BitWords.complement words).get ⟨longCtr + 1, Nat.add_lt_of_lt_sub more.2⟩ =
        ~~~words.get ⟨longCtr + 1, Nat.add_lt_of_lt_sub more.2⟩ := BitWords.getElem_complement (Nat.add_lt_of_lt_sub more.2)
    rw [skipWords, dif_pos ⟨(full _).2 more.1, more.2⟩, next, ih]
  | case2 word longCtr stop =>
    rw [skipWords, dif_neg fun more => stop ⟨(full _).1 more.1, more.2⟩]

/-- The start of the next run: it is the lowest bit of the word that was found. -/
theorem Cutting.start (cutting : Cutting (BitWords.test words) i answer) (scanned : BitWords.Scanned words i longCtr word) :
    (word = 0 → longCtr = 1023 → Cutting (BitWords.test words) 65536 answer) ∧
      (word ≠ 0 → Cutting (BitWords.test words) (64 * longCtr + word.ctz.toNat) answer ∧
        BitWords.test words (64 * longCtr + word.ctz.toNat) = true) := by
  constructor
  · intro empty last
    subst empty last
    exact cutting.gap (Nat.le_of_lt scanned.notYet) scanned.not_mem
  · intro nonzero
    have next := scanned.found nonzero
    refine ⟨cutting.gap next.from_ fun j above before => ?_, next.set⟩
    by_contra set
    exact absurd (next.least j above (Bool.not_eq_false _ ▸ set)) (Nat.not_le.2 before)

/-- The end of a run: it is the lowest clear bit of the word that was found. -/
theorem filled_to_stop {start : Nat} (scanned : BitWords.Scanned (BitWords.complement words) start longCtr (~~~word)) :
    (word = -1 → longCtr = 1023 → ∀ j, start ≤ j → j ≤ 65535 → BitWords.test words j = true) ∧
      (word ≠ -1 → (∀ j, start ≤ j → j < 64 * longCtr + (~~~word).ctz.toNat → BitWords.test words j = true) ∧
        BitWords.test words (64 * longCtr + (~~~word).ctz.toNat) = false ∧
        BitWords.Scanned words (64 * longCtr + (~~~word).ctz.toNat) longCtr (word &&& (word + 1))) := by
  have inside : longCtr < 1024 := scanned.inside
  have set_of_not : ∀ j < 65536, BitWords.test (BitWords.complement words) j = false → BitWords.test words j = true := by
    intro j small clear
    rwa [BitWords.test_complement small, Bool.not_eq_false'] at clear
  constructor
  · intro full last j above below
    rw [full, last] at scanned
    exact set_of_not j (Nat.lt_succ_of_le below) (scanned.not_mem j above (Nat.lt_succ_of_le below))
  · intro partly
    have nonzero : ~~~word ≠ 0 := fun empty => partly (BitVec.not_eq_comm.1 empty)
    have next := scanned.found nonzero
    have small := BitWords.ctz_lt nonzero
    refine ⟨fun j above before => ?_, ?_, scanned.clear nonzero⟩
    · apply set_of_not j (by omega)
      by_contra clear
      exact absurd (next.least j above (Bool.not_eq_false _ ▸ clear)) (Nat.not_le.2 before)
    · have out := next.set
      rwa [BitWords.test_complement (by show _ < 65536; omega), Bool.not_eq_true'] at out

/-- The loop cuts the bitset into its runs. -/
theorem bitsetRunsLoop_spec (cutting : Cutting (BitWords.test words) i answer)
    (scanned : BitWords.Scanned words i longCtr word) :
    ∃ answer', bitsetRunsLoop words answer word longCtr = .ok answer' ∧ Cutting (BitWords.test words) 65536 answer' := by
  induction room : answer.capacity - answer.runs.length using Nat.strong_induction_on
    generalizing answer word longCtr i with | _ room ih
  obtain ⟨scanned, isLast⟩ := skipWords_zero scanned
  unfold bitsetRunsLoop
  generalize skipWords 0 words word longCtr = skipped at scanned isLast
  obtain ⟨word, longCtr⟩ := skipped
  simp only at scanned isLast
  obtain ⟨finished, started⟩ := cutting.start scanned
  by_cases empty : word = 0
  · exact ⟨answer, if_pos empty, finished empty (isLast empty)⟩
  obtain ⟨cutting, set⟩ := started empty
  obtain ⟨filling, isLast'⟩ := skipWords_zero (scanned.fill empty)
  rw [skipWords_ones] at filling isLast'
  simp only [empty, if_false]
  generalize skipWords (-1) words (word ||| (word - 1)) longCtr = filled at filling isLast'
  obtain ⟨word', longCtr'⟩ := filled
  simp only at filling isLast'
  obtain ⟨full, stops⟩ := filled_to_stop filling
  have isStart : word.ctz.toNat + 64 * longCtr = 64 * longCtr + word.ctz.toNat := Nat.add_comm ..
  have inside : longCtr < 1024 := scanned.inside
  have small := BitWords.ctz_lt empty
  by_cases ones : word' = -1
  · -- the last run goes to the end
    have last : longCtr' = 1023 := isLast' (BitVec.not_eq_comm.2 ones)
    subst last
    have some : 64 * longCtr + word.ctz.toNat ≤ 65535 := by omega
    have isLast : 64 + 1023 * 64 - 1 = 65535 := rfl
    obtain ⟨answer', run, done⟩ := cutting.add some (by omega) (full ones rfl) cutting.outside
    exact ⟨answer', by rw [if_pos ones, isStart, isLast, run], done⟩
  · obtain ⟨set', out, scanned'⟩ := stops ones
    have nonzero : ~~~word' ≠ 0 := fun none => ones (BitVec.not_eq_comm.1 none)
    have inside' : longCtr' < 1024 := filling.inside
    have small' := BitWords.ctz_lt nonzero
    have isStop : (~~~word').ctz.toNat + longCtr' * 64 = 64 * longCtr' + (~~~word').ctz.toNat := by omega
    have above : 64 * longCtr + word.ctz.toNat < 64 * longCtr' + (~~~word').ctz.toNat := by
      have from_ := (filling.found nonzero).from_
      refine lt_of_le_of_ne from_ fun same => ?_
      rw [← same, set] at out
      exact Bool.noConfusion out
    have before : 64 * longCtr' + (~~~word').ctz.toNat - 1 + 1 = 64 * longCtr' + (~~~word').ctz.toNat := by omega
    obtain ⟨answer', run, cut⟩ := cutting.add (Nat.le_sub_one_of_lt above) (by omega)
      (fun j after le => set' j after (by omega)) (before.symm ▸ out)
    rw [before] at cut
    rw [← isStart] at run
    obtain ⟨answer'', rest, done⟩ := ih _ (room ▸ addRun_room run) cut scanned' rfl
    refine ⟨answer'', ?_, done⟩
    rw [if_neg ones, isStop]
    split
    · rename_i failed
      rw [run] at failed
      exact nomatch failed
    · rename_i added
      rw [run] at added
      rw [← Except.ok.inj added, rest]

end Bitset

/-! ## The runs of an array -/

/-- The test for the numbers of a list of values. -/
def numbered (l : List UInt16) (i : Nat) : Bool := decide (i ∈ l.map UInt16.toNat)

section Array

variable {arr : List UInt16} {pre post front left : List UInt16} {x y : UInt16}

theorem numbered_toNat : numbered arr x.toNat = true ↔ x ∈ arr := by
  rw [numbered, decide_eq_true_iff, List.mem_map]
  constructor
  · rintro ⟨y, inside, same⟩
    exact UInt16.toNat_inj.1 same ▸ inside
  · exact fun inside => ⟨x, inside, rfl⟩

/-- A number between two stretches of a list is not in it. -/
theorem numbered_gap {i : Nat} (before : ∀ x ∈ pre, x.toNat < i) (after : ∀ y ∈ post, i < y.toNat) :
    numbered (pre ++ post) i = false := by
  rw [numbered, decide_eq_false_iff_not, List.mem_map]
  rintro ⟨x, inside, same⟩
  rcases List.mem_append.1 inside with h | h
  · exact absurd same (Nat.ne_of_lt (before x h))
  · exact absurd same (Nat.ne_of_gt (after x h))

/-- What a sweep over a sorted list has passed, and what it has ahead. -/
theorem sweep_bounds (sorted : (pre ++ post).Pairwise (· < ·)) :
    (∀ front x, pre = front ++ [x] → ∀ y ∈ pre, y.toNat ≤ x.toNat) ∧
      ∀ y left, post = y :: left → ∀ x ∈ post, y.toNat ≤ x.toNat := by
  obtain ⟨sortedPre, sortedPost, -⟩ := List.pairwise_append.1 sorted
  constructor
  · rintro front x rfl y inside
    rcases List.mem_append.1 inside with h | h
    · exact (UInt16.lt_iff_toNat_lt.1 ((List.pairwise_append.1 sortedPre).2.2 y h x (by simp))).le
    · rw [List.mem_singleton.1 h]
  · rintro y left rfl x inside
    rcases List.mem_cons.1 inside with rfl | h
    · exact Nat.le_refl _
    · exact (UInt16.lt_iff_toNat_lt.1 ((List.pairwise_cons.1 sortedPost).1 x h)).le

/-- Nothing is before the first value. -/
theorem free_before_first (sorted : (y :: left).Pairwise (· < ·)) (i : Nat) (below : i < y.toNat) :
    numbered (y :: left) i = false := by
  have bounds := (@sweep_bounds [] (y :: left) sorted).2 y left rfl
  exact @numbered_gap [] (y :: left) i (List.forall_mem_nil _) fun x inside => below.trans_le (bounds x inside)

/-- Nothing is between two neighbours. -/
theorem free_between (sorted : (front ++ [x] ++ y :: left).Pairwise (· < ·)) (i : Nat) (above : x.toNat < i)
    (below : i < y.toNat) : numbered (front ++ [x] ++ y :: left) i = false := by
  obtain ⟨passed, ahead⟩ := sweep_bounds sorted
  exact numbered_gap (fun z inside => (passed front x rfl z inside).trans_lt above)
    fun z inside => below.trans_le (ahead y left rfl z inside)

/-- Nothing is behind the last value. -/
theorem free_after_last (sorted : (front ++ [x]).Pairwise (· < ·)) (i : Nat) (above : x.toNat < i) :
    numbered (front ++ [x]) i = false := by
  rw [← List.append_nil (front ++ [x])] at sorted ⊢
  exact numbered_gap (fun z inside => ((sweep_bounds sorted).1 front x rfl z inside).trans_lt above) (List.forall_mem_nil _)

theorem numbered_outside (arr : List UInt16) : numbered arr 65536 = false := by
  rw [← List.append_nil arr]
  exact numbered_gap (fun x _ => x.toNat_lt) (List.forall_mem_nil _)

/-- What the count knows after the values it has seen. -/
def Counted (p : Nat → Bool) (seen : List UInt16) (state : Nat × Int) : Prop :=
  (seen = [] ∧ state = (0, -2)) ∨
    ∃ front x, seen = front ++ [x] ∧ state = (ends p x.toNat + 1, (x.toNat : Int))

/-- The count is that of the maximal runs. -/
theorem arrayContainerNumberOfRuns_eq {arr : ArrayContainer} (sorted : arr.array.Pairwise (· < ·)) :
    arrayContainerNumberOfRuns arr = ends (numbered arr.array) 65536 := by
  have counted : Counted (numbered arr.array) arr.array (arr.array.foldl (fun (state : Nat × Int) p =>
      (if (p.toNat : Int) ≠ state.2 + 1 then state.1 + 1 else state.1, (p.toNat : Int))) (0, -2)) := by
    apply foldl_loop (P := Counted (numbered arr.array))
    · intro seen y left state split here
      have set : numbered arr.array y.toNat = true := numbered_toNat.2 (by rw [split]; simp)
      rcases here with ⟨none, rfl⟩ | ⟨front, x, isSeen, rfl⟩
      · -- the first value starts a run
        subst none
        rw [List.nil_append] at split
        have gap : ends (numbered arr.array) y.toNat = 0 :=
          ends_gap (Nat.zero_le _) fun i _ below => by rw [split]; exact free_before_first (split ▸ sorted) i below
        exact .inr ⟨[], y, rfl, by rw [if_pos (by simp only; omega), gap]⟩
      · subst isSeen
        have isSorted := split ▸ sorted
        have next : x.toNat < y.toNat := UInt16.lt_iff_toNat_lt.1
          ((List.pairwise_append.1 isSorted).2.2 x (by simp) y (by simp))
        have setX : numbered arr.array x.toNat = true := numbered_toNat.2 (by rw [split]; simp)
        refine .inr ⟨_, y, rfl, ?_⟩
        by_cases near : (y.toNat : Int) = x.toNat + 1
        · -- the run goes on
          have isNext : y.toNat = x.toNat + 1 := by omega
          rw [if_neg (not_not.2 near), isNext, ends_succ, ← isNext, set, Bool.not_true, Bool.and_false]
          rfl
        · -- the run ended
          have out : numbered arr.array (x.toNat + 1) = false := by
            rw [split]
            exact free_between isSorted _ (Nat.lt_succ_self _) (by omega)
          have gap : ends (numbered arr.array) y.toNat = ends (numbered arr.array) (x.toNat + 1) :=
            ends_gap next fun i above below => by rw [split]; exact free_between isSorted i above below
          rw [if_pos near, gap, ends_succ, setX, out]
          rfl
    · exact .inl ⟨rfl, rfl⟩
  rw [arrayContainerNumberOfRuns]
  rcases counted with ⟨none, state⟩ | ⟨front, x, isAll, state⟩
  · rw [state, none]
    exact (ends_gap (Nat.zero_le _) fun i _ _ => rfl).symm
  · have setX : numbered arr.array x.toNat = true := numbered_toNat.2 (by rw [isAll]; simp)
    have free : ∀ i, x.toNat < i → numbered arr.array i = false := by
      rw [isAll]
      exact free_after_last (isAll ▸ sorted)
    have small := x.toNat_lt
    have gap : ends (numbered arr.array) 65536 = ends (numbered arr.array) (x.toNat + 1) :=
      ends_gap small fun i above _ => free i above
    rw [state, gap, ends_succ, setX, free _ (Nat.lt_succ_self _)]
    rfl

/-- What the loop knows after the values it has seen: the runs before the one at
hand are cut, and this one goes up to the last value. -/
inductive Sweeping (p : Nat → Bool) : List UInt16 → ArrayRuns → Prop where
  | first {answer : RunContainer} (cutting : Cutting p 0 answer) : Sweeping p [] { answer, prev := -2, runStart := -1 }
  | within {front : List UInt16} {x : UInt16} {start : Nat} {answer : RunContainer} (cutting : Cutting p start answer)
      (le : start ≤ x.toNat) (filled : ∀ i, start ≤ i → i ≤ x.toNat → p i = true) :
      Sweeping p (front ++ [x]) { answer, prev := (x.toNat : Int), runStart := (start : Int) }

/-- One round of the loop. -/
theorem Sweeping.step {state : ArrayRuns} {seen : List UInt16} (sweeping : Sweeping (numbered arr) seen state)
    (sorted : arr.Pairwise (· < ·)) (split : arr = seen ++ y :: left) :
    ∃ state', arrayRunsStep state y = .ok state' ∧ Sweeping (numbered arr) (seen ++ [y]) state' := by
  have set : numbered arr y.toNat = true := numbered_toNat.2 (by rw [split]; simp)
  have alone : ∀ i, y.toNat ≤ i → i ≤ y.toNat → numbered arr i = true := fun i above below =>
    Nat.le_antisymm above below ▸ set
  cases sweeping with
  | @first answer cutting =>
    rw [List.nil_append] at split
    have gap := cutting.gap (Nat.zero_le y.toNat) fun i _ below => by
      rw [split]
      exact free_before_first (split ▸ sorted) i below
    refine ⟨_, ?_, .within gap (Nat.le_refl _) alone⟩
    have starts : (y.toNat : Int) ≠ -2 + 1 := by omega
    simp only [arrayRunsStep, starts, ne_eq, not_false_eq_true, not_true_eq_false, if_true, if_false, ok_bind, pure_eq]
  | @within front x start answer cutting le filled =>
    have isSorted := split ▸ sorted
    have next : x.toNat < y.toNat := UInt16.lt_iff_toNat_lt.1
      ((List.pairwise_append.1 isSorted).2.2 x (by simp) y (by simp))
    by_cases near : (y.toNat : Int) = x.toNat + 1
    · -- the run goes on
      refine ⟨_, ?_, .within cutting (le.trans next.le) fun i above below => ?_⟩
      · simp only [arrayRunsStep, near, ne_eq, not_true_eq_false, if_false, pure_eq]
      · rcases Nat.eq_or_lt_of_le below with rfl | before
        · exact set
        · exact filled i above (by omega)
    · -- the run is flushed
      have out : numbered arr (x.toNat + 1) = false := by
        rw [split]
        exact free_between isSorted _ (Nat.lt_succ_self _) (by omega)
      obtain ⟨answer', run, cut⟩ := cutting.add le x.toNat_lt filled out
      have gap := cut.gap next fun i above below => by
        rw [split]
        exact free_between isSorted i above below
      refine ⟨_, ?_, .within gap (Nat.le_refl _) alone⟩
      have started : (start : Int) ≠ -1 := by omega
      simp only [arrayRunsStep, near, started, ne_eq, not_false_eq_true, if_true, Int.toNat_natCast, run, ok_bind, pure_eq]

theorem Sweeping.last {p : Nat → Bool} {seen : List UInt16} {state : ArrayRuns} (sweeping : Sweeping p seen state)
    (some : seen ≠ []) : ∃ front x, ∃ start : Nat, ∃ answer, seen = front ++ [x] ∧
      state = { answer, prev := (x.toNat : Int), runStart := (start : Int) } ∧ Cutting p start answer ∧ start ≤ x.toNat ∧
      ∀ i, start ≤ i → i ≤ x.toNat → p i = true := by
  cases sweeping with
  | first => exact absurd rfl some
  | within cutting le filled => exact ⟨_, _, _, _, rfl, rfl, cutting, le, filled⟩

/-- The loop and the last run. -/
theorem arrayRuns_spec (sorted : arr.Pairwise (· < ·)) (some : arr ≠ []) {nRuns : Nat}
    (counted : nRuns = ends (numbered arr) 65536) :
    ∃ state answer, arr.foldlM arrayRunsStep
        { answer := runContainerCreateGivenCapacity nRuns, prev := -2, runStart := -1 } = .ok state ∧
      0 ≤ state.runStart ∧ addRun state.answer state.runStart.toNat state.prev.toNat = .ok answer ∧
      Cutting (numbered arr) 65536 answer := by
  obtain ⟨state, run, sweeping⟩ := foldlM_loop (P := Sweeping (numbered arr)) (f := arrayRunsStep) (l := arr)
    (fun seen y left state split here => here.step sorted split) (.first (.empty counted (numbered_outside arr)))
  obtain ⟨front, x, start, answer, isArr, rfl, cutting, le, filled⟩ := sweeping.last some
  have free : ∀ i, x.toNat < i → numbered arr i = false := by
    rw [isArr]
    exact free_after_last (isArr ▸ sorted)
  obtain ⟨answer', added, cut⟩ := cutting.add le x.toNat_lt filled (free _ (Nat.lt_succ_self _))
  exact ⟨_, answer', run, Int.natCast_nonneg _, added, cut.gap x.toNat_lt fun i above _ => free i above⟩

end Array

/-! ## The conversion -/

/-- The number of maximal runs of some values. -/
def runsOf (values : List UInt16) : Nat := ends (numbered values) 65536

/-- The size of a container without runs, as the conversion compares it. -/
def sizeWithoutRuns (c : Container) : Nat :=
  match c with
  | .array arr => arrayContainerSerializedSizeInBytes arr.array.length
  | _ => bitsetContainerSerializedSizeInBytes

section Convert

variable {c c' d : Container}

theorem numbered_wordValues (words : Words) : numbered (wordValues words) = BitWords.test words := by
  funext i
  rw [Bool.eq_iff_iff]
  rcases Nat.lt_or_ge i 65536 with small | large
  · have isValue : (UInt16.ofNat i).toNat = i := UInt16.toNat_ofNat_of_lt' small
    rw [← isValue, numbered_toNat, mem_wordValues]
  · have outside : BitWords.test words i = false := BitWords.test_outside large
    have absent : numbered (wordValues words) i = false := by
      rw [← List.append_nil (wordValues words)]
      exact numbered_gap (fun x _ => x.toNat_lt.trans_le large) (List.forall_mem_nil _)
    rw [outside, absent]

/-- Runs that are cut out of some values have these values. -/
theorem Cutting.done {values : List UInt16} {answer : RunContainer} (cutting : Cutting (numbered values) 65536 answer)
    (sorted : values.Pairwise (· < ·)) (few : runsOf values < 65536) :
    answer.Valid ∧ answer.values = values ∧ answer.nRuns = runsOf values := by
  obtain ⟨valid, members⟩ := cutting.valid few
  refine ⟨valid, ?_, ?_⟩
  · exact SortedList.eq_of_same_members valid.sorted sorted fun x => (members x).trans numbered_toNat
  · have length := cutting.below.length
    rwa [intervals, List.length_map] at length

/-- A container without runs is kept, or turned into its maximal runs when that is smaller. -/
theorem convertRunOptimize_plain (plain : c.Plain) (some : c.values ≠ []) :
    (sizeWithoutRuns c ≤ runContainerSerializedSizeInBytes (runsOf c.values) ∧ convertRunOptimize c = .ok c) ∨
      (runContainerSerializedSizeInBytes (runsOf c.values) < sizeWithoutRuns c ∧
        ∃ r, convertRunOptimize c = .ok (.run r) ∧ r.Valid ∧ r.values = c.values ∧ r.nRuns = runsOf c.values) := by
  cases plain with
  | @array arr valid small =>
    have counted : arrayContainerNumberOfRuns arr = runsOf arr.array := arrayContainerNumberOfRuns_eq valid.sorted
    show arrayContainerSerializedSizeInBytes arr.array.length ≤ runContainerSerializedSizeInBytes (runsOf arr.array) ∧ _ ∨
      runContainerSerializedSizeInBytes (runsOf arr.array) < arrayContainerSerializedSizeInBytes arr.array.length ∧ _
    rw [← counted]
    by_cases keep : arrayContainerSerializedSizeInBytes arr.array.length ≤
        runContainerSerializedSizeInBytes (arrayContainerNumberOfRuns arr)
    · refine .inl ⟨keep, ?_⟩
      simp only [convertRunOptimize, keep, if_true, pure_eq]
    · obtain ⟨state, answer, run, started, added, cutting⟩ := arrayRuns_spec valid.sorted some counted
      have less := Nat.lt_of_not_le keep
      have few : runsOf arr.array < 65536 := by
        rw [counted] at less
        simp only [runContainerSerializedSizeInBytes, arrayContainerSerializedSizeInBytes, defaultMaxSize] at less small
        omega
      obtain ⟨validRun, values, nRuns⟩ := cutting.done valid.sorted few
      refine .inr ⟨less, answer, ?_, validRun, values, nRuns⟩
      have nonempty : ¬ arr.array.length = 0 := fun none => some (List.length_eq_zero_iff.1 none)
      simp only [convertRunOptimize, keep, nonempty, if_false, run, ok_bind, not_lt_of_ge started, added, pure_eq]
  | @bitset b exact large =>
    have isTest : numbered b.values = BitWords.test b.array := numbered_wordValues b.array
    have counted : bitsetContainerNumberOfRuns b = runsOf b.values := by
      rw [runsOf, isTest, bitsetContainerNumberOfRuns_eq]
    show bitsetContainerSerializedSizeInBytes ≤ runContainerSerializedSizeInBytes (runsOf b.values) ∧ _ ∨
      runContainerSerializedSizeInBytes (runsOf b.values) < bitsetContainerSerializedSizeInBytes ∧ _
    rw [← counted]
    by_cases keep : bitsetContainerSerializedSizeInBytes ≤ runContainerSerializedSizeInBytes (bitsetContainerNumberOfRuns b)
    · refine .inl ⟨keep, ?_⟩
      simp only [convertRunOptimize, keep, if_true, pure_eq]
    · have less := Nat.lt_of_not_le keep
      have few : runsOf b.values < 65536 := by
        rw [counted] at less
        simp only [runContainerSerializedSizeInBytes, bitsetContainerSerializedSizeInBytes, bitsetContainerSizeInWords] at less
        omega
      obtain ⟨answer, run, cutting⟩ := bitsetRunsLoop_spec
        (.empty (bitsetContainerNumberOfRuns_eq b) (BitWords.test_outside (Nat.le_refl _))) (BitWords.Scanned.start (by decide))
      rw [← isTest] at cutting
      obtain ⟨validRun, values, nRuns⟩ := cutting.done b.sorted_values few
      refine .inr ⟨less, answer, ?_, validRun, values, nRuns⟩
      have nonempty : ¬ bitsetContainerNumberOfRuns b = 0 := by
        intro none
        rw [counted, ← nRuns] at none
        have empty := (runValues_eq_nil_iff answer).2 (List.length_eq_zero_iff.1 none)
        exact some (values.symm.trans empty)
      simp only [convertRunOptimize, keep, nonempty, if_false, run, ok_bind, pure_eq]

/-! ## Sizes -/

/-- A run container has as many runs as its values at least. -/
theorem runsOf_le_nRuns {r : RunContainer} (ordered : RunsOrdered r.runs) : runsOf r.values ≤ r.nRuns := by
  have covers : ∀ n, n = 65536 → ∀ i ≤ n, Covers (intervals r.runs) i ↔ numbered r.values i = true := by
    rintro n isEnd i below
    rcases Nat.eq_or_lt_of_le below with rfl | inside
    · rw [isEnd, numbered_outside]
      refine iff_of_false (not_covers_of_ge ?_) Bool.false_ne_true
      exact forall_mem_intervals.2 ordered.within
    · have isValue : (UInt16.ofNat i).toNat = i := UInt16.toNat_ofNat_of_lt' (by rwa [isEnd] at inside)
      rw [← isValue, numbered_toNat, mem_runValues ordered]
  have fewest := ends_le_length (covers _ rfl)
  rwa [intervals, List.length_map] at fewest

/-- The least size of a container with these values: that of a plain one, or of their maximal runs. -/
def leastSize (values : List UInt16) : Nat :=
  min (if values.length ≤ defaultMaxSize then 2 * values.length else bitsetContainerSerializedSizeInBytes)
    (runContainerSerializedSizeInBytes (runsOf values))

/-- The values of a plain container decide its type, and so its size. -/
theorem Container.Plain.sizes (plain : c.Plain) :
    containerSizeInBytes (.owned c) =
        (if c.values.length ≤ defaultMaxSize then 2 * c.values.length else bitsetContainerSerializedSizeInBytes) ∧
      sizeWithoutRuns c =
        if c.values.length ≤ defaultMaxSize then 2 * c.values.length + 2 else bitsetContainerSerializedSizeInBytes := by
  cases plain with
  | @array arr valid small =>
    rw [Container.values_array, if_pos small, if_pos small]
    exact ⟨Nat.mul_comm .., congrArg (· + 2) (Nat.mul_comm ..)⟩
  | @bitset b exact large =>
    have length : b.values.length = b.cardinality := exact.symm
    rw [Container.values_bitset, length, if_neg (Nat.not_le.2 large), if_neg (Nat.not_le.2 large)]
    exact ⟨rfl, rfl⟩

/-- No valid container is smaller. -/
theorem leastSize_le (valid : c.Valid) : leastSize c.values ≤ containerSizeInBytes (.owned c) := by
  cases valid with
  | plain plain => exact (Nat.min_le_left ..).trans plain.sizes.1.ge
  | @run r valid =>
    refine (Nat.min_le_right ..).trans (?_ : _ ≤ runContainerSerializedSizeInBytes r.nRuns)
    exact Nat.add_le_add_left (Nat.mul_le_mul_left 4 (runsOf_le_nRuns valid.ordered)) 2

/-- A container that no valid one with its values is smaller than, and that the conversion leaves. -/
structure Container.Optimal (c : Container) : Prop where
  valid : c.Valid
  least : containerSizeInBytes (.owned c) = leastSize c.values
  stays : convertRunOptimize c = .ok c

/-- Runs that are smaller than a plain container of their values are kept. -/
theorem convertRunOptimize_run {r : RunContainer} (plain : c.Plain) (values : r.values = c.values)
    (less : runContainerSerializedSizeInBytes r.nRuns < sizeWithoutRuns c) : convertRunOptimize (.run r) = .ok (.run r) := by
  have card : runContainerCardinality r = c.values.length := (length_runValues r).trans (congrArg List.length values)
  have keep : runContainerSerializedSizeInBytes r.nRuns ≤
      min bitsetContainerSerializedSizeInBytes (arrayContainerSerializedSizeInBytes (runContainerCardinality r)) := by
    rw [plain.sizes.2] at less
    rw [card]
    simp only [runContainerSerializedSizeInBytes, arrayContainerSerializedSizeInBytes,
      bitsetContainerSerializedSizeInBytes, bitsetContainerSizeInWords] at less ⊢
    by_cases small : c.values.length ≤ defaultMaxSize
    · rw [if_pos small] at less
      unfold defaultMaxSize at small
      omega
    · rw [if_neg small] at less
      unfold defaultMaxSize at small
      omega
  simp only [convertRunOptimize, convertRunToEfficientContainer, keep, if_true, pure_eq]

/-- **The smallest container.** Of a container without runs the conversion makes an
optimal one with the same values. -/
theorem convertRunOptimize_optimal (plain : c.Plain) (some : c.values ≠ []) :
    ∃ c', convertRunOptimize c = .ok c' ∧ c'.Optimal ∧ c'.values = c.values := by
  obtain ⟨size, without⟩ := plain.sizes
  rcases convertRunOptimize_plain plain some with ⟨keep, run⟩ | ⟨less, r, run, valid, values, nRuns⟩
  · refine ⟨c, run, ⟨.plain plain, ?_, run⟩, rfl⟩
    rw [without] at keep
    rw [leastSize, size]
    simp only [runContainerSerializedSizeInBytes] at keep ⊢
    split at keep <;> rename_i small <;> simp only [small, if_true, if_false] <;> omega
  · refine ⟨.run r, run, ⟨.run valid, ?_, convertRunOptimize_run plain values (nRuns.symm ▸ less)⟩, values⟩
    show runContainerSerializedSizeInBytes r.nRuns = leastSize r.values
    rw [without] at less
    rw [leastSize, values, nRuns]
    simp only [runContainerSerializedSizeInBytes] at less ⊢
    split at less <;> rename_i small <;> simp only [small, if_true, if_false] <;> omega

end Convert

end RedisRoaring
