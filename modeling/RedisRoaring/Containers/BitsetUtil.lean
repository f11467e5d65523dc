import RedisRoaring.Containers.Bitset

/-!
# Ranges of bits

The word-masking loops that set, flip or reset a range `[start, end)` of a
bitset. The first and the last word are masked, the words between are written
whole. An index past the last word is a fault.
-/

namespace RedisRoaring

open Exec

/-- Overwrite word `i` by a function of itself. -/
def modifyWord (bitmap : Words) (i : Nat) (f : BitVec 64 → BitVec 64) : Outcome Words :=
  if h : i < bitsetContainerSizeInWords then .ok (bitmap.set i (f bitmap[i])) else .error .outOfBounds

/-- Overwrite the words from `first` up to `last`, in order. -/
def modifyWords (bitmap : Words) (first last : Nat) (f : BitVec 64 → BitVec 64) : Outcome Words :=
  (List.range' first (last - first)).foldlM (fun bitmap i => modifyWord bitmap i f) bitmap

/-- `~UINT64_C(0) << (start % 64)`: the bits of `start`'s word from `start` on. -/
def maskFrom (start : Nat) : BitVec 64 := BitVec.allOnes 64 <<< (start % 64)

/-- `~UINT64_C(0) >> ((-end) % 64)`: the bits of the last word below `end`. -/
def maskBelow (end_ : Nat) : BitVec 64 := BitVec.allOnes 64 >>> ((64 - end_ % 64) % 64)

/-- `bitset_set_range`. -/
def bitsetSetRange (bitmap : Words) (start end_ : Nat) : Outcome Words := do
  if start = end_ then return bitmap
  let firstword := start / 64
  let endword := (end_ - 1) / 64
  if firstword = endword then
    modifyWord bitmap firstword (· ||| (maskFrom start &&& maskBelow end_))
  else
    let bitmap ← modifyWord bitmap firstword (· ||| maskFrom start)
    let bitmap ← modifyWords bitmap (firstword + 1) endword fun _ => BitVec.allOnes 64
    modifyWord bitmap endword (· ||| maskBelow end_)

/-- `bitset_set_lenrange`: set the `lenminusone + 1` bits from `start` on. The
loop writes two words at a time and may run over the last one, whose old value
is therefore kept aside. -/
def bitsetSetLenrange (bitmap : Words) (start lenminusone : Nat) : Outcome Words := do
  let firstword := start / 64
  let endword := (start + lenminusone) / 64
  if firstword = endword then
    modifyWord bitmap firstword (· ||| (BitVec.allOnes 64 >>> (63 - lenminusone)) <<< (start % 64))
  else
    let some temp := bitmap[endword]? | throw .outOfBounds
    let bitmap ← modifyWord bitmap firstword (· ||| maskFrom start)
    let bitmap ← (List.range' (firstword + 1) ((endword - firstword) / 2) 2).foldlM (fun bitmap i => do
      let bitmap ← modifyWord bitmap (i + 1) fun _ => BitVec.allOnes 64
      modifyWord bitmap i fun _ => BitVec.allOnes 64) bitmap
    modifyWord bitmap endword fun _ => temp ||| maskBelow (start + lenminusone + 1)

/-- `bitset_flip_range`. -/
def bitsetFlipRange (bitmap : Words) (start end_ : Nat) : Outcome Words := do
  if start = end_ then return bitmap
  let firstword := start / 64
  let endword := (end_ - 1) / 64
  let bitmap ← modifyWord bitmap firstword (· ^^^ ~~~(maskFrom start))
  let bitmap ← modifyWords bitmap firstword endword (~~~ ·)
  modifyWord bitmap endword (· ^^^ maskBelow end_)

/-- `bitset_reset_range`. -/
def bitsetResetRange (bitmap : Words) (start end_ : Nat) : Outcome Words := do
  if start = end_ then return bitmap
  let firstword := start / 64
  let endword := (end_ - 1) / 64
  if firstword = endword then
    modifyWord bitmap firstword (· &&& ~~~(maskFrom start &&& maskBelow end_))
  else
    let bitmap ← modifyWord bitmap firstword (· &&& ~~~(maskFrom start))
    let bitmap ← modifyWords bitmap (firstword + 1) endword fun _ => 0#64
    modifyWord bitmap endword (· &&& ~~~(maskBelow end_))

/-! ## What the loops write -/

theorem getLsbD_maskFrom (start j : Nat) : (maskFrom start).getLsbD j = decide (start % 64 ≤ j ∧ j < 64) := by
  rw [maskFrom, BitVec.getLsbD_shiftLeft, BitVec.getLsbD_allOnes, Bool.eq_iff_iff]
  simp only [Bool.and_eq_true, decide_eq_true_eq, Bool.not_eq_true', decide_eq_false_iff_not]
  omega

theorem getLsbD_maskBelow {end_ : Nat} (positive : 0 < end_) (j : Nat) :
    (maskBelow end_).getLsbD j = decide (j ≤ (end_ - 1) % 64) := by
  rw [maskBelow, BitVec.getLsbD_ushiftRight, BitVec.getLsbD_allOnes]
  congr 1
  apply propext
  omega

/-- One overwritten word. -/
theorem modifyWord_spec (bitmap : Words) {k : Nat} (inside : k < bitsetContainerSizeInWords)
    (f : BitVec 64 → BitVec 64) :
    ∃ bitmap', modifyWord bitmap k f = .ok bitmap' ∧ ∀ i (h : i < bitsetContainerSizeInWords),
      bitmap'[i] = if i = k then f bitmap[i] else bitmap[i] := by
  refine ⟨bitmap.set k (f bitmap[k]), dif_pos inside, ?_⟩
  intro i h
  rw [Vector.getElem_set]
  by_cases same : i = k
  · subst same
    simp
  · rw [if_neg (Ne.symm same), if_neg same]

/-- A range of overwritten words: each is written once. -/
theorem modifyWords_spec (f : BitVec 64 → BitVec 64) (count : Nat) (bitmap : Words) (first : Nat)
    (inside : first + count ≤ bitsetContainerSizeInWords) :
    ∃ bitmap', modifyWords bitmap first (first + count) f = .ok bitmap' ∧
      ∀ i (h : i < bitsetContainerSizeInWords),
        bitmap'[i] = if first ≤ i ∧ i < first + count then f bitmap[i] else bitmap[i] := by
  induction count generalizing bitmap first with
  | zero =>
    refine ⟨bitmap, by simp [modifyWords], ?_⟩
    intro i _
    rw [if_neg (by omega)]
  | succ count ih =>
    obtain ⟨middle, one, oneWord⟩ := modifyWord_spec bitmap (show first < bitsetContainerSizeInWords by omega) f
    obtain ⟨bitmap', rest, restWords⟩ := ih middle (first + 1) (by omega)
    refine ⟨bitmap', ?_, ?_⟩
    · unfold modifyWords at rest ⊢
      rw [show first + (count + 1) - first = count + 1 by omega, List.range'_succ, List.foldlM_cons, one]
      rwa [show first + 1 + count - (first + 1) = count by omega] at rest
    · intro i h
      rw [restWords i h, oneWord i h]
      by_cases head : i = first
      · rw [if_neg (by omega), if_pos head, if_pos (by omega)]
      · rw [if_neg head]
        by_cases tail : first + 1 ≤ i ∧ i < first + 1 + count
        · rw [if_pos tail, if_pos (by omega)]
        · rw [if_neg tail, if_neg (by omega)]

theorem xor_decide (P Q : Prop) [Decidable P] [Decidable Q] : (decide P ^^ decide Q) = decide (¬(P ↔ Q)) := by
  by_cases p : P <;> by_cases q : Q <;> simp [p, q]

/-- Flipping a range flips exactly its members. -/
theorem bitsetFlipRange_spec (bitmap : Words) {start end_ : Nat} (ordered : start < end_) (bound : end_ ≤ 65536) :
    ∃ bitmap', bitsetFlipRange bitmap start end_ = .ok bitmap' ∧ ∀ i, i < 65536 →
      BitWords.test bitmap' i = (BitWords.test bitmap i ^^ decide (start ≤ i ∧ i < end_)) := by
  have first : start / 64 < bitsetContainerSizeInWords := by unfold bitsetContainerSizeInWords; omega
  have last : (end_ - 1) / 64 < bitsetContainerSizeInWords := by unfold bitsetContainerSizeInWords; omega
  obtain ⟨b1, run1, words1⟩ := modifyWord_spec bitmap first (· ^^^ ~~~(maskFrom start))
  obtain ⟨b2, run2, words2⟩ := modifyWords_spec (~~~ ·) ((end_ - 1) / 64 - start / 64) b1 (start / 64) (by omega)
  obtain ⟨b3, run3, words3⟩ := modifyWord_spec b2 last (· ^^^ maskBelow end_)
  rw [show start / 64 + ((end_ - 1) / 64 - start / 64) = (end_ - 1) / 64 by omega] at run2 words2
  refine ⟨b3, ?_, ?_⟩
  · unfold bitsetFlipRange
    simp only [Nat.ne_of_lt ordered, if_false, run1, run2, ok_bind, run3]
  · intro i inside
    have word : i / 64 < bitsetContainerSizeInWords := by unfold bitsetContainerSizeInWords; omega
    have bit : i % 64 < 64 := Nat.mod_lt _ (by omega)
    have step1 : b1[i / 64].getLsbD (i % 64) =
        (bitmap[i / 64].getLsbD (i % 64) ^^ decide (i / 64 = start / 64 ∧ i % 64 < start % 64)) := by
      rw [words1 _ word]
      by_cases here : i / 64 = start / 64
      · have low : (decide (i % 64 < 64) && !decide (start % 64 ≤ i % 64 ∧ i % 64 < 64)) =
            decide (i / 64 = start / 64 ∧ i % 64 < start % 64) := by
          rw [← decide_not, ← Bool.decide_and, decide_eq_decide]
          omega
        rw [if_pos here, BitVec.getLsbD_xor, BitVec.getLsbD_not, getLsbD_maskFrom, low]
      · simp [here]
    have step2 : b2[i / 64].getLsbD (i % 64) =
        (b1[i / 64].getLsbD (i % 64) ^^ decide (start / 64 ≤ i / 64 ∧ i / 64 < (end_ - 1) / 64)) := by
      rw [words2 _ word]
      by_cases here : start / 64 ≤ i / 64 ∧ i / 64 < (end_ - 1) / 64
      · rw [if_pos here]; simp [here, bit]
      · rw [if_neg here]; simp [here]
    have step3 : b3[i / 64].getLsbD (i % 64) =
        (b2[i / 64].getLsbD (i % 64) ^^ decide (i / 64 = (end_ - 1) / 64 ∧ i % 64 ≤ (end_ - 1) % 64)) := by
      rw [words3 _ word]
      by_cases here : i / 64 = (end_ - 1) / 64
      · rw [if_pos here, BitVec.getLsbD_xor, getLsbD_maskBelow (by omega)]
        simp [here]
      · simp [here]
    rw [BitWords.test_of_lt word, BitWords.test_of_lt word, step3, step2, step1, Bool.xor_assoc, Bool.xor_assoc]
    congr 1
    rw [xor_decide, xor_decide, decide_eq_decide]
    omega

/-- The two-words-at-a-time loop fills an even number of words. -/
theorem fillPairs_spec (count : Nat) (bitmap : Words) (first : Nat)
    (inside : first + 2 * count ≤ bitsetContainerSizeInWords) :
    ∃ bitmap', (List.range' first count 2).foldlM (fun (bitmap : Words) i => do
        let bitmap ← modifyWord bitmap (i + 1) fun _ => BitVec.allOnes 64
        modifyWord bitmap i fun _ => BitVec.allOnes 64) bitmap = .ok bitmap' ∧
      ∀ i (h : i < bitsetContainerSizeInWords),
        bitmap'[i] = if first ≤ i ∧ i < first + 2 * count then BitVec.allOnes 64 else bitmap[i] := by
  induction count generalizing bitmap first with
  | zero =>
    refine ⟨bitmap, rfl, ?_⟩
    intro i _
    rw [if_neg (by omega)]
  | succ count ih =>
    obtain ⟨b1, run1, words1⟩ :=
      modifyWord_spec bitmap (show first + 1 < bitsetContainerSizeInWords by omega) fun _ => BitVec.allOnes 64
    obtain ⟨b2, run2, words2⟩ :=
      modifyWord_spec b1 (show first < bitsetContainerSizeInWords by omega) fun _ => BitVec.allOnes 64
    obtain ⟨b3, rest, words3⟩ := ih b2 (first + 2) (by omega)
    refine ⟨b3, ?_, ?_⟩
    · rw [List.range'_succ, List.foldlM_cons, run1, ok_bind, run2]
      exact rest
    · intro i h
      rw [words3 i h, words2 i h, words1 i h]
      by_cases tail : first + 2 ≤ i ∧ i < first + 2 + 2 * count
      · rw [if_pos tail, if_pos (by omega)]
      · rw [if_neg tail]
        by_cases head : i = first
        · rw [if_pos head, if_pos (by omega)]
        · by_cases next : i = first + 1
          · rw [if_neg head, if_pos next, if_pos (by omega)]
          · rw [if_neg head, if_neg next, if_neg (by omega)]

/-- The mask of a range inside one word. -/
theorem getLsbD_maskWithin {start lenminusone : Nat} (one : start / 64 = (start + lenminusone) / 64) (j : Nat) :
    ((BitVec.allOnes 64 >>> (63 - lenminusone)) <<< (start % 64)).getLsbD j =
      decide (start % 64 ≤ j ∧ j ≤ start % 64 + lenminusone) := by
  rw [BitVec.getLsbD_shiftLeft, BitVec.getLsbD_ushiftRight, BitVec.getLsbD_allOnes, ← decide_not, ← Bool.decide_and,
    ← Bool.decide_and, decide_eq_decide]
  omega

/-- Setting a range sets exactly its members. -/
theorem bitsetSetLenrange_spec (bitmap : Words) {start lenminusone : Nat} (bound : start + lenminusone < 65536) :
    ∃ bitmap', bitsetSetLenrange bitmap start lenminusone = .ok bitmap' ∧ ∀ i, i < 65536 →
      BitWords.test bitmap' i = (BitWords.test bitmap i || decide (start ≤ i ∧ i ≤ start + lenminusone)) := by
  have first : start / 64 < bitsetContainerSizeInWords := by unfold bitsetContainerSizeInWords; omega
  have last : (start + lenminusone) / 64 < bitsetContainerSizeInWords := by unfold bitsetContainerSizeInWords; omega
  unfold bitsetSetLenrange
  by_cases one : start / 64 = (start + lenminusone) / 64
  · obtain ⟨b1, run1, words1⟩ := modifyWord_spec bitmap first
      (· ||| (BitVec.allOnes 64 >>> (63 - lenminusone)) <<< (start % 64))
    refine ⟨b1, by simp only [one, if_true]; exact one ▸ run1, ?_⟩
    intro i inside
    have word : i / 64 < bitsetContainerSizeInWords := by unfold bitsetContainerSizeInWords; omega
    rw [BitWords.test_of_lt word, BitWords.test_of_lt word, words1 _ word]
    by_cases here : i / 64 = start / 64
    · rw [if_pos here, BitVec.getLsbD_or, getLsbD_maskWithin one]
      congr 1
      rw [decide_eq_decide]
      omega
    · rw [if_neg here, decide_eq_false (by omega), Bool.or_false]
  · obtain ⟨b1, run1, words1⟩ := modifyWord_spec bitmap first (· ||| maskFrom start)
    obtain ⟨b2, run2, words2⟩ :=
      fillPairs_spec (((start + lenminusone) / 64 - start / 64) / 2) b1 (start / 64 + 1) (by omega)
    obtain ⟨b3, run3, words3⟩ := modifyWord_spec b2 last
      fun _ => bitmap[(start + lenminusone) / 64] ||| maskBelow (start + lenminusone + 1)
    refine ⟨b3, ?_, ?_⟩
    · simp only [one, if_false, Vector.getElem?_eq_getElem last, run1, ok_bind, run2, run3]
    · intro i inside
      have word : i / 64 < bitsetContainerSizeInWords := by unfold bitsetContainerSizeInWords; omega
      have bit : i % 64 < 64 := Nat.mod_lt _ (by omega)
      rw [BitWords.test_of_lt word, BitWords.test_of_lt word, words3 _ word]
      by_cases atLast : i / 64 = (start + lenminusone) / 64
      · rw [if_pos atLast, BitVec.getLsbD_or, getLsbD_maskBelow (by omega)]
        simp only [← atLast]
        congr 1
        rw [decide_eq_decide]
        omega
      · rw [if_neg atLast, words2 _ word]
        by_cases between : start / 64 + 1 ≤ i / 64 ∧
            i / 64 < start / 64 + 1 + 2 * (((start + lenminusone) / 64 - start / 64) / 2)
        · rw [if_pos between, decide_eq_true (by omega), BitVec.getLsbD_allOnes, decide_eq_true bit, Bool.or_true]
        · rw [if_neg between, words1 _ word]
          by_cases atFirst : i / 64 = start / 64
          · rw [if_pos atFirst, BitVec.getLsbD_or, getLsbD_maskFrom]
            congr 1
            rw [decide_eq_decide]
            omega
          · rw [if_neg atFirst, decide_eq_false (by omega), Bool.or_false]

/-! ## Masked ranges -/

/-- Both ends of a range are written under a mask, the words between whole. -/
def writeRange (op : BitVec 64 → BitVec 64 → BitVec 64) (bitmap : Words) (start end_ : Nat) : Outcome Words := do
  let firstword := start / 64
  let endword := (end_ - 1) / 64
  if firstword = endword then modifyWord bitmap firstword fun word => op word (maskFrom start &&& maskBelow end_)
  else
    let bitmap ← modifyWord bitmap firstword fun word => op word (maskFrom start)
    let bitmap ← modifyWords bitmap (firstword + 1) endword fun word => op word (BitVec.allOnes 64)
    modifyWord bitmap endword fun word => op word (maskBelow end_)

/-- A bitwise operation that a clear mask leaves alone changes exactly the range. -/
theorem writeRange_spec {op : BitVec 64 → BitVec 64 → BitVec 64} (bit : Bool → Bool → Bool)
    (bitwise : ∀ word mask j, j < 64 → (op word mask).getLsbD j = bit (word.getLsbD j) (mask.getLsbD j))
    (keeps : ∀ b, bit b false = b) (bitmap : Words) {start end_ : Nat} (ordered : start < end_) (bound : end_ ≤ 65536) :
    ∃ bitmap', writeRange op bitmap start end_ = .ok bitmap' ∧ ∀ i, i < 65536 →
      BitWords.test bitmap' i = bit (BitWords.test bitmap i) (decide (start ≤ i ∧ i < end_)) := by
  have first : start / 64 < bitsetContainerSizeInWords := by unfold bitsetContainerSizeInWords; omega
  have last : (end_ - 1) / 64 < bitsetContainerSizeInWords := by unfold bitsetContainerSizeInWords; omega
  have word : ∀ i, i < 65536 → i / 64 < bitsetContainerSizeInWords := by unfold bitsetContainerSizeInWords; omega
  unfold writeRange
  by_cases one : start / 64 = (end_ - 1) / 64
  · obtain ⟨b1, run1, words1⟩ := modifyWord_spec bitmap first fun word => op word (maskFrom start &&& maskBelow end_)
    refine ⟨b1, by simp only [one, if_true]; exact one ▸ run1, ?_⟩
    intro i inside
    have low : i % 64 < 64 := Nat.mod_lt _ (by omega)
    rw [BitWords.test_of_lt (word i inside), BitWords.test_of_lt (word i inside), words1 _ (word i inside)]
    by_cases here : i / 64 = start / 64
    · rw [if_pos here, bitwise _ _ _ low, BitVec.getLsbD_and, getLsbD_maskFrom, getLsbD_maskBelow (by omega),
        ← Bool.decide_and]
      congr 1
      rw [decide_eq_decide]
      omega
    · rw [if_neg here, decide_eq_false (by omega), keeps]
  · obtain ⟨b1, run1, words1⟩ := modifyWord_spec bitmap first fun word => op word (maskFrom start)
    obtain ⟨b2, run2, words2⟩ := modifyWords_spec (fun word => op word (BitVec.allOnes 64))
      ((end_ - 1) / 64 - (start / 64 + 1)) b1 (start / 64 + 1) (by omega)
    obtain ⟨b3, run3, words3⟩ := modifyWord_spec b2 last fun word => op word (maskBelow end_)
    rw [show start / 64 + 1 + ((end_ - 1) / 64 - (start / 64 + 1)) = (end_ - 1) / 64 by omega] at run2 words2
    refine ⟨b3, by simp only [one, if_false, run1, ok_bind, run2, run3], ?_⟩
    intro i inside
    have low : i % 64 < 64 := Nat.mod_lt _ (by omega)
    rw [BitWords.test_of_lt (word i inside), BitWords.test_of_lt (word i inside), words3 _ (word i inside),
      words2 _ (word i inside), words1 _ (word i inside)]
    by_cases atLast : i / 64 = (end_ - 1) / 64
    · rw [if_pos atLast, if_neg (by omega), if_neg (by omega), bitwise _ _ _ low, getLsbD_maskBelow (by omega)]
      congr 1
      rw [decide_eq_decide]
      omega
    rw [if_neg atLast]
    by_cases between : start / 64 + 1 ≤ i / 64 ∧ i / 64 < (end_ - 1) / 64
    · rw [if_pos between, if_neg (by omega), bitwise _ _ _ low, BitVec.getLsbD_allOnes]
      congr 1
      rw [decide_eq_decide]
      omega
    rw [if_neg between]
    by_cases atFirst : i / 64 = start / 64
    · rw [if_pos atFirst, bitwise _ _ _ low, getLsbD_maskFrom]
      congr 1
      rw [decide_eq_decide]
      omega
    · rw [if_neg atFirst, decide_eq_false (by omega), keeps]

/-- Setting a range, empty or not, sets exactly its members. -/
theorem bitsetSetRange_spec (bitmap : Words) {start end_ : Nat} (ordered : start ≤ end_) (bound : end_ ≤ 65536) :
    ∃ bitmap', bitsetSetRange bitmap start end_ = .ok bitmap' ∧ ∀ i, i < 65536 →
      BitWords.test bitmap' i = (BitWords.test bitmap i || decide (start ≤ i ∧ i < end_)) := by
  rcases Nat.eq_or_lt_of_le ordered with rfl | some
  · refine ⟨bitmap, by simp [bitsetSetRange], fun i _ => ?_⟩
    rw [decide_eq_false (by omega), Bool.or_false]
  · have same : bitsetSetRange bitmap start end_ = writeRange (· ||| ·) bitmap start end_ := by
      unfold bitsetSetRange writeRange
      simp only [Nat.ne_of_lt some, if_false, BitVec.or_allOnes]
    rw [same]
    exact writeRange_spec (· || ·) (fun word mask j _ => BitVec.getLsbD_or) Bool.or_false bitmap some bound

/-- Resetting a range, empty or not, clears exactly its members. -/
theorem bitsetResetRange_spec (bitmap : Words) {start end_ : Nat} (ordered : start ≤ end_) (bound : end_ ≤ 65536) :
    ∃ bitmap', bitsetResetRange bitmap start end_ = .ok bitmap' ∧ ∀ i, i < 65536 →
      BitWords.test bitmap' i = (BitWords.test bitmap i && !decide (start ≤ i ∧ i < end_)) := by
  rcases Nat.eq_or_lt_of_le ordered with rfl | some
  · refine ⟨bitmap, by simp [bitsetResetRange], fun i _ => ?_⟩
    rw [decide_eq_false (by omega), Bool.not_false, Bool.and_true]
  · have same : bitsetResetRange bitmap start end_ = writeRange (fun word mask => word &&& ~~~mask) bitmap start end_ := by
      unfold bitsetResetRange writeRange
      simp only [Nat.ne_of_lt some, if_false, BitVec.not_allOnes, BitVec.and_zero]
    rw [same]
    refine writeRange_spec (fun b m => b && !m) (fun word mask j low => ?_) (by simp) bitmap some bound
    rw [BitVec.getLsbD_and, BitVec.getLsbD_not, decide_eq_true low, Bool.true_and]

end RedisRoaring
