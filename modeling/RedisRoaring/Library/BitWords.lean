import Mathlib.Data.Nat.Bitwise
import Mathlib.Data.Vector.Basic
import RedisRoaring.Library.SortedList

/-!
# Sets of numbers as 64-bit words

A `Vector (BitVec 64) n` is a set of numbers below `64 * n`: number `i` is bit
`i % 64` of word `i / 64` (`test`). `positions` lists the set in increasing
order; the word-at-a-time scan that extracts lowest set bits (`extract`) and
the sum of the population counts (`count`) are both statements about it.
-/

namespace BitWords

/-! ## One word -/

/-- A word without its lowest set bit. -/
def clearLowest (w : BitVec 64) : BitVec 64 := w ^^^ (w &&& -w)

/-- The bits that remain are those above some set bit. -/
theorem getLsbD_clearLowest (w : BitVec 64) (i : Nat) :
    (clearLowest w).getLsbD i = (w.getLsbD i && decide (∃ j < i, w.getLsbD j = true)) := by
  rw [clearLowest, BitVec.getLsbD_xor, BitVec.getLsbD_and, BitVec.getLsbD_neg]
  by_cases inside : i < 64
  · by_cases lower : ∃ j < i, w.getLsbD j = true <;> cases w.getLsbD i <;> simp [inside, lower]
  · simp [BitVec.getLsbD_of_ge w i (by omega)]

/-- The lowest set bit of a nonzero word. -/
theorem getLsbD_ctz {w : BitVec 64} (nonzero : w ≠ 0) : w.getLsbD w.ctz.toNat = true :=
  BitVec.getLsbD_true_ctz_of_ne_zero nonzero

theorem ctz_le {w : BitVec 64} {i : Nat} (set : w.getLsbD i = true) : w.ctz.toNat ≤ i := by
  by_contra above
  rw [BitVec.getLsbD_false_of_lt_ctz (Nat.lt_of_not_le above)] at set
  exact Bool.false_ne_true set

theorem ctz_lt {w : BitVec 64} (nonzero : w ≠ 0) : w.ctz.toNat < 64 :=
  BitVec.lt_def.1 (BitVec.ctz_lt_iff_ne_zero.2 nonzero)

/-- Above the lowest set bit nothing changes, and the bit itself goes. -/
theorem getLsbD_clearLowest_iff {w : BitVec 64} {i : Nat} :
    (clearLowest w).getLsbD i = true ↔ w.getLsbD i = true ∧ w.ctz.toNat < i := by
  rw [getLsbD_clearLowest, Bool.and_eq_true, decide_eq_true_iff]
  refine and_congr_right fun set => ⟨fun ⟨j, below, setJ⟩ => lt_of_le_of_lt (ctz_le setJ) below, ?_⟩
  intro below
  have nonzero : w ≠ 0 := by
    rintro rfl
    simp at set
  exact ⟨w.ctz.toNat, below, getLsbD_ctz nonzero⟩

theorem clearLowest_lt {w : BitVec 64} (nonzero : w ≠ 0) : (clearLowest w).toNat < w.toNat := by
  refine Nat.lt_of_testBit w.ctz.toNat ?_ ?_ fun j above => ?_
  · rw [BitVec.testBit_toNat, Bool.eq_false_iff, ne_eq, getLsbD_clearLowest_iff]
    exact fun h => Nat.lt_irrefl _ h.2
  · rw [BitVec.testBit_toNat, getLsbD_ctz nonzero]
  · rw [BitVec.testBit_toNat, BitVec.testBit_toNat, Bool.eq_iff_iff, getLsbD_clearLowest_iff]
    exact ⟨fun h => h.1, fun h => ⟨h, above⟩⟩

/-- Scan a word by taking its lowest set bit off until nothing is left. -/
def scanWord (w : BitVec 64) : List Nat :=
  if w = 0 then [] else w.ctz.toNat :: scanWord (clearLowest w)
termination_by w.toNat
decreasing_by exact clearLowest_lt ‹_›

theorem mem_scanWord {w : BitVec 64} {i : Nat} : i ∈ scanWord w ↔ w.getLsbD i = true := by
  fun_induction scanWord w with
  | case1 => simp
  | case2 w nonzero ih =>
    rw [List.mem_cons, ih, getLsbD_clearLowest_iff]
    constructor
    · rintro (rfl | ⟨set, -⟩)
      · exact getLsbD_ctz nonzero
      · exact set
    · intro set
      rcases Nat.eq_or_lt_of_le (ctz_le set) with eq | lt
      · exact .inl eq.symm
      · exact .inr ⟨set, lt⟩

theorem sorted_scanWord (w : BitVec 64) : (scanWord w).Pairwise (· < ·) := by
  fun_induction scanWord w with
  | case1 => exact List.Pairwise.nil
  | case2 w nonzero ih =>
    exact List.pairwise_cons.2 ⟨fun i hi => (getLsbD_clearLowest_iff.1 (mem_scanWord.1 hi)).2, ih⟩

/-- The bits of a word in increasing order. -/
def bits (w : BitVec 64) : List Nat := (List.range 64).filter w.getLsbD

theorem mem_bits {w : BitVec 64} {i : Nat} : i ∈ bits w ↔ w.getLsbD i = true := by
  rw [bits, List.mem_filter, List.mem_range]
  exact ⟨fun h => h.2, fun h => ⟨BitVec.lt_of_getLsbD h, h⟩⟩

theorem scanWord_eq_bits (w : BitVec 64) : scanWord w = bits w :=
  SortedList.eq_of_same_members (sorted_scanWord w)
    ((List.pairwise_lt_range (n := 64)).sublist List.filter_sublist) fun i => by rw [mem_scanWord, mem_bits]

/-- Counting bit by bit from the top is counting the set bits. -/
theorem cpopNatRec_eq_length (w : BitVec 64) (n : Nat) :
    w.cpopNatRec n 0 = ((List.range n).filter w.getLsbD).length := by
  induction n with
  | zero => rfl
  | succ n ih =>
    rw [BitVec.cpopNatRec_succ, BitVec.cpopNatRec_eq, ih, List.range_succ, List.filter_append, List.length_append]
    cases h : w.getLsbD n <;> simp [h]

theorem cpop_eq_length_bits (w : BitVec 64) : w.cpop.toNat = (bits w).length := by
  rw [BitVec.toNat_cpop, cpopNatRec_eq_length, bits]

/-! ## Word vectors -/

section Words

variable {n : Nat}

/-- Whether number `i` is in the set. -/
def test (ws : Vector (BitVec 64) n) (i : Nat) : Bool :=
  if h : i / 64 < n then ws[i / 64].getLsbD (i % 64) else false

/-- The set in increasing order. -/
def positions (ws : Vector (BitVec 64) n) : List Nat := (List.range (64 * n)).filter (test ws)

theorem test_of_lt {ws : Vector (BitVec 64) n} {i : Nat} (h : i / 64 < n) :
    test ws i = ws[i / 64].getLsbD (i % 64) := by rw [test, dif_pos h]

theorem mem_positions {ws : Vector (BitVec 64) n} {i : Nat} : i ∈ positions ws ↔ test ws i = true := by
  rw [positions, List.mem_filter, List.mem_range]
  refine ⟨fun h => h.2, fun h => ⟨?_, h⟩⟩
  by_contra outside
  rw [test, dif_neg (by omega)] at h
  exact Bool.false_ne_true h

theorem sorted_positions (ws : Vector (BitVec 64) n) : (positions ws).Pairwise (· < ·) :=
  List.pairwise_lt_range.sublist List.filter_sublist

/-- Word vectors with the same numbers are equal. -/
theorem eq_of_test_eq {ws ws' : Vector (BitVec 64) n} (same : ∀ i, i < 64 * n → test ws i = test ws' i) :
    ws = ws' := by
  ext i hi j hj
  have inside : (64 * i + j) / 64 = i := by omega
  have here := same (64 * i + j) (by omega)
  rw [test_of_lt (by omega), test_of_lt (by omega)] at here
  simpa only [inside, show (64 * i + j) % 64 = j by omega, ← BitVec.getLsbD_eq_getElem] using here

/-- Set number `i`. -/
def insert (ws : Vector (BitVec 64) n) (i : Nat) (h : i / 64 < n) : Vector (BitVec 64) n :=
  ws.set (i / 64) (ws[i / 64] ||| 1#64 <<< (i % 64)) h

/-- Clear number `i`. -/
def erase (ws : Vector (BitVec 64) n) (i : Nat) (h : i / 64 < n) : Vector (BitVec 64) n :=
  ws.set (i / 64) (ws[i / 64] &&& ~~~(1#64 <<< (i % 64))) h

theorem getLsbD_mask (k j : Nat) : (1#64 <<< k).getLsbD j = (decide (j < 64) && decide (j = k)) := by
  rw [BitVec.getLsbD_shiftLeft]
  by_cases inside : j < 64 <;> by_cases same : j = k
  · subst same
    simp [inside]
  · rcases Nat.lt_or_gt_of_ne same with lt | gt
    · simp [lt, same]
    · have positive : j - k ≠ 0 := by omega
      simp [BitVec.getLsbD_one, positive, same]
  · simp [inside]
  · simp [inside]

/-- Two numbers in the same word at the same bit are the same number. -/
theorem eq_of_div_mod {i j : Nat} (word : i / 64 = j / 64) (bit : i % 64 = j % 64) : i = j := by omega

theorem test_insert (ws : Vector (BitVec 64) n) {i : Nat} (h : i / 64 < n) (j : Nat) :
    test (insert ws i h) j = (test ws j || decide (j = i)) := by
  by_cases inside : j / 64 < n
  · rw [test_of_lt inside, test_of_lt inside, insert, Vector.getElem_set]
    by_cases word : i / 64 = j / 64
    · have mask := getLsbD_mask (i % 64) (j % 64)
      have bit : (j % 64 = i % 64) = (j = i) := propext ⟨fun e => eq_of_div_mod word.symm e, fun e => by rw [e]⟩
      simp only [word, if_true, BitVec.getLsbD_or, mask, Nat.mod_lt j (by omega : 64 > 0), decide_true,
        Bool.true_and, bit]
    · have apart : j ≠ i := fun e => word (by rw [e])
      simp [word, apart]
  · have apart : j ≠ i := fun e => inside (e ▸ h)
    simp [test, inside, apart]

theorem test_erase (ws : Vector (BitVec 64) n) {i : Nat} (h : i / 64 < n) (j : Nat) :
    test (erase ws i h) j = (test ws j && !decide (j = i)) := by
  by_cases inside : j / 64 < n
  · rw [test_of_lt inside, test_of_lt inside, erase, Vector.getElem_set]
    by_cases word : i / 64 = j / 64
    · have mask := getLsbD_mask (i % 64) (j % 64)
      have bit : (j % 64 = i % 64) = (j = i) := propext ⟨fun e => eq_of_div_mod word.symm e, fun e => by rw [e]⟩
      simp only [word, if_true, BitVec.getLsbD_and, BitVec.getLsbD_not, mask,
        Nat.mod_lt j (by omega : 64 > 0), decide_true, Bool.true_and, bit]
    · have apart : j ≠ i := fun e => word (by rw [e])
      simp [word, apart]
  · simp [test, inside]

theorem test_zipWith_or (a b : Vector (BitVec 64) n) (i : Nat) :
    test (Vector.zipWith (· ||| ·) a b) i = (test a i || test b i) := by
  unfold test
  split <;> simp

theorem test_zipWith_andnot (a b : Vector (BitVec 64) n) (i : Nat) :
    test (Vector.zipWith (fun x y => x &&& ~~~y) a b) i = (test a i && !test b i) := by
  unfold test
  split
  · simp [Nat.mod_lt i (by omega : 64 > 0)]
  · rfl

@[simp] theorem test_replicate_zero (i : Nat) : test (Vector.replicate n 0#64) i = false := by
  unfold test
  split <;> simp

/-! ## Scanning and counting -/

/-- Scan all the words, each from its own base. -/
def extract (ws : Vector (BitVec 64) n) : List Nat :=
  (List.finRange n).flatMap fun k => (scanWord ws[k]).map (64 * k.val + ·)

/-- The sum of the words' population counts. -/
def count (ws : Vector (BitVec 64) n) : Nat := (ws.toList.map fun w => w.cpop.toNat).sum

theorem mem_extract {ws : Vector (BitVec 64) n} {i : Nat} : i ∈ extract ws ↔ test ws i = true := by
  simp only [extract, List.mem_flatMap, List.mem_finRange, true_and, List.mem_map, mem_scanWord]
  constructor
  · intro given
    obtain ⟨k, j, set, rfl⟩ := given
    have inside := BitVec.lt_of_getLsbD set
    have word : (64 * k.val + j) / 64 = k.val := by omega
    rw [test_of_lt (by omega)]
    simpa only [word, show (64 * k.val + j) % 64 = j by omega, Fin.getElem_fin] using set
  · intro set
    have inside : i / 64 < n := by
      by_contra outside
      rw [test, dif_neg outside] at set
      exact Bool.false_ne_true set
    rw [test_of_lt inside] at set
    exact ⟨⟨i / 64, inside⟩, i % 64, set, by simp only; omega⟩

theorem sorted_extract (ws : Vector (BitVec 64) n) : (extract ws).Pairwise (· < ·) := by
  refine List.pairwise_flatMap.2 ⟨?_, ?_⟩
  · intro k _
    exact List.pairwise_map.2 ((sorted_scanWord _).imp fun h => by omega)
  · refine (List.pairwise_lt_finRange n).imp fun {k k'} below => ?_
    intro x hx y hy
    obtain ⟨j, hj, rfl⟩ := List.mem_map.1 hx
    obtain ⟨j', hj', rfl⟩ := List.mem_map.1 hy
    have inside := BitVec.lt_of_getLsbD (mem_scanWord.1 hj)
    have := Fin.lt_def.1 below
    omega

/-- Scanning lists the set in increasing order. -/
theorem extract_eq_positions (ws : Vector (BitVec 64) n) : extract ws = positions ws :=
  SortedList.eq_of_same_members (sorted_extract ws) (sorted_positions ws) fun i => by
    rw [mem_extract, mem_positions]

/-- The population counts add up to the number of elements. -/
theorem count_eq_length (ws : Vector (BitVec 64) n) : count ws = (positions ws).length := by
  have words : ws.toList = (List.finRange n).map fun k => ws[k] := by
    apply List.ext_getElem <;> simp
  rw [← extract_eq_positions, extract, List.length_flatMap, count, words, List.map_map]
  congr 1
  apply List.map_congr_left
  intro k _
  simp only [Function.comp_apply, List.length_map, scanWord_eq_bits, cpop_eq_length_bits]

theorem length_positions_le (ws : Vector (BitVec 64) n) : (positions ws).length ≤ 64 * n := by
  have := (List.filter_sublist (p := test ws) (l := List.range (64 * n))).length_le
  rwa [List.length_range] at this

/-! ## How the count moves -/

/-- Adding one absent member to a list without duplicates' filter adds one. -/
theorem length_filter_insert {l : List Nat} (nodup : l.Nodup) {p : Nat → Bool} {i : Nat} (inside : i ∈ l)
    (absent : p i = false) :
    (l.filter fun j => p j || decide (j = i)).length = (l.filter p).length + 1 := by
  induction l with
  | nil => exact absurd inside List.not_mem_nil
  | cons a l ih =>
    obtain ⟨fresh, rest⟩ := List.nodup_cons.1 nodup
    rcases List.mem_cons.1 inside with rfl | later
    · have tail : (l.filter fun j => p j || decide (j = i)) = l.filter p := by
        apply List.filter_congr
        intro j hj
        have apart : j ≠ i := fun e => fresh (e ▸ hj)
        simp [apart]
      simp [absent, tail]
    · have apart : a ≠ i := fun e => fresh (e ▸ later)
      have tail := ih rest later
      cases h : p a <;> simp [h, apart, tail]

/-- Inserting counts one more exactly when the number was absent. -/
theorem length_positions_insert (ws : Vector (BitVec 64) n) {i : Nat} (h : i / 64 < n) :
    (positions (insert ws i h)).length = (positions ws).length + if test ws i then 0 else 1 := by
  have asFilter : positions (insert ws i h) = (List.range (64 * n)).filter fun j => test ws j || decide (j = i) :=
    List.filter_congr fun j _ => test_insert ws h j
  cases present : test ws i with
  | true =>
    rw [asFilter]
    have same : (List.range (64 * n)).filter (fun j => test ws j || decide (j = i)) = positions ws := by
      apply List.filter_congr
      intro j _
      by_cases e : j = i <;> simp [e, present]
    simp [same]
  | false =>
    rw [asFilter, length_filter_insert List.nodup_range (List.mem_range.2 (by omega)) present]
    rfl

/-- Erasing counts one less exactly when the number was present. -/
theorem length_positions_erase (ws : Vector (BitVec 64) n) {i : Nat} (h : i / 64 < n) :
    (positions ws).length = (positions (erase ws i h)).length + if test ws i then 1 else 0 := by
  cases present : test ws i with
  | false =>
    have same : erase ws i h = ws := eq_of_test_eq fun j _ => by
      rw [test_erase]
      by_cases e : j = i <;> simp [e, present]
    simp [same]
  | true =>
    have back : insert (erase ws i h) i h = ws := eq_of_test_eq fun j _ => by
      rw [test_insert, test_erase]
      by_cases e : j = i <;> simp [e, present]
    have grown := length_positions_insert (erase ws i h) h
    rw [back, test_erase] at grown
    simpa using grown

/-- The one bit by which a word and the word with bit `k` set differ. -/
theorem xor_insert_shift (w : BitVec 64) {k : Nat} (h : k < 64) :
    ((w ^^^ (w ||| 1#64 <<< k)) >>> k).toNat = if w.getLsbD k then 0 else 1 := by
  have value : (w ^^^ (w ||| 1#64 <<< k)) >>> k = if w.getLsbD k then 0#64 else 1#64 := by
    ext j hj
    rw [← BitVec.getLsbD_eq_getElem, BitVec.getLsbD_ushiftRight, BitVec.getLsbD_xor, BitVec.getLsbD_or,
      getLsbD_mask, ← BitVec.getLsbD_eq_getElem]
    by_cases first : j = 0
    · subst first
      cases w.getLsbD k <;> simp [h]
    · cases w.getLsbD k <;> simp [first]
  rw [value]
  split <;> rfl

/-- The one bit by which a word and the word with bit `k` cleared differ. -/
theorem xor_erase_shift (w : BitVec 64) {k : Nat} (h : k < 64) :
    ((w ^^^ (w &&& ~~~(1#64 <<< k))) >>> k).toNat = if w.getLsbD k then 1 else 0 := by
  have value : (w ^^^ (w &&& ~~~(1#64 <<< k))) >>> k = if w.getLsbD k then 1#64 else 0#64 := by
    ext j hj
    rw [← BitVec.getLsbD_eq_getElem, BitVec.getLsbD_ushiftRight, BitVec.getLsbD_xor, BitVec.getLsbD_and,
      BitVec.getLsbD_not, getLsbD_mask, ← BitVec.getLsbD_eq_getElem]
    by_cases first : j = 0
    · subst first
      cases w.getLsbD k <;> simp [h]
    · by_cases inside : k + j < 64
      · cases w.getLsbD k <;> cases w.getLsbD (k + j) <;> simp [first, inside]
      · have outside := BitVec.getLsbD_of_ge w (k + j) (by omega)
        cases w.getLsbD k <;> simp [first, inside, outside]
  rw [value]
  split <;> rfl

/-! ## The next element -/

/-- `p` is the least element from `i` on. -/
structure IsNext (ws : Vector (BitVec 64) n) (i p : Nat) : Prop where
  from_ : i ≤ p
  set : test ws p = true
  least : ∀ j, i ≤ j → test ws j = true → p ≤ j

/-- A scan for the next element from `i` has come to word `k`: no element was
passed, and `word` has the elements of word `k` that are not before `i`. -/
structure Scanned (ws : Vector (BitVec 64) n) (i k : Nat) (word : BitVec 64) : Prop where
  inside : k < n
  notYet : i < 64 * (k + 1)
  passed : ∀ j, i ≤ j → j < 64 * k → test ws j = false
  bit : ∀ j < 64, word.getLsbD j = (test ws (64 * k + j) && decide (i ≤ 64 * k + j))

theorem test_word {ws : Vector (BitVec 64) n} {k j : Nat} (h : k < n) (hj : j < 64) :
    test ws (64 * k + j) = ws[k].getLsbD j := by
  have word : (64 * k + j) / 64 = k := by omega
  rw [test_of_lt (by omega)]
  simp only [word, show (64 * k + j) % 64 = j by omega]

theorem Scanned.start {ws : Vector (BitVec 64) n} (h : 0 < n) : Scanned ws 0 0 ws[0] where
  inside := h
  notYet := by omega
  passed j _ before := absurd before (by omega)
  bit j hj := by rw [test_word h hj]; simp

/-- A scan that starts inside a word masks the bits before. -/
theorem Scanned.mask (ws : Vector (BitVec 64) n) {i : Nat} (h : i / 64 < n) :
    Scanned ws i (i / 64) (ws[i / 64] &&& BitVec.allOnes 64 <<< (i % 64)) where
  inside := h
  notYet := by omega
  passed j after before := absurd before (by omega)
  bit j hj := by
    rw [test_word h hj, BitVec.getLsbD_and, BitVec.getLsbD_shiftLeft, BitVec.getLsbD_allOnes]
    congr 1
    have place : i % 64 ≤ j ↔ i ≤ 64 * (i / 64) + j := by omega
    by_cases after : i % 64 ≤ j
    · simp [hj, place.1 after, Nat.not_lt.2 after, show j - i % 64 < 64 by omega]
    · rw [decide_eq_false fun h => after (place.2 h)]
      simp [Nat.lt_of_not_le after]

/-- An empty word is passed. -/
theorem Scanned.not_mem {ws : Vector (BitVec 64) n} {i k : Nat} (scanned : Scanned ws i k 0) (j : Nat) (after : i ≤ j)
    (before : j < 64 * (k + 1)) : test ws j = false := by
  rcases Nat.lt_or_ge j (64 * k) with old | new
  · exact scanned.passed j after old
  · have bit := scanned.bit (j - 64 * k) (by omega)
    rw [show 64 * k + (j - 64 * k) = j by omega, decide_eq_true after, Bool.and_true] at bit
    rw [← bit]
    exact BitVec.getLsbD_zero

theorem Scanned.next {ws : Vector (BitVec 64) n} {i k : Nat} (scanned : Scanned ws i k 0) (h : k + 1 < n) :
    Scanned ws i (k + 1) ws[k + 1] where
  inside := h
  notYet := by have := scanned.notYet; omega
  passed j after before := scanned.not_mem j after before
  bit j hj := by
    have := scanned.notYet
    rw [test_word h hj, decide_eq_true (by omega), Bool.and_true]

/-- The lowest bit of a word that is not empty is the next element. -/
theorem Scanned.found {ws : Vector (BitVec 64) n} {i k : Nat} {word : BitVec 64} (scanned : Scanned ws i k word)
    (nonzero : word ≠ 0) : IsNext ws i (64 * k + word.ctz.toNat) := by
  have bit := scanned.bit _ (ctz_lt nonzero)
  rw [getLsbD_ctz nonzero] at bit
  obtain ⟨set, after⟩ := Bool.and_eq_true_iff.1 bit.symm
  refine ⟨of_decide_eq_true after, set, ?_⟩
  intro j hj set'
  rcases Nat.lt_or_ge j (64 * k) with old | new
  · rw [scanned.passed j hj old] at set'
    exact absurd set' Bool.false_ne_true
  rcases Nat.lt_or_ge j (64 * (k + 1)) with here | later
  · have bit' := scanned.bit (j - 64 * k) (by omega)
    rw [show 64 * k + (j - 64 * k) = j by omega, set', decide_eq_true hj, Bool.and_true] at bit'
    have := ctz_le bit'
    omega
  · have := ctz_lt nonzero
    omega

end Words

end BitWords
