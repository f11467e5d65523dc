import RedisRoaring.Library.BitWords
import RedisRoaring.Containers.Array

/-!
# Bitset containers

1024 words and a cardinality kept beside them. The 16-bit value `pos` is bit
`pos & 63` of word `pos >> 6`. `values` lists a bitset's members; every
operation is specified by membership in `values` and by the cardinality field
being exact.
-/

namespace RedisRoaring

open Exec

/-- `BITSET_CONTAINER_SIZE_IN_WORDS`. -/
abbrev bitsetContainerSizeInWords : Nat := 1024

/-- The words of a bitset container. -/
abbrev Words := Vector (BitVec 64) bitsetContainerSizeInWords

/-- `bitset_container_t`. -/
structure BitsetContainer where
  cardinality : Nat
  array : Words
  deriving DecidableEq, Repr

/-- A 16-bit position lies in one of the 1024 words. -/
theorem word_lt (pos : UInt16) : pos.toNat / 64 < bitsetContainerSizeInWords := by
  have := pos.toNat_lt
  unfold bitsetContainerSizeInWords
  omega

/-- `bitset_container_create`: every bit clear. -/
def bitsetContainerCreate : BitsetContainer :=
  { cardinality := 0, array := Vector.replicate bitsetContainerSizeInWords 0#64 }

/-- `bitset_container_set`. -/
def bitsetContainerSet (bitset : BitsetContainer) (pos : UInt16) : BitsetContainer :=
  have h := word_lt pos
  let oldWord := bitset.array[pos.toNat / 64]
  let index := pos.toNat % 64
  let newWord := oldWord ||| 1#64 <<< index
  { cardinality := bitset.cardinality + ((oldWord ^^^ newWord) >>> index).toNat
    array := bitset.array.set (pos.toNat / 64) newWord }

/-- `bitset_container_remove`: whether `pos` was present, and the new bitset. -/
def bitsetContainerRemove (bitset : BitsetContainer) (pos : UInt16) : BitsetContainer × Bool :=
  have h := word_lt pos
  let oldWord := bitset.array[pos.toNat / 64]
  let index := pos.toNat % 64
  let newWord := oldWord &&& ~~~(1#64 <<< index)
  let increment := ((oldWord ^^^ newWord) >>> index).toNat
  ({ cardinality := bitset.cardinality - increment
     array := bitset.array.set (pos.toNat / 64) newWord }, increment != 0)

/-- `bitset_container_get`. -/
def bitsetContainerGet (bitset : BitsetContainer) (pos : UInt16) : Bool :=
  have h := word_lt pos
  (bitset.array[pos.toNat / 64] >>> (pos.toNat % 64)).getLsbD 0

/-- `bitset_set_list`. -/
def bitsetSetList (bitset : Words) (list : List UInt16) : Words :=
  list.foldl (fun words pos =>
    have h := word_lt pos
    words.set (pos.toNat / 64) (words[pos.toNat / 64] ||| 1#64 <<< (pos.toNat % 64))) bitset

/-- `bitset_set_list_withcard`. -/
def bitsetSetListWithcard (bitset : Words) (card : Nat) (list : List UInt16) : Words × Nat :=
  list.foldl (fun (words, card) pos =>
    have h := word_lt pos
    let index := pos.toNat % 64
    let load := words[pos.toNat / 64]
    let newload := load ||| 1#64 <<< index
    (words.set (pos.toNat / 64) newload, card + ((load ^^^ newload) >>> index).toNat)) (bitset, card)

/-- `bitset_clear_list`. -/
def bitsetClearList (bitset : Words) (card : Nat) (list : List UInt16) : Words × Nat :=
  list.foldl (fun (words, card) pos =>
    have h := word_lt pos
    let index := pos.toNat % 64
    let load := words[pos.toNat / 64]
    let newload := load &&& ~~~(1#64 <<< index)
    (words.set (pos.toNat / 64) newload, card - ((load ^^^ newload) >>> index).toNat)) (bitset, card)

/-- `hamming`: the population count of a word. -/
def hamming (x : BitVec 64) : Nat := x.cpop.toNat

/-- `bitset_container_compute_cardinality`. -/
def bitsetContainerComputeCardinality (bitset : Words) : Nat := (bitset.toList.map hamming).sum

/-- `bitset_container_or`: the result carries its cardinality. -/
def bitsetContainerOr (src1 src2 : BitsetContainer) : BitsetContainer :=
  let out := Vector.zipWith (fun word1 word2 => word1 ||| word2) src1.array src2.array
  { cardinality := bitsetContainerComputeCardinality out, array := out }

/-- `bitset_container_andnot`. -/
def bitsetContainerAndnot (src1 src2 : BitsetContainer) : BitsetContainer :=
  let out := Vector.zipWith (fun word1 word2 => word1 &&& ~~~word2) src1.array src2.array
  { cardinality := bitsetContainerComputeCardinality out, array := out }

/-- `bitset_extract_setbits_uint16`, from base 0. -/
def bitsetExtractSetbitsUint16 (bitset : Words) : List UInt16 :=
  (List.finRange bitsetContainerSizeInWords).flatMap fun i =>
    (BitWords.scanWord bitset[i]).map fun r => UInt16.ofNat (64 * i.val + r)

/-! ## Members -/

/-- The members of the words in increasing order. -/
def wordValues (words : Words) : List UInt16 := (BitWords.positions words).map UInt16.ofNat

/-- The members of a bitset in increasing order. -/
def BitsetContainer.values (bitset : BitsetContainer) : List UInt16 := wordValues bitset.array

/-- The cardinality field counts the members. -/
def BitsetContainer.Exact (bitset : BitsetContainer) : Prop := bitset.cardinality = bitset.values.length

theorem position_lt {words : Words} {i : Nat} (set : i ∈ BitWords.positions words) : i < 65536 :=
  List.mem_range.1 (List.mem_filter.1 set).1

theorem mem_wordValues {words : Words} {x : UInt16} : x ∈ wordValues words ↔ BitWords.test words x.toNat = true := by
  rw [← BitWords.mem_positions, wordValues, List.mem_map]
  constructor
  · intro given
    obtain ⟨i, set, rfl⟩ := given
    rwa [UInt16.toNat_ofNat_of_lt' (position_lt set)]
  · intro set
    exact ⟨x.toNat, set, UInt16.ofNat_toNat⟩

theorem sorted_wordValues (words : Words) : (wordValues words).Pairwise (· < ·) := by
  refine List.pairwise_map.2 ((BitWords.sorted_positions words).imp_of_mem fun ha hb below => ?_)
  rw [UInt16.lt_iff_toNat_lt, UInt16.toNat_ofNat_of_lt' (position_lt ha), UInt16.toNat_ofNat_of_lt' (position_lt hb)]
  exact below

theorem BitsetContainer.sorted_values (bitset : BitsetContainer) : bitset.values.Pairwise (· < ·) :=
  sorted_wordValues bitset.array

theorem length_wordValues (words : Words) : (wordValues words).length = (BitWords.positions words).length :=
  List.length_map ..

/-- Words with the same members are equal. -/
theorem words_eq_of_values_eq {words words' : Words} (same : wordValues words = wordValues words') :
    words = words' := by
  apply BitWords.eq_of_test_eq
  intro i h
  have here : UInt16.ofNat i ∈ wordValues words ↔ UInt16.ofNat i ∈ wordValues words' := by rw [same]
  rwa [mem_wordValues, mem_wordValues, UInt16.toNat_ofNat_of_lt' h, ← Bool.eq_iff_iff] at here

/-- Counting word by word counts the members. -/
theorem bitsetContainerComputeCardinality_eq (words : Words) :
    bitsetContainerComputeCardinality words = (wordValues words).length := by
  rw [length_wordValues, ← BitWords.count_eq_length]
  rfl

/-- The extraction loop lists the members. -/
theorem bitsetExtractSetbitsUint16_eq (words : Words) : bitsetExtractSetbitsUint16 words = wordValues words := by
  rw [wordValues, ← BitWords.extract_eq_positions, BitWords.extract, List.map_flatMap, bitsetExtractSetbitsUint16]
  simp only [List.map_map]
  rfl

-- from here on members are reached through the lemmas above, never by evaluation
attribute [irreducible] wordValues

/-! ## Single values -/

theorem bitsetContainerCreate_values : bitsetContainerCreate.values = [] := by
  apply List.eq_nil_iff_forall_not_mem.2
  intro x h
  have set := mem_wordValues.1 h
  rw [bitsetContainerCreate, BitWords.test_replicate_zero] at set
  exact Bool.false_ne_true set

/-- Setting a bit: the words gain one member and the count follows. -/
theorem mem_insert_word (words : Words) (pos x : UInt16) :
    x ∈ wordValues (BitWords.insert words pos.toNat (word_lt pos)) ↔ x ∈ wordValues words ∨ x = pos := by
  rw [mem_wordValues, mem_wordValues, BitWords.test_insert, Bool.or_eq_true, decide_eq_true_iff, UInt16.toNat_inj]

/-- The cardinality update of a set bit keeps the count exact. -/
theorem card_insert_word {words : Words} {card : Nat} (exact : card = (wordValues words).length) (pos : UInt16)
    {word : BitVec 64} (inside : pos.toNat / 64 < bitsetContainerSizeInWords) (here : words[pos.toNat / 64] = word) :
    card + ((word ^^^ (word ||| 1#64 <<< (pos.toNat % 64))) >>> (pos.toNat % 64)).toNat =
      (wordValues (BitWords.insert words pos.toNat (word_lt pos))).length := by
  rw [exact, length_wordValues, length_wordValues, BitWords.length_positions_insert, BitWords.test_of_lt (word_lt pos),
    here, BitWords.xor_insert_shift word (Nat.mod_lt _ (by omega))]

theorem mem_erase_word (words : Words) (pos x : UInt16) :
    x ∈ wordValues (BitWords.erase words pos.toNat (word_lt pos)) ↔ x ∈ wordValues words ∧ x ≠ pos := by
  rw [mem_wordValues, mem_wordValues, BitWords.test_erase, Bool.and_eq_true, Bool.not_eq_true',
    decide_eq_false_iff_not, UInt16.toNat_inj]

/-- The cardinality update of a cleared bit keeps the count exact. -/
theorem card_erase_word {words : Words} {card : Nat} (exact : card = (wordValues words).length) (pos : UInt16)
    {word : BitVec 64} (inside : pos.toNat / 64 < bitsetContainerSizeInWords) (here : words[pos.toNat / 64] = word) :
    card - ((word ^^^ (word &&& ~~~(1#64 <<< (pos.toNat % 64)))) >>> (pos.toNat % 64)).toNat =
      (wordValues (BitWords.erase words pos.toNat (word_lt pos))).length := by
  rw [exact, length_wordValues, length_wordValues, BitWords.length_positions_erase words (word_lt pos),
    BitWords.test_of_lt (word_lt pos), here, BitWords.xor_erase_shift word (Nat.mod_lt _ (by omega))]
  exact Nat.add_sub_cancel ..

section Specs

variable {bitset : BitsetContainer} {pos : UInt16}

theorem bitsetContainerSet_spec (exact : bitset.Exact) (pos : UInt16) :
    (bitsetContainerSet bitset pos).Exact ∧
      ∀ x, x ∈ (bitsetContainerSet bitset pos).values ↔ x ∈ bitset.values ∨ x = pos :=
  ⟨card_insert_word exact pos (word_lt pos) rfl, mem_insert_word bitset.array pos⟩

theorem bitsetContainerRemove_spec (exact : bitset.Exact) (pos : UInt16) :
    ∃ bitset' present, bitsetContainerRemove bitset pos = (bitset', present) ∧ bitset'.Exact ∧
      (present = true ↔ pos ∈ bitset.values) ∧ ∀ x, x ∈ bitset'.values ↔ x ∈ bitset.values ∧ x ≠ pos := by
  refine ⟨_, _, rfl, card_erase_word exact pos (word_lt pos) rfl, ?_, mem_erase_word bitset.array pos⟩
  rw [BitWords.xor_erase_shift _ (Nat.mod_lt _ (by omega)), BitsetContainer.values, mem_wordValues,
    BitWords.test_of_lt (word_lt pos)]
  have inside := word_lt pos
  cases bitset.array[pos.toNat / 64].getLsbD (pos.toNat % 64) <;> simp

theorem bitsetContainerGet_iff : bitsetContainerGet bitset pos = true ↔ pos ∈ bitset.values := by
  rw [BitsetContainer.values, mem_wordValues, BitWords.test_of_lt (word_lt pos), bitsetContainerGet,
    BitVec.getLsbD_ushiftRight, Nat.add_zero]

end Specs

/-! ## Lists of values -/

theorem mem_bitsetSetList (list : List UInt16) (words : Words) (x : UInt16) :
    x ∈ wordValues (bitsetSetList words list) ↔ x ∈ wordValues words ∨ x ∈ list := by
  induction list generalizing words with
  | nil => simp [bitsetSetList]
  | cons pos list ih =>
    have rest := ih (BitWords.insert words pos.toNat (word_lt pos))
    rw [mem_insert_word] at rest
    rw [List.mem_cons, ← or_assoc]
    exact rest

theorem bitsetSetListWithcard_spec (list : List UInt16) (words : Words) {card : Nat}
    (exact : card = (wordValues words).length) :
    ∃ words' card', bitsetSetListWithcard words card list = (words', card') ∧
      card' = (wordValues words').length ∧ ∀ x, x ∈ wordValues words' ↔ x ∈ wordValues words ∨ x ∈ list := by
  induction list generalizing words card with
  | nil => exact ⟨words, card, rfl, exact, by simp⟩
  | cons pos list ih =>
    have grown := card_insert_word exact pos (word_lt pos) rfl
    obtain ⟨words', card', run, exact', members⟩ := ih (BitWords.insert words pos.toNat (word_lt pos)) grown
    refine ⟨words', card', run, exact', ?_⟩
    intro x
    rw [members, mem_insert_word, List.mem_cons, or_assoc]

theorem bitsetClearList_spec (list : List UInt16) (words : Words) {card : Nat}
    (exact : card = (wordValues words).length) :
    ∃ words' card', bitsetClearList words card list = (words', card') ∧
      card' = (wordValues words').length ∧ ∀ x, x ∈ wordValues words' ↔ x ∈ wordValues words ∧ x ∉ list := by
  induction list generalizing words card with
  | nil => exact ⟨words, card, rfl, exact, by simp⟩
  | cons pos list ih =>
    have shrunk := card_erase_word exact pos (word_lt pos) rfl
    obtain ⟨words', card', run, exact', members⟩ := ih (BitWords.erase words pos.toNat (word_lt pos)) shrunk
    refine ⟨words', card', run, exact', ?_⟩
    intro x
    rw [members, mem_erase_word, List.mem_cons, not_or, and_assoc]

/-! ## Whole bitsets -/

theorem bitsetContainerOr_spec (src1 src2 : BitsetContainer) :
    (bitsetContainerOr src1 src2).Exact ∧
      ∀ x, x ∈ (bitsetContainerOr src1 src2).values ↔ x ∈ src1.values ∨ x ∈ src2.values := by
  refine ⟨bitsetContainerComputeCardinality_eq _, ?_⟩
  intro x
  simp only [BitsetContainer.values, mem_wordValues, bitsetContainerOr, BitWords.test_zipWith_or, Bool.or_eq_true]

theorem bitsetContainerAndnot_spec (src1 src2 : BitsetContainer) :
    (bitsetContainerAndnot src1 src2).Exact ∧
      ∀ x, x ∈ (bitsetContainerAndnot src1 src2).values ↔ x ∈ src1.values ∧ x ∉ src2.values := by
  refine ⟨bitsetContainerComputeCardinality_eq _, ?_⟩
  intro x
  simp only [BitsetContainer.values, mem_wordValues, bitsetContainerAndnot, BitWords.test_zipWith_andnot,
    Bool.and_eq_true, Bool.not_eq_true', Bool.not_eq_true]

end RedisRoaring
