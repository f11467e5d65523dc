import RedisRoaring.Library.BitWords
import RedisRoaring.Library.MaximalRuns

/-!
# Runs of set bits

The maximal runs of a set that is kept in words. Their number is a sum of
population counts, and they are cut out by filling a word below its lowest set
bit and clearing it below its lowest clear one. The search for a clear bit is
the search for a set bit of the complement.
-/

namespace BitWords

open Intervals

/-! ## One word -/

section Word

variable {w : BitVec 64} {i : Nat}

/-- The bits below the lowest set bit are filled. -/
theorem getLsbD_fillBelow (w : BitVec 64) (inside : i < 64) :
    (w ||| (w - 1)).getLsbD i = (w.getLsbD i || decide (¬ ∃ j < i, w.getLsbD j = true)) := by
  have pred : w - 1 = ~~~(-w) := (BitVec.not_neg w).symm
  rw [pred, BitVec.getLsbD_or, BitVec.getLsbD_not, BitVec.getLsbD_neg]
  by_cases lower : ∃ j < i, w.getLsbD j = true <;> cases w.getLsbD i <;> simp [inside, lower]

/-- The bits below the lowest clear bit are cleared. -/
theorem getLsbD_clearBelow (w : BitVec 64) (inside : i < 64) :
    (w &&& (w + 1)).getLsbD i = (w.getLsbD i && decide (∃ j < i, w.getLsbD j = false)) := by
  have succ : w + 1 = -(~~~w) := by rw [BitVec.neg_eq_not_add, BitVec.not_not]; rfl
  have lower : (∃ j < i, (~~~w).getLsbD j = true) ↔ ∃ j < i, w.getLsbD j = false := by
    refine exists_congr fun j => and_congr_right fun before => ?_
    rw [BitVec.getLsbD_not, decide_eq_true (before.trans inside), Bool.true_and, Bool.not_eq_true']
  rw [succ, BitVec.getLsbD_and, BitVec.getLsbD_neg, BitVec.getLsbD_not]
  simp only [lower]
  by_cases clear : ∃ j < i, w.getLsbD j = false <;> cases w.getLsbD i <;> simp [inside, clear]

/-- The runs that end inside a word are counted by one population count. -/
theorem cpop_ends (w : BitVec 64) :
    ((~~~w) &&& (w <<< 1)).cpop.toNat = (List.range 63).countP fun i => w.getLsbD i && !w.getLsbD (i + 1) := by
  have bit : ∀ i, i < 63 → ((~~~w) &&& (w <<< 1)).getLsbD (i + 1) = (w.getLsbD i && !w.getLsbD (i + 1)) := by
    intro i inside
    have next : i + 1 < 64 := Nat.succ_lt_succ inside
    rw [BitVec.getLsbD_and, BitVec.getLsbD_not, BitVec.getLsbD_shiftLeft, decide_eq_true next,
      decide_eq_false (by omega : ¬ i + 1 < 1), Nat.add_sub_cancel, Bool.true_and, Bool.true_and, Bool.not_false,
      Bool.true_and, Bool.and_comm]
  have range : List.range 64 = 0 :: (List.range 63).map Nat.succ := List.range_succ_eq_map
  rw [cpop_eq_length_bits, bits, ← List.countP_eq_length_filter, range, List.countP_cons_of_neg (by simp),
    List.countP_map]
  apply List.countP_congr
  intro i inside
  rw [Function.comp_apply, bit i (List.mem_range.1 inside)]

end Word

/-! ## Words -/

section Words

variable {n k : Nat} {ws : Vector (BitVec 64) n}

theorem test_outside {i : Nat} (outside : 64 * n ≤ i) : test ws i = false :=
  dif_neg (by omega)

/-- The runs that end in one word. -/
theorem ends_word (h : k < n) :
    ends (test ws) (64 * (k + 1)) = ends (test ws) (64 * k) +
      (((~~~ws[k]) &&& (ws[k] <<< 1)).cpop.toNat + if ws[k].getLsbD 63 && !test ws (64 * (k + 1)) then 1 else 0) := by
  have inner : (List.range 63).countP (fun i => test ws (64 * k + i) && !test ws (64 * k + i + 1)) =
      (List.range 63).countP fun i => ws[k].getLsbD i && !ws[k].getLsbD (i + 1) := by
    apply List.countP_congr
    intro i inside
    have small := List.mem_range.1 inside
    rw [Nat.add_assoc, test_word h (by omega), test_word h (by omega)]
  have last : test ws (64 * k + 63) = ws[k].getLsbD 63 := test_word h (by omega)
  have range : List.range 64 = List.range 63 ++ [63] := List.range_succ
  rw [Nat.mul_succ, ends_add, cpop_ends, ← inner, ← last, range, List.countP_append, List.countP_singleton]

/-- The complement of a set. -/
def complement (ws : Vector (BitVec 64) n) : Vector (BitVec 64) n := ws.map (~~~ ·)

theorem getElem_complement (h : k < n) : (complement ws)[k] = ~~~ws[k] := Vector.getElem_map ..

theorem test_complement {i : Nat} (inside : i < 64 * n) : test (complement ws) i = !test ws i := by
  have word : i / 64 < n := by omega
  rw [test_of_lt word, test_of_lt word, getElem_complement, BitVec.getLsbD_not, decide_eq_true (by omega), Bool.true_and]

/-! ## Scans in turn -/

variable {i : Nat} {w : BitVec 64}

/-- From a set bit the scan goes on for the next clear one. -/
theorem Scanned.fill (scanned : Scanned ws i k w) (nonzero : w ≠ 0) :
    Scanned (complement ws) (64 * k + w.ctz.toNat) k (~~~(w ||| (w - 1))) where
  inside := scanned.inside
  notYet := by have := ctz_lt nonzero; omega
  passed j after before := absurd before (by omega)
  bit j inside := by
    have below := scanned.inside
    have found := scanned.found nonzero
    have place : w.ctz.toNat ≤ j ↔ 64 * k + w.ctz.toNat ≤ 64 * k + j := (Nat.add_le_add_iff_left ..).symm
    rw [test_complement (by omega), BitVec.getLsbD_not, getLsbD_fillBelow w inside, decide_eq_true inside, Bool.true_and]
    rcases Nat.lt_trichotomy j w.ctz.toNat with lower | here | higher
    · have none : ¬ ∃ l < j, w.getLsbD l = true := fun ⟨l, before, set⟩ => absurd (ctz_le set) (by omega)
      rw [decide_eq_true none, Bool.or_true, decide_eq_false (by omega), Bool.and_false]
      rfl
    · have set := found.set
      rw [← here] at set
      rw [here, getLsbD_ctz nonzero, ← here, set]
      rfl
    · have some : ∃ l < j, w.getLsbD l = true := ⟨_, higher, getLsbD_ctz nonzero⟩
      have from_ := found.from_
      rw [decide_eq_false (not_not.2 some), Bool.or_false, scanned.bit j inside, decide_eq_true (by omega),
        decide_eq_true (by omega), Bool.and_true, Bool.and_true]

/-- From a clear bit the scan goes on for the next set one. -/
theorem Scanned.clear (scanned : Scanned (complement ws) i k (~~~w)) (nonzero : ~~~w ≠ 0) :
    Scanned ws (64 * k + (~~~w).ctz.toNat) k (w &&& (w + 1)) where
  inside := scanned.inside
  notYet := by have := ctz_lt nonzero; omega
  passed j after before := absurd before (by omega)
  bit j inside := by
    have below := scanned.inside
    have found := scanned.found nonzero
    have ofNot : ∀ l, l < 64 → ((~~~w).getLsbD l = true ↔ w.getLsbD l = false) := by
      intro l small
      rw [BitVec.getLsbD_not, decide_eq_true small, Bool.true_and, Bool.not_eq_true']
    rw [getLsbD_clearBelow w inside]
    rcases Nat.lt_trichotomy j (~~~w).ctz.toNat with lower | here | higher
    · have none : ¬ ∃ l < j, w.getLsbD l = false := by
        rintro ⟨l, before, clear⟩
        exact absurd (ctz_le ((ofNot l (by omega)).2 clear)) (by omega)
      rw [decide_eq_false none, Bool.and_false, decide_eq_false (by omega), Bool.and_false]
    · have clear := (ofNot j inside).1 (here ▸ getLsbD_ctz nonzero)
      have out := found.set
      rw [test_complement (by have := ctz_lt nonzero; omega), Bool.not_eq_true', ← here] at out
      rw [clear, out, Bool.false_and, Bool.false_and]
    · have some : ∃ l < j, w.getLsbD l = false := ⟨_, higher, (ofNot _ (by omega)).1 (getLsbD_ctz nonzero)⟩
      have from_ := found.from_
      have bit := scanned.bit j inside
      rw [BitVec.getLsbD_not, decide_eq_true inside, Bool.true_and, test_complement (by omega),
        decide_eq_true (by omega : i ≤ 64 * k + j), Bool.and_true] at bit
      rw [decide_eq_true some, Bool.and_true, decide_eq_true (by omega), Bool.and_true]
      exact Bool.not_inj bit

end Words

end BitWords
