import Mathlib.Algebra.Group.Nat.Defs
import Mathlib.Order.Basic
import Mathlib.Order.Lattice
import Mathlib.Data.List.Perm.Subperm
import Mathlib.Data.List.Nodup
import Mathlib.Data.List.Range

/-!
# The unsigned machine integers as linear orders

Core Lean gives `UInt16` and `UInt32` their comparison and its laws; these
instances present them as Mathlib's `LinearOrder`, so that the order-generic
algorithms apply to them. A list of different 16-bit values has at most 65536
of them, and with that many it has them all.
-/

instance instLinearOrderUInt16 : LinearOrder UInt16 where
  le_refl := UInt16.le_refl
  le_trans _ _ _ := UInt16.le_trans
  le_antisymm _ _ := UInt16.le_antisymm
  le_total := UInt16.le_total
  lt_iff_le_not_ge a b := by rw [UInt16.not_le]; exact ⟨fun h => ⟨UInt16.le_of_lt h, h⟩, And.right⟩
  toDecidableLE := inferInstance

instance instLinearOrderUInt32 : LinearOrder UInt32 where
  le_refl := UInt32.le_refl
  le_trans _ _ _ := UInt32.le_trans
  le_antisymm _ _ := UInt32.le_antisymm
  le_total := UInt32.le_total
  lt_iff_le_not_ge a b := by rw [UInt32.not_le]; exact ⟨fun h => ⟨UInt32.le_of_lt h, h⟩, And.right⟩
  toDecidableLE := inferInstance

namespace MachineOrder

/-- A list of different values that are numbered below a bound is no longer than it. -/
theorem length_le_of_numbered {α : Type} {number : α → Nat} {bound : Nat} (injective : Function.Injective number)
    (lt : ∀ a, number a < bound) {l : List α} (nodup : l.Nodup) : l.length ≤ bound := by
  have inside : l.map number ⊆ List.range bound := by
    intro n hn
    obtain ⟨x, -, rfl⟩ := List.mem_map.1 hn
    exact List.mem_range.2 (lt x)
  have length := (List.subperm_of_subset (nodup.map injective) inside).length_le
  rwa [List.length_map, List.length_range] at length

/-- There are 65536 values of 16 bits. -/
theorem length_le_of_nodup {l : List UInt16} (nodup : l.Nodup) : l.length ≤ 65536 :=
  length_le_of_numbered (fun _ _ => UInt16.toNat_inj.1) UInt16.toNat_lt nodup

/-- There are 2^32 values of 32 bits. -/
theorem length_le_of_nodup_u32 {l : List UInt32} (nodup : l.Nodup) : l.length ≤ 2 ^ 32 :=
  length_le_of_numbered (fun _ _ => UInt32.toNat_inj.1) UInt32.toNat_lt nodup

/-- As many different values as there are numbers are all values. -/
theorem mem_of_numbered {α : Type} {number : α → Nat} {bound : Nat} (injective : Function.Injective number)
    (lt : ∀ a, number a < bound) {l : List α} (nodup : l.Nodup) (all : bound ≤ l.length) (x : α) : x ∈ l := by
  by_contra absent
  have more := length_le_of_numbered injective lt (List.nodup_cons.2 ⟨absent, nodup⟩)
  rw [List.length_cons] at more
  omega

/-- 65536 different 16-bit values are all of them. -/
theorem mem_of_length_eq {l : List UInt16} (nodup : l.Nodup) (all : l.length = 65536) (x : UInt16) : x ∈ l :=
  mem_of_numbered (fun _ _ => UInt16.toNat_inj.1) UInt16.toNat_lt nodup all.ge x

/-- 2^32 different 32-bit values are all of them. -/
theorem mem_of_length_ge_u32 {l : List UInt32} (nodup : l.Nodup) (all : 2 ^ 32 ≤ l.length) (x : UInt32) : x ∈ l :=
  mem_of_numbered (fun _ _ => UInt32.toNat_inj.1) UInt32.toNat_lt nodup all x

/-- A list with every 16-bit value has at least 65536 of them. -/
theorem le_length_of_mem {l : List UInt16} (all : ∀ x, x ∈ l) : 65536 ≤ l.length := by
  have nodup : ((List.range 65536).map UInt16.ofNat).Nodup := by
    refine List.Nodup.map_on (fun i hi j hj same => ?_) List.nodup_range
    rw [← UInt16.toNat_ofNat_of_lt' (List.mem_range.1 hi), same, UInt16.toNat_ofNat_of_lt' (List.mem_range.1 hj)]
  have length := (List.subperm_of_subset nodup fun x _ => all x).length_le
  rwa [List.length_map, List.length_range] at length

end MachineOrder
