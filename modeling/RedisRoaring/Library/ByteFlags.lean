import Mathlib.Data.Nat.Bitwise

/-!
# Flags in bytes

A list of bytes as a row of flags, eight to a byte and the lowest bit first.
`flag_foldl_raise` says which flags are up after those that satisfy a condition
have been raised one after the other.
-/

namespace ByteFlags

/-- Whether flag `k` is up; there are no flags up behind the end. -/
def flag (bytes : List UInt8) (k : Nat) : Bool := bytes[k / 8]?.getD 0 &&& 1 <<< UInt8.ofNat (k % 8) != 0

/-- The row with flag `k` raised. -/
def raise (bytes : List UInt8) (k : Nat) : List UInt8 :=
  bytes.modify (k / 8) fun byte => byte ||| 1 <<< UInt8.ofNat (k % 8)

theorem toNat_one_shiftLeft {i : Nat} (small : i < 8) : ((1 : UInt8) <<< UInt8.ofNat i).toNat = 2 ^ i := by
  have bit : 2 ^ i < 2 ^ 8 := Nat.pow_lt_pow_right (by decide) small
  rw [UInt8.toNat_shiftLeft, UInt8.toNat_ofNat_of_lt' (show i < 256 by omega), Nat.mod_eq_of_lt small,
    Nat.shiftLeft_eq, UInt8.toNat_one, Nat.one_mul, Nat.mod_eq_of_lt bit]

/-- Masking one bit of a byte is testing it. -/
theorem mask_ne_zero_iff (byte : UInt8) {i : Nat} (small : i < 8) :
    byte &&& 1 <<< UInt8.ofNat i ≠ 0 ↔ byte.toNat.testBit i = true := by
  have masked : (byte &&& 1 <<< UInt8.ofNat i).toNat = (byte.toNat.testBit i).toNat * 2 ^ i := by
    rw [UInt8.toNat_and, toNat_one_shiftLeft small, Nat.and_two_pow]
  rw [ne_eq, ← UInt8.toNat_inj, masked]
  cases byte.toNat.testBit i <;> simp

theorem flag_iff (bytes : List UInt8) (k : Nat) :
    flag bytes k = true ↔ (bytes[k / 8]?.getD 0).toNat.testBit (k % 8) = true := by
  rw [flag, bne_iff_ne]
  exact mask_ne_zero_iff _ (Nat.mod_lt k (by decide))

/-- Raising a flag raises no other. -/
theorem flag_raise {bytes : List UInt8} {k : Nat} (inside : k / 8 < bytes.length) (j : Nat) :
    flag (raise bytes k) j = true ↔ flag bytes j = true ∨ j = k := by
  rw [flag_iff, flag_iff, raise, List.getElem?_modify]
  by_cases same : k / 8 = j / 8
  · obtain ⟨byte, here⟩ : ∃ byte, bytes[j / 8]? = some byte :=
      ⟨bytes.get ⟨j / 8, same ▸ inside⟩, List.getElem?_eq_getElem _⟩
    have bit := toNat_one_shiftLeft (Nat.mod_lt k (show 8 > 0 by decide))
    rw [here]
    simp only [same, if_true, Option.map_eq_map, Option.map_some, Option.getD_some, UInt8.toNat_or, bit,
      Nat.testBit_or, Nat.testBit_two_pow, Bool.or_eq_true, decide_eq_true_eq]
    apply or_congr Iff.rfl
    omega
  · have apart : j ≠ k := fun equal => same (by rw [equal])
    simp only [same, if_false, apart, or_false]
    cases bytes[j / 8]? <;> rfl

theorem flag_replicate_zero (n j : Nat) : flag (List.replicate n 0) j = false := by
  rw [Bool.eq_false_iff, ne_eq, flag_iff, List.getElem?_replicate]
  split <;> simp

theorem length_raise (bytes : List UInt8) (k : Nat) : (raise bytes k).length = bytes.length := List.length_modify ..

/-- The flags that satisfy a condition, raised one after the other. -/
theorem flag_foldl_raise {p : Nat → Bool} {ks : List Nat} {bytes : List UInt8}
    (inside : ∀ k ∈ ks, k / 8 < bytes.length) (j : Nat) :
    flag (ks.foldl (fun bytes k => if p k then raise bytes k else bytes) bytes) j = true ↔
      flag bytes j = true ∨ j ∈ ks ∧ p j = true := by
  induction ks generalizing bytes with
  | nil => simp
  | cons k ks ih =>
    rw [List.foldl_cons]
    by_cases holds : p k = true
    · have inside' : ∀ k' ∈ ks, k' / 8 < (raise bytes k).length := by
        intro k' member
        rw [length_raise]
        exact inside k' (List.mem_cons_of_mem _ member)
      rw [if_pos holds, ih inside', flag_raise (inside k (by simp)), List.mem_cons]
      constructor
      · rintro ((up | rfl) | ⟨member, up⟩)
        · exact .inl up
        · exact .inr ⟨.inl rfl, holds⟩
        · exact .inr ⟨.inr member, up⟩
      · rintro (up | ⟨rfl | member, up⟩)
        · exact .inl (.inl up)
        · exact .inl (.inr rfl)
        · exact .inr ⟨member, up⟩
    · rw [if_neg holds, ih fun k' member => inside k' (List.mem_cons_of_mem _ member), List.mem_cons]
      apply or_congr Iff.rfl
      constructor
      · exact fun given => ⟨.inr given.1, given.2⟩
      · rintro ⟨rfl | member, up⟩
        · exact absurd up holds
        · exact ⟨member, up⟩

end ByteFlags
