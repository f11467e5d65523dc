import Mathlib.Algebra.Group.Nat.Defs
import RedisRoaring.Library.Exec

/-!
# Little-endian codecs over byte buffers

A reader takes the bytes that are left and returns a value and the bytes after
it; reading past the end is a fault. A `Codec` is an encoder and a reader that
agree exactly: the reader succeeds on an input if and only if the input starts
with an encoding, and then it returns what was encoded (`decode_iff`). Sequences
of codecs inherit the property, so both the round trip and the shape of every
accepted input follow from it.
-/

namespace ByteCodec

open Exec

/-! ## Little-endian numbers -/

/-- The `w` low bytes of `n`, least significant first. -/
def bytes : (w n : Nat) → List UInt8
  | 0, _ => []
  | w + 1, n => UInt8.ofNat n :: bytes w (n / 256)

/-- The number whose bytes, least significant first, are the list's. -/
def value : List UInt8 → Nat
  | [] => 0
  | b :: rest => b.toNat + 256 * value rest

@[simp] theorem length_bytes (w n : Nat) : (bytes w n).length = w := by
  induction w generalizing n with
  | zero => rfl
  | succ w ih => rw [bytes, List.length_cons, ih]

theorem value_lt (l : List UInt8) : value l < 256 ^ l.length := by
  induction l with
  | nil => exact Nat.one_pos
  | cons b rest tail =>
    have head : b.toNat < 256 := b.toNat_lt
    rw [value, List.length_cons, Nat.pow_succ]
    omega

theorem value_bytes {w n : Nat} (h : n < 256 ^ w) : value (bytes w n) = n := by
  induction w generalizing n with
  | zero =>
    have zero : n = 0 := by simpa using h
    rw [zero]
    rfl
  | succ w ih =>
    have tail : n / 256 < 256 ^ w := Nat.div_lt_of_lt_mul (by rwa [Nat.pow_succ, Nat.mul_comm] at h)
    rw [bytes, value, ih tail, UInt8.toNat_ofNat']
    omega

theorem bytes_value (l : List UInt8) : bytes l.length (value l) = l := by
  induction l with
  | nil => rfl
  | cons b rest ih =>
    have head : b.toNat < 256 := b.toNat_lt
    have low : UInt8.ofNat (value (b :: rest)) = b := by
      apply UInt8.toNat_inj.1
      rw [value, UInt8.toNat_ofNat']
      omega
    have high : value (b :: rest) / 256 = value rest := by rw [value]; omega
    rw [List.length_cons, bytes, low, high, ih]

/-! ## Readers -/

/-- Take `n` bytes off the front. -/
def take (n : Nat) (input : List UInt8) : Outcome (List UInt8 × List UInt8) :=
  if n ≤ input.length then .ok (input.take n, input.drop n) else .error .outOfBounds

/-- Move past `n` bytes. -/
def skip (n : Nat) (input : List UInt8) : Outcome (List UInt8) := do
  let (_, rest) ← take n input
  return rest

theorem take_eq_ok {n : Nat} {input front rest : List UInt8} :
    take n input = .ok (front, rest) ↔ front.length = n ∧ input = front ++ rest := by
  unfold take
  split
  case isTrue enough =>
    simp only [Except.ok.injEq, Prod.mk.injEq]
    constructor
    · intro given
      obtain ⟨rfl, rfl⟩ := given
      exact ⟨by simp [enough], (List.take_append_drop n input).symm⟩
    · intro given
      obtain ⟨rfl, rfl⟩ := given
      simp
  case isFalse short =>
    simp only [reduceCtorEq, false_iff, not_and]
    rintro rfl rfl
    simp at short

theorem skip_eq_ok {n : Nat} {input rest : List UInt8} :
    skip n input = .ok rest ↔ ∃ front, front.length = n ∧ input = front ++ rest := by
  simp only [skip, bind_eq_ok, Prod.exists, take_eq_ok, pure_eq, Except.ok.injEq]
  constructor
  · intro given
    obtain ⟨front, rest', h, rfl⟩ := given
    exact ⟨front, h⟩
  · intro given
    obtain ⟨front, h⟩ := given
    exact ⟨front, rest, h, rfl⟩

/-- An encoder and a reader that agree exactly. -/
structure Codec (β : Type) where
  encode : β → List UInt8
  decode : List UInt8 → Outcome (β × List UInt8)
  decode_iff : ∀ input b rest, decode input = .ok (b, rest) ↔ input = encode b ++ rest

section Codecs

variable {β : Type}

/-- Reading back what was written. -/
theorem Codec.decode_encode (c : Codec β) (b : β) (rest : List UInt8) :
    c.decode (c.encode b ++ rest) = .ok (b, rest) := (c.decode_iff _ b rest).2 rfl

/-- Numbers below `256 ^ w`, stored in `w` bytes. -/
def Codec.ofNat (w : Nat) (toNat : β → Nat) (ofNat : Nat → β) (small : ∀ b, toNat b < 256 ^ w)
    (inverse : ∀ b, ofNat (toNat b) = b) (faithful : ∀ n, n < 256 ^ w → toNat (ofNat n) = n) : Codec β where
  encode b := bytes w (toNat b)
  decode input := do
    let (front, rest) ← take w input
    return (ofNat (value front), rest)
  decode_iff input b rest := by
    simp only [bind_eq_ok, Prod.exists, take_eq_ok, pure_eq, Except.ok.injEq, Prod.mk.injEq]
    constructor
    · intro given
      obtain ⟨front, rest', ⟨rfl, rfl⟩, rfl, rfl⟩ := given
      rw [faithful _ (value_lt front), bytes_value]
    · rintro rfl
      exact ⟨bytes w (toNat b), rest, ⟨length_bytes _ _, rfl⟩, by rw [value_bytes (small b), inverse], rfl⟩

/-- Read `k` values one after another. -/
def Codec.decodeMany (c : Codec β) : (k : Nat) → List UInt8 → Outcome (List β × List UInt8)
  | 0, input => .ok ([], input)
  | k + 1, input => do
    let (b, rest) ← c.decode input
    let (bs, rest) ← Codec.decodeMany c k rest
    return (b :: bs, rest)

/-- Write values one after another. -/
def Codec.encodeMany (c : Codec β) (l : List β) : List UInt8 := l.flatMap c.encode

theorem Codec.decodeMany_iff (c : Codec β) {k : Nat} {input : List UInt8} {l : List β} {rest : List UInt8} :
    c.decodeMany k input = .ok (l, rest) ↔ l.length = k ∧ input = c.encodeMany l ++ rest := by
  induction k generalizing input l rest with
  | zero =>
    cases l with
    | nil => simp [decodeMany, encodeMany]
    | cons b l => simp [decodeMany]
  | succ k ih =>
    simp only [decodeMany, bind_eq_ok, Prod.exists, c.decode_iff, ih, pure_eq, Except.ok.injEq, Prod.mk.injEq]
    cases l with
    | nil => simp
    | cons b l =>
      simp only [List.cons.injEq, List.length_cons, Nat.add_right_cancel_iff, encodeMany, List.flatMap_cons]
      constructor
      · intro given
        obtain ⟨b', rest', rfl, l', rest'', ⟨length, rfl⟩, ⟨rfl, rfl⟩, rfl⟩ := given
        exact ⟨length, (List.append_assoc _ _ _).symm⟩
      · intro given
        obtain ⟨length, rfl⟩ := given
        exact ⟨b, c.encodeMany l ++ rest, List.append_assoc _ _ _, l, rest, ⟨length, rfl⟩, ⟨rfl, rfl⟩, rfl⟩

theorem Codec.decodeMany_encodeMany (c : Codec β) (l : List β) (rest : List UInt8) :
    c.decodeMany l.length (c.encodeMany l ++ rest) = .ok (l, rest) := c.decodeMany_iff.2 ⟨rfl, rfl⟩

/-- A codec of constant width writes `w` bytes for each value. -/
theorem Codec.length_encodeMany (c : Codec β) {w : Nat} (width : ∀ b, (c.encode b).length = w) (l : List β) :
    (c.encodeMany l).length = w * l.length := by
  induction l with
  | nil => rfl
  | cons b l ih =>
    have tail : (List.flatMap c.encode l).length = w * l.length := ih
    rw [encodeMany, List.flatMap_cons, List.length_append, width, tail, List.length_cons, Nat.mul_succ]
    omega

/-- One value after another. -/
def Codec.pair {γ : Type} (c : Codec β) (d : Codec γ) : Codec (β × γ) where
  encode p := c.encode p.1 ++ d.encode p.2
  decode input := do
    let (b, rest) ← c.decode input
    let (g, rest) ← d.decode rest
    return ((b, g), rest)
  decode_iff input p rest := by
    obtain ⟨b, g⟩ := p
    simp only [bind_eq_ok, Prod.exists, c.decode_iff, d.decode_iff, pure_eq, Except.ok.injEq, Prod.mk.injEq]
    constructor
    · intro given
      obtain ⟨b', rest', rfl, g', rest'', rfl, ⟨rfl, rfl⟩, rfl⟩ := given
      exact (List.append_assoc _ _ _).symm
    · rintro rfl
      exact ⟨b, _, List.append_assoc _ _ _, g, rest, rfl, ⟨rfl, rfl⟩, rfl⟩

/-- A fixed number of values. -/
def Codec.vector (c : Codec β) (n : Nat) : Codec (Vector β n) where
  encode v := c.encodeMany v.toList
  decode input := do
    let (l, rest) ← c.decodeMany n input
    if h : l.length = n then return (⟨l.toArray, h⟩, rest) else throw .outOfBounds
  decode_iff input v rest := by
    simp only [bind_eq_ok, Prod.exists, c.decodeMany_iff]
    constructor
    · intro given
      obtain ⟨l, rest', ⟨length, rfl⟩, run⟩ := given
      rw [dif_pos length, pure_eq, Except.ok.injEq, Prod.mk.injEq] at run
      obtain ⟨rfl, rfl⟩ := run
      rfl
    · rintro rfl
      refine ⟨v.toList, rest, ⟨v.length_toList, rfl⟩, ?_⟩
      rw [dif_pos v.length_toList]
      rfl

end Codecs

/-! ## Machine words -/

/-- Two bytes. -/
def u16 : Codec UInt16 :=
  .ofNat 2 UInt16.toNat UInt16.ofNat (fun b => b.toNat_lt) (fun _ => UInt16.ofNat_toNat)
    (fun _ h => UInt16.toNat_ofNat_of_lt' h)

/-- Four bytes. -/
def u32 : Codec UInt32 :=
  .ofNat 4 UInt32.toNat UInt32.ofNat (fun b => b.toNat_lt) (fun _ => UInt32.ofNat_toNat)
    (fun _ h => UInt32.toNat_ofNat_of_lt' h)

/-- Eight bytes. -/
def u64 : Codec (BitVec 64) :=
  .ofNat 8 BitVec.toNat (BitVec.ofNat 64) (fun b => b.isLt) (fun b => BitVec.ofNat_toNat 64 b ▸ BitVec.setWidth_eq b)
    (fun _ h => BitVec.toNat_ofNat _ _ |>.trans (Nat.mod_eq_of_lt h))

@[simp] theorem length_encode_u16 (b : UInt16) : (u16.encode b).length = 2 := length_bytes _ _

@[simp] theorem length_encode_u32 (b : UInt32) : (u32.encode b).length = 4 := length_bytes _ _

@[simp] theorem length_encode_u64 (b : BitVec 64) : (u64.encode b).length = 8 := length_bytes _ _

end ByteCodec
