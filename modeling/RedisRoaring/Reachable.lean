import Mathlib.Logic.Relation
import RedisRoaring.Refinement

/-!
# Reachable keyspaces

What clients and the server can do to a keyspace: run a command, or replace a
stored bitmap by what is loaded from its saved form. Every keyspace reached this
way represents some sets, and from that every stored bitmap has the
representation invariant (`StoredInvariant`) and no command faults.
-/

namespace RedisRoaring

open Exec

variable {O : Type} {parse : RedisString → Option Int64}

/-! ## Steps -/

/-- A step of the keyspace. -/
inductive Step (parse : RedisString → Option Int64) : Keyspace O → Keyspace O → Prop where
  /-- A client runs a command. -/
  | command {keyspace keyspace' : Keyspace O} {invocation : Invocation} {answer : Answer}
      (run : exec parse keyspace invocation = .ok (keyspace', answer)) : Step parse keyspace keyspace'
  /-- A value is saved and loaded again. -/
  | reload {keyspace : Keyspace O} {key : RedisString} {bitmap bitmap' : RoaringBitmap} {serialized : List UInt8}
      (stored : keyspace key = some (.roaring bitmap)) (saved : roaringRdbSave bitmap = .ok serialized)
      (loaded : roaringRdbLoad serialized = .ok (some bitmap')) :
      Step parse keyspace (Function.update keyspace key (some (.roaring bitmap')))

/-- Reachable from a keyspace without bitmaps, with any values of other types. -/
def Reachable (parse : RedisString → Option Int64) (keyspace : Keyspace O) : Prop :=
  ∃ foreign, Relation.ReflTransGen (Step parse) (freshKeyspace foreign) keyspace

theorem Reachable.fresh (foreign : RedisString → Option O) : Reachable parse (freshKeyspace foreign) :=
  ⟨foreign, .refl⟩

theorem Reachable.step {keyspace keyspace' : Keyspace O} (reachable : Reachable parse keyspace)
    (step : Step parse keyspace keyspace') : Reachable parse keyspace' := by
  obtain ⟨foreign, steps⟩ := reachable
  exact ⟨foreign, steps.tail step⟩

/-- Whatever a run of commands reaches is reachable. -/
theorem Reachable.runAll {run : List Invocation} {keyspace keyspace' : Keyspace O} {answers : List Answer}
    (reachable : Reachable parse keyspace) (done : runAll (exec parse) keyspace run = .ok (keyspace', answers)) :
    Reachable parse keyspace' := by
  induction run generalizing keyspace answers with
  | nil =>
    cases done
    exact reachable
  | cons invocation run ih =>
    simp only [Exec.runAll, bind_eq_ok, pure_eq, Except.ok.injEq, Prod.mk.injEq, Prod.exists] at done
    obtain ⟨mid, answer, first, last, rest, tail, rfl, -⟩ := done
    exact ih (reachable.step (.command first)) tail

/-! ## Small keyspaces -/

/-- Decimal numerals without sign, as far as they fit 64 bits. -/
def decimal (s : RedisString) : Option Int64 :=
  let value := s.foldl (fun (n : Nat) digit => 10 * n + (digit.toNat - 48)) 0
  if s ≠ [] ∧ s.all (fun digit => 48 ≤ digit && digit ≤ 57) ∧ (s.head? = some 48 → s = [48]) ∧ value < 2 ^ 63 then
    some (Int64.ofInt value)
  else none

/-- The keyspace that a run of commands leaves, from no values. -/
def keyspaceAfter (run : List Invocation) : Keyspace Unit :=
  match runAll (exec decimal) (freshKeyspace fun _ => none) run with
  | .ok (keyspace, _) => keyspace
  | .error _ => freshKeyspace fun _ => none

theorem reachable_keyspaceAfter (run : List Invocation) : Reachable decimal (keyspaceAfter run) := by
  unfold keyspaceAfter
  split
  · rename_i keyspace answers done
    exact (Reachable.fresh _).runAll done
  · exact Reachable.fresh _

/-- The key `"k"`. -/
def exampleKey : RedisString := [0x6B]

/-- The key `"l"`. -/
def exampleOther : RedisString := [0x6C]

/-- The bitmap of the value 7. -/
def exampleBitmap : RoaringBitmap :=
  { highLowContainer :=
      { allocationSize := 4, chunks := [{ key := 0, container := .owned (.array { capacity := 16, array := [7] }) }] }
    copyOnWrite := false }

/-- Nothing but the example bitmap. -/
def exampleKeyspace : Keyspace Unit :=
  Function.update (freshKeyspace fun _ => none) exampleKey (some (.roaring exampleBitmap))

/-- It is what `ROARING.ADD k 7` leaves. -/
theorem example_reachable : Reachable decimal exampleKeyspace :=
  (Reachable.fresh fun _ => none).step (.command (show exec decimal _ ⟨.add, [exampleKey, [0x37]]⟩ = _ from rfl))

/-- A bitmap of two chunks. -/
def exampleChunks (low high : List UInt16) : RoaringBitmap :=
  { highLowContainer :=
      { allocationSize := 4
        chunks := [{ key := 0, container := .owned (.array { capacity := 16, array := low }) },
          { key := 1, container := .owned (.array { capacity := 16, array := high }) }] }
    copyOnWrite := false }

/-- Eleven values: too many for the list form. -/
def exampleEleven : RoaringBitmap := exampleChunks [0, 1, 2, 3, 4, 5, 6, 7, 8, 9] [0]

/-- Two of them, one in each chunk. -/
def exampleTwo : RoaringBitmap := exampleChunks [3] [0]

/-- The commands `ROARING.ADD k 65536 9 ... 0` and `ROARING.ADD l 65536 3`. -/
def exampleFill : List Invocation :=
  [⟨.add, [exampleKey, [54, 53, 53, 51, 54], [57], [56], [55], [54], [53], [52], [51], [50], [49], [48]]⟩,
    ⟨.add, [exampleOther, [54, 53, 53, 51, 54], [51]]⟩]

theorem stored_eleven : keyspaceAfter exampleFill exampleKey = some (.roaring exampleEleven) := by decide +kernel

theorem stored_two : keyspaceAfter exampleFill exampleOther = some (.roaring exampleTwo) := by decide +kernel

section Invariant

variable {keyspace : Keyspace O}

/-- A step keeps what the keyspace represents, for some sets. -/
theorem Step.represents {keyspace' : Keyspace O} {sets : RedisString → Finset UInt32}
    {foreign : RedisString → Option O} (step : Step parse keyspace keyspace')
    (all : RepresentsAll keyspace sets foreign) : ∃ sets', RepresentsAll keyspace' sets' foreign := by
  cases step with
  | command run =>
    obtain ⟨after, answer, run', represents, -⟩ := exec_spec parse all _
    obtain ⟨rfl, -⟩ := Prod.mk.inj (Except.ok.inj (run.symm.trans run'))
    exact ⟨_, represents⟩
  | @reload key bitmap bitmap' serialized stored saved loaded =>
    obtain ⟨well, members, nonempty, native⟩ := all.roaring stored
    obtain ⟨bitmap'', loaded', well', members'⟩ := roaringRdbLoad_save well
    rw [← Except.ok.inj (saved.symm.trans (roaringRdbSave_spec well)), loaded] at loaded'
    obtain rfl := Option.some.inj (Except.ok.inj loaded')
    have here : Represents (some (.roaring bitmap')) (sets key) (foreign key) :=
      native ▸ .roaring well' (fun v => (members' v).trans (members v)) nonempty
    exact ⟨_, all.update here⟩

/-- Every reachable keyspace represents some sets. -/
theorem Reachable.represents (reachable : Reachable parse keyspace) :
    ∃ sets foreign, RepresentsAll keyspace sets foreign := by
  obtain ⟨foreign, steps⟩ := reachable
  suffices represents : ∃ sets, RepresentsAll keyspace sets foreign from represents.imp fun _ all => ⟨foreign, all⟩
  induction steps with
  | refl => exact ⟨_, representsAll_fresh foreign⟩
  | tail _ step ih => exact step.represents ih.choose_spec

/-- A bitmap in a reachable keyspace. -/
theorem Reachable.well (reachable : Reachable parse keyspace) {key : RedisString} {bitmap : RoaringBitmap}
    (stored : keyspace key = some (.roaring bitmap)) : bitmap.Well Container.Plain ∧ bitmap.values ≠ [] := by
  obtain ⟨sets, foreign, all⟩ := reachable.represents
  obtain ⟨well, members, ⟨v, inside⟩, -⟩ := all.roaring stored
  exact ⟨well, List.ne_nil_of_mem ((members v).2 inside)⟩

/-! ## The representation invariant -/

/-- The container of a stored chunk: an array or a bitset of its own, within the bounds of its type. -/
inductive StoredContainer : SlotContainer → Prop where
  | array {arr : ArrayContainer} (positive : 1 ≤ arr.array.length) (small : arr.array.length ≤ 4096)
      (sorted : arr.array.Pairwise (· < ·)) (room : arr.array.length ≤ arr.capacity) :
      StoredContainer (.owned (.array arr))
  | bitset {b : BitsetContainer} (exact : b.cardinality = ((List.range 65536).filter (BitWords.test b.array)).length)
      (large : 4097 ≤ b.cardinality) (bounded : b.cardinality ≤ 65536) : StoredContainer (.owned (.bitset b))

/-- The representation invariant of a stored bitmap. -/
structure StoredInvariant (bitmap : RoaringBitmap) : Prop where
  positive : 1 ≤ bitmap.highLowContainer.size
  bounded : bitmap.highLowContainer.size ≤ 65536
  keys : bitmap.highLowContainer.keys.Pairwise (· < ·)
  room : bitmap.highLowContainer.size ≤ bitmap.highLowContainer.allocationSize
  containers : ∀ chunk ∈ bitmap.highLowContainer.chunks, StoredContainer chunk.container
  copyOnWrite : bitmap.copyOnWrite = false

/-- A plain, nonempty container is within the bounds of its type. -/
theorem storedContainer_of_holds {chunk : Chunk} (holds : chunk.Holds Container.Plain) :
    StoredContainer chunk.container := by
  have plain := holds.allowed
  have nonempty := holds.nonempty
  rw [holds.owned]
  generalize chunk.content = c at plain nonempty
  cases plain with
  | @array arr valid small => exact .array (List.length_pos_iff.2 nonempty) small valid.sorted valid.fits
  | @bitset b exact large =>
    have counted : b.cardinality = (BitWords.positions b.array).length := exact.trans (length_wordValues b.array)
    exact .bitset counted large (counted ▸ BitWords.length_positions_le b.array)

theorem storedInvariant_of_well {bitmap : RoaringBitmap} (well : bitmap.Well Container.Plain)
    (nonempty : bitmap.values ≠ []) : StoredInvariant bitmap where
  positive := by
    by_contra none
    have isNil : bitmap.highLowContainer.chunks = [] :=
      List.eq_nil_of_length_eq_zero (Nat.lt_one_iff.1 (Nat.not_le.1 none))
    exact nonempty (by rw [bitmap.values_eq isNil, chunkValues_nil])
  bounded := well.array.chunks.length_le
  keys := well.array.chunks.sorted
  room := well.array.fits
  containers chunk inside := storedContainer_of_holds (well.array.chunks.holds chunk inside)
  copyOnWrite := well.unshared

end Invariant

/-! ## The main results -/

/-- **Representation invariant.** Every bitmap of a reachable keyspace has the
representation invariant, and no command faults there. -/
theorem stored_bitmaps_invariant {keyspace : Keyspace O} (reachable : Reachable parse keyspace) :
    (∀ key bitmap, keyspace key = some (.roaring bitmap) → StoredInvariant bitmap) ∧
      ∀ invocation, ∃ keyspace' answer, exec parse keyspace invocation = .ok (keyspace', answer) := by
  refine ⟨?_, ?_⟩
  · intro key bitmap stored
    obtain ⟨well, nonempty⟩ := reachable.well stored
    exact storedInvariant_of_well well nonempty
  · intro invocation
    obtain ⟨sets, foreign, all⟩ := reachable.represents
    obtain ⟨keyspace', answer, run, -⟩ := exec_spec parse all invocation
    exact ⟨keyspace', answer, run⟩

theorem example_bitmap_invariant : StoredInvariant exampleEleven ∧ StoredInvariant exampleTwo ∧
    ∃ keyspace' answer, exec decimal (keyspaceAfter exampleFill) ⟨.card, [exampleKey, bang, exampleOther]⟩ =
      .ok (keyspace', answer) := by
  obtain ⟨invariant, total⟩ := stored_bitmaps_invariant (reachable_keyspaceAfter exampleFill)
  exact ⟨invariant _ _ stored_eleven, invariant _ _ stored_two, total _⟩

/-- **MEMBERS.** The reply announces as many integers as follow; they are the
values of the bitmap in increasing order, and the loop needs one round more than
there are values. -/
theorem members_reply_complete {keyspace : Keyspace O} {key : RedisString} {bitmap : RoaringBitmap}
    (reachable : Reachable parse keyspace) (stored : keyspace key = some (.roaring bitmap)) :
    ∃ values : List UInt32, ∃ it, values.length = roaringBitmapGetCardinality bitmap ∧ values.Pairwise (· < ·) ∧
      (∀ v, v ∈ values ↔ v ∈ bitmap.values) ∧ roaringCreateIterator bitmap = .ok it ∧
      (∀ rounds, values.length < rounds →
        membersLoop bitmap rounds it = .ok (values.map fun value => .longLong value.toNat)) ∧
      exec parse keyspace ⟨.members, [key]⟩ =
        .ok (keyspace, .replying (.array (roaringBitmapGetCardinality bitmap) ::
          values.map fun value => .longLong value.toNat)) := by
  obtain ⟨well, -⟩ := reachable.well stored
  obtain ⟨it, created, start⟩ := roaringCreateIterator_spec well
  have card := roaringBitmapGetCardinality_spec well.sound
  refine ⟨bitmap.values, it, card.symm, well.sound.sorted, fun v => Iff.rfl, created,
    fun rounds enough => membersLoop_spec well start enough, ?_⟩
  rw [card]
  exact cmdMembers_stored well stored

theorem example_members_reply :
    ∃ values : List UInt32, ∃ it, values.length = roaringBitmapGetCardinality exampleEleven ∧
      values.Pairwise (· < ·) ∧ (∀ v, v ∈ values ↔ v ∈ exampleEleven.values) ∧
      roaringCreateIterator exampleEleven = .ok it ∧
      (∀ rounds, values.length < rounds →
        membersLoop exampleEleven rounds it = .ok (values.map fun value => .longLong value.toNat)) ∧
      exec decimal (keyspaceAfter exampleFill) ⟨.members, [exampleKey]⟩ =
        .ok (keyspaceAfter exampleFill, .replying (.array (roaringBitmapGetCardinality exampleEleven) ::
          values.map fun value => .longLong value.toNat)) :=
  members_reply_complete (reachable_keyspaceAfter exampleFill) stored_eleven

end RedisRoaring
