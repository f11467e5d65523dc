import Mathlib.Data.Finset.Union
import Mathlib.Data.List.TakeWhile
import Mathlib.Data.Nat.Digits.Lemmas
import RedisRoaring.Library.TailLoss
import RedisRoaring.Reachable

/-!
# The cardinality of a set expression

CARD merges the bitmaps named before the bang into an accumulator and subtracts
those named after it. The subtraction is exact; a merge loses a tail when all
65536 chunks of the bitmap are populated (`TailLoss`). So the reply is the
cardinality of the expression exactly when no value of it is cut off.
-/

namespace RedisRoaring

open Exec TailLoss

/-! ## The union as a merge -/

/-- The values of a bitmap as a set. -/
def RoaringBitmap.members (r : RoaringBitmap) : Set UInt32 := {v | v ∈ r.values}

theorem members_create : roaringBitmapCreate.members = ∅ :=
  Set.eq_empty_of_forall_notMem fun _ inside => List.not_mem_nil inside

section Merge

variable {P : Container → Prop} {r x1 x2 : RoaringBitmap} {v : UInt32}

theorem RoaringBitmap.Well.mem_keys_iff (well : r.Well P) (k : UInt16) :
    k ∈ r.highLowContainer.keys ↔ ∃ v ∈ r.members, highBits v = k :=
  well.array.chunks.mem_keys_iff k

theorem RoaringBitmap.Well.below_iff (well : r.Well P) (bound : UInt16) :
    (∀ k ∈ r.highLowContainer.keys, k < bound) ↔ Below highBits r.members bound := by
  constructor
  · exact fun below v member => below _ ((well.mem_keys_iff _).2 ⟨v, member, rfl⟩)
  · intro below k inside
    obtain ⟨v, member, rfl⟩ := (well.mem_keys_iff k).1 inside
    exact below v member

/-- All 65536 chunks are populated when there is a value under every key. -/
theorem RoaringBitmap.Well.size_eq_iff (well : r.Well P) :
    r.highLowContainer.size = 65536 ↔ Spans highBits r.members := by
  have nodup := SortedList.nodup_of_sorted well.array.chunks.sorted
  have length : r.highLowContainer.keys.length = r.highLowContainer.size := List.length_map ..
  constructor
  · exact fun all k => (well.mem_keys_iff k).1 (MachineOrder.mem_of_length_eq nodup (length.trans all) k)
  · intro spans
    refine Nat.le_antisymm (length ▸ MachineOrder.length_le_of_nodup nodup) (length ▸ ?_)
    exact MachineOrder.le_length_of_mem fun k => (well.mem_keys_iff k).2 (spans k)

/-- What the union loses is what the merge loses. -/
theorem lostInUnion_iff {A : Container → Prop} (well1 : x1.Well A) (well2 : x2.Well P) :
    LostInUnion x1 x2 v ↔ Lost highBits x1.members x2.members v := by
  have empty : x1.highLowContainer.size ≠ 0 ↔ x1.members.Nonempty := by
    have isEmpty := roaringBitmapIsEmpty_iff well1
    rw [roaringBitmapIsEmpty, beq_iff_eq] at isEmpty
    rw [ne_eq, isEmpty]
    refine ⟨List.exists_mem_of_ne_nil _, ?_⟩
    intro some
    obtain ⟨v, inside⟩ := some
    exact List.ne_nil_of_mem inside
  rw [LostInUnion, Lost, well2.size_eq_iff, empty, well1.below_iff]

/-- The in-place union is a merge. -/
theorem roaringBitmapOrInplace_merge {A : Container → Prop} [Kind A] [Stored P] [Accumulates A P] (well1 : x1.Well A)
    (well2 : x2.Well P) :
    ∃ x1', roaringBitmapOrInplace x1 x2 = .ok (x1', x2) ∧ x1'.Well A ∧
      x1'.members = merge highBits x1.members x2.members := by
  obtain ⟨x1', run, well, values⟩ := roaringBitmapOrInplace_spec well1 well2
  refine ⟨x1', run, well, Set.ext ?_⟩
  intro v
  show v ∈ x1'.values ↔ v ∈ x1.values ∨ v ∈ x2.values ∧ ¬ Lost highBits x1.members x2.members v
  rw [values, lostInUnion_iff well1 well2]

end Merge

/-! ## The expression -/

/-- The arguments before the bang. -/
def included (args : List RedisString) : List RedisString := args.takeWhile (· ≠ bang)

/-- The arguments after the bang. -/
def excluded (args : List RedisString) : List RedisString := (args.dropWhile (· ≠ bang)).drop 1

section Expression

variable {O : Type} (keyspace : Keyspace O)

/-- The values of the expression. -/
def cardSet (args : List RedisString) : Finset UInt32 :=
  (included args).toFinset.biUnion (storedSet keyspace) \ (excluded args).toFinset.biUnion (storedSet keyspace)

/-- The bitmap stored under a name. -/
def bitmapNamed (name : RedisString) : Option RoaringBitmap :=
  match keyspace name with
  | some (.roaring bitmap) => some bitmap
  | _ => none

/-- The sets that the bitmaps named before the bang hold, in order. -/
def includedSets (args : List RedisString) : List (Set UInt32) :=
  ((included args).filterMap (bitmapNamed keyspace)).map RoaringBitmap.members

/-- A value is kept in the union: one of the merges keeps it. -/
def Kept (sets : List (Set UInt32)) (v : UInt32) : Prop :=
  ∃ before S after, sets = before ++ S :: after ∧ v ∈ S ∧ ¬ CutOff highBits before S v

/-- CARD replies the cardinality of the expression. -/
def CardExact (parse : RedisString → Option Int64) (args : List RedisString) : Prop :=
  ∃ keyspace' answer, exec parse keyspace ⟨.card, args⟩ = .ok (keyspace', answer) ∧
    answer.replies = [.longLong (cardSet keyspace args).card]

variable {keyspace} {args names : List RedisString} {name : RedisString} {v : UInt32}

theorem bitmapNamed_eq_some {bitmap : RoaringBitmap} :
    bitmapNamed keyspace name = some bitmap ↔ keyspace name = some (.roaring bitmap) := by
  unfold bitmapNamed
  split
  · rename_i bitmap' stored
    simp [stored]
  · rename_i apart
    simp only [false_iff, reduceCtorEq]
    exact apart bitmap

theorem mem_storedSet : v ∈ storedSet keyspace name ↔
    ∃ bitmap, bitmapNamed keyspace name = some bitmap ∧ v ∈ bitmap.values := by
  unfold storedSet bitmapNamed
  split <;> simp_all

/-- Where every name before the bang has a value, the sets are those stored under the names. -/
theorem includedSets_eq {names : List RedisString} (nonempty : ∀ name ∈ names, (storedSet keyspace name).Nonempty) :
    (names.filterMap (bitmapNamed keyspace)).map RoaringBitmap.members =
      names.map fun name => (storedSet keyspace name : Set UInt32) := by
  induction names with
  | nil => rfl
  | cons name names ih =>
    obtain ⟨v, member⟩ := nonempty name (by simp)
    obtain ⟨bitmap, named, -⟩ := mem_storedSet.1 member
    have here : bitmap.members = (storedSet keyspace name : Set UInt32) := Set.ext fun w => by
      rw [Finset.mem_coe, mem_storedSet, named]
      simp [RoaringBitmap.members]
    rw [List.filterMap_cons_some named, List.map_cons, List.map_cons, here,
      ih fun n inside => nonempty n (List.mem_cons_of_mem _ inside)]

theorem mem_cardSet : v ∈ cardSet keyspace args ↔
    (∃ name ∈ included args, v ∈ storedSet keyspace name) ∧ ∀ name ∈ excluded args, v ∉ storedSet keyspace name := by
  simp only [cardSet, Finset.mem_sdiff, Finset.mem_biUnion, List.mem_toFinset, not_exists, not_and]

/-- With one bang at most the arguments are those before it and those after it. -/
theorem args_eq (once : args.count bang ≤ 1) : bang ∉ included args ∧ bang ∉ excluded args ∧
    (args = included args ∧ excluded args = [] ∨ args = included args ++ bang :: excluded args) := by
  have before : bang ∉ included args := by
    intro inside
    have := List.mem_takeWhile_imp inside
    simp at this
  have whole : included args ++ args.dropWhile (· ≠ bang) = args := List.takeWhile_append_dropWhile
  unfold excluded
  cases rest : args.dropWhile (· ≠ bang) with
  | nil =>
    rw [rest, List.append_nil] at whole
    exact ⟨before, by simp, .inl ⟨whole.symm, rfl⟩⟩
  | cons first after =>
    have isBang : first = bang := by
      have := List.head?_dropWhile_not (· ≠ bang) args
      rw [rest] at this
      simpa using this
    subst isBang
    rw [rest] at whole
    rw [← whole, List.count_append, List.count_cons_self] at once
    refine ⟨before, ?_, .inr whole.symm⟩
    exact List.count_eq_zero.1 (by simp only [List.drop_succ_cons, List.drop_zero]; omega)

end Expression

/-! ## The loop -/

section Loop

variable {O : Type} {A P : Container → Prop} {keyspace : Keyspace O}

/-- Arguments that name an absent key or a bitmap. -/
def Native (keyspace : Keyspace O) (names : List RedisString) : Prop :=
  ∀ name ∈ names, name ≠ bang → ∀ value, keyspace name ≠ some (.other value)

/-- Every stored bitmap is well-formed. -/
def Hosts (P : Container → Prop) (keyspace : Keyspace O) : Prop :=
  ∀ key bitmap, keyspace key = some (.roaring bitmap) → bitmap.Well P

theorem Hosts.named (hosts : Hosts P keyspace) (names : List RedisString) :
    ∀ bitmap ∈ names.filterMap (bitmapNamed keyspace), bitmap.Well P := by
  intro bitmap inside
  obtain ⟨name, -, named⟩ := List.mem_filterMap.1 inside
  exact hosts name bitmap (bitmapNamed_eq_some.1 named)

/-- The names before the bang are merged, one after the other. -/
theorem cardLoop_included [Kind A] [Stored P] [Accumulates A P] (hosts : Hosts P keyspace) (rest : List RedisString)
    {names : List RedisString} {bitmap : RoaringBitmap} (noBang : bang ∉ names) (native : Native keyspace names)
    (well : bitmap.Well A) :
    ∃ bitmap', bitmap'.Well A ∧
      bitmap'.members = ((names.filterMap (bitmapNamed keyspace)).map RoaringBitmap.members).foldl (merge highBits)
        bitmap.members ∧
      cardLoop keyspace bitmap false (names ++ rest) = cardLoop keyspace bitmap' false rest := by
  induction names generalizing bitmap with
  | nil => exact ⟨bitmap, well, rfl, rfl⟩
  | cons name names ih =>
    have isName : name ≠ bang := fun same => noBang (by simp [same])
    have noBang' : bang ∉ names := fun inside => noBang (List.mem_cons_of_mem _ inside)
    have native' : Native keyspace names := fun n inside => native n (List.mem_cons_of_mem _ inside)
    rw [List.cons_append]
    cases stored : keyspace name with
    | none =>
      have named : bitmapNamed keyspace name = none := by rw [bitmapNamed, stored]
      rw [List.filterMap_cons_none named, cardLoop_absent isName stored]
      exact ih noBang' native' well
    | some value =>
      cases value with
      | other value => exact absurd stored (native name (by simp) isName value)
      | roaring argBitmap =>
        have named : bitmapNamed keyspace name = some argBitmap := bitmapNamed_eq_some.2 stored
        obtain ⟨mid, run, midWell, merged⟩ := roaringBitmapOrInplace_merge well (hosts name argBitmap stored)
        rw [List.filterMap_cons_some named, List.map_cons, List.foldl_cons, cardLoop_including isName stored run,
          ← merged]
        exact ih noBang' native' midWell

/-- The names after the bang are subtracted, one after the other. -/
theorem cardLoop_excluded {names : List RedisString} {bitmap : RoaringBitmap} (noBang : bang ∉ names)
    (native : Native keyspace names) : cardLoop keyspace bitmap true names =
      ((names.filterMap (bitmapNamed keyspace)).foldlM roaringBitmapAndnotInplace bitmap).map
        fun bitmap => (keyspace, .ok bitmap) := by
  induction names generalizing bitmap with
  | nil => rfl
  | cons name names ih =>
    have isName : name ≠ bang := fun same => noBang (by simp [same])
    have noBang' : bang ∉ names := fun inside => noBang (List.mem_cons_of_mem _ inside)
    have native' : Native keyspace names := fun n inside => native n (List.mem_cons_of_mem _ inside)
    cases stored : keyspace name with
    | none =>
      have named : bitmapNamed keyspace name = none := by rw [bitmapNamed, stored]
      rw [List.filterMap_cons_none named, cardLoop_absent isName stored, ih noBang' native']
    | some value =>
      cases value with
      | other value => exact absurd stored (native name (by simp) isName value)
      | roaring argBitmap =>
        have named : bitmapNamed keyspace name = some argBitmap := bitmapNamed_eq_some.2 stored
        rw [List.filterMap_cons_some named, List.foldlM_cons, cardLoop_excluding isName stored]
        cases roaringBitmapAndnotInplace bitmap argBitmap with
        | error fault => rfl
        | ok bitmap' => exact ih noBang' native'

/-- The loop is the fold of the unions and then that of the differences. -/
theorem cardLoop_phases [Kind A] [Stored P] [Accumulates A P] (hosts : Hosts P keyspace) {args : List RedisString}
    (once : args.count bang ≤ 1) (native : Native keyspace args) :
    ∃ union, union.Well A ∧
      union.members = (includedSets keyspace args).foldl (merge highBits) ∅ ∧
      cardLoop keyspace roaringBitmapCreate false args = cardLoop keyspace union true (excluded args) := by
  obtain ⟨noBang, -, split⟩ := args_eq once
  have native' : Native keyspace (included args) := fun name inside => native name (List.takeWhile_subset _ inside)
  rcases split with ⟨whole, none⟩ | whole
  · obtain ⟨union, well, merged, run⟩ := cardLoop_included hosts [] noBang native' (well_create A)
    rw [List.append_nil, ← whole] at run
    rw [members_create] at merged
    exact ⟨union, well, merged, by rw [run, none, cardLoop, cardLoop]⟩
  · obtain ⟨union, well, merged, run⟩ :=
      cardLoop_included hosts (bang :: excluded args) noBang native' (well_create A)
    rw [← whole] at run
    rw [members_create] at merged
    exact ⟨union, well, merged, by rw [run, cardLoop_bang]⟩

/-- The bitmap at the end holds the kept values of the expression; empty sets
before the bang do not matter. -/
theorem cardLoop_native [Kind A] [Stored P] [Accumulates A P] (hosts : Hosts P keyspace) {args : List RedisString}
    (once : args.count bang ≤ 1) (native : Native keyspace args) :
    ∃ bitmap, bitmap.Well A ∧
      (∀ v, v ∈ bitmap.values ↔ Kept (populated (includedSets keyspace args)) v ∧
        ∀ name ∈ excluded args, v ∉ storedSet keyspace name) ∧
      cardLoop keyspace roaringBitmapCreate false args = .ok (keyspace, .ok bitmap) := by
  obtain ⟨union, unionWell, merged, phases⟩ := cardLoop_phases (A := A) hosts once native
  obtain ⟨-, noBang, -⟩ := args_eq once
  have native' : Native keyspace (excluded args) := fun name inside =>
    native name ((List.dropWhile_sublist _).subset ((List.drop_sublist _ _).subset inside))
  obtain ⟨bitmap, run, well, values⟩ := foldlM_roaringBitmapAndnotInplace (hosts.named (excluded args)) unionWell
  rw [foldl_merge_populated] at merged
  refine ⟨bitmap, well, fun v => ?_, by rw [phases, cardLoop_excluded noBang native', run]; rfl⟩
  rw [values, Kept, ← mem_foldl_merge_empty nonempty_of_mem_populated, ← merged]
  apply and_congr Iff.rfl
  simp only [List.mem_filterMap, mem_storedSet]
  constructor
  · rintro apart name inside ⟨b, named, member⟩
    exact apart b ⟨name, inside, named⟩ member
  · rintro apart b ⟨name, inside, named⟩ member
    exact apart name inside ⟨b, named, member⟩

/-- What is kept is in some set before the bang. -/
theorem Kept.included {args : List RedisString} {v : UInt32} (kept : Kept (populated (includedSets keyspace args)) v) :
    ∃ name ∈ included args, v ∈ storedSet keyspace name := by
  obtain ⟨before, S, after, split, member, -⟩ := kept
  have inside : S ∈ includedSets keyspace args :=
    (populated_sublist _).subset (by rw [split]; simp)
  obtain ⟨b, named, rfl⟩ := List.mem_map.1 inside
  obtain ⟨name, isIn, isNamed⟩ := List.mem_filterMap.1 named
  exact ⟨name, isIn, mem_storedSet.2 ⟨b, isNamed, member⟩⟩

/-- CARD is exact when every value of the expression is kept. -/
theorem cardExact_iff_populated [Kind A] [Stored P] [Accumulates A P] (parse : RedisString → Option Int64)
    (hosts : Hosts P keyspace) {args : List RedisString} (some : args ≠ []) (once : args.count bang ≤ 1)
    (native : Native keyspace args) :
    CardExact keyspace parse args ↔ ∀ v ∈ cardSet keyspace args, Kept (populated (includedSets keyspace args)) v := by
  obtain ⟨bitmap, well, values, run⟩ := cardLoop_native (A := A) hosts once native
  have card := roaringBitmapGetCardinality_spec well
  have length : bitmap.values.toFinset.card = bitmap.values.length :=
    List.toFinset_card_of_nodup (SortedList.nodup_of_sorted well.sorted)
  have replied : exec parse keyspace ⟨.card, args⟩ =
      .ok (keyspace, .replying [.longLong bitmap.values.toFinset.card]) := by
    simp only [exec, cmdCard, some, if_false, run, ok_bind, pure_eq, card, length]
  have part : bitmap.values.toFinset ⊆ cardSet keyspace args := by
    intro v inside
    obtain ⟨kept, apart⟩ := (values v).1 (List.mem_toFinset.1 inside)
    exact mem_cardSet.2 ⟨kept.included, apart⟩
  constructor
  · rintro ⟨keyspace', answer, run', replies⟩ v member
    rw [replied] at run'
    obtain ⟨rfl, rfl⟩ := Prod.mk.inj (Except.ok.inj run')
    have cards : bitmap.values.toFinset.card = (cardSet keyspace args).card := by
      simpa [Answer.replying] using replies
    rw [← Finset.eq_of_subset_of_card_le part cards.ge, List.mem_toFinset] at member
    exact ((values v).1 member).1
  · intro kept
    have whole : bitmap.values.toFinset = cardSet keyspace args := part.antisymm fun v member =>
      List.mem_toFinset.2 ((values v).2 ⟨kept v member, (mem_cardSet.1 member).2⟩)
    exact ⟨keyspace, _, replied, by rw [whole]; rfl⟩

/-- Where commands have made the bitmaps, every set has values. -/
theorem cardExact_iff_kept (parse : RedisString → Option Int64) {sets : RedisString → Finset UInt32}
    {foreign : RedisString → Option O} (all : RepresentsAll keyspace sets foreign) {args : List RedisString}
    (some : args ≠ []) (once : args.count bang ≤ 1) (native : Native keyspace args) :
    CardExact keyspace parse args ↔ ∀ v ∈ cardSet keyspace args, Kept (includedSets keyspace args) v := by
  have hosts : Hosts Container.Plain keyspace := fun key bitmap stored => (all.roaring stored).1
  have nonempty : ∀ S ∈ includedSets keyspace args, S.Nonempty := by
    intro S inside
    obtain ⟨b, named, rfl⟩ := List.mem_map.1 inside
    obtain ⟨name, -, isNamed⟩ := List.mem_filterMap.1 named
    obtain ⟨-, members, ⟨v, member⟩, -⟩ := all.roaring (bitmapNamed_eq_some.1 isNamed)
    exact ⟨v, (members v).2 member⟩
  rw [cardExact_iff_populated (A := Container.Sound) parse hosts some once native, populated_eq nonempty]

end Loop

/-! ## Accumulators -/

/-- The container of an accumulator chunk: as in a stored bitmap, or the full
run that a union of bitsets leaves. -/
inductive AccumulatorContainer : SlotContainer → Prop where
  | stored {c : SlotContainer} (stored : StoredContainer c) : AccumulatorContainer c
  | full {r : RunContainer} (full : r.runs = [{ value := 0, length := 0xFFFF }]) :
      AccumulatorContainer (.owned (.run r))

/-- What the inclusion phase can leave. -/
structure Accumulator (bitmap : RoaringBitmap) : Prop where
  keys : bitmap.highLowContainer.keys.Pairwise (· < ·)
  containers : ∀ chunk ∈ bitmap.highLowContainer.chunks, AccumulatorContainer chunk.container
  room : bitmap.highLowContainer.size ≤ bitmap.highLowContainer.allocationSize
  copyOnWrite : bitmap.copyOnWrite = false

theorem StoredContainer.holds {chunk : Chunk} (stored : StoredContainer chunk.container) :
    chunk.Holds Container.Plain := by
  generalize isSlot : chunk.container = slot at stored
  have isContent : chunk.content = containerUnwrapShared slot := by rw [Chunk.content, isSlot]
  cases stored with
  | array positive small sorted room =>
    exact ⟨by rw [isSlot, isContent]; rfl, isContent ▸ .array ⟨sorted, room⟩ small,
      isContent ▸ List.length_pos_iff.1 positive⟩
  | @bitset b exact large bounded =>
    have counted : b.Exact := exact.trans (length_wordValues b.array).symm
    exact ⟨by rw [isSlot, isContent]; rfl, isContent ▸ .bitset counted large,
      isContent ▸ List.length_pos_iff.1 (show 0 < b.values.length by rw [← counted]; omega)⟩

theorem accumulatorContainer_iff {chunk : Chunk} :
    AccumulatorContainer chunk.container ↔ chunk.Holds Container.Sound := by
  constructor
  · intro container
    generalize isSlot : chunk.container = slot at container
    cases container with
    | stored stored =>
      have holds := (isSlot ▸ stored : StoredContainer chunk.container).holds
      exact ⟨holds.owned, .plain holds.allowed, holds.nonempty⟩
    | full full =>
      have isContent : chunk.content = .run _ := congrArg containerUnwrapShared isSlot
      refine ⟨by rw [isSlot, isContent], isContent ▸ .full full, ?_⟩
      rw [isContent, Container.values_run, full_values full]
      exact List.ne_nil_of_mem (List.mem_map_of_mem (List.mem_range.2 (by decide : 0 < 65536)))
  · intro holds
    have owned := holds.owned
    have sound := holds.allowed
    generalize isContent : chunk.content = c at owned sound
    cases sound with
    | plain plain => exact .stored (storedContainer_of_holds ⟨holds.owned, isContent ▸ plain, holds.nonempty⟩)
    | full full => exact owned ▸ .full full

theorem accumulator_iff {bitmap : RoaringBitmap} : Accumulator bitmap ↔ bitmap.Well Container.Sound := by
  constructor
  · exact fun accumulator => ⟨⟨⟨accumulator.keys, fun chunk inside =>
      accumulatorContainer_iff.1 (accumulator.containers chunk inside)⟩, accumulator.room⟩, accumulator.copyOnWrite⟩
  · exact fun well => ⟨well.array.chunks.sorted, fun chunk inside =>
      accumulatorContainer_iff.2 (well.array.chunks.holds chunk inside), well.array.fits, well.unshared⟩

/-! ## One set before the bang -/

section Single

variable {O : Type} {keyspace : Keyspace O} {key key' : RedisString} {bitmap bitmap' : RoaringBitmap}

theorem native_pair (stored : keyspace key = some (.roaring bitmap)) (stored' : keyspace key' = some (.roaring bitmap')) :
    Native keyspace [key, bang, key'] := by
  intro name inside notBang value
  simp only [List.mem_cons, List.not_mem_nil, or_false] at inside
  rcases inside with rfl | rfl | rfl
  · simp [stored]
  · exact absurd rfl notBang
  · simp [stored']

theorem includedSets_single (stored : keyspace key = some (.roaring bitmap)) (notBang : key ≠ bang)
    (args : List RedisString) : includedSets keyspace (key :: bang :: args) = [bitmap.members] := by
  have named := bitmapNamed_eq_some.2 stored
  simp [includedSets, included, named, notBang]

/-- A set alone before the bang is kept. -/
theorem kept_single (stored : keyspace key = some (.roaring bitmap)) (notBang : key ≠ bang) (args : List RedisString) :
    ∀ v ∈ cardSet keyspace (key :: bang :: args), Kept [bitmap.members] v := by
  intro v member
  refine ⟨[], _, [], rfl, ?_, ?_⟩
  · obtain ⟨⟨name, inside, here⟩, -⟩ := mem_cardSet.1 member
    obtain rfl : name = key := by simpa [included, notBang] using inside
    simpa [storedSet, stored, RoaringBitmap.members] using here
  · rintro ⟨-, first, mid, none, -⟩
    cases none

end Single

/-! ## The main results -/

section Main

variable {O : Type} {parse : RedisString → Option Int64} {keyspace : Keyspace O}

/-- **CARD.** The reply is the cardinality of the expression exactly when every
value of it is kept by one of the sets before the bang that hold it: by the
first, by one with an unpopulated chunk, or by one that does not lie above all
chunks of the first and of those with an unpopulated chunk before it. -/
theorem card_exact_iff {args : List RedisString} (reachable : Reachable parse keyspace) (some : args ≠ [])
    (once : args.count bang ≤ 1) (native : Native keyspace args) :
    CardExact keyspace parse args ↔ ∀ v ∈ cardSet keyspace args, Kept (includedSets keyspace args) v := by
  obtain ⟨sets, foreign, all⟩ := reachable.represents
  exact cardExact_iff_kept parse all some once native

/-- `ROARING.CARD k ! l` replies the number of the nine values that are only under `k`. -/
theorem example_card_exact_iff :
    CardExact (keyspaceAfter exampleFill) decimal [exampleKey, bang, exampleOther] ∧
      (cardSet (keyspaceAfter exampleFill) [exampleKey, bang, exampleOther]).card = 9 := by
  have native := native_pair stored_eleven stored_two
  refine ⟨(card_exact_iff (reachable_keyspaceAfter exampleFill) (by decide) (by decide) native).2 ?_, by decide +kernel⟩
  rw [includedSets_single stored_eleven (by decide) [exampleOther]]
  exact kept_single stored_eleven (by decide) [exampleOther]

/-- **The exclusion phase.** Subtracting stored bitmaps from an accumulator, one
after the other, leaves an accumulator with the values of the difference, and
its cardinality fields add up to their number. -/
theorem exclusion_is_difference {accumulator : RoaringBitmap} {bitmaps : List RoaringBitmap}
    (reachable : Reachable parse keyspace) (isAccumulator : Accumulator accumulator)
    (stored : ∀ bitmap ∈ bitmaps, ∃ key, keyspace key = some (.roaring bitmap)) :
    ∃ result, bitmaps.foldlM roaringBitmapAndnotInplace accumulator = .ok result ∧ Accumulator result ∧
      (∀ v, v ∈ result.values ↔ v ∈ accumulator.values ∧ ∀ bitmap ∈ bitmaps, v ∉ bitmap.values) ∧
      roaringBitmapGetCardinality result =
        (accumulator.values.toFinset \ (bitmaps.flatMap RoaringBitmap.values).toFinset).card := by
  have wells : ∀ bitmap ∈ bitmaps, bitmap.Well Container.Plain := by
    intro bitmap inside
    obtain ⟨key, here⟩ := stored bitmap inside
    exact (reachable.well here).1
  obtain ⟨result, run, well, values⟩ := foldlM_roaringBitmapAndnotInplace wells (accumulator_iff.1 isAccumulator)
  refine ⟨result, run, accumulator_iff.2 well, values, ?_⟩
  have same : result.values.toFinset = accumulator.values.toFinset \ (bitmaps.flatMap RoaringBitmap.values).toFinset :=
    Finset.ext fun v => by simp [values]
  rw [roaringBitmapGetCardinality_spec well, ← same,
    List.toFinset_card_of_nodup (SortedList.nodup_of_sorted well.sorted)]

theorem example_exclusion_is_difference :
    ∃ result, [exampleTwo].foldlM roaringBitmapAndnotInplace exampleEleven = .ok result ∧ Accumulator result ∧
      (∀ v, v ∈ result.values ↔ v ∈ exampleEleven.values ∧ ∀ bitmap ∈ [exampleTwo], v ∉ bitmap.values) ∧
      roaringBitmapGetCardinality result =
        (exampleEleven.values.toFinset \ ([exampleTwo].flatMap RoaringBitmap.values).toFinset).card := by
  have reachable := reachable_keyspaceAfter exampleFill
  apply exclusion_is_difference reachable
  · exact accumulator_iff.2 (reachable.well stored_eleven).1.sound
  · intro bitmap inside
    rw [List.mem_singleton.1 inside]
    exact ⟨exampleOther, stored_two⟩

end Main

/-! ## An expression that is not exact -/

/-- The decimal numeral of a number. -/
def numeral (n : Nat) : RedisString :=
  if n = 0 then [48] else (Nat.digits 10 n).reverse.map fun digit => UInt8.ofNat (48 + digit)

theorem toNat_digit {d : Nat} (small : d < 10) : (UInt8.ofNat (48 + d)).toNat = 48 + d :=
  UInt8.toNat_ofNat_of_lt' (by show _ < 256; omega)

theorem foldl_digits {l : List Nat} (small : ∀ d ∈ l, d < 10) :
    (l.reverse.map fun digit => UInt8.ofNat (48 + digit)).foldl (fun (n : Nat) digit => 10 * n + (digit.toNat - 48)) 0 =
      Nat.ofDigits 10 l := by
  induction l with
  | nil => rfl
  | cons d l ih =>
    have here := toNat_digit (small d (by simp))
    rw [List.reverse_cons, List.map_append, List.foldl_append,
      ih fun d' inside => small d' (List.mem_cons_of_mem _ inside), Nat.ofDigits_cons]
    simp only [List.map_cons, List.map_nil, List.foldl_cons, List.foldl_nil, here]
    omega

theorem decimal_numeral {n : Nat} (small : n < 2 ^ 63) : decimal (numeral n) = some (Int64.ofInt n) := by
  by_cases zero : n = 0
  · subst zero; rfl
  have digits : ∀ d ∈ Nat.digits 10 n, d < 10 := fun d inside => Nat.digits_lt_base (by omega) inside
  have nonempty : Nat.digits 10 n ≠ [] := Nat.digits_ne_nil_iff_ne_zero.2 zero
  have isNumeral : numeral n = (Nat.digits 10 n).reverse.map fun digit => UInt8.ofNat (48 + digit) := if_neg zero
  have value := foldl_digits digits
  rw [Nat.ofDigits_digits] at value
  have lead : ∀ d, (Nat.digits 10 n).getLast? = some d → d ≠ 0 := by
    intro d last
    rw [List.getLast?_eq_some_getLast nonempty] at last
    rw [← Option.some.inj last]
    exact Nat.getLast_digit_ne_zero 10 zero
  have allDigits : (numeral n).all (fun digit => 48 ≤ digit && digit ≤ 57) = true := by
    rw [isNumeral, List.all_eq_true]
    intro b inside
    obtain ⟨d, member, rfl⟩ := List.mem_map.1 inside
    have lt := digits d (List.mem_reverse.1 member)
    have isDigit := toNat_digit lt
    rw [Bool.and_eq_true, decide_eq_true_iff, decide_eq_true_iff, UInt8.le_iff_toNat_le, UInt8.le_iff_toNat_le, isDigit]
    exact ⟨Nat.le_add_right 48 d, show 48 + d ≤ 57 by omega⟩
  have noLeadingZero : (numeral n).head? ≠ some 48 := by
    rw [isNumeral, List.head?_map, List.head?_reverse]
    intro head
    obtain ⟨d, last, isZero⟩ := Option.map_eq_some_iff.1 head
    have isDigit := toNat_digit (digits d (List.mem_of_getLast? last))
    rw [isZero, show (48 : UInt8).toNat = 48 from rfl] at isDigit
    exact lead d last (by omega)
  have some : numeral n ≠ [] := by simpa [isNumeral] using nonempty
  rw [← isNumeral] at value
  rw [decimal, value, if_pos ⟨some, allDigits, fun head => absurd head noLeadingZero, small⟩]

theorem mapM_decimal_numeral {l : List Nat} (small : ∀ n ∈ l, n < 2 ^ 63) :
    (l.map numeral).mapM decimal = some (l.map fun n : Nat => Int64.ofInt n) := by
  induction l with
  | nil => rfl
  | cons n l ih =>
    rw [List.map_cons, List.mapM_cons, decimal_numeral (small n (by simp)),
      ih fun m inside => small m (List.mem_cons_of_mem _ inside)]
    rfl

theorem residue_ofInt {n : Nat} (small : n < 2 ^ 32) : residue (Int64.ofInt n) = UInt32.ofNat n := by
  have isInt : (Int64.ofInt n).toInt = n := Int64.toInt_ofInt_of_le (by omega) (by omega)
  have whole : ((n : Int) % 2 ^ 32).toNat = n := by omega
  rw [residue, isInt, UInt32.ofInt, whole]

/-- An ADD of numerals unites the set with the numbers. -/
theorem specStep_add_numerals {O : Type} {foreign : RedisString → Option O} {sets : RedisString → Finset UInt32}
    {key : RedisString} {l : List Nat} (native : foreign key = none) (some : l ≠ []) (small : ∀ n ∈ l, n < 2 ^ 32) :
    specStep decimal foreign sets ⟨.add, key :: l.map numeral⟩ =
      Function.update sets key (sets key ∪ (l.map UInt32.ofNat).toFinset) := by
  have parsed := mapM_decimal_numeral fun n inside => (small n inside).trans (by decide : 2 ^ 32 < 2 ^ 63)
  have residues : (l.map fun n : Nat => Int64.ofInt n).map residue = l.map UInt32.ofNat := by
    rw [List.map_map]
    exact List.map_congr_left fun n inside => residue_ofInt (small n inside)
  obtain ⟨n, rest, rfl⟩ := List.exists_cons_of_ne_nil some
  rw [List.map_cons] at parsed ⊢
  simp only [specStep, effect, native, Option.isSome_none, Bool.false_eq_true, if_false, RedisRoaring.residues, parsed,
    Option.map_some, residues]
  rfl

/-- The first value of every chunk. -/
def chunkStarts : List Nat := (List.range 65536).map (65536 * ·)

/-- The history `ROARING.ADD a 0`, `ROARING.ADD b 0 65536 ... 4294901760`. -/
def tailHistory : List Invocation :=
  [⟨.add, [0x61] :: [0].map numeral⟩, ⟨.add, [0x62] :: chunkStarts.map numeral⟩]

/-- The set of `b`: a value in every chunk. -/
def tailSet : Finset UInt32 := (chunkStarts.map UInt32.ofNat).toFinset

theorem lt_of_mem_chunkStarts {n : Nat} (inside : n ∈ chunkStarts) : n < 2 ^ 32 := by
  obtain ⟨h, isIn, rfl⟩ := List.mem_map.1 inside
  have := List.mem_range.1 isIn
  omega

theorem mem_tailSet {h : Nat} (small : h < 65536) : UInt32.ofNat (65536 * h) ∈ tailSet :=
  List.mem_toFinset.2 (List.mem_map_of_mem (List.mem_map_of_mem (List.mem_range.2 small)))

theorem spans_tailSet : Spans highBits (tailSet : Set UInt32) := fun k =>
  ⟨joinBits k 0, by
    have isStart : joinBits k 0 = UInt32.ofNat (65536 * k.toNat) := by
      apply UInt32.toNat_inj.1
      have := k.toNat_lt
      rw [toNat_joinBits, UInt32.toNat_ofNat_of_lt' (by show _ < 4294967296; omega)]
      show k.toNat * 2 ^ 16 + 0 = _
      omega
    rw [isStart]
    exact mem_tailSet k.toNat_lt, highBits_joinBits k 0⟩

theorem setsAfter_tailHistory : setsAfter decimal (fun _ => (none : Option Unit)) tailHistory =
    Function.update (Function.update (fun _ => ∅) [0x61] {0}) [0x62] tailSet := by
  have some : chunkStarts ≠ [] := by
    rw [chunkStarts, ne_eq, List.map_eq_nil_iff, List.range_eq_nil]
    exact Nat.succ_ne_zero _
  have apart : ([0x62] : RedisString) ≠ [0x61] := by decide
  rw [setsAfter, tailHistory, List.foldl_cons, List.foldl_cons, List.foldl_nil,
    specStep_add_numerals rfl some fun n inside => lt_of_mem_chunkStarts inside,
    specStep_add_numerals rfl (List.cons_ne_nil 0 []) (by simp), Function.update_of_ne apart, Finset.empty_union,
    Finset.empty_union]
  rfl

/-- After this history the reply to `ROARING.CARD a b` is not the cardinality
of the union: all values of `b` but the first are lost. -/
theorem card_loses_tail : ∃ (keyspace : Keyspace Unit) (answers : List Answer),
    runAll (exec decimal) (freshKeyspace fun _ => none) tailHistory = .ok (keyspace, answers) ∧
      Native keyspace [[0x61], [0x62]] ∧ [[0x61], [0x62]].count bang ≤ 1 ∧
      ¬ CardExact keyspace decimal [[0x61], [0x62]] := by
  obtain ⟨keyspace, answers, done, all, -⟩ := runAll_spec decimal (fun _ => (none : Option Unit)) tailHistory
  rw [setsAfter_tailHistory] at all
  have apart : ([0x61] : RedisString) ≠ [0x62] := by decide
  have setA : storedSet keyspace [0x61] = {0} := by
    rw [all.storedSet_eq, Function.update_of_ne apart, Function.update_self]
  have setB : storedSet keyspace [0x62] = tailSet := by rw [all.storedSet_eq, Function.update_self]
  have native : Native keyspace [[0x61], [0x62]] := fun name inside isName value stored =>
    nomatch (all.other_iff name value).1 stored
  refine ⟨keyspace, answers, done, native, by decide, ?_⟩
  rw [cardExact_iff_kept decimal all (by simp) (by decide) native]
  have inTail : (65536 : UInt32) ∈ tailSet := mem_tailSet (show 1 < 65536 by decide)
  have sets : includedSets keyspace [[0x61], [0x62]] =
      [(({0} : Finset UInt32) : Set UInt32), (tailSet : Set UInt32)] := by
    have nonempty : ∀ name ∈ included [[0x61], [0x62]], (storedSet keyspace name).Nonempty := by
      show ∀ name ∈ [[0x61], [0x62]], (storedSet keyspace name).Nonempty
      simp only [List.forall_mem_cons, setA, setB]
      exact ⟨⟨0, Finset.mem_singleton_self 0⟩, ⟨65536, inTail⟩, by simp⟩
    rw [includedSets, includedSets_eq nonempty, ← setA, ← setB]
    rfl
  intro kept
  obtain ⟨before, S, after, split, member, isKept⟩ :=
    kept 65536 (mem_cardSet.2 ⟨⟨[0x62], by decide, setB ▸ inTail⟩, by simp [excluded, bang]⟩)
  rw [sets] at split
  match before, split with
  | [], split =>
    obtain ⟨rfl, -⟩ := List.cons.inj split
    exact absurd (Finset.mem_coe.1 member) (by decide)
  | [first], split =>
    obtain ⟨isFirst, split⟩ := List.cons.inj split
    obtain ⟨rfl, -⟩ := List.cons.inj split
    subst isFirst
    refine isKept ⟨spans_tailSet, _, [], rfl, fun a inA => ?_, by simp⟩
    rw [Finset.mem_singleton.1 (Finset.mem_coe.1 inA)]
    decide
  | _ :: _ :: before, split => simpa using congrArg List.length split

end RedisRoaring
