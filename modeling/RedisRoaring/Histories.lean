import RedisRoaring.Server

/-!
# Histories of a server

What holds after any history of commands, restored values, reloads, deletions
and overwrites. The keyspace is one of the abstract store, every stored bitmap
has the invariant of its containers, and nobody can tell representations of one
store apart: reloading a value is not observed, and a replica may start from
values that are represented differently.
-/

namespace RedisRoaring

open Exec TailLoss

variable {O : Type} {parse : RedisString → Option Int64} {foreign : RedisString → Option O}
  {history history' events : List (Event O)}

/-! ## An example -/

/-- The values 1, 2 and 3 as a single run. -/
def exampleImage : PortableImage where
  bitmapOfRunContainers := some [1]
  descriptors := [(0, 2)]
  offsets := []
  chunks := [{ key := 0, container := .owned (.run { capacity := runReadCapacity 1, runs := [{ value := 1, length := 2 }] }) }]

theorem exampleImage_fits : exampleImage.Fits where
  bitmap bitmap isSome := by rw [← Option.some.inj isSome]; rfl
  counted _ := by decide
  offsets := rfl
  bounded := by decide
  chunks := .cons (show Stores true 3 _ from .run 3 [{ value := 1, length := 2 }] (by decide)) (.nil 1)

theorem exampleImage_ordered : exampleImage.Ordered where
  keys := by decide
  contents := by
    intro chunk inside
    rw [List.mem_singleton.1 inside]
    exact .run (List.cons_ne_nil _ _) ⟨by decide, by decide⟩

/-- The payload of the run. -/
def examplePayload : Payload where
  bytes := serializationContainer :: (exampleImage.bytes ++ [])
  contents := some (chunkValues exampleImage.chunks).toFinset
  denotes := .container exampleImage [] exampleImage_fits exampleImage_ordered

/-- The run is restored and 7 is added to it; 2 is added to `l`, and the first value is reloaded. -/
def exampleEvents : List (Event Unit) :=
  [.restore exampleKey examplePayload, .command ⟨.add, [exampleKey, [0x37]]⟩,
    .command ⟨.add, [exampleOther, [0x32]]⟩, .reload exampleKey]

theorem exampleEvents_fit : ReloadsFit decimal (fun _ => none) exampleEvents := by
  refine .cons nofun (.cons nofun (.cons nofun (.cons ?_ (.nil _))))
  intro key set isKey stored
  obtain rfl := Event.reload.inj isKey
  obtain rfl : (chunkValues exampleImage.chunks).toFinset ∪ {7} = set := SetValue.set.inj (Option.some.inj stored)
  decide

/-! ## The store -/

section Held

variable {P : Container → Prop} {value : Option (Value O)} {expected : Option (SetValue O)}

theorem Holds.absent_iff (holds : Holds P value expected) : value = none ↔ expected = none := by
  cases holds <;> simp

theorem Holds.other_iff (holds : Holds P value expected) (other : O) :
    value = some (.other other) ↔ expected = some (.other other) := by
  cases holds <;> simp

/-- A key has a bitmap where the abstract store has a set, of exactly its values. -/
theorem Holds.set_iff [Kind P] (holds : Holds P value expected) (set : Finset UInt32) :
    expected = some (.set set) ↔ ∃ bitmap, value = some (.roaring bitmap) ∧ bitmap.values = set.sort (· ≤ ·) := by
  cases holds with
  | absent => simp
  | other value => simp
  | @roaring bitmap held well members =>
    have values := values_eq_sort well members
    constructor
    · intro same
      obtain rfl := SetValue.set.inj (Option.some.inj same)
      exact ⟨bitmap, rfl, values⟩
    · rintro ⟨bitmap', same, sorted⟩
      obtain rfl := Value.roaring.inj (Option.some.inj same)
      have equal : held = set := by rw [← Finset.sort_toFinset held (· ≤ ·), ← values, sorted, Finset.sort_toFinset]
      rw [equal]

end Held

/-- What the example leaves: the run with 7, and 2 under `l`. -/
theorem exampleEvents_stored {keyspace : Keyspace Unit} {reports : List Report}
    (run : runAll (serve decimal) (freshKeyspace fun _ => none) exampleEvents = .ok (keyspace, reports)) :
    (∃ bitmap, keyspace exampleKey = some (.roaring bitmap) ∧ bitmap.Well Container.Valid ∧
        bitmap.values = [1, 2, 3, 7]) ∧
      ∃ bitmap, keyspace exampleOther = some (.roaring bitmap) ∧ bitmap.values = [2] := by
  obtain ⟨keyspace', run', holds⟩ := server_run exampleEvents_fit
  obtain ⟨rfl, -⟩ := Prod.mk.inj (Except.ok.inj (run.symm.trans run'))
  have four : ((chunkValues exampleImage.chunks).toFinset ∪ {7} : Finset UInt32).sort (· ≤ ·) = [1, 2, 3, 7] :=
    SortedList.eq_of_same_members (Finset.sortedLT_sort _).pairwise (by decide) fun v => by
      rw [Finset.mem_sort, ← List.mem_toFinset]
      exact iff_of_eq (congrArg (v ∈ ·) (by decide))
  constructor
  · obtain ⟨bitmap, stored, values⟩ := ((holds exampleKey).set_iff _).1 rfl
    exact ⟨bitmap, stored, (holds.roaring stored).1, values.trans four⟩
  · exact Finset.sort_singleton (· ≤ ·) (2 : UInt32) ▸ ((holds exampleOther).set_iff _).1 rfl

/-- **The server answers as a store of sets.** Over any history no event faults,
every report is that of the abstract store, and in the end a key has a bitmap
where the abstract store has a set, of exactly its values. -/
theorem server_answers_as_sets (fit : ReloadsFit parse foreign history) :
    ∃ keyspace, runAll (serve parse) (freshKeyspace foreign) history = .ok (keyspace, reportsOf parse foreign history) ∧
      (∀ key, keyspace key = none ↔ storeAfter parse foreign history key = none) ∧
      (∀ key value, keyspace key = some (.other value) ↔ storeAfter parse foreign history key = some (.other value)) ∧
      ∀ key set, storeAfter parse foreign history key = some (.set set) ↔
        ∃ bitmap, keyspace key = some (.roaring bitmap) ∧ bitmap.values = set.sort (· ≤ ·) := by
  obtain ⟨keyspace, run, holds⟩ := server_run fit
  exact ⟨keyspace, run, fun key => (holds key).absent_iff, fun key => (holds key).other_iff,
    fun key => (holds key).set_iff⟩

theorem example_server_answers :
    ∃ keyspace bitmap, runAll (serve decimal) (freshKeyspace fun _ => none) exampleEvents =
        .ok (keyspace, reportsOf decimal (fun _ => none) exampleEvents) ∧
      keyspace exampleKey = some (.roaring bitmap) ∧
      bitmap.values = ((chunkValues exampleImage.chunks).toFinset ∪ {7} : Finset UInt32).sort (· ≤ ·) ∧
      keyspace [] = none := by
  obtain ⟨keyspace, run, absent, -, sets⟩ := server_answers_as_sets exampleEvents_fit
  obtain ⟨bitmap, stored, values⟩ := (sets exampleKey _).1 rfl
  exact ⟨keyspace, bitmap, run, stored, values, (absent []).2 rfl⟩

/-! ## The invariant -/

/-- The same value of a key, perhaps represented differently. -/
inductive SameValue : Option (Value O) → Option (Value O) → Prop where
  | absent : SameValue none none
  | roaring {bitmap bitmap' : RoaringBitmap} (values : bitmap.values = bitmap'.values) :
      SameValue (some (.roaring bitmap)) (some (.roaring bitmap'))
  | other (value : O) : SameValue (some (.other value)) (some (.other value))

/-- Values are the same exactly when they stand for the same. -/
theorem Holds.sameValue_iff {P : Container → Prop} [Kind P] {value value' : Option (Value O)}
    {set set' : Option (SetValue O)} (here : Holds P value set) (here' : Holds P value' set') :
    SameValue value value' ↔ set = set' := by
  cases here with
  | absent =>
    cases here' with
    | absent => exact iff_of_true .absent rfl
    | roaring => exact iff_of_false nofun nofun
    | other => exact iff_of_false nofun nofun
  | other value =>
    cases here' with
    | absent => exact iff_of_false nofun nofun
    | roaring => exact iff_of_false nofun nofun
    | other value' =>
      constructor
      · rintro ⟨⟩
        rfl
      · rintro ⟨⟩
        exact .other value
  | roaring well members =>
    cases here' with
    | absent => exact iff_of_false nofun nofun
    | other => exact iff_of_false nofun nofun
    | roaring well' members' =>
      constructor
      · intro same
        cases same with
        | roaring values =>
          congr 2
          ext v
          rw [← members, ← members', values]
      · rintro ⟨⟩
        exact .roaring ((values_eq_sort well members).trans (values_eq_sort well' members').symm)

theorem HoldsAll.same_values {P : Container → Prop} [Kind P] {keyspace keyspace' : Keyspace O} {store : SetStore O}
    (holds : HoldsAll P keyspace store) (holds' : HoldsAll P keyspace' store) (key : RedisString) :
    SameValue (keyspace key) (keyspace' key) :=
  ((holds key).sameValue_iff (holds' key)).2 rfl

/-- **Reloads are not observed.** Leaving the reloads out of a history changes no
report but theirs, and no value. -/
theorem reloads_unobserved (fit : ReloadsFit parse foreign history) :
    ∃ keyspace keyspace' reports reports',
      runAll (serve parse) (freshKeyspace foreign) history = .ok (keyspace, reports) ∧
      runAll (serve parse) (freshKeyspace foreign) (history.filter Event.observed) = .ok (keyspace', reports') ∧
      reports.filter Report.told = reports'.filter Report.told ∧ ∀ key, SameValue (keyspace key) (keyspace' key) := by
  obtain ⟨last, reports⟩ := runPure_filter (setServe_unobserved parse) (freshStore foreign) history
  have fit' : ReloadsFit parse foreign (history.filter Event.observed) :=
    Along.filter (fun store event reload => (setServe_unobserved parse store event reload).1) fit
  obtain ⟨keyspace, run, holds⟩ := server_run fit
  obtain ⟨keyspace', run', holds'⟩ := server_run fit'
  refine ⟨keyspace, keyspace', _, _, run, run', reports.symm, ?_⟩
  have same : storeAfter parse foreign (history.filter Event.observed) = storeAfter parse foreign history := last
  exact holds.same_values (same ▸ holds')

theorem example_reloads_unobserved :
    ∃ (keyspace keyspace' : Keyspace Unit) (reports reports' : List Report),
      runAll (serve decimal) (freshKeyspace fun _ => none) exampleEvents = .ok (keyspace, reports) ∧
      runAll (serve decimal) (freshKeyspace fun _ => none) (exampleEvents.filter Event.observed) =
        .ok (keyspace', reports') ∧
      reports.filter Report.told = reports'.filter Report.told ∧ ∀ key, SameValue (keyspace key) (keyspace' key) :=
  reloads_unobserved exampleEvents_fit

/-- **CARD on restored values.** Its reply is the cardinality of the expression
exactly when every value of it is kept by one of the sets before the bang that
hold it, leaving out those that are empty. -/
theorem hosted_card_exact_iff (fit : ReloadsFit parse foreign history) :
    ∃ keyspace, runAll (serve parse) (freshKeyspace foreign) history = .ok (keyspace, reportsOf parse foreign history) ∧
      ∀ args, args ≠ [] → args.count bang ≤ 1 → Native keyspace args →
        (CardExact keyspace parse args ↔
          ∀ v ∈ cardSet keyspace args, Kept (populated (includedSets keyspace args)) v) := by
  obtain ⟨keyspace, run, holds⟩ := server_run fit
  exact ⟨keyspace, run, fun args some once native =>
    cardExact_iff_populated (A := Container.Valid) parse holds.hosts some once native⟩

/-- `ROARING.CARD k ! l` is exact on the restored run with 7. -/
theorem example_hosted_card_exact_iff :
    ∃ keyspace, runAll (serve decimal) (freshKeyspace fun _ => none) exampleEvents =
        .ok (keyspace, reportsOf decimal (fun _ => none) exampleEvents) ∧
      CardExact keyspace decimal [exampleKey, bang, exampleOther] ∧
      cardSet keyspace [exampleKey, bang, exampleOther] = {1, 3, 7} := by
  obtain ⟨keyspace, run, exact_iff⟩ := hosted_card_exact_iff exampleEvents_fit
  obtain ⟨⟨bitmap, stored, -, values⟩, other, storedOther, valuesOther⟩ := exampleEvents_stored run
  have native := native_pair stored storedOther
  have nonempty : ∀ T ∈ [bitmap.members], T.Nonempty := by
    intro T inside
    rw [List.mem_singleton.1 inside]
    exact ⟨1, show 1 ∈ bitmap.values by simp [values]⟩
  have sides : included [exampleKey, bang, exampleOther] = [exampleKey] ∧
      excluded [exampleKey, bang, exampleOther] = [exampleOther] := by decide
  refine ⟨keyspace, run, (exact_iff _ (by decide) (by decide) native).2 ?_, ?_⟩
  · rw [includedSets_single stored (by decide) [exampleOther], populated_eq nonempty]
    exact kept_single stored (by decide) [exampleOther]
  · have left : cardSet keyspace [exampleKey, bang, exampleOther] =
        storedSet keyspace exampleKey \ storedSet keyspace exampleOther := by
      rw [cardSet, sides.1, sides.2]
      simp
    rw [left, storedSet, storedSet, stored, storedOther]
    simp only [values, valuesOther]
    decide

end RedisRoaring
