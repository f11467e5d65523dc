import RedisRoaring.InplaceDifference
import RedisRoaring.InplaceUnion
import RedisRoaring.Library.KeyedSets
import RedisRoaring.Module

/-!
# The commands refine a store of sets

The abstract store maps a key to a finite set of 32-bit values. A value of
another type is a constant of the run. `RepresentsAll` relates a keyspace to the
sets and to these constants, and `exec_spec` says once what an invocation does:
it takes one step of the abstract store, its answer is explained by the sets
before it, and without replication it leaves the keyspace as it was.
-/

namespace RedisRoaring

open Exec KeyedSets

variable {O : Type} (parse : RedisString → Option Int64)

/-! ## The abstract store -/

/-- An integer modulo 2^32. -/
def residue (value : Int64) : UInt32 := UInt32.ofInt value.toInt

/-- The cast of the source is the residue. -/
theorem narrow_eq_residue (value : Int64) : narrow value = residue value := by
  apply UInt32.toNat_inj.1
  have bits : value.toInt = (value.toBitVec.toNat : Int).bmod (2 ^ 64) := BitVec.toInt_eq_toNat_bmod _
  have small := value.toBitVec.isLt
  show value.toBitVec.toNat % 2 ^ 32 = (value.toInt % 2 ^ 32).toNat % 2 ^ 32
  rw [bits, Int.bmod]
  split <;> omega

/-- The residues of what the arguments name, when every one of them parses. -/
def residues (parse : RedisString → Option Int64) (args : List RedisString) : Option (Finset UInt32) :=
  (args.mapM parse).map fun values => (values.map residue).toFinset

/-- The update that an invocation makes: an ADD or a REMOVE with a value, whose
values all parse and whose key has no value of another type. -/
def effect (parse : RedisString → Option Int64) (foreign : RedisString → Option O) :
    Invocation → Option (Update RedisString UInt32)
  | ⟨.add, key :: arg :: args⟩ =>
    if (foreign key).isSome then none else (residues parse (arg :: args)).map (.insert key)
  | ⟨.remove, key :: arg :: args⟩ =>
    if (foreign key).isSome then none else (residues parse (arg :: args)).map (.erase key)
  | _ => none

/-- One step of the abstract store. -/
def specStep (parse : RedisString → Option Int64) (foreign : RedisString → Option O)
    (sets : RedisString → Finset UInt32) (invocation : Invocation) : RedisString → Finset UInt32 :=
  applyOption sets (effect parse foreign invocation)

/-! ## The relation -/

/-- The value of a key against its set and its value of another type, if it has one. -/
inductive Represents : Option (Value O) → Finset UInt32 → Option O → Prop where
  | absent : Represents none ∅ none
  | roaring {bitmap : RoaringBitmap} {set : Finset UInt32} (well : bitmap.Well Container.Plain)
      (members : ∀ v, v ∈ bitmap.values ↔ v ∈ set) (nonempty : set.Nonempty) :
      Represents (some (.roaring bitmap)) set none
  | other (value : O) : Represents (some (.other value)) ∅ (some value)

/-- Every key of a keyspace against the sets and the values of other types. -/
def RepresentsAll (keyspace : Keyspace O) (sets : RedisString → Finset UInt32) (foreign : RedisString → Option O) :
    Prop := ∀ key, Represents (keyspace key) (sets key) (foreign key)

/-- A keyspace without bitmaps. -/
def freshKeyspace (foreign : RedisString → Option O) : Keyspace O := fun key => (foreign key).map .other

/-- The values stored under a key. -/
def storedSet (keyspace : Keyspace O) (key : RedisString) : Finset UInt32 :=
  match keyspace key with
  | some (.roaring bitmap) => bitmap.values.toFinset
  | _ => ∅

section Relation

variable {keyspace : Keyspace O} {sets : RedisString → Finset UInt32} {foreign : RedisString → Option O}

/-- Replacing the value of one key. -/
theorem RepresentsAll.update (all : RepresentsAll keyspace sets foreign) {key : RedisString}
    {value : Option (Value O)} {set : Finset UInt32} (here : Represents value set (foreign key)) :
    RepresentsAll (Function.update keyspace key value) (Function.update sets key set) foreign := by
  intro other
  by_cases same : other = key
  · subst same
    rw [Function.update_self, Function.update_self]
    exact here
  · rw [Function.update_of_ne same, Function.update_of_ne same]
    exact all other

/-- What is known of a stored bitmap. -/
theorem RepresentsAll.roaring (all : RepresentsAll keyspace sets foreign) {key : RedisString} {bitmap : RoaringBitmap}
    (stored : keyspace key = some (.roaring bitmap)) :
    bitmap.Well Container.Plain ∧ (∀ v, v ∈ bitmap.values ↔ v ∈ sets key) ∧ (sets key).Nonempty ∧
      foreign key = none := by
  have here := all key
  rw [stored] at here
  generalize sets key = set at here
  generalize foreign key = constant at here
  cases here with
  | roaring well members nonempty => exact ⟨well, members, nonempty, rfl⟩

/-- A bitmap is stored exactly under the keys whose set is not empty. -/
theorem RepresentsAll.exists_roaring_iff (all : RepresentsAll keyspace sets foreign) (key : RedisString) :
    (∃ bitmap, keyspace key = some (.roaring bitmap)) ↔ (sets key).Nonempty := by
  refine ⟨fun ⟨_, stored⟩ => (all.roaring stored).2.2.1, ?_⟩
  intro nonempty
  have here := all key
  generalize keyspace key = value at here ⊢
  generalize sets key = set at here nonempty
  generalize foreign key = constant at here
  cases here with
  | absent => exact absurd nonempty Finset.not_nonempty_empty
  | roaring => exact ⟨_, rfl⟩
  | other => exact absurd nonempty Finset.not_nonempty_empty

/-- The values of other types. -/
theorem RepresentsAll.other_iff (all : RepresentsAll keyspace sets foreign) (key : RedisString) (value : O) :
    keyspace key = some (.other value) ↔ foreign key = some value := by
  have here := all key
  generalize keyspace key = stored at here ⊢
  generalize sets key = set at here
  generalize foreign key = constant at here ⊢
  cases here <;> simp

/-- The values stored under a key are its set. -/
theorem RepresentsAll.storedSet_eq (all : RepresentsAll keyspace sets foreign) (key : RedisString) :
    storedSet keyspace key = sets key := by
  have here := all key
  unfold storedSet
  generalize keyspace key = value at here ⊢
  generalize sets key = set at here ⊢
  generalize foreign key = constant at here
  cases here with
  | absent => rfl
  | roaring well members nonempty => exact Finset.ext fun v => List.mem_toFinset.trans (members v)
  | other => rfl

/-- A keyspace without bitmaps represents empty sets. -/
theorem representsAll_fresh (foreign : RedisString → Option O) :
    RepresentsAll (freshKeyspace foreign) (fun _ => ∅) foreign := by
  intro key
  show Represents ((foreign key).map .other) ∅ (foreign key)
  cases foreign key with
  | none => exact .absent
  | some value => exact .other value

end Relation

/-! ## What an answer says -/

/-- An answer against the keyspaces before and after: without replication
nothing has changed, and with it the reply is the one of success. -/
structure Propagates (keyspace keyspace' : Keyspace O) (answer : Answer) : Prop where
  quiet : answer.replicated = false → keyspace' = keyspace
  success : answer.replicated = true → answer.replies = [.longLong 1] ∧ answer.status = .redismoduleOk

theorem Propagates.of_quiet {keyspace : Keyspace O} {answer : Answer} (quiet : answer.replicated = false) :
    Propagates keyspace keyspace answer :=
  ⟨fun _ => rfl, fun loud => absurd (quiet.symm.trans loud) Bool.false_ne_true⟩

/-- The reply to MEMBERS for a list of values. -/
def membersReply (values : List UInt32) : List Reply :=
  .array values.length :: values.map fun value => .longLong value.toNat

/-- The answers to ISMEMBER and MEMBERS against the sets. -/
structure Explained (parse : RedisString → Option Int64) (foreign : RedisString → Option O)
    (sets : RedisString → Finset UInt32) (invocation : Invocation) (answer : Answer) : Prop where
  ismember : ∀ key arg value, invocation = ⟨.ismember, [key, arg]⟩ → parse arg = some value →
    (answer.replies = [.longLong 1] ↔ residue value ∈ sets key)
  members : ∀ key, invocation = ⟨.members, [key]⟩ → foreign key = none →
    ∃ values, answer.replies = membersReply values ∧ values.Pairwise (· < ·) ∧ ∀ v, v ∈ values ↔ v ∈ sets key

/-! ## ADD and REMOVE -/

section Handlers

variable {keyspace : Keyspace O} {sets : RedisString → Finset UInt32} {foreign : RedisString → Option O}

/-- The removals one by one. -/
theorem foldlM_roaringBitmapRemove {P : Container → Prop} [Stored P] (vals : List UInt32) {r : RoaringBitmap}
    (well : r.Well P) : ∃ r', vals.foldlM roaringBitmapRemove r = .ok r' ∧ r'.Well P ∧
      ∀ v, v ∈ r'.values ↔ v ∈ r.values ∧ v ∉ vals := by
  apply foldlM_loop (P := fun (seen : List UInt32) (mid : RoaringBitmap) => mid.Well P ∧
    ∀ v, v ∈ mid.values ↔ v ∈ r.values ∧ v ∉ seen)
  · intro seen val left mid _ here
    obtain ⟨well', values'⟩ := here
    obtain ⟨r', run, done, values⟩ := roaringBitmapRemove_spec well' val
    refine ⟨r', run, done, ?_⟩
    intro v
    rw [values, values', List.mem_append, List.mem_singleton, not_or, and_assoc]
  · exact ⟨well, by simp⟩

/-- What a handler for the values of a key has to do. -/
def updateOf (adding : Bool) (key : RedisString) (values : Finset UInt32) : Update RedisString UInt32 :=
  if adding then .insert key values else .erase key values

/-- Adding values to the bitmap of a key, or to a new one. -/
theorem RepresentsAll.addMany (all : RepresentsAll keyspace sets foreign) {key : RedisString} {bitmap : RoaringBitmap}
    (well : bitmap.Well Container.Plain) (members : ∀ v, v ∈ bitmap.values ↔ v ∈ sets key) (native : foreign key = none)
    {values : List UInt32} (nonempty : values ≠ []) :
    ∃ bitmap', roaringBitmapAddMany bitmap values = .ok bitmap' ∧
      RepresentsAll (Function.update keyspace key (some (.roaring bitmap')))
        (Function.update sets key (sets key ∪ values.toFinset)) foreign := by
  obtain ⟨bitmap', run, well', members'⟩ := roaringBitmapAddMany_spec well values
  refine ⟨bitmap', run, all.update ?_⟩
  rw [native]
  apply Represents.roaring well'
  · intro v
    rw [members', members, Finset.mem_union, List.mem_toFinset]
  · obtain ⟨v, rest, rfl⟩ := List.exists_cons_of_ne_nil nonempty
    exact ⟨v, Finset.mem_union_right _ (by simp)⟩

/-- Removing values from the bitmap of a key, and the key with the last of them. -/
theorem RepresentsAll.removeMany (all : RepresentsAll keyspace sets foreign) {key : RedisString}
    {bitmap : RoaringBitmap} (well : bitmap.Well Container.Plain) (members : ∀ v, v ∈ bitmap.values ↔ v ∈ sets key)
    (native : foreign key = none) (values : List UInt32) :
    ∃ bitmap', values.foldlM roaringBitmapRemove bitmap = .ok bitmap' ∧
      RepresentsAll
        (Function.update keyspace key (if roaringBitmapIsEmpty bitmap' then none else some (.roaring bitmap')))
        (Function.update sets key (sets key \ values.toFinset)) foreign := by
  obtain ⟨bitmap', run, well', members'⟩ := foldlM_roaringBitmapRemove values well
  have left : ∀ v, v ∈ bitmap'.values ↔ v ∈ sets key \ values.toFinset := by
    intro v
    rw [members', members, Finset.mem_sdiff, List.mem_toFinset]
  refine ⟨bitmap', run, all.update ?_⟩
  rw [native]
  by_cases empty : roaringBitmapIsEmpty bitmap' = true
  · have gone : sets key \ values.toFinset = ∅ := by
      apply Finset.eq_empty_of_forall_notMem
      intro v inside
      rw [← left, (roaringBitmapIsEmpty_iff well').1 empty] at inside
      exact List.not_mem_nil inside
    rw [if_pos empty, gone]
    exact .absent
  · rw [if_neg empty]
    apply Represents.roaring well' left
    obtain ⟨v, inside⟩ := List.exists_mem_of_ne_nil _ (mt (roaringBitmapIsEmpty_iff well').2 empty)
    exact ⟨v, (left v).1 inside⟩

/-- The values are added or removed, unless the key is of another type. -/
theorem updateKey_spec (all : RepresentsAll keyspace sets foreign) (adding : Bool) (key : RedisString)
    {values : List UInt32} (some : values ≠ []) :
    ∃ keyspace' answer, updateKey keyspace adding key values = .ok (keyspace', answer) ∧
      RepresentsAll keyspace'
        (applyOption sets (if (foreign key).isSome then none else .some (updateOf adding key values.toFinset))) foreign ∧
      Propagates keyspace keyspace' answer := by
  have loud : ∀ {keyspace' : Keyspace O}, Propagates keyspace keyspace'
      { replies := [.longLong 1], status := .redismoduleOk, replicated := true } :=
    ⟨fun quiet => absurd quiet.symm Bool.false_ne_true, fun _ => ⟨rfl, rfl⟩⟩
  have here := all key
  unfold updateKey
  generalize isValue : keyspace key = value at here
  generalize isSet : sets key = set at here
  generalize isForeign : foreign key = constant at here
  cases here with
  | other value => exact ⟨keyspace, _, rfl, all, .of_quiet rfl⟩
  | absent =>
    cases adding with
    | false =>
      refine ⟨keyspace, _, rfl, ?_, .of_quiet rfl⟩
      have same : applyOption sets (.some (updateOf false key values.toFinset)) = sets := by
        show Function.update sets key (sets key \ values.toFinset) = sets
        rw [isSet, Finset.empty_sdiff, ← isSet, Function.update_eq_self]
      exact same.symm ▸ all
    | true =>
      obtain ⟨bitmap, run, represents⟩ :=
        all.addMany (well_create Container.Plain) (by simp [isSet]) isForeign some
      simp only [if_true, run, ok_bind, pure_eq]
      exact ⟨_, _, rfl, represents, loud⟩
  | @roaring bitmap _ well members nonempty =>
    cases adding with
    | true =>
      obtain ⟨bitmap', run, represents⟩ := all.addMany well (by simpa only [isSet] using members) isForeign some
      simp only [if_true, run, ok_bind, pure_eq]
      exact ⟨_, _, rfl, represents, loud⟩
    | false =>
      obtain ⟨bitmap', run, represents⟩ := all.removeMany well (by simpa only [isSet] using members) isForeign values
      simp only [Bool.false_eq_true, if_false, run, ok_bind, pure_eq]
      cases empty : roaringBitmapIsEmpty bitmap' with
      | true =>
        rw [empty] at represents
        exact ⟨_, _, rfl, represents, loud⟩
      | false =>
        rw [empty] at represents
        exact ⟨_, _, rfl, represents, loud⟩

/-- ADD and REMOVE on any argument list. -/
theorem cmdAddOrRemove_spec (all : RepresentsAll keyspace sets foreign) (adding : Bool) (args : List RedisString) :
    ∃ keyspace' answer, cmdAddOrRemove parse keyspace adding args = .ok (keyspace', answer) ∧
      RepresentsAll keyspace'
        (specStep parse foreign sets ⟨if adding then .add else .remove, args⟩) foreign ∧
      Propagates keyspace keyspace' answer := by
  match args with
  | [] => cases adding <;> exact ⟨keyspace, _, rfl, all, .of_quiet rfl⟩
  | [_] => cases adding <;> exact ⟨keyspace, _, rfl, all, .of_quiet rfl⟩
  | key :: arg :: args =>
    unfold cmdAddOrRemove
    cases parsed : (arg :: args).mapM parse with
    | none =>
      refine ⟨keyspace, .failing "Invalid argument, expects <key> <int>...", by simp only [parsed], ?_, .of_quiet rfl⟩
      have nothing : specStep parse foreign sets ⟨if adding then .add else .remove, key :: arg :: args⟩ = sets := by
        cases adding <;> simp [specStep, effect, residues, parsed, applyOption]
      exact nothing.symm ▸ all
    | some values =>
      have nonempty : values.map narrow ≠ [] := by
        intro empty
        rw [List.map_eq_nil_iff.1 empty] at parsed
        simp [List.mapM_cons, Option.bind_eq_some_iff] at parsed
      obtain ⟨keyspace', answer, run, represents, propagates⟩ := updateKey_spec all adding key nonempty
      refine ⟨keyspace', answer, by simp only [parsed, run], ?_, propagates⟩
      have same : specStep parse foreign sets ⟨if adding then .add else .remove, key :: arg :: args⟩ =
          applyOption sets (if (foreign key).isSome then none else
            some (updateOf adding key (values.map narrow).toFinset)) := by
        cases adding <;> simp [specStep, effect, residues, parsed, updateOf, funext narrow_eq_residue]
      exact same.symm ▸ represents

/-! ## CARD -/

section CardLoop

variable {bitmap bitmap' argBitmap : RoaringBitmap} {arg : RedisString} {args : List RedisString} {bangFound : Bool}

theorem cardLoop_bang : cardLoop keyspace bitmap false (bang :: args) = cardLoop keyspace bitmap true args := by
  rw [cardLoop, if_pos rfl, if_neg Bool.false_ne_true]

theorem cardLoop_absent (isName : arg ≠ bang) (absent : keyspace arg = none) :
    cardLoop keyspace bitmap bangFound (arg :: args) = cardLoop keyspace bitmap bangFound args := by
  rw [cardLoop, if_neg isName]
  simp only [absent]

theorem cardLoop_excluding (isName : arg ≠ bang) (stored : keyspace arg = some (.roaring argBitmap)) :
    cardLoop keyspace bitmap true (arg :: args) = (do
      let bitmap ← roaringBitmapAndnotInplace bitmap argBitmap
      cardLoop keyspace bitmap true args) := by
  rw [cardLoop, if_neg isName]
  simp only [stored, if_true]

/-- The union leaves its second operand alone, so the keyspace stays as it is. -/
theorem cardLoop_including (isName : arg ≠ bang) (stored : keyspace arg = some (.roaring argBitmap))
    (run : roaringBitmapOrInplace bitmap argBitmap = .ok (bitmap', argBitmap)) :
    cardLoop keyspace bitmap false (arg :: args) = cardLoop keyspace bitmap' false args := by
  rw [cardLoop, if_neg isName]
  simp only [stored, Bool.false_eq_true, if_false, run, ok_bind]
  rw [← stored, Function.update_eq_self]

end CardLoop

/-- The loop of CARD leaves the keyspace as it is. -/
theorem cardLoop_spec (all : RepresentsAll keyspace sets foreign) (args : List RedisString) {bitmap : RoaringBitmap}
    (bangFound : Bool) (well : bitmap.Well Container.Sound) :
    ∃ outcome, cardLoop keyspace bitmap bangFound args = .ok (keyspace, outcome) := by
  induction args generalizing bitmap bangFound with
  | nil => exact ⟨_, rfl⟩
  | cons arg args ih =>
    by_cases isBang : arg = bang
    · subst isBang
      cases bangFound with
      | true => exact ⟨_, by rw [cardLoop, if_pos rfl, if_pos rfl]⟩
      | false =>
        rw [cardLoop_bang]
        exact ih true well
    · cases stored : keyspace arg with
      | none =>
        rw [cardLoop_absent isBang stored]
        exact ih bangFound well
      | some value =>
        cases value with
        | other value =>
          refine ⟨.error errormsgWrongtype, ?_⟩
          rw [cardLoop, if_neg isBang]
          simp only [stored]
        | roaring argBitmap =>
          have argWell := (all.roaring stored).1
          cases bangFound with
          | true =>
            obtain ⟨bitmap', run, well', -⟩ := roaringBitmapAndnotInplace_spec well argWell
            rw [cardLoop_excluding isBang stored, run]
            exact ih true well'
          | false =>
            obtain ⟨bitmap', run, well', -⟩ := roaringBitmapOrInplace_spec well argWell
            rw [cardLoop_including isBang stored run]
            exact ih false well'

/-- CARD changes nothing, whatever it answers. -/
theorem cmdCard_spec (all : RepresentsAll keyspace sets foreign) (args : List RedisString) :
    ∃ answer, cmdCard keyspace args = .ok (keyspace, answer) ∧ answer.replicated = false := by
  unfold cmdCard
  by_cases none : args = []
  · simp only [none, if_true, pure_eq]
    exact ⟨_, rfl, rfl⟩
  · obtain ⟨outcome, run⟩ := cardLoop_spec all args false (well_create Container.Sound)
    simp only [none, if_false, run, ok_bind]
    cases outcome with
    | error err => exact ⟨_, rfl, rfl⟩
    | ok bitmap => exact ⟨_, rfl, rfl⟩

/-! ## MEMBERS and ISMEMBER -/

/-- The loop sends the values still to come, in as many rounds and one more. -/
theorem membersLoop_spec {P : Container → Prop} [Stored P] {bitmap : RoaringBitmap} (well : bitmap.Well P)
    {vals : List UInt32} {it : Iterator} {rounds : Nat} (here : At bitmap it vals) (enough : vals.length < rounds) :
    membersLoop bitmap rounds it = .ok (vals.map fun value => .longLong value.toNat) := by
  induction rounds generalizing vals it with
  | zero => exact absurd enough (Nat.not_lt_zero _)
  | succ rounds ih =>
    cases vals with
    | nil =>
      generalize isNil : ([] : List UInt32) = vals at here
      cases here with
      | value => simp at isNil
      | finished none => simp only [membersLoop, none, Bool.false_eq_true, if_false, pure_eq, List.map_nil]
    | cons v vals =>
      obtain ⟨has, current, it', more, run, there⟩ := roaringAdvanceUint32Iterator_spec well here
      have rest := ih there (Nat.lt_of_succ_lt_succ enough)
      simp only [membersLoop, has, if_true, run, ok_bind, rest, current, pure_eq, List.map_cons]

/-- MEMBERS of a stored bitmap sends its values. -/
theorem cmdMembers_stored {P : Container → Prop} [Stored P] {bitmap : RoaringBitmap} {key : RedisString}
    (well : bitmap.Well P) (stored : keyspace key = some (.roaring bitmap)) :
    cmdMembers keyspace [key] = .ok (keyspace, .replying (membersReply bitmap.values)) := by
  obtain ⟨it, created, start⟩ := roaringCreateIterator_spec well
  have bounded := MachineOrder.length_le_of_nodup_u32 (SortedList.nodup_of_sorted well.sorted)
  have sent := membersLoop_spec well start (Nat.lt_succ_of_le bounded)
  simp only [cmdMembers, stored, created, sent, ok_bind, pure_eq, roaringBitmapGetCardinality_spec well, membersReply]

/-- MEMBERS changes nothing and its reply lists the set. -/
theorem cmdMembers_spec (all : RepresentsAll keyspace sets foreign) (args : List RedisString) :
    ∃ answer, cmdMembers keyspace args = .ok (keyspace, answer) ∧ answer.replicated = false ∧
      Explained parse foreign sets ⟨.members, args⟩ answer := by
  have silent : ∀ {answer : Answer}, (∀ key, args = [key] → foreign key ≠ none) →
      Explained parse foreign sets ⟨.members, args⟩ answer := fun apart =>
    { ismember := by simp
      members := fun key isKey constant => absurd constant (apart key (by simpa using isKey)) }
  match args with
  | [] => exact ⟨_, rfl, rfl, silent (by simp)⟩
  | _ :: _ :: _ => exact ⟨_, rfl, rfl, silent (by simp)⟩
  | [key] =>
    have listed : ∀ {values : List UInt32}, values.Pairwise (· < ·) → (∀ v, v ∈ values ↔ v ∈ sets key) →
        Explained parse foreign sets ⟨.members, [key]⟩ (.replying (membersReply values)) := fun sorted members =>
      { ismember := by simp
        members := by
          intro other same _
          obtain rfl : key = other := by simpa using same
          exact ⟨_, rfl, sorted, members⟩ }
    cases stored : keyspace key with
    | none =>
      have here := all key
      rw [stored] at here
      generalize isSet : sets key = set at here
      generalize foreign key = constant at here
      cases here
      have run : cmdMembers keyspace [key] = .ok (keyspace, .replying (membersReply [])) := by
        simp only [cmdMembers, stored]
        rfl
      exact ⟨_, run, rfl, listed .nil (by simp [isSet])⟩
    | some value =>
      cases value with
      | other value =>
        refine ⟨.failing errormsgWrongtype, by simp only [cmdMembers, stored], rfl, silent ?_⟩
        intro other same
        obtain rfl : key = other := by simpa using same
        simp [(all.other_iff key value).1 stored]
      | roaring bitmap =>
        obtain ⟨well, members, -⟩ := all.roaring stored
        exact ⟨_, cmdMembers_stored well stored, rfl, listed well.sound.sorted members⟩

/-- The end of ISMEMBER on a stored bitmap: the reply is 1 for the members. -/
theorem replying_contains {bitmap : RoaringBitmap} (well : bitmap.Well Container.Plain) (v : UInt32) :
    ∃ answer, (do
        let contains ← roaringBitmapContains bitmap v
        return (keyspace, .replying [.longLong contains.toNat])) =
          (.ok (keyspace, answer) : Outcome (Keyspace O × Answer)) ∧
      answer.replicated = false ∧ (answer.replies = [.longLong 1] ↔ v ∈ bitmap.values) := by
  obtain ⟨found, run, isFound⟩ := roaringBitmapContains_spec well v
  refine ⟨.replying [.longLong found.toNat], ?_, rfl, ?_⟩
  · rw [run]
    rfl
  · rw [← isFound]
    cases found <;> simp [Answer.replying]

/-- ISMEMBER changes nothing and replies whether the residue is in the set. -/
theorem cmdIsMember_spec (all : RepresentsAll keyspace sets foreign) (args : List RedisString) :
    ∃ answer, cmdIsMember parse keyspace args = .ok (keyspace, answer) ∧ answer.replicated = false ∧
      Explained parse foreign sets ⟨.ismember, args⟩ answer := by
  have told : ∀ {answer : Answer}, (∀ key arg value, args = [key, arg] → parse arg = some value →
      (answer.replies = [.longLong 1] ↔ residue value ∈ sets key)) →
      Explained parse foreign sets ⟨.ismember, args⟩ answer := fun tells =>
    { ismember := fun key arg value same => tells key arg value (by simpa using same)
      members := by simp }
  match args with
  | [] => exact ⟨_, rfl, rfl, told (by simp)⟩
  | [_] => exact ⟨_, rfl, rfl, told (by simp)⟩
  | _ :: _ :: _ :: _ => exact ⟨_, rfl, rfl, told (by simp)⟩
  | [key, arg] =>
    have here := all key
    unfold cmdIsMember
    simp only
    generalize isValue : keyspace key = value at here
    generalize isSet : sets key = set at here
    generalize foreign key = constant at here
    cases here with
    | absent =>
      refine ⟨_, rfl, rfl, told ?_⟩
      intro key' arg' value same _
      obtain ⟨rfl, rfl⟩ : key = key' ∧ arg = arg' := by simpa using same
      simp [Answer.replying, isSet]
    | other value =>
      refine ⟨_, rfl, rfl, told ?_⟩
      intro key' arg' value same _
      obtain ⟨rfl, rfl⟩ : key = key' ∧ arg = arg' := by simpa using same
      simp [Answer.failing, isSet]
    | @roaring bitmap _ well members nonempty =>
      obtain ⟨answer, run, quiet, confirms⟩ := replying_contains well (narrow ((parse arg).getD (-1)))
      refine ⟨answer, run, quiet, told ?_⟩
      intro key' arg' value same parsed
      obtain ⟨rfl, rfl⟩ : key = key' ∧ arg = arg' := by simpa using same
      rwa [parsed, Option.getD_some, narrow_eq_residue, members, ← isSet] at confirms

/-! ## One invocation -/

/-- **What an invocation does.** It never faults; it takes one step of the
abstract store; without replication it changes nothing. -/
theorem exec_spec (all : RepresentsAll keyspace sets foreign) (invocation : Invocation) :
    ∃ keyspace' answer, exec parse keyspace invocation = .ok (keyspace', answer) ∧
      RepresentsAll keyspace' (specStep parse foreign sets invocation) foreign ∧
      Propagates keyspace keyspace' answer ∧ Explained parse foreign sets invocation answer := by
  obtain ⟨command, args⟩ := invocation
  cases command with
  | add =>
    obtain ⟨keyspace', answer, run, represents, propagates⟩ := cmdAddOrRemove_spec parse all true args
    exact ⟨keyspace', answer, run, represents, propagates, by simp, by simp⟩
  | remove =>
    obtain ⟨keyspace', answer, run, represents, propagates⟩ := cmdAddOrRemove_spec parse all false args
    exact ⟨keyspace', answer, run, represents, propagates, by simp, by simp⟩
  | card =>
    obtain ⟨answer, run, quiet⟩ := cmdCard_spec all args
    exact ⟨keyspace, answer, run, all, .of_quiet quiet, by simp, by simp⟩
  | members =>
    obtain ⟨answer, run, quiet, explained⟩ := cmdMembers_spec parse all args
    exact ⟨keyspace, answer, run, all, .of_quiet quiet, explained⟩
  | ismember =>
    obtain ⟨answer, run, quiet, explained⟩ := cmdIsMember_spec parse all args
    exact ⟨keyspace, answer, run, all, .of_quiet quiet, explained⟩

end Handlers

/-! ## Runs -/

/-- The abstract store after a run from empty sets. -/
def setsAfter (parse : RedisString → Option Int64) (foreign : RedisString → Option O) (run : List Invocation) :
    RedisString → Finset UInt32 :=
  run.foldl (specStep parse foreign) fun _ => ∅

/-- A run from a keyspace without bitmaps. -/
theorem runAll_spec (foreign : RedisString → Option O) (run : List Invocation) :
    ∃ keyspace answers, runAll (exec parse) (freshKeyspace foreign) run = .ok (keyspace, answers) ∧
      RepresentsAll keyspace (setsAfter parse foreign run) foreign ∧
      Reports (specStep parse foreign) (Explained parse foreign) (fun _ => ∅) run answers := by
  refine runAll_simulates (R := fun keyspace sets => RepresentsAll keyspace sets foreign)
    (fun keyspace sets invocation all => ?_) run (representsAll_fresh foreign)
  obtain ⟨keyspace', answer, done, represents, -, explained⟩ := exec_spec parse all invocation
  exact ⟨keyspace', answer, done, represents, explained⟩

/-- **Refinement.** After any run a key holds a bitmap exactly when its set is
not empty, the bitmap holds the set, the values of other types are as they were,
and ISMEMBER has replied 1 exactly for residues in the set of its time. -/
theorem commands_refine_sets (foreign : RedisString → Option O) (run : List Invocation) :
    ∃ keyspace answers, runAll (exec parse) (freshKeyspace foreign) run = .ok (keyspace, answers) ∧
      (∀ key, (∃ bitmap, keyspace key = some (.roaring bitmap)) ↔ (setsAfter parse foreign run key).Nonempty) ∧
      (∀ key bitmap, keyspace key = some (.roaring bitmap) →
        ∀ v, v ∈ bitmap.values ↔ v ∈ setsAfter parse foreign run key) ∧
      (∀ key value, keyspace key = some (.other value) ↔ freshKeyspace foreign key = some (.other value)) ∧
      ∀ before after key arg value, run = before ++ ⟨.ismember, [key, arg]⟩ :: after → parse arg = some value →
        ∃ answer, answers[before.length]? = some answer ∧
          (answer.replies = [.longLong 1] ↔ residue value ∈ setsAfter parse foreign before key) := by
  obtain ⟨keyspace, answers, done, all, reports⟩ := runAll_spec parse foreign run
  refine ⟨keyspace, answers, done, all.exists_roaring_iff, fun key bitmap stored => (all.roaring stored).2.1,
    ?_, ?_⟩
  · intro key value
    rw [all.other_iff, (representsAll_fresh foreign).other_iff]
  · rintro before after key arg value rfl parsed
    obtain ⟨answer, here, explained⟩ := reports.at_split
    exact ⟨answer, here, explained.ismember key arg value rfl parsed⟩

end RedisRoaring
