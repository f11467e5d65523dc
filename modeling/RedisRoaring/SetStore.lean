import Mathlib.Data.Finset.Sort
import RedisRoaring.Card

/-!
# The module as a store of sets

The abstract store keeps a finite set under a key, or a value of another type,
and answers every command itself (`setExec`): from its sets alone, it has no
chunks, containers or capacities. `exec_refines` says that the handlers give the
answers of the abstract store on every keyspace that holds its sets, for any
kind of containers; `HoldsAll` is that relation. Two keyspaces that hold the
same sets can then not be told apart.
-/

namespace RedisRoaring

open Exec TailLoss

variable {O : Type}

/-! ## The abstract store -/

/-- The value of a key as clients know it. -/
inductive SetValue (O : Type) where
  | set (members : Finset UInt32)
  | other (value : O)

/-- The abstract store. A key can have the empty set: a restored value may be empty. -/
abbrev SetStore (O : Type) := RedisString → Option (SetValue O)

/-- A set has a value in every chunk. -/
def SpansChunks (set : Finset UInt32) : Prop := ∀ h < 65536, ∃ v ∈ set, (highBits v).toNat = h

instance (set : Finset UInt32) : Decidable (SpansChunks set) := Nat.decidableBallLT _ _

/-- The union as CARD computes it: of a set with a value in every chunk, only
what does not lie in a chunk above all those of a nonempty accumulator is taken over. -/
def setMerge (accumulator set : Finset UInt32) : Finset UInt32 :=
  if SpansChunks set ∧ accumulator ≠ ∅ then
    accumulator ∪ set.filter fun v => ∃ a ∈ accumulator, highBits v ≤ highBits a
  else accumulator ∪ set

section Handlers

variable (parse : RedisString → Option Int64) (store : SetStore O)

/-- ADD and REMOVE from the opened key on. -/
def setUpdateKey (adding : Bool) (key : RedisString) (values : Finset UInt32) : SetStore O × Answer :=
  let done : Answer := { replies := [.longLong 1], status := .redismoduleOk, replicated := true }
  match store key with
  | some (.other _) => (store, .failing errormsgWrongtype)
  | none =>
    if adding then (Function.update store key (some (.set values)), done)
    else (store, .replying [.longLong 1])
  | some (.set set) =>
    if adding then (Function.update store key (some (.set (set ∪ values))), done)
    else if set ⊆ values then (Function.update store key none, done)
    else (Function.update store key (some (.set (set \ values))), done)

/-- ADD and REMOVE. -/
def setAddOrRemove (adding : Bool) : List RedisString → SetStore O × Answer
  | key :: arg :: args =>
    match residues parse (arg :: args) with
    | none => (store, .failing "Invalid argument, expects <key> <int>...")
    | some values => setUpdateKey store adding key values
  | _ => (store, .wrongArity)

/-- The arguments of CARD, one after the other. -/
def setCardLoop (accumulator : Finset UInt32) (bangFound : Bool) : List RedisString → Except String (Finset UInt32)
  | [] => .ok accumulator
  | arg :: args =>
    if arg = bang then
      if bangFound then .error formatErr else setCardLoop accumulator true args
    else
      match store arg with
      | none => setCardLoop accumulator bangFound args
      | some (.other _) => .error errormsgWrongtype
      | some (.set set) =>
        setCardLoop (if bangFound then accumulator \ set else setMerge accumulator set) bangFound args

/-- CARD. -/
def setCard (args : List RedisString) : Answer :=
  if args = [] then .wrongArity
  else
    match setCardLoop store ∅ false args with
    | .error err => .failing err
    | .ok set => .replying [.longLong set.card]

/-- MEMBERS: the values in increasing order. -/
def setMembers : List RedisString → Answer
  | [key] =>
    match store key with
    | none => .replying (membersReply [])
    | some (.other _) => .failing errormsgWrongtype
    | some (.set set) => .replying (membersReply (set.sort (· ≤ ·)))
  | _ => .wrongArity

/-- ISMEMBER: a string that does not parse stands for -1. -/
def setIsMember : List RedisString → Answer
  | [key, arg] =>
    match store key with
    | none => .replying [.longLong 0]
    | some (.other _) => .failing errormsgWrongtype
    | some (.set set) => .replying [.longLong (decide (residue ((parse arg).getD (-1)) ∈ set)).toNat]
  | _ => .wrongArity

/-- One invocation on the abstract store. -/
def setExec (invocation : Invocation) : SetStore O × Answer :=
  match invocation.command with
  | .add => setAddOrRemove parse store true invocation.args
  | .remove => setAddOrRemove parse store false invocation.args
  | .card => (store, setCard store invocation.args)
  | .members => (store, setMembers store invocation.args)
  | .ismember => (store, setIsMember parse store invocation.args)

end Handlers

/-! ## The relation -/

/-- The value of a key against that of the abstract store, with containers of kind `P`. -/
inductive Holds (P : Container → Prop) : Option (Value O) → Option (SetValue O) → Prop where
  | absent : Holds P none none
  | roaring {bitmap : RoaringBitmap} {set : Finset UInt32} (well : bitmap.Well P)
      (members : ∀ v, v ∈ bitmap.values ↔ v ∈ set) : Holds P (some (.roaring bitmap)) (some (.set set))
  | other (value : O) : Holds P (some (.other value)) (some (.other value))

/-- Every key of a keyspace against the abstract store. -/
def HoldsAll (P : Container → Prop) (keyspace : Keyspace O) (store : SetStore O) : Prop :=
  ∀ key, Holds P (keyspace key) (store key)

/-- The abstract store without sets. -/
def freshStore (foreign : RedisString → Option O) : SetStore O := fun key => (foreign key).map .other

section Relation

variable {P : Container → Prop} {keyspace : Keyspace O} {store : SetStore O} {key : RedisString}

/-- Replacing the value of one key. -/
theorem HoldsAll.update (holds : HoldsAll P keyspace store) {value : Option (Value O)} {set : Option (SetValue O)}
    (here : Holds P value set) : HoldsAll P (Function.update keyspace key value) (Function.update store key set) := by
  intro other
  by_cases same : other = key
  · subst same
    rw [Function.update_self, Function.update_self]
    exact here
  · rw [Function.update_of_ne same, Function.update_of_ne same]
    exact holds other

theorem holdsAll_fresh (foreign : RedisString → Option O) : HoldsAll P (freshKeyspace foreign) (freshStore foreign) := by
  intro key
  show Holds P ((foreign key).map .other) ((foreign key).map .other)
  cases foreign key with
  | none => exact .absent
  | some value => exact .other value

/-- What a keyspace that holds a store knows of the key of a bitmap. -/
theorem HoldsAll.roaring {bitmap : RoaringBitmap} (holds : HoldsAll P keyspace store)
    (stored : keyspace key = some (.roaring bitmap)) :
    bitmap.Well P ∧ ∃ set, store key = some (.set set) ∧ ∀ v, v ∈ bitmap.values ↔ v ∈ set := by
  have here := holds key
  rw [stored] at here
  generalize store key = value at here
  cases here with
  | roaring well members => exact ⟨well, _, rfl, members⟩

theorem HoldsAll.hosts (holds : HoldsAll P keyspace store) : Hosts P keyspace :=
  fun _ _ stored => (holds.roaring stored).1

/-- The abstract store of a keyspace. -/
def storeOf (keyspace : Keyspace O) : SetStore O := fun key =>
  match keyspace key with
  | none => none
  | some (.roaring bitmap) => some (.set bitmap.values.toFinset)
  | some (.other value) => some (.other value)

theorem Hosts.holdsAll (hosts : Hosts P keyspace) : HoldsAll P keyspace (storeOf keyspace) := by
  intro key
  unfold storeOf
  cases stored : keyspace key with
  | none => exact .absent
  | some value =>
    cases value with
    | other value => exact .other value
    | roaring bitmap => exact .roaring (hosts key bitmap stored) fun v => List.mem_toFinset.symm

/-- The values of a well-formed bitmap are its set in increasing order. -/
theorem values_eq_sort [Kind P] {bitmap : RoaringBitmap} {set : Finset UInt32} (well : bitmap.Well P)
    (members : ∀ v, v ∈ bitmap.values ↔ v ∈ set) : bitmap.values = set.sort (· ≤ ·) := by
  apply SortedList.eq_of_same_members well.sorted (Finset.sortedLT_sort set).pairwise
  intro v
  rw [members, Finset.mem_sort]

theorem card_eq_length [Kind P] {bitmap : RoaringBitmap} {set : Finset UInt32} (well : bitmap.Well P)
    (members : ∀ v, v ∈ bitmap.values ↔ v ∈ set) : roaringBitmapGetCardinality bitmap = set.card := by
  rw [roaringBitmapGetCardinality_spec well, values_eq_sort well members, Finset.length_sort]

/-! ## The union of CARD -/

theorem spansChunks_iff (set : Finset UInt32) : SpansChunks set ↔ Spans highBits (set : Set UInt32) := by
  constructor
  · intro spans k
    obtain ⟨v, member, high⟩ := spans k.toNat k.toNat_lt
    exact ⟨v, member, UInt16.toNat_inj.1 high⟩
  · intro spans h small
    obtain ⟨v, member, high⟩ := spans (UInt16.ofNat h)
    exact ⟨v, member, by rw [high, UInt16.toNat_ofNat_of_lt' small]⟩

/-- The union of CARD is the merge that loses a tail. -/
theorem coe_setMerge (accumulator set : Finset UInt32) :
    (setMerge accumulator set : Set UInt32) = merge highBits (accumulator : Set UInt32) set := by
  have lost : ∀ v, Lost highBits (accumulator : Set UInt32) set v ↔
      (SpansChunks set ∧ accumulator ≠ ∅) ∧ ¬ ∃ a ∈ accumulator, highBits v ≤ highBits a := by
    intro v
    simp only [Lost, spansChunks_iff, Finset.coe_nonempty, Finset.nonempty_iff_ne_empty, Below, Finset.mem_coe,
      not_exists, not_and, not_le, and_assoc]
  ext v
  show v ∈ setMerge accumulator set ↔ v ∈ accumulator ∨ v ∈ set ∧ ¬ Lost highBits (accumulator : Set UInt32) set v
  unfold setMerge
  rw [lost]
  by_cases tail : SpansChunks set ∧ accumulator ≠ ∅
  · rw [if_pos tail, Finset.mem_union, Finset.mem_filter]
    simp only [tail, true_and, not_not, ne_eq, not_false_eq_true]
  · rw [if_neg tail, Finset.mem_union]
    simp only [tail, false_and, not_false_eq_true, and_true]

end Relation

/-! ## The handlers -/

/-- An answer of a handler on a keyspace that holds a store, against the outcome
on the store: the same answer, and the keyspace after it holds the store after
it. Without replication the keyspace has not changed at all. -/
structure Refines (P : Container → Prop) (keyspace : Keyspace O) (outcome : Outcome (Keyspace O × Answer))
    (expected : SetStore O × Answer) : Prop where
  refines : ∃ keyspace', outcome = .ok (keyspace', expected.2) ∧ HoldsAll P keyspace' expected.1 ∧
    (expected.2.replicated = false → keyspace' = keyspace)

section Outcomes

variable {store : SetStore O} {parse : RedisString → Option Int64} {invocation : Invocation}

/-- The outcome of an invocation on the abstract store: it is replicated and
answered with the integer 1, or not replicated and nothing has changed. -/
inductive Settles (store : SetStore O) (outcome : SetStore O × Answer) : Prop where
  | loud (replicated : outcome.2.replicated = true) (replies : outcome.2.replies = [.longLong 1])
      (status : outcome.2.status = .redismoduleOk) : Settles store outcome
  | quiet (silent : outcome.2.replicated = false) (same : outcome.1 = store) : Settles store outcome

theorem setUpdateKey_settles (adding : Bool) (key : RedisString) (values : Finset UInt32) :
    Settles store (setUpdateKey store adding key values) := by
  unfold setUpdateKey
  rcases store key with _ | set | value
  · cases adding with
    | true => exact .loud rfl rfl rfl
    | false => exact .quiet rfl rfl
  · cases adding with
    | true => exact .loud rfl rfl rfl
    | false =>
      by_cases emptied : set ⊆ values
      · simp only [Bool.false_eq_true, if_false, if_pos emptied]
        exact .loud rfl rfl rfl
      · simp only [Bool.false_eq_true, if_false, if_neg emptied]
        exact .loud rfl rfl rfl
  · exact .quiet rfl rfl

theorem setAddOrRemove_settles (adding : Bool) (args : List RedisString) :
    Settles store (setAddOrRemove parse store adding args) := by
  rcases args with _ | ⟨key, _ | ⟨arg, args⟩⟩
  · exact .quiet rfl rfl
  · exact .quiet rfl rfl
  · cases parsed : residues parse (arg :: args) with
    | none =>
      simp only [setAddOrRemove, parsed]
      exact .quiet rfl rfl
    | some values =>
      simp only [setAddOrRemove, parsed]
      exact setUpdateKey_settles adding key values

theorem setCard_silent (args : List RedisString) : (setCard store args).replicated = false := by
  unfold setCard
  by_cases none : args = []
  · rw [if_pos none]
    rfl
  · rw [if_neg none]
    cases setCardLoop store ∅ false args <;> rfl

theorem setMembers_silent (args : List RedisString) : (setMembers store args).replicated = false := by
  rcases args with _ | ⟨key, _ | ⟨arg, args⟩⟩
  · rfl
  · rcases isSet : store key with _ | set | value <;> simp only [setMembers, isSet] <;> rfl
  · rfl

theorem setIsMember_silent (args : List RedisString) : (setIsMember parse store args).replicated = false := by
  rcases args with _ | ⟨key, _ | ⟨arg, _ | ⟨more, args⟩⟩⟩
  · rfl
  · rfl
  · rcases isSet : store key with _ | set | value <;> simp only [setIsMember, isSet] <;> rfl
  · rfl

theorem setExec_settles (parse : RedisString → Option Int64) (store : SetStore O) (invocation : Invocation) :
    Settles store (setExec parse store invocation) := by
  obtain ⟨command, args⟩ := invocation
  cases command with
  | add => exact setAddOrRemove_settles true args
  | remove => exact setAddOrRemove_settles false args
  | card => exact .quiet (setCard_silent args) rfl
  | members => exact .quiet (setMembers_silent args) rfl
  | ismember => exact .quiet (setIsMember_silent args) rfl

end Outcomes

section Handlers

variable {P A : Container → Prop} {keyspace : Keyspace O} {store : SetStore O} (parse : RedisString → Option Int64)

/-- A handler that changes nothing. -/
theorem Refines.quiet (holds : HoldsAll P keyspace store) {outcome : Outcome (Keyspace O × Answer)} {answer : Answer}
    (run : outcome = .ok (keyspace, answer)) : Refines P keyspace outcome (store, answer) :=
  ⟨keyspace, run, holds, fun _ => rfl⟩

/-- A handler that replaces the value of a key. -/
theorem Refines.loud (holds : HoldsAll P keyspace store) {outcome : Outcome (Keyspace O × Answer)}
    {key : RedisString} {value : Option (Value O)} {set : Option (SetValue O)} {answer : Answer}
    (run : outcome = .ok (Function.update keyspace key value, answer)) (here : Holds P value set)
    (replicated : answer.replicated = true) :
    Refines P keyspace outcome (Function.update store key set, answer) :=
  ⟨_, run, holds.update here, fun quiet => absurd (quiet.symm.trans replicated) Bool.false_ne_true⟩

section Kind

variable [Stored P]

theorem updateKey_refines (holds : HoldsAll P keyspace store) (adding : Bool) (key : RedisString)
    (values : List UInt32) :
    Refines P keyspace (updateKey keyspace adding key values) (setUpdateKey store adding key values.toFinset) := by
  have here := holds key
  unfold updateKey setUpdateKey
  generalize isValue : keyspace key = value at here
  generalize isSet : store key = set at here
  cases here with
  | other value => exact .quiet holds rfl
  | absent =>
    cases adding with
    | false => exact .quiet holds rfl
    | true =>
      obtain ⟨bitmap, run, well, members⟩ := roaringBitmapAddMany_spec (well_create P) values
      simp only [if_true, run, ok_bind, pure_eq]
      apply Refines.loud holds rfl _ rfl
      apply Holds.roaring well
      intro v
      rw [members, List.mem_toFinset, values_create]
      exact or_iff_right List.not_mem_nil
  | @roaring bitmap set well members =>
    cases adding with
    | true =>
      obtain ⟨bitmap', run, well', members'⟩ := roaringBitmapAddMany_spec well values
      simp only [if_true, run, ok_bind, pure_eq]
      apply Refines.loud holds rfl _ rfl
      apply Holds.roaring well'
      intro v
      rw [members', members, Finset.mem_union, List.mem_toFinset]
    | false =>
      obtain ⟨bitmap', run, well', members'⟩ := foldlM_roaringBitmapRemove values well
      have left : ∀ v, v ∈ bitmap'.values ↔ v ∈ set \ values.toFinset := by
        intro v
        rw [members', members, Finset.mem_sdiff, List.mem_toFinset]
      have emptied : roaringBitmapIsEmpty bitmap' = true ↔ set ⊆ values.toFinset := by
        rw [roaringBitmapIsEmpty_iff well', ← Finset.sdiff_eq_empty_iff_subset, List.eq_nil_iff_forall_not_mem,
          Finset.eq_empty_iff_forall_notMem]
        exact forall_congr' fun v => not_congr (left v)
      simp only [Bool.false_eq_true, if_false, run, ok_bind, pure_eq, emptied]
      split
      · exact .loud holds rfl .absent rfl
      · exact .loud holds rfl (.roaring well' left) rfl

/-- ADD and REMOVE on any argument list. -/
theorem cmdAddOrRemove_refines (holds : HoldsAll P keyspace store) (adding : Bool) (args : List RedisString) :
    Refines P keyspace (cmdAddOrRemove parse keyspace adding args) (setAddOrRemove parse store adding args) := by
  match args with
  | [] => exact .quiet holds rfl
  | [_] => exact .quiet holds rfl
  | key :: arg :: args =>
    unfold cmdAddOrRemove setAddOrRemove residues
    cases parsed : (arg :: args).mapM parse with
    | none =>
      simp only [parsed, Option.map_none]
      exact .quiet holds rfl
    | some values =>
      simp only [parsed, Option.map_some]
      rw [← funext narrow_eq_residue]
      exact updateKey_refines holds adding key (values.map narrow)

/-- The loop of CARD: the error of the abstract loop, or a bitmap of its set. -/
theorem cardLoop_refines [Kind A] [Accumulates A P] (holds : HoldsAll P keyspace store) (args : List RedisString)
    {bitmap : RoaringBitmap} {accumulator : Finset UInt32} (bangFound : Bool) (well : bitmap.Well A)
    (members : ∀ v, v ∈ bitmap.values ↔ v ∈ accumulator) :
    (∃ err, setCardLoop store accumulator bangFound args = .error err ∧
      cardLoop keyspace bitmap bangFound args = .ok (keyspace, .error err)) ∨
    ∃ set bitmap', setCardLoop store accumulator bangFound args = .ok set ∧
      cardLoop keyspace bitmap bangFound args = .ok (keyspace, .ok bitmap') ∧ bitmap'.Well A ∧
      ∀ v, v ∈ bitmap'.values ↔ v ∈ set := by
  induction args generalizing bitmap accumulator bangFound with
  | nil => exact .inr ⟨accumulator, bitmap, rfl, rfl, well, members⟩
  | cons arg args ih =>
    by_cases isBang : arg = bang
    · subst isBang
      rw [setCardLoop, if_pos rfl]
      cases bangFound with
      | true => exact .inl ⟨formatErr, rfl, by rw [cardLoop, if_pos rfl, if_pos rfl]⟩
      | false =>
        rw [cardLoop_bang, if_neg Bool.false_ne_true]
        exact ih true well members
    · have here := holds arg
      rw [setCardLoop, if_neg isBang]
      generalize stored : keyspace arg = value at here
      generalize isSet : store arg = set at here
      cases here with
      | absent =>
        rw [cardLoop_absent isBang stored]
        exact ih bangFound well members
      | other value =>
        refine .inl ⟨errormsgWrongtype, rfl, ?_⟩
        rw [cardLoop, if_neg isBang]
        simp only [stored]
      | @roaring argBitmap set argWell argMembers =>
        cases bangFound with
        | true =>
          obtain ⟨bitmap', run, well', members'⟩ := roaringBitmapAndnotInplace_spec well argWell
          rw [cardLoop_excluding isBang stored, run]
          apply ih true well'
          intro v
          rw [members', members, argMembers, if_pos rfl, Finset.mem_sdiff]
        | false =>
          obtain ⟨bitmap', run, well', merged⟩ := roaringBitmapOrInplace_merge well argWell
          have isAcc : bitmap.members = (accumulator : Set UInt32) := Set.ext members
          have isArg : argBitmap.members = (set : Set UInt32) := Set.ext argMembers
          rw [cardLoop_including isBang stored run]
          apply ih false well'
          intro v
          rw [if_neg Bool.false_ne_true, ← Finset.mem_coe, coe_setMerge, ← isAcc, ← isArg, ← merged]
          exact Iff.rfl

/-- CARD on any argument list. -/
theorem cmdCard_refines [Kind A] [Accumulates A P] (holds : HoldsAll P keyspace store) (args : List RedisString) :
    Refines P keyspace (cmdCard keyspace args) (store, setCard store args) := by
  apply Refines.quiet holds
  unfold cmdCard setCard
  by_cases none : args = []
  · simp only [none, if_true, pure_eq]
  · have empty : ∀ v, v ∈ roaringBitmapCreate.values ↔ v ∈ (∅ : Finset UInt32) := by simp
    simp only [none, if_false]
    rcases cardLoop_refines holds args false (well_create A) empty with ⟨err, fails, run⟩ | ⟨set, bitmap, counts, run, well, members⟩
    · simp only [fails, run, ok_bind, pure_eq]
    · simp only [counts, run, ok_bind, pure_eq, card_eq_length well members]

/-- MEMBERS on any argument list. -/
theorem cmdMembers_refines (holds : HoldsAll P keyspace store) (args : List RedisString) :
    Refines P keyspace (cmdMembers keyspace args) (store, setMembers store args) := by
  apply Refines.quiet holds
  match args with
  | [] => rfl
  | _ :: _ :: _ => rfl
  | [key] =>
    have here := holds key
    generalize stored : keyspace key = value at here
    generalize isSet : store key = set at here
    cases here with
    | absent =>
      simp only [cmdMembers, setMembers, stored, isSet]
      rfl
    | other value => simp only [cmdMembers, setMembers, stored, isSet]
    | roaring well members =>
      rw [cmdMembers_stored well stored, values_eq_sort well members]
      simp only [setMembers, isSet]

/-- ISMEMBER on any argument list. -/
theorem cmdIsMember_refines (holds : HoldsAll P keyspace store) (args : List RedisString) :
    Refines P keyspace (cmdIsMember parse keyspace args) (store, setIsMember parse store args) := by
  apply Refines.quiet holds
  match args with
  | [] => rfl
  | [_] => rfl
  | _ :: _ :: _ :: _ => rfl
  | [key, arg] =>
    have here := holds key
    generalize stored : keyspace key = value at here
    generalize isSet : store key = set at here
    cases here with
    | absent => simp only [cmdIsMember, setIsMember, stored, isSet]
    | other value => simp only [cmdIsMember, setIsMember, stored, isSet]
    | @roaring bitmap set well members =>
      obtain ⟨found, run, isFound⟩ := roaringBitmapContains_spec well (narrow ((parse arg).getD (-1)))
      have same : found = decide (residue ((parse arg).getD (-1)) ∈ set) := by
        rw [Bool.eq_iff_iff, isFound, members, narrow_eq_residue, decide_eq_true_iff]
      simp only [cmdIsMember, setIsMember, stored, isSet, run, ok_bind, pure_eq, same]

/-- **The handlers answer as the abstract store.** -/
theorem exec_refines [Kind A] [Accumulates A P] (holds : HoldsAll P keyspace store) (invocation : Invocation) :
    Refines P keyspace (exec parse keyspace invocation) (setExec parse store invocation) := by
  obtain ⟨command, args⟩ := invocation
  cases command with
  | add => exact cmdAddOrRemove_refines parse holds true args
  | remove => exact cmdAddOrRemove_refines parse holds false args
  | card => exact cmdCard_refines (A := A) holds args
  | members => exact cmdMembers_refines holds args
  | ismember => exact cmdIsMember_refines parse holds args

end Kind

end Handlers

end RedisRoaring
