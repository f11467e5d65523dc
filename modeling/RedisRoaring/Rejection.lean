import RedisRoaring.Card
import RedisRoaring.Numbers

/-!
# Strings that are no numbers

ADD and REMOVE refuse a string that does not parse. ISMEMBER ignores the failure
and looks up the `-1` that its variable started from, which is 4294967295 in 32
bits. So a rejected string passes for a member of every set with 4294967295, and
a run is free of this exactly when no ADD of it names that residue. What the
parser leaves in its output on failure is not to blame: whatever it is, some
reachable set has it.
-/

namespace RedisRoaring

open Exec KeyedSets

variable {O : Type} {parse : RedisString → Option Int64} {keyspace : Keyspace O} {key arg : RedisString}

/-! ## The property -/

/-- What ISMEMBER looks up for a string that does not parse: the cast of `-1`. -/
def unparsed : UInt32 := narrow (-1)

theorem unparsed_eq : unparsed = 4294967295 := by decide

/-- The three commands agree that a string denotes no member of a key: ADD and
REMOVE refuse it wherever it stands among their values and change nothing, and
ISMEMBER does not reply 1. -/
structure DenotesNone (parse : RedisString → Option Int64) (keyspace : Keyspace O) (key arg : RedisString) : Prop where
  add : ∀ front back, exec parse keyspace ⟨.add, key :: (front ++ arg :: back)⟩ =
    .ok (keyspace, .failing "Invalid argument, expects <key> <int>...")
  remove : ∀ front back, exec parse keyspace ⟨.remove, key :: (front ++ arg :: back)⟩ =
    .ok (keyspace, .failing "Invalid argument, expects <key> <int>...")
  ismember : ∃ answer, exec parse keyspace ⟨.ismember, [key, arg]⟩ = .ok (keyspace, answer) ∧
    answer.replies ≠ [.longLong 1]

/-- In every state of a run, a string that does not parse denotes no member of any bitmap. -/
def RunDenotesNone (parse : RedisString → Option Int64) (foreign : RedisString → Option O) (run : List Invocation) :
    Prop :=
  ∀ before after, run = before ++ after →
    ∃ keyspace answers, runAll (exec parse) (freshKeyspace foreign) before = .ok (keyspace, answers) ∧
      ∀ key bitmap, keyspace key = some (.roaring bitmap) → ∀ arg, parse arg = none → DenotesNone parse keyspace key arg

/-- An accepted ADD that names a number with the given residue. -/
def Invocation.Adds (parse : RedisString → Option Int64) (foreign : RedisString → Option O) (v : UInt32) :
    Invocation → Prop
  | ⟨.add, key :: args⟩ =>
    foreign key = none ∧ ∃ values, args.mapM parse = some values ∧ ∃ value ∈ values, residue value = v
  | _ => False

/-! ## What the handlers make of a rejected string -/

/-- One rejected string makes the list rejected. -/
theorem mapM_rejected (rejected : parse arg = none) (front back : List RedisString) :
    (front ++ arg :: back).mapM parse = none := by
  induction front with
  | nil => rw [List.nil_append, List.mapM_cons, rejected]; rfl
  | cons first front ih =>
    rw [List.cons_append, List.mapM_cons, ih]
    cases parse first <;> rfl

/-- ADD and REMOVE refuse a rejected string, wherever it stands. -/
theorem cmdAddOrRemove_rejected (adding : Bool) (rejected : parse arg = none) (front back : List RedisString) :
    cmdAddOrRemove parse keyspace adding (key :: (front ++ arg :: back)) =
      .ok (keyspace, .failing "Invalid argument, expects <key> <int>...") := by
  have none := mapM_rejected rejected front back
  obtain ⟨first, rest, split⟩ := List.exists_cons_of_ne_nil (show front ++ arg :: back ≠ [] by simp)
  rw [split] at none ⊢
  simp only [cmdAddOrRemove, none]

/-- ISMEMBER takes a rejected string for 4294967295. -/
theorem cmdIsMember_rejected {bitmap : RoaringBitmap} (well : bitmap.Well Container.Plain)
    (stored : keyspace key = some (.roaring bitmap)) (rejected : parse arg = none) :
    ∃ answer, cmdIsMember parse keyspace [key, arg] = .ok (keyspace, answer) ∧
      (answer.replies = [.longLong 1] ↔ unparsed ∈ bitmap.values) := by
  obtain ⟨answer, run, -, confirms⟩ := replying_contains well unparsed
  have looked : narrow ((parse arg).getD (-1)) = unparsed := by rw [rejected]; rfl
  refine ⟨answer, ?_, confirms⟩
  simp only [cmdIsMember, stored, looked]
  exact run

/-- A rejected string denotes no member of a bitmap exactly when the bitmap lacks 4294967295. -/
theorem denotesNone_iff {bitmap : RoaringBitmap} (well : bitmap.Well Container.Plain)
    (stored : keyspace key = some (.roaring bitmap)) (rejected : parse arg = none) :
    DenotesNone parse keyspace key arg ↔ unparsed ∉ bitmap.values := by
  obtain ⟨answer, run, confirms⟩ := cmdIsMember_rejected well stored rejected
  constructor
  · intro denotesNone member
    obtain ⟨answer', run', refused⟩ := denotesNone.ismember
    obtain ⟨-, rfl⟩ := Prod.mk.inj (Except.ok.inj (run.symm.trans run'))
    exact refused (confirms.2 member)
  · intro absent
    exact
      { add := cmdAddOrRemove_rejected true rejected
        remove := cmdAddOrRemove_rejected false rejected
        ismember := ⟨answer, run, mt confirms.1 absent⟩ }

/-! ## Runs -/

section Runs

variable {foreign : RedisString → Option O} {run : List Invocation} {v : UInt32}

/-- An invocation adds a residue when its effect on the abstract store inserts it. -/
theorem adds_iff {invocation : Invocation} : invocation.Adds parse foreign v ↔
    ∃ update key, effect parse foreign invocation = some update ∧ update.Inserts key v := by
  constructor
  · intro adds
    unfold Invocation.Adds at adds
    split at adds
    · rename_i key args
      obtain ⟨native, values, accepted, value, named, same⟩ := adds
      cases args with
      | nil =>
        rw [← Option.some.inj accepted] at named
        cases named
      | cons arg args =>
        refine ⟨.insert key (values.map residue).toFinset, key, ?_, _, rfl, ?_⟩
        · simp [effect, residues, native, accepted]
        · exact List.mem_toFinset.2 (List.mem_map.2 ⟨value, named, same⟩)
    · exact adds.elim
  · intro given
    obtain ⟨update, key, isEffect, inserts⟩ := given
    obtain ⟨args, values, rfl, native, accepted, named⟩ := effect_inserts isEffect inserts
    exact ⟨native, values, accepted, named⟩

/-- A residue is never in a set of a run that no ADD of the run names. -/
theorem never_in_sets_iff : (∀ before after key, run = before ++ after → v ∉ setsAfter parse foreign before key) ↔
    ∀ invocation ∈ run, ¬ invocation.Adds parse foreign v := by
  simp only [adds_iff, not_exists, not_and]
  exact never_mem_iff

/-- Along a run rejected strings denote no member exactly when there is none, or
no set ever has 4294967295. -/
theorem runDenotesNone_iff_absent : RunDenotesNone parse foreign run ↔
    (∀ arg, parse arg ≠ none) ∨
      ∀ before after key, run = before ++ after → unparsed ∉ setsAfter parse foreign before key := by
  constructor
  · intro denotesNone
    by_cases total : ∀ arg, parse arg ≠ none
    · exact .inl total
    · right
      intro before after key split member
      obtain ⟨arg, rejected⟩ := not_forall.1 total
      obtain ⟨keyspace, answers, done, refuses⟩ := denotesNone before after split
      obtain ⟨keyspace', answers', done', all, -⟩ := runAll_spec parse foreign before
      obtain ⟨rfl, -⟩ := Prod.mk.inj (Except.ok.inj (done.symm.trans done'))
      obtain ⟨bitmap, stored⟩ := (all.exists_roaring_iff key).2 ⟨_, member⟩
      obtain ⟨well, members, -⟩ := all.roaring stored
      have none := not_not.1 rejected
      exact (denotesNone_iff well stored none).1 (refuses key bitmap stored arg none) ((members _).2 member)
  · intro condition before after split
    obtain ⟨keyspace, answers, done, all, -⟩ := runAll_spec parse foreign before
    refine ⟨keyspace, answers, done, ?_⟩
    intro key bitmap stored arg rejected
    obtain ⟨well, members, -⟩ := all.roaring stored
    rcases condition with total | absent
    · exact absurd rejected (total arg)
    · exact (denotesNone_iff well stored rejected).2 (mt (members _).1 (absent before after key split))

end Runs

/-! ## What the parser leaves in its output -/

/-- `RedisModule_StringToLongLong` with its output: the status, and what stands
in the output after the call, from what stood there before. -/
abbrev StringToLongLong := RedisString → Int64 → Status × Int64

/-- The integer comes from the output when the call succeeds, and from nowhere else. -/
structure StringToLongLong.Parses (stringToLongLong : StringToLongLong) (parse : RedisString → Option Int64) :
    Prop where
  accepted : ∀ s value, parse s = some value → ∀ ll, stringToLongLong s ll = (.redismoduleOk, value)
  rejected : ∀ s, parse s = none → ∀ ll, (stringToLongLong s ll).1 = .redismoduleErr

/-- A failed call writes nothing. -/
def StringToLongLong.Untouched (stringToLongLong : StringToLongLong) : Prop :=
  ∀ s ll, (stringToLongLong s ll).1 = .redismoduleErr → (stringToLongLong s ll).2 = ll

/-- `cmdIsMember` over the output of the parser, whose status it ignores. -/
def cmdIsMemberAt (stringToLongLong : StringToLongLong) (keyspace : Keyspace O) :
    List RedisString → Outcome (Keyspace O × Answer)
  | [key, arg] =>
    match keyspace key with
    | none => .ok (keyspace, .replying [.longLong 0])
    | some (.other _) => .ok (keyspace, .failing errormsgWrongtype)
    | some (.roaring bitmap) => do
      let (_, value) := stringToLongLong arg (-1)
      let contains ← roaringBitmapContains bitmap (narrow value)
      return (keyspace, .replying [.longLong contains.toNat])
  | _ => .ok (keyspace, .wrongArity)

/-- Over a parser that writes nothing on failure the two handlers agree. -/
theorem cmdIsMemberAt_eq {stringToLongLong : StringToLongLong} (parses : stringToLongLong.Parses parse)
    (untouched : stringToLongLong.Untouched) (args : List RedisString) :
    cmdIsMemberAt stringToLongLong keyspace args = cmdIsMember parse keyspace args := by
  have left : ∀ arg, (stringToLongLong arg (-1)).2 = (parse arg).getD (-1) := by
    intro arg
    cases parsed : parse arg with
    | none => exact untouched arg (-1) (parses.rejected arg parsed (-1))
    | some value => rw [parses.accepted arg value parsed (-1), Option.getD_some]
  match args with
  | [] => rfl
  | [_] => rfl
  | _ :: _ :: _ :: _ => rfl
  | [key, arg] =>
    cases stored : keyspace key with
    | none => simp only [cmdIsMemberAt, cmdIsMember, stored]
    | some value =>
      cases value with
      | other value => simp only [cmdIsMemberAt, cmdIsMember, stored]
      | roaring bitmap => simp only [cmdIsMemberAt, cmdIsMember, stored, left]

/-- ISMEMBER confirms a string exactly when the cast of what the parser leaves is a member. -/
theorem cmdIsMemberAt_spec (stringToLongLong : StringToLongLong) (arg : RedisString) {bitmap : RoaringBitmap}
    (well : bitmap.Well Container.Plain) (stored : keyspace key = some (.roaring bitmap)) :
    ∃ answer, cmdIsMemberAt stringToLongLong keyspace [key, arg] = .ok (keyspace, answer) ∧
      (answer.replies = [.longLong 1] ↔ narrow (stringToLongLong arg (-1)).2 ∈ bitmap.values) := by
  obtain ⟨answer, run, -, confirms⟩ := replying_contains well (narrow (stringToLongLong arg (-1)).2)
  refine ⟨answer, ?_, confirms⟩
  simp only [cmdIsMemberAt, stored]
  exact run

/-- Whatever the parser leaves for a string, a single ADD makes ISMEMBER confirm it. -/
theorem confirms_whatever_left (stringToLongLong : StringToLongLong) (key arg : RedisString) :
    ∃ keyspace : Keyspace Unit, Reachable decimal keyspace ∧
      ∃ answer, cmdIsMemberAt stringToLongLong keyspace [key, arg] = .ok (keyspace, answer) ∧
        answer.replies = [.longLong 1] := by
  let left := narrow (stringToLongLong arg (-1)).2
  let history : List Invocation := [⟨.add, key :: [left.toNat].map numeral⟩]
  obtain ⟨keyspace, answers, done, all, -⟩ := runAll_spec decimal (fun _ => (none : Option Unit)) history
  have small : ∀ n ∈ [left.toNat], n < 2 ^ 32 := by simp [left.toNat_lt]
  have member : left ∈ setsAfter decimal (fun _ => (none : Option Unit)) history key := by
    rw [setsAfter, List.foldl_cons, List.foldl_nil, specStep_add_numerals rfl (by simp) small, Function.update_self]
    simp
  obtain ⟨bitmap, stored⟩ := (all.exists_roaring_iff key).2 ⟨_, member⟩
  obtain ⟨well, members, -⟩ := all.roaring stored
  obtain ⟨answer, run, confirms⟩ := cmdIsMemberAt_spec stringToLongLong arg well stored
  exact ⟨keyspace, (Reachable.fresh _).runAll done, answer, run, confirms.2 ((members left).2 member)⟩

/-! ## The main result -/

/-- **Rejected strings.** Along a run, strings that do not parse denote no member
exactly when there are none, or no accepted ADD of the run names an integer that
is 4294967295 modulo 2^32. -/
theorem rejected_strings_iff (foreign : RedisString → Option O) (run : List Invocation) :
    RunDenotesNone parse foreign run ↔
      (∀ arg, parse arg ≠ none) ∨ ∀ invocation ∈ run, ¬ invocation.Adds parse foreign 4294967295 := by
  rw [runDenotesNone_iff_absent, never_in_sets_iff, unparsed_eq]

/-- After `ROARING.ADD k 4294967295` ISMEMBER confirms `"x"`, which no command accepts as a member. -/
theorem string_taken_for_member :
    ¬ RunDenotesNone decimal (fun _ => (none : Option Unit)) [⟨.add, [exampleKey, numeral 4294967295]⟩] := by
  rw [runDenotesNone_iff_absent, never_in_sets_iff]
  intro condition
  rcases condition with total | none
  · exact total [0x78] (by decide)
  · have accepted := mapM_decimal_numeral (l := [4294967295]) (by decide)
    apply none _ (List.mem_singleton_self _)
    exact ⟨rfl, _, accepted, 4294967295, by decide, by decide⟩

end RedisRoaring
