import RedisRoaring.Reachable

/-!
# Which numbers are reported

Values are cast to 32 bits without a check, so 4294967296 is stored as 0. A run
takes every number as it is named exactly when its invocations are `Harmless`:
where an integer out of range is cast to a number that is stored, added or
removed, that number has been named as well.
-/

namespace RedisRoaring

open Exec KeyedSets

variable {O : Type} {parse : RedisString → Option Int64}

/-! ## The property -/

/-- An integer that 32 bits hold. -/
def InRange (value : Int64) : Prop := 0 ≤ value.toInt ∧ value.toInt < 2 ^ 32

instance (value : Int64) : Decidable (InRange value) := inferInstanceAs (Decidable (_ ∧ _))

/-- An accepted ADD of the run names the number for the key. -/
def Named (parse : RedisString → Option Int64) (run : List Invocation) (key : RedisString) (number : Int) : Prop :=
  ∃ args values, ⟨.add, key :: args⟩ ∈ run ∧ args.mapM parse = some values ∧ ∃ value ∈ values, value.toInt = number

/-- An invocation takes no number for another: what it reports was named, as
that number, by an ADD before, what it adds was named by now, and what it
removes it names itself. -/
structure TakesNumbersAsNamed (parse : RedisString → Option Int64) (before : List Invocation)
    (keyspace keyspace' : Keyspace O) (invocation : Invocation) (answer : Answer) : Prop where
  members : ∀ key, invocation = ⟨.members, [key]⟩ → ∀ number : Nat, .longLong number ∈ answer.replies →
    Named parse before key number
  ismember : ∀ key arg value, invocation = ⟨.ismember, [key, arg]⟩ → parse arg = some value →
    answer.replies = [.longLong 1] → InRange value ∧ Named parse before key value.toInt
  add : ∀ key args, invocation = ⟨.add, key :: args⟩ →
    ∀ v ∈ storedSet keyspace' key, v ∉ storedSet keyspace key → Named parse (before ++ [invocation]) key v.toNat
  remove : ∀ key args, invocation = ⟨.remove, key :: args⟩ →
    ∀ v ∈ storedSet keyspace key, v ∉ storedSet keyspace' key →
      ∃ values, args.mapM parse = some values ∧ ∃ value ∈ values, value.toInt = v.toNat

/-- Every invocation of a run takes no number for another. -/
def RunTakesNumbersAsNamed (parse : RedisString → Option Int64) (foreign : RedisString → Option O)
    (run : List Invocation) : Prop :=
  ∀ before invocation after, run = before ++ invocation :: after →
    ∃ keyspace answers keyspace' answer, runAll (exec parse) (freshKeyspace foreign) before = .ok (keyspace, answers) ∧
      exec parse keyspace invocation = .ok (keyspace', answer) ∧
      TakesNumbersAsNamed parse before keyspace keyspace' invocation answer

/-! ## The condition -/

/-- No integer out of range does harm where the sets are what they are: one that
ADD stores has a residue that an ADD names, this one or one before; one that
REMOVE names has a residue that is not in the set, or that the REMOVE names as
well; one that ISMEMBER names has a residue that is not in the set. -/
def Invocation.Harmless (parse : RedisString → Option Int64) (foreign : RedisString → Option O)
    (before : List Invocation) (sets : RedisString → Finset UInt32) : Invocation → Prop
  | ⟨.add, key :: args⟩ => foreign key = none → ∀ values, args.mapM parse = some values → ∀ value ∈ values,
      ¬ InRange value → Named parse (before ++ [⟨.add, key :: args⟩]) key (residue value).toNat
  | ⟨.remove, key :: args⟩ => ∀ values, args.mapM parse = some values → ∀ value ∈ values,
      ¬ InRange value → residue value ∈ sets key → ∃ other ∈ values, other.toInt = (residue value).toNat
  | ⟨.ismember, [key, arg]⟩ => ∀ value, parse arg = some value → ¬ InRange value → residue value ∉ sets key
  | _ => True

theorem Named.mono {run run' : List Invocation} {key : RedisString} {number : Int} (named : Named parse run key number)
    (more : run ⊆ run') : Named parse run' key number := by
  obtain ⟨args, values, inside, accepted, names⟩ := named
  exact ⟨args, values, more inside, accepted, names⟩

theorem toNat_residue {value : Int64} (inRange : InRange value) : ((residue value).toNat : Int) = value.toInt := by
  obtain ⟨low, high⟩ := inRange
  show (((value.toInt % 2 ^ 32).toNat % 2 ^ 32 : Nat) : Int) = _
  omega

section Effect

variable {foreign : RedisString → Option O} {sets : RedisString → Finset UInt32} {invocation : Invocation}
  {key : RedisString} {args : List RedisString} {v : UInt32}

theorem mem_residues {set : Finset UInt32} (some : residues parse args = some set)
    (member : v ∈ set) : ∃ values, args.mapM parse = .some values ∧ ∃ value ∈ values, residue value = v := by
  obtain ⟨values, parsed, rfl⟩ := Option.map_eq_some_iff.1 some
  obtain ⟨value, inside, same⟩ := List.mem_map.1 (List.mem_toFinset.1 member)
  exact ⟨values, parsed, value, inside, same⟩

/-- Only an accepted ADD for the key that names a number with this residue inserts a value. -/
theorem effect_inserts {update : Update RedisString UInt32} (isEffect : effect parse foreign invocation = some update)
    (inserts : update.Inserts key v) : ∃ args values, invocation = ⟨.add, key :: args⟩ ∧ foreign key = none ∧
      args.mapM parse = some values ∧ ∃ value ∈ values, residue value = v := by
  obtain ⟨set, rfl, member⟩ := inserts
  unfold effect at isEffect
  split at isEffect
  · split at isEffect
    · cases isEffect
    · rename_i native
      obtain ⟨set', parsed, same⟩ := Option.map_eq_some_iff.1 isEffect
      obtain ⟨rfl, rfl⟩ := Update.insert.inj same
      obtain ⟨values, accepted, named⟩ := mem_residues parsed member
      exact ⟨_, values, rfl, by simpa using native, accepted, named⟩
  · split at isEffect
    · cases isEffect
    · obtain ⟨set', -, same⟩ := Option.map_eq_some_iff.1 isEffect
      cases same
  · cases isEffect

/-- What a step adds to a set was named by its ADD, up to the residue. -/
theorem specStep_adds (member : v ∈ specStep parse foreign sets invocation key) (fresh : v ∉ sets key) :
    ∃ args values, invocation = ⟨.add, key :: args⟩ ∧ foreign key = none ∧ args.mapM parse = some values ∧
      ∃ value ∈ values, residue value = v := by
  unfold specStep at member
  cases isEffect : effect parse foreign invocation with
  | none =>
    rw [isEffect] at member
    exact absurd member fresh
  | some update =>
    rw [isEffect] at member
    rcases mem_apply member with before | inserts
    · exact absurd before fresh
    · exact effect_inserts isEffect inserts

/-- Only an accepted REMOVE that names a number with this residue takes a value away. -/
theorem effect_erases (member : v ∈ sets key)
    (gone : v ∉ specStep parse foreign sets ⟨.remove, key :: args⟩ key) :
    foreign key = none ∧ ∃ values, args.mapM parse = some values ∧ ∃ value ∈ values, residue value = v := by
  unfold specStep effect at gone
  split at gone
  · rename_i same
    cases same
  · rename_i key' arg args' same
    obtain ⟨rfl, rfl⟩ : key = key' ∧ args = arg :: args' := by simpa using same
    split at gone
    · exact absurd member gone
    · rename_i native
      cases isSet : residues parse (arg :: args') with
      | none =>
        rw [isSet] at gone
        exact absurd member gone
      | some set =>
        rw [isSet] at gone
        have inside : v ∈ set := by
          by_contra outside
          apply gone
          show v ∈ Function.update sets key (sets key \ set) key
          rw [Function.update_self]
          exact Finset.mem_sdiff.2 ⟨member, outside⟩
        exact ⟨by simpa using native, mem_residues isSet inside⟩
  · exact absurd member gone

/-- An accepted ADD stores the residue of what it names. -/
theorem residue_mem_specStep (sets : RedisString → Finset UInt32) {values : List Int64} (native : foreign key = none)
    (accepted : args.mapM parse = some values) {value : Int64} (inside : value ∈ values) :
    residue value ∈ specStep parse foreign sets ⟨.add, key :: args⟩ key := by
  cases args with
  | nil =>
    obtain rfl : [] = values := by simpa using accepted
    cases inside
  | cons arg args =>
    have isEffect : effect parse foreign ⟨.add, key :: arg :: args⟩ =
        some (.insert key (values.map residue).toFinset) := by
      simp [effect, native, residues, accepted]
    rw [specStep, isEffect]
    exact Update.Inserts.mem_apply ⟨_, rfl, List.mem_toFinset.2 (List.mem_map_of_mem inside)⟩

/-- An accepted REMOVE takes the residue of what it names away. -/
theorem residue_notMem_specStep (sets : RedisString → Finset UInt32) {values : List Int64} (native : foreign key = none)
    (accepted : args.mapM parse = some values) {value : Int64} (inside : value ∈ values) :
    residue value ∉ specStep parse foreign sets ⟨.remove, key :: args⟩ key := by
  cases args with
  | nil =>
    obtain rfl : [] = values := by simpa using accepted
    cases inside
  | cons arg args =>
    have isEffect : effect parse foreign ⟨.remove, key :: arg :: args⟩ =
        some (.erase key (values.map residue).toFinset) := by
      simp [effect, native, residues, accepted]
    rw [specStep, isEffect]
    show residue value ∉ Function.update sets key (sets key \ (values.map residue).toFinset) key
    rw [Function.update_self]
    intro member
    exact (Finset.mem_sdiff.1 member).2 (List.mem_toFinset.2 (List.mem_map_of_mem inside))

end Effect

/-! ## One invocation -/

section Invocations

variable {keyspace keyspace' : Keyspace O} {foreign : RedisString → Option O} {sets : RedisString → Finset UInt32}
  {before : List Invocation} {invocation : Invocation} {answer : Answer}

/-- A harmless invocation takes no number for another, when every stored value was named. -/
theorem Invocation.Harmless.takesNumbersAsNamed (harmless : invocation.Harmless parse foreign before sets)
    (all : RepresentsAll keyspace sets foreign)
    (all' : RepresentsAll keyspace' (specStep parse foreign sets invocation) foreign)
    (run : exec parse keyspace invocation = .ok (keyspace', answer))
    (explained : Explained parse foreign sets invocation answer)
    (named : ∀ key, ∀ v ∈ sets key, Named parse before key v.toNat) :
    TakesNumbersAsNamed parse before keyspace keyspace' invocation answer := by
  refine ⟨?_, ?_, ?_, ?_⟩
  · rintro key rfl number sent
    cases isForeign : foreign key with
    | some value =>
      have stored := (all.other_iff key value).2 isForeign
      simp only [exec, cmdMembers, stored, Except.ok.injEq, Prod.mk.injEq] at run
      rw [← run.2] at sent
      simp [Answer.failing] at sent
    | none =>
      obtain ⟨values, replies, -, members⟩ := explained.members key rfl isForeign
      rw [replies, membersReply, List.mem_cons] at sent
      rcases sent with header | sent
      · cases header
      · obtain ⟨v, inside, same⟩ := List.mem_map.1 sent
        rw [← Reply.longLong.inj same]
        exact named key v ((members v).1 inside)
  · rintro key arg value rfl parsed one
    have member := (explained.ismember key arg value rfl parsed).1 one
    have inRange : InRange value := by
      by_contra outside
      exact harmless value parsed outside member
    refine ⟨inRange, ?_⟩
    rw [← toNat_residue inRange]
    exact named key _ member
  · rintro key args rfl v member fresh
    rw [all'.storedSet_eq] at member
    rw [all.storedSet_eq] at fresh
    obtain ⟨args', values, same, native, accepted, value, inside, rfl⟩ := specStep_adds member fresh
    obtain rfl : args = args' := by simpa using same
    by_cases inRange : InRange value
    · exact ⟨args, values, by simp, accepted, value, inside, (toNat_residue inRange).symm⟩
    · exact harmless native values accepted value inside inRange
  · rintro key args rfl v member gone
    rw [all.storedSet_eq] at member
    rw [all'.storedSet_eq] at gone
    obtain ⟨-, values, accepted, value, inside, rfl⟩ := effect_erases member gone
    refine ⟨values, accepted, ?_⟩
    by_cases inRange : InRange value
    · exact ⟨value, inside, (toNat_residue inRange).symm⟩
    · exact harmless values accepted value inside inRange member

/-- And only a harmless one does. -/
theorem TakesNumbersAsNamed.harmless (asNamed : TakesNumbersAsNamed parse before keyspace keyspace' invocation answer)
    (all : RepresentsAll keyspace sets foreign)
    (all' : RepresentsAll keyspace' (specStep parse foreign sets invocation) foreign)
    (explained : Explained parse foreign sets invocation answer)
    (named : ∀ key, ∀ v ∈ sets key, Named parse before key v.toNat) :
    invocation.Harmless parse foreign before sets := by
  unfold Invocation.Harmless
  split
  · rename_i key args
    intro native values accepted value inside _
    have member := residue_mem_specStep sets native accepted inside
    by_cases old : residue value ∈ sets key
    · exact (named key _ old).mono (List.subset_append_left _ _)
    · rw [← all'.storedSet_eq] at member
      rw [← all.storedSet_eq] at old
      exact asNamed.add key args rfl _ member old
  · rename_i key args
    intro values accepted value inside _ member
    obtain ⟨bitmap, stored⟩ := (all.exists_roaring_iff key).2 ⟨_, member⟩
    have gone := residue_notMem_specStep sets (all.roaring stored).2.2.2 accepted inside
    rw [← all.storedSet_eq] at member
    rw [← all'.storedSet_eq] at gone
    obtain ⟨values', accepted', other⟩ := asNamed.remove key args rfl _ member gone
    obtain rfl : values = values' := Option.some.inj (accepted.symm.trans accepted')
    exact other
  · rename_i key arg
    intro value parsed outside member
    have one := (explained.ismember key arg value rfl parsed).2 member
    exact outside (asNamed.ismember key arg value rfl parsed one).1
  · trivial

end Invocations

/-! ## Runs -/

section Runs

variable {foreign : RedisString → Option O} {run : List Invocation}

/-- An invocation after a run, with the sets on both sides of it. -/
theorem exec_after (parse : RedisString → Option Int64) (foreign : RedisString → Option O) (before : List Invocation)
    (invocation : Invocation) :
    ∃ keyspace answers keyspace' answer, runAll (exec parse) (freshKeyspace foreign) before = .ok (keyspace, answers) ∧
      exec parse keyspace invocation = .ok (keyspace', answer) ∧
      RepresentsAll keyspace (setsAfter parse foreign before) foreign ∧
      RepresentsAll keyspace' (specStep parse foreign (setsAfter parse foreign before) invocation) foreign ∧
      Explained parse foreign (setsAfter parse foreign before) invocation answer := by
  obtain ⟨keyspace, answers, done, all, -⟩ := runAll_spec parse foreign before
  obtain ⟨keyspace', answer, run, all', -, explained⟩ := exec_spec parse all invocation
  exact ⟨keyspace, answers, keyspace', answer, done, run, all, all', explained⟩

/-- What a given run, and an invocation after it, have come to. -/
theorem represents_after {keyspace keyspace' : Keyspace O} {answers : List Answer} {invocation : Invocation}
    {answer : Answer} (done : runAll (exec parse) (freshKeyspace foreign) run = .ok (keyspace, answers))
    (here : exec parse keyspace invocation = .ok (keyspace', answer)) :
    RepresentsAll keyspace (setsAfter parse foreign run) foreign ∧
      RepresentsAll keyspace' (specStep parse foreign (setsAfter parse foreign run) invocation) foreign ∧
      Explained parse foreign (setsAfter parse foreign run) invocation answer := by
  obtain ⟨keyspace₂, answers₂, keyspace₂', answer₂, done₂, here₂, all, all', explained⟩ :=
    exec_after parse foreign run invocation
  obtain ⟨rfl, rfl⟩ := Prod.mk.inj (Except.ok.inj (done.symm.trans done₂))
  obtain ⟨rfl, rfl⟩ := Prod.mk.inj (Except.ok.inj (here.symm.trans here₂))
  exact ⟨all, all', explained⟩

/-- When every value is named by the time it is added, every stored value was named. -/
theorem named_of_mem_setsAfter
    (added : ∀ before invocation after, run = before ++ invocation :: after →
      ∀ key, ∀ v ∈ specStep parse foreign (setsAfter parse foreign before) invocation key,
        v ∉ setsAfter parse foreign before key → Named parse (before ++ [invocation]) key v.toNat) :
    ∀ key, ∀ v ∈ setsAfter parse foreign run key, Named parse run key v.toNat := by
  refine (foldl_loop (P := fun before sets => sets = setsAfter parse foreign before ∧
    ∀ key, ∀ v ∈ sets key, Named parse before key v.toNat) ?_ ?_).2
  · rintro before invocation after sets split ⟨rfl, named⟩
    refine ⟨?_, ?_⟩
    · rw [setsAfter, setsAfter, List.foldl_append]
      rfl
    · intro key v member
      by_cases old : v ∈ setsAfter parse foreign before key
      · exact (named key v old).mono (List.subset_append_left _ _)
      · exact added before invocation after split key v member old
  · exact ⟨rfl, by simp⟩

/-- In a harmless run every stored value was named. -/
theorem named_of_harmless (harmless : ∀ before invocation after, run = before ++ invocation :: after →
      invocation.Harmless parse foreign before (setsAfter parse foreign before)) :
    ∀ key, ∀ v ∈ setsAfter parse foreign run key, Named parse run key v.toNat := by
  refine named_of_mem_setsAfter ?_
  intro before invocation after split key v member fresh
  obtain ⟨args, values, rfl, native, accepted, value, inside, rfl⟩ := specStep_adds member fresh
  by_cases inRange : InRange value
  · exact ⟨args, values, by simp, accepted, value, inside, (toNat_residue inRange).symm⟩
  · exact harmless before _ after split native values accepted value inside inRange

/-- In a run that takes no number for another every stored value was named. -/
theorem named_of_takesNumbersAsNamed (asNamed : RunTakesNumbersAsNamed parse foreign run) :
    ∀ key, ∀ v ∈ setsAfter parse foreign run key, Named parse run key v.toNat := by
  refine named_of_mem_setsAfter ?_
  intro before invocation after split key v member fresh
  obtain ⟨keyspace, answers, keyspace', answer, done, here, takes⟩ := asNamed before invocation after split
  obtain ⟨all, all', -⟩ := represents_after done here
  obtain ⟨args, -, rfl, -⟩ := specStep_adds member fresh
  rw [← all'.storedSet_eq] at member
  rw [← all.storedSet_eq] at fresh
  exact takes.add key args rfl v member fresh

end Runs

/-! ## The main result -/

/-- **Numbers are taken as they are named** in a run exactly when no integer out
of range does harm in it. -/
theorem numbers_taken_as_named_iff (foreign : RedisString → Option O) (run : List Invocation) :
    RunTakesNumbersAsNamed parse foreign run ↔ ∀ before invocation after, run = before ++ invocation :: after →
      invocation.Harmless parse foreign before (setsAfter parse foreign before) := by
  constructor
  · intro asNamed before invocation after split
    obtain ⟨keyspace, answers, keyspace', answer, done, here, takes⟩ := asNamed before invocation after split
    obtain ⟨all, all', explained⟩ := represents_after done here
    -- the run before the invocation takes no number for another either
    have earlier : RunTakesNumbersAsNamed parse foreign before := by
      rintro before' invocation' after' rfl
      exact asNamed before' invocation' (after' ++ invocation :: after) (by simp [split])
    exact takes.harmless all all' explained (named_of_takesNumbersAsNamed earlier)
  · intro harmless before invocation after split
    obtain ⟨keyspace, answers, keyspace', answer, done, here, all, all', explained⟩ :=
      exec_after parse foreign before invocation
    refine ⟨keyspace, answers, keyspace', answer, done, here, ?_⟩
    refine (harmless before invocation after split).takesNumbersAsNamed all all' here explained ?_
    refine named_of_harmless ?_
    rintro before' invocation' after' rfl
    exact harmless before' invocation' (after' ++ invocation :: after) (by simp [split])

/-- The numeral 4294967303, of residue 7. -/
def exampleSeven : RedisString := [52, 50, 57, 52, 57, 54, 55, 51, 48, 51]

/-- The numeral 4294967304, of residue 8. -/
def exampleEight : RedisString := [52, 50, 57, 52, 57, 54, 55, 51, 48, 52]

/-- Integers out of range that do no harm: 7 is named beside 4294967303, and 8 is not stored. -/
def exampleHarmless : List Invocation :=
  [⟨.add, [exampleKey, [0x37], exampleSeven]⟩, ⟨.remove, [exampleKey, exampleEight]⟩, ⟨.ismember, [exampleKey, [0x37]]⟩,
    ⟨.ismember, [exampleKey, exampleEight]⟩, ⟨.members, [exampleKey]⟩]

theorem example_numbers_taken_as_named :
    RunTakesNumbersAsNamed decimal (fun _ => (none : Option Unit)) exampleHarmless := by
  refine (numbers_taken_as_named_iff _ exampleHarmless).2 ?_
  intro before invocation after split
  simp only [exampleHarmless] at split
  rcases before with _ | ⟨first, _ | ⟨second, _ | ⟨third, _ | ⟨fourth, _ | ⟨fifth, before⟩⟩⟩⟩⟩ <;>
    simp only [List.nil_append, List.cons_append, List.cons.injEq] at split
  · obtain ⟨rfl, -⟩ := split
    intro _ values accepted value inside _
    obtain rfl : [7, 4294967303] = values := Option.some.inj accepted
    refine ⟨_, _, List.mem_append_right _ (List.mem_singleton_self _), accepted, 7, by simp, ?_⟩
    -- both integers have the residue 7
    rcases List.mem_cons.1 inside with rfl | inside
    · decide
    · obtain rfl := List.mem_singleton.1 inside
      decide
  · obtain ⟨rfl, rfl, -⟩ := split
    intro values accepted value inside _ member
    obtain rfl : [4294967304] = values := Option.some.inj accepted
    obtain rfl := List.mem_singleton.1 inside
    exact absurd member (by decide)
  · obtain ⟨rfl, rfl, rfl, -⟩ := split
    intro value parsed outside
    obtain rfl : 7 = value := Option.some.inj parsed
    exact absurd (show InRange 7 by decide) outside
  · obtain ⟨rfl, rfl, rfl, rfl, -⟩ := split
    intro value parsed _
    obtain rfl : 4294967304 = value := Option.some.inj parsed
    decide
  · obtain ⟨rfl, rfl, rfl, rfl, rfl, -⟩ := split
    trivial
  · obtain ⟨-, -, -, -, -, none⟩ := split
    cases before <;> cases none

/-- The numeral 4294967296. -/
def exampleNumeral : RedisString := [52, 50, 57, 52, 57, 54, 55, 50, 57, 54]

/-- After `ROARING.ADD k 4294967296` MEMBERS reports 0, which nobody named. -/
theorem number_taken_for_another :
    ¬ RunTakesNumbersAsNamed decimal (fun _ => (none : Option Unit))
      [⟨.add, [exampleKey, exampleNumeral]⟩, ⟨.members, [exampleKey]⟩] := by
  intro taken
  obtain ⟨keyspace, answers, keyspace', answer, done, run, asNamed⟩ := taken [_] _ [] rfl
  obtain ⟨-, -, explained⟩ := represents_after done run
  obtain ⟨values, replies, -, members⟩ := explained.members exampleKey rfl rfl
  have zero : (0 : UInt32) ∈ values := (members 0).2 (by decide)
  obtain ⟨args, named, inside, accepted, value, isNamed, isZero⟩ := asNamed.members exampleKey rfl 0 (by
    rw [replies, membersReply]
    exact List.mem_cons_of_mem _ (List.mem_map_of_mem zero))
  obtain rfl : args = [exampleNumeral] := by simpa using inside
  rw [show named = [4294967296] from (Option.some.inj accepted).symm, List.mem_singleton] at isNamed
  rw [isNamed] at isZero
  exact absurd isZero (by decide)

end RedisRoaring
