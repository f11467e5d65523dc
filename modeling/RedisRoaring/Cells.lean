import RedisRoaring.Histories
import RedisRoaring.Library.Absorption

/-!
# One key at a time

What an event does to the value of one key depends on that value alone. So a
history is, for each key, a list of acts: values united with the set or taken
from it, and values that replace whatever was there.
-/

namespace RedisRoaring

open Exec Absorption

variable {O : Type} (parse : RedisString → Option Int64)

/-! ## Acts -/

/-- What an event does to the value of one key. -/
inductive KeyAct (O : Type) where
  | keep
  | unite (values : Finset UInt32)
  | subtract (values : Finset UInt32)
  | become (value : Option (SetValue O))

/-- A set as REMOVE leaves it: the key of an empty one is deleted. -/
def leftBehind (set : Finset UInt32) : Option (SetValue O) := if set = ∅ then none else some (.set set)

/-- The value of a key after an act. -/
def KeyAct.apply (value : Option (SetValue O)) : KeyAct O → Option (SetValue O)
  | .keep => value
  | .become value => value
  | .unite values =>
    match value with
    | none => some (.set values)
    | some (.set set) => some (.set (set ∪ values))
    | some (.other value) => some (.other value)
  | .subtract values =>
    match value with
    | none => none
    | some (.set set) => leftBehind (set \ values)
    | some (.other value) => some (.other value)

section Acts

variable {store : SetStore O} {key : RedisString}

end Acts

/-! ## Replays -/

/-- The members of a value: other values have none. -/
def membersOf : Option (SetValue O) → Finset UInt32
  | some (.set set) => set
  | some (.other _) => ∅
  | none => ∅

@[simp] theorem membersOf_set (set : Finset UInt32) : membersOf (some (.set set) : Option (SetValue O)) = set := rfl

@[simp] theorem membersOf_none : membersOf (none : Option (SetValue O)) = ∅ := rfl

/-- The value is a set, or there is none. -/
def IsNative : Option (SetValue O) → Prop
  | some (.set _) => True
  | some (.other _) => False
  | none => True

/-- What an act names: the values it unites or subtracts. -/
def KeyAct.named : KeyAct O → Option (Finset UInt32)
  | .unite values => some values
  | .subtract values => some values
  | .keep => none
  | .become _ => none

/-- What an act cannot tell apart: the members that it names. -/
inductive AgreeOutside (values : Finset UInt32) : Option (SetValue O) → Option (SetValue O) → Prop where
  | same (value : Option (SetValue O)) : AgreeOutside values value value
  | sets {value value' : Option (SetValue O)} (native : IsNative value) (native' : IsNative value')
      (members : ∀ v ∉ values, v ∈ membersOf value ↔ v ∈ membersOf value') : AgreeOutside values value value'

section Values

variable {value value' : Option (SetValue O)} {values : Finset UInt32}

theorem membersOf_leftBehind (set : Finset UInt32) : membersOf (leftBehind set : Option (SetValue O)) = set := by
  unfold leftBehind
  split
  · next empty => exact empty.symm
  · rfl

theorem isNative_leftBehind (set : Finset UInt32) : IsNative (leftBehind set : Option (SetValue O)) := by
  unfold leftBehind
  split <;> trivial

theorem apply_unite (native : IsNative value) :
    KeyAct.apply value (.unite values) = some (.set (membersOf value ∪ values)) := by
  match value, native with
  | none, _ => simp [KeyAct.apply, membersOf]
  | some (.set set), _ => rfl

theorem apply_subtract (native : IsNative value) :
    KeyAct.apply value (.subtract values) = leftBehind (membersOf value \ values) := by
  match value, native with
  | none, _ => simp [KeyAct.apply, membersOf, leftBehind]
  | some (.set set), _ => rfl

/-- Agreement outside some members is kept by every act. -/
theorem AgreeOutside.apply (agree : AgreeOutside values value value') (act : KeyAct O) :
    AgreeOutside values (KeyAct.apply value act) (KeyAct.apply value' act) := by
  cases agree with
  | same => exact .same _
  | sets native native' members =>
    cases act with
    | keep => exact .sets native native' members
    | become new => exact .same new
    | unite named =>
      rw [apply_unite native, apply_unite native']
      refine .sets trivial trivial fun v outside => ?_
      simp [members v outside]
    | subtract named =>
      rw [apply_subtract native, apply_subtract native']
      refine .sets (isNative_leftBehind _) (isNative_leftBehind _) fun v outside => ?_
      simp [membersOf_leftBehind, members v outside]

end Values

end RedisRoaring
