import Mathlib.Data.Finset.SDiff
import Mathlib.Logic.Function.Basic

/-!
# A store of finite sets

What a keyed store of sets is for: every key has a finite set, and an update
inserts values into the set of one key or erases values from it. A key without
a set has the empty one.
-/

namespace KeyedSets

variable {K V : Type} [DecidableEq K] [DecidableEq V]

/-- An update of the set of one key. -/
inductive Update (K V : Type) where
  | insert (key : K) (values : Finset V)
  | erase (key : K) (values : Finset V)

/-- The key that an update is about. -/
def Update.key : Update K V → K
  | insert key _ => key
  | erase key _ => key

/-- What an update makes of the set of its key. -/
def Update.act : Update K V → Finset V → Finset V
  | insert _ values, set => set ∪ values
  | erase _ values, set => set \ values

/-- The store after an update. -/
def Update.apply (sets : K → Finset V) (update : Update K V) : K → Finset V :=
  Function.update sets update.key (update.act (sets update.key))

/-- The store after at most one update. -/
def applyOption (sets : K → Finset V) : Option (Update K V) → K → Finset V
  | none => sets
  | some update => update.apply sets

variable {sets : K → Finset V} {key : K} {v : V}

/-- An update inserts a value if it is an insertion, for this key, that names it. -/
def Update.Inserts (update : Update K V) (key : K) (v : V) : Prop :=
  ∃ values, update = .insert key values ∧ v ∈ values

/-- A member after an update was one before, or the update inserts it. -/
theorem mem_apply {update : Update K V} (member : v ∈ update.apply sets key) :
    v ∈ sets key ∨ update.Inserts key v := by
  by_cases here : key = update.key
  · subst here
    rw [Update.apply, Function.update_self] at member
    cases update with
    | insert key values =>
      rcases Finset.mem_union.1 member with before | named
      · exact .inl before
      · exact .inr ⟨values, rfl, named⟩
    | erase key values => exact .inl (Finset.mem_sdiff.1 member).1
  · rw [Update.apply, Function.update_of_ne here] at member
    exact .inl member

/-- **Provenance.** A member after a run was one from the beginning, or some
command of the run inserted it. -/
theorem mem_foldl_apply {α : Type} {effect : α → Option (Update K V)} {commands : List α} {sets : K → Finset V}
    (member : v ∈ commands.foldl (fun sets command => applyOption sets (effect command)) sets key) :
    v ∈ sets key ∨ ∃ command ∈ commands, ∃ update, effect command = some update ∧ update.Inserts key v := by
  induction commands generalizing sets with
  | nil => exact .inl member
  | cons command commands ih =>
    rw [List.foldl_cons] at member
    rcases ih member with before | ⟨later, inside, update, isEffect, inserts⟩
    · cases isEffect : effect command with
      | none => exact .inl (by rwa [isEffect] at before)
      | some update =>
        rw [isEffect] at before
        rcases mem_apply before with start | inserts
        · exact .inl start
        · exact .inr ⟨command, by simp, update, isEffect, inserts⟩
    · exact .inr ⟨later, List.mem_cons_of_mem _ inside, update, isEffect, inserts⟩

/-- What an update inserts is a member after it. -/
theorem Update.Inserts.mem_apply {update : Update K V} (inserts : update.Inserts key v) :
    v ∈ update.apply sets key := by
  obtain ⟨values, rfl, named⟩ := inserts
  show v ∈ Function.update sets key (sets key ∪ values) key
  rw [Function.update_self]
  exact Finset.mem_union_right _ named

/-- **Absence.** From empty sets, a value is in no set after any prefix of a run
exactly when no command of the run inserts it. -/
theorem never_mem_iff {α : Type} {effect : α → Option (Update K V)} {commands : List α} :
    (∀ before after key, commands = before ++ after →
      v ∉ before.foldl (fun sets command => applyOption sets (effect command)) (fun _ => ∅) key) ↔
    ∀ command ∈ commands, ∀ update key, effect command = some update → ¬ update.Inserts key v := by
  constructor
  · intro never command inside update key isEffect inserts
    obtain ⟨before, after, split⟩ := List.append_of_mem inside
    -- the prefix that ends with the command has the value
    apply never (before ++ [command]) after key
    · rw [split, List.append_assoc]
      rfl
    · rw [List.foldl_append, List.foldl_cons, List.foldl_nil, isEffect]
      exact inserts.mem_apply
  · intro none before after key split member
    rcases mem_foldl_apply member with start | ⟨command, inside, update, isEffect, inserts⟩
    · exact Finset.notMem_empty v start
    · exact none command (split ▸ List.mem_append_left _ inside) update key isEffect inserts

end KeyedSets
