import RedisRoaring.Payload
import RedisRoaring.SetStore

/-!
# The module inside a server

A server does more with a keyspace than run commands: it restores values from
payloads, saves and loads them again, deletes keys and overwrites them with
values of other types. `serve` is one such event; a restored value may hold run
containers, which no command makes. Over any history of events the server
answers as the abstract store (`server_run`), one event at a time
(`serve_refines`). Reloading is the one event that needs a condition: the list
form cannot hold the set of all values.
-/

namespace RedisRoaring

open Exec

variable {O : Type} (parse : RedisString → Option Int64)

/-! ## Events -/

/-- A payload that is safe to load, with what it stands for. -/
structure Payload where
  bytes : List UInt8
  contents : Option (Finset UInt32)
  denotes : Denotes bytes contents

/-- What happens to a keyspace. -/
inductive Event (O : Type) where
  /-- A client runs a command. -/
  | command (invocation : Invocation)
  /-- A value of a client or of a file is loaded under a key. -/
  | restore (key : RedisString) (payload : Payload)
  /-- The value of a key is saved and loaded again. -/
  | reload (key : RedisString)
  /-- A key is deleted, expires or is evicted. -/
  | drop (key : RedisString)
  /-- A key is given a value of another type. -/
  | put (key : RedisString) (value : O)

/-- Whether an event can be observed: a reload cannot. -/
def Event.observed : Event O → Bool
  | .reload _ => false
  | .command _ => true
  | .restore _ _ => true
  | .drop _ => true
  | .put _ _ => true

/-- What is reported of an event. -/
inductive Report where
  /-- The answer to a command. -/
  | answered (answer : Answer)
  /-- The server has changed a key and tells its replicas. -/
  | changed
  /-- Nobody is told. -/
  | silent
  deriving DecidableEq, Repr

/-- Whether replicas are told of the event. -/
def Report.logged : Report → Bool
  | .answered answer => answer.replicated
  | .changed => true
  | .silent => false

/-- Whether anybody is told of the event. -/
def Report.told : Report → Bool
  | .answered _ => true
  | .changed => true
  | .silent => false

/-- One event. A payload that is rejected leaves the keyspace as it was. -/
def serve (keyspace : Keyspace O) : Event O → Outcome (Keyspace O × Report)
  | .command invocation => do
    let (keyspace, answer) ← exec parse keyspace invocation
    return (keyspace, .answered answer)
  | .restore key payload => do
    match ← roaringRdbLoad payload.bytes with
    | some bitmap => return (Function.update keyspace key (some (.roaring bitmap)), .changed)
    | none => return (keyspace, .silent)
  | .reload key => do
    match keyspace key with
    | some (.roaring bitmap) =>
      let serialized ← roaringRdbSave bitmap
      match ← roaringRdbLoad serialized with
      | some bitmap => return (Function.update keyspace key (some (.roaring bitmap)), .silent)
      | none => return (keyspace, .silent)
    | _ => return (keyspace, .silent)
  | .drop key => return (Function.update keyspace key none, .changed)
  | .put key value => return (Function.update keyspace key (some (.other value)), .changed)

/-- One event on the abstract store: reloading changes nothing there. -/
def setServe (store : SetStore O) : Event O → SetStore O × Report
  | .command invocation => ((setExec parse store invocation).1, .answered (setExec parse store invocation).2)
  | .restore key payload =>
    match payload.contents with
    | some set => (Function.update store key (some (.set set)), .changed)
    | none => (store, .silent)
  | .reload _ => (store, .silent)
  | .drop key => (Function.update store key none, .changed)
  | .put key value => (Function.update store key (some (.other value)), .changed)

/-- A set that is reloaded is not the set of all values, whose number does not
fit the count of the list form. -/
def Reloadable (store : SetStore O) (event : Event O) : Prop :=
  ∀ key set, event = .reload key → store key = some (.set set) → set.card < 2 ^ 32

section Step

variable {keyspace : Keyspace O} {store : SetStore O}

/-- A reload leaves the abstract store as it was and is told to nobody. -/
theorem setServe_unobserved (store : SetStore O) (event : Event O) (reload : event.observed = false) :
    (setServe parse store event).1 = store ∧ (setServe parse store event).2.told = false := by
  cases event with
  | reload key => exact ⟨rfl, rfl⟩
  | command invocation => cases reload
  | restore key payload => cases reload
  | drop key => cases reload
  | put key value => cases reload

/-- A stored bitmap is reloaded with the values it has. -/
theorem reload_holds {key : RedisString} {bitmap : RoaringBitmap} {set : Finset UInt32}
    (well : bitmap.Well Container.Valid) (members : ∀ v, v ∈ bitmap.values ↔ v ∈ set) (small : set.card < 2 ^ 32)
    (stored : keyspace key = some (.roaring bitmap)) :
    ∃ bitmap', serve parse keyspace (.reload key) =
        .ok (Function.update keyspace key (some (.roaring bitmap')), .silent) ∧
      Holds Container.Valid (some (Value.roaring (O := O) bitmap')) (some (.set set)) := by
  have uncut : ¬ Cut bitmap := fun cut => Nat.not_lt.2 cut.2 (card_eq_length well members ▸ small)
  obtain ⟨bitmap', loaded, well', members'⟩ := roaringRdbLoad_uncut well uncut
  refine ⟨bitmap', ?_, .roaring well' fun v => (members' v).trans (members v)⟩
  simp only [serve, stored, roaringRdbSave_spec well, ok_bind, loaded, pure_eq]

/-- **One event.** It is answered as by the abstract store, and what is held
after it is held by the abstract store. -/
theorem serve_refines (keyspace : Keyspace O) (store : SetStore O) (event : Event O)
    (holds : HoldsAll Container.Valid keyspace store) (reloadable : Reloadable store event) :
    ∃ keyspace', serve parse keyspace event = .ok (keyspace', (setServe parse store event).2) ∧
      HoldsAll Container.Valid keyspace' (setServe parse store event).1 := by
  cases event with
  | command invocation =>
    obtain ⟨keyspace', run, holds', -⟩ := (exec_refines (A := Container.Valid) parse holds invocation).refines
    exact ⟨keyspace', by simp only [serve, run, ok_bind, pure_eq, setServe], holds'⟩
  | restore key payload =>
    obtain ⟨loaded, run, as⟩ := payload.denotes.load
    simp only [serve, run, ok_bind, pure_eq, setServe]
    generalize payload.contents = contents at as
    cases as with
    | rejected => exact ⟨keyspace, rfl, holds⟩
    | loaded well members => exact ⟨_, rfl, holds.update (.roaring well members)⟩
  | reload key =>
    have here := holds key
    generalize stored : keyspace key = value at here
    generalize isSet : store key = set at here
    cases here with
    | absent => exact ⟨keyspace, by simp only [serve, stored, pure_eq, setServe], holds⟩
    | other value => exact ⟨keyspace, by simp only [serve, stored, pure_eq, setServe], holds⟩
    | @roaring bitmap set well members =>
      obtain ⟨bitmap', run, again⟩ := reload_holds parse well members (reloadable key _ rfl isSet) stored
      refine ⟨_, run, ?_⟩
      have same : Function.update store key (some (.set set)) = store := by rw [← isSet, Function.update_eq_self]
      exact same ▸ holds.update again
  | drop key => exact ⟨_, rfl, holds.update .absent⟩
  | put key value => exact ⟨_, rfl, holds.update (.other value)⟩

end Step

/-! ## Histories -/

/-- The abstract store after a history from a keyspace without bitmaps. -/
def storeAfter (foreign : RedisString → Option O) (history : List (Event O)) : SetStore O :=
  (runPure (setServe parse) (freshStore foreign) history).1

/-- What the abstract store reports of a history. -/
def reportsOf (foreign : RedisString → Option O) (history : List (Event O)) : List Report :=
  (runPure (setServe parse) (freshStore foreign) history).2

/-- Wherever the history reloads a set, it is not the set of all values. -/
def ReloadsFit (foreign : RedisString → Option O) (history : List (Event O)) : Prop :=
  Along (setServe parse) Reloadable (freshStore foreign) history

section Run

variable {parse} {foreign : RedisString → Option O} {history events : List (Event O)}

/-- What is known after a history. -/
theorem server_run (fit : ReloadsFit parse foreign history) :
    ∃ keyspace, runAll (serve parse) (freshKeyspace foreign) history = .ok (keyspace, reportsOf parse foreign history) ∧
      HoldsAll Container.Valid keyspace (storeAfter parse foreign history) :=
  runAll_refines (serve_refines parse) fit (holdsAll_fresh foreign)

end Run

end RedisRoaring
