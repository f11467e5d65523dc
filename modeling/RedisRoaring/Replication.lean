import RedisRoaring.SetStore

/-!
# Replication

A replica executes the invocations for which the handler called
`RedisModule_ReplicateVerbatim`. The others change nothing, so by log replay it
reaches the keyspace of its master after every prefix of a run. This holds of
every keyspace with well-formed bitmaps, also with runs among their containers
(`Hosts.replays`), and so of the reachable ones.
-/

namespace RedisRoaring

open Exec

variable {O : Type} {parse : RedisString → Option Int64} {keyspace : Keyspace O}

/-- Whether a reply is an error. -/
def Reply.isError : Reply → Bool
  | .error _ => true
  | .wrongArity => true
  | .array _ => false
  | .longLong _ => false

/-- The invocations of a run that are sent to the replicas. -/
def propagated (parse : RedisString → Option Int64) (keyspace : Keyspace O) (run : List Invocation) : List Invocation :=
  logOf (exec parse) Answer.replicated keyspace run

/-- What is replicated has no error among its replies. -/
theorem Settles.silent_of_error {store : SetStore O} {outcome : SetStore O × Answer} (settles : Settles store outcome)
    (failed : outcome.2.replies.any Reply.isError = true ∨ outcome.2.status = .redismoduleErr) :
    outcome.2.replicated = false := by
  cases settles with
  | quiet silent => exact silent
  | loud _ replies status =>
    rw [replies, status] at failed
    simp [Reply.isError] at failed

section Hosted

variable {P : Container → Prop} [Stored P]

/-- **Failure atomicity.** Over well-formed bitmaps an invocation leaves
well-formed bitmaps; one that is not replicated leaves the keyspace as it was,
and so does one that answers with an error. -/
theorem Hosts.exec_frame (hosts : Hosts P keyspace) (invocation : Invocation) :
    ∃ keyspace' answer, exec parse keyspace invocation = .ok (keyspace', answer) ∧ Hosts P keyspace' ∧
      (answer.replicated = false → keyspace' = keyspace) ∧
      (answer.replies.any Reply.isError = true ∨ answer.status = .redismoduleErr → keyspace' = keyspace) := by
  obtain ⟨keyspace', run, holds, quiet⟩ := (exec_refines (A := Container.Valid) parse hosts.holdsAll invocation).refines
  exact ⟨keyspace', _, run, holds.hosts, quiet, fun failed =>
    quiet ((setExec_settles parse _ invocation).silent_of_error failed)⟩

/-- **Replicas of well-formed bitmaps.** After every prefix of a run the replica,
which has executed what was propagated of the prefix, has the keyspace of the
master. -/
theorem Hosts.replays (hosts : Hosts P keyspace) (before after : List Invocation) :
    ∃ keyspace' answers answers', runAll (exec parse) keyspace before = .ok (keyspace', answers) ∧
      runAll (exec parse) keyspace (propagated parse keyspace before) = .ok (keyspace', answers') ∧
      propagated parse keyspace (before ++ after) =
        propagated parse keyspace before ++ propagated parse keyspace' after ∧ Hosts P keyspace' := by
  have frame : ∀ (keyspace : Keyspace O) (invocation : Invocation), Hosts P keyspace →
      ∃ keyspace' answer, exec parse keyspace invocation = .ok (keyspace', answer) ∧ Hosts P keyspace' ∧
        (answer.replicated = false → keyspace' = keyspace) := by
    intro keyspace invocation hosts
    obtain ⟨keyspace', answer, run, hosts', quiet, -⟩ := hosts.exec_frame invocation
    exact ⟨keyspace', answer, run, hosts', quiet⟩
  obtain ⟨keyspace', answers, answers', master, replica, hosts'⟩ := replay_eq frame before hosts
  exact ⟨keyspace', answers, answers', master, replica, logOf_append master, hosts'⟩

end Hosted

theorem Reachable.hosts (reachable : Reachable parse keyspace) : Hosts Container.Plain keyspace :=
  fun _ _ stored => (reachable.well stored).1

/-- **Failure atomicity.** An invocation that is not replicated leaves the
keyspace as it was, and so does one that answers with an error. -/
theorem Reachable.exec_frame (reachable : Reachable parse keyspace) (invocation : Invocation) :
    ∃ keyspace' answer, exec parse keyspace invocation = .ok (keyspace', answer) ∧
      (answer.replicated = false → keyspace' = keyspace) ∧
      (answer.replies.any Reply.isError = true ∨ answer.status = .redismoduleErr → keyspace' = keyspace) := by
  obtain ⟨keyspace', answer, run, -, frames⟩ := reachable.hosts.exec_frame invocation
  exact ⟨keyspace', answer, run, frames⟩

/-- **Replica convergence.** After every prefix of a run the replica, which has
executed what was propagated of the prefix, has the keyspace of the master; and
at that point an invocation that is not propagated, or fails, changes nothing. -/
theorem replica_converges (reachable : Reachable parse keyspace) (before after : List Invocation) :
    ∃ keyspace' answers answers', runAll (exec parse) keyspace before = .ok (keyspace', answers) ∧
      runAll (exec parse) keyspace (propagated parse keyspace before) = .ok (keyspace', answers') ∧
      propagated parse keyspace (before ++ after) =
        propagated parse keyspace before ++ propagated parse keyspace' after ∧
      ∀ invocation, ∃ keyspace'' answer, exec parse keyspace' invocation = .ok (keyspace'', answer) ∧
        (answer.replicated = false → keyspace'' = keyspace') ∧
        (answer.replies.any Reply.isError = true ∨ answer.status = .redismoduleErr → keyspace'' = keyspace') := by
  obtain ⟨keyspace', answers, answers', master, replica, prefixes, -⟩ :=
    reachable.hosts.replays before after
  exact ⟨keyspace', answers, answers', master, replica, prefixes, (reachable.runAll master).exec_frame⟩

/-- `ROARING.ADD k 7 x`, `ROARING.ADD k 8`, `ROARING.CARD k ! !` and `ROARING.REMOVE k 7`. -/
def exampleRun : List Invocation :=
  [⟨.add, [exampleKey, [0x37], [0x78]]⟩, ⟨.add, [exampleKey, [0x38]]⟩, ⟨.card, [exampleKey, bang, bang]⟩,
    ⟨.remove, [exampleKey, [0x37]]⟩]

theorem example_replica_converges :
    ∃ keyspace' answers answers', runAll (exec decimal) exampleKeyspace exampleRun = .ok (keyspace', answers) ∧
      runAll (exec decimal) exampleKeyspace (propagated decimal exampleKeyspace exampleRun) =
        .ok (keyspace', answers') := by
  obtain ⟨keyspace', answers, answers', master, replica, -⟩ := replica_converges example_reachable exampleRun []
  exact ⟨keyspace', answers, answers', master, replica⟩

end RedisRoaring
