import Mathlib.Logic.Relation

/-!
# Executions that may fault

`Exec α` is the outcome of running a piece of C: a value, or the fault that
leaves the execution without a defined result. A specification of a fallible
function `f` says `∃ r, f x = .ok r ∧ Post r`, so it also says that no access
left its object and no assertion failed.

The rules below carry such specifications through loops and runs: `foldlM_loop`
is the rule for a loop over a list, `runAll_simulates` relates a run of commands
to an abstract run and explains its reports, and `replay_eq` is the log-replay
rule (dropping the steps that change nothing does not change the final state).
-/

namespace Exec

/-- Why an execution has no defined result. -/
inductive Fault where
  /-- An access outside the object it indexes. -/
  | outOfBounds
  /-- A signed addition or multiplication whose result does not fit. -/
  | overflow
  /-- A failed `assert`. -/
  | assertFailed
  /-- A read of memory that was never written. -/
  | uninitialized
  /-- A loop that did not stop within its bound. -/
  | outOfFuel
  deriving DecidableEq, Repr

/-- The outcome of an execution. -/
abbrev Outcome (α : Type) := Except Fault α

section Bind

variable {α β : Type}

@[simp] theorem ok_bind (a : α) (f : α → Outcome β) : (Except.ok a >>= f) = f a := rfl

@[simp] theorem error_bind (e : Fault) (f : α → Outcome β) :
    ((Except.error e : Outcome α) >>= f) = .error e := rfl

@[simp] theorem pure_eq (a : α) : (pure a : Outcome α) = .ok a := rfl

/-- A bound execution succeeds exactly when both halves do. -/
theorem bind_eq_ok {x : Outcome α} {f : α → Outcome β} {b : β} :
    (x >>= f) = .ok b ↔ ∃ a, x = .ok a ∧ f a = .ok b := by
  cases x with
  | error e => simp
  | ok a => simp

end Bind

section Read

variable {α : Type}

/-- A read at an index. -/
def readAt (l : List α) (i : Nat) : Outcome α :=
  match l[i]? with
  | some a => .ok a
  | none => .error .outOfBounds

theorem readAt_split {l pre post : List α} {a : α} {i : Nat} (split : l = pre ++ a :: post) (at_ : pre.length = i) :
    readAt l i = .ok a := by
  rw [readAt, split, ← at_, List.getElem?_append_right (Nat.le_refl _), Nat.sub_self]
  rfl

end Read

section Folds

variable {σ α : Type} {f : σ → α → Outcome σ} {P : List α → σ → Prop} {l : List α}

/-- **Loop rule.** `P` speaks of the elements the loop has been through. When
every round carries it on, the loop succeeds and `P` speaks of the whole list. -/
theorem foldlM_loop
    (round : ∀ seen a left s, l = seen ++ a :: left → P seen s → ∃ s', f s a = .ok s' ∧ P (seen ++ [a]) s')
    {s : σ} (start : P [] s) : ∃ s', l.foldlM f s = .ok s' ∧ P l s' := by
  -- by induction on what is left, for any stretch already seen
  have loop : ∀ left seen s, l = seen ++ left → P seen s → ∃ s', left.foldlM f s = .ok s' ∧ P l s' := by
    intro left
    induction left with
    | nil =>
      intro seen s split here
      rw [split, List.append_nil]
      exact ⟨s, rfl, here⟩
    | cons a left ih =>
      intro seen s split here
      obtain ⟨s', run, next⟩ := round seen a left s split here
      obtain ⟨s'', rest, done⟩ := ih (seen ++ [a]) s' (by rw [split, List.append_assoc]; rfl) next
      refine ⟨s'', ?_, done⟩
      rw [List.foldlM_cons, run]
      exact rest
  exact loop l [] s rfl start

/-- In a loop that succeeds every round does. -/
theorem foldlM_ok_step {a : α} {s s' : σ} (run : l.foldlM f s = .ok s') (inside : a ∈ l) : ∃ t t', f t a = .ok t' := by
  induction l generalizing s with
  | nil => cases inside
  | cons b l ih =>
    rw [List.foldlM_cons] at run
    obtain ⟨t, first, rest⟩ := bind_eq_ok.1 run
    rcases List.mem_cons.1 inside with rfl | later
    · exact ⟨s, t, first⟩
    · exact ih rest later

/-- A traversal that succeeds does so at every element. -/
theorem mapM_ok_mem {β : Type} {g : α → Outcome β} {a : α} {bs : List β} (run : l.mapM g = .ok bs) (inside : a ∈ l) :
    ∃ b, g a = .ok b := by
  induction l generalizing bs with
  | nil => cases inside
  | cons c l ih =>
    rw [List.mapM_cons] at run
    obtain ⟨b, first, rest⟩ := bind_eq_ok.1 run
    obtain ⟨bs', others, -⟩ := bind_eq_ok.1 rest
    rcases List.mem_cons.1 inside with rfl | later
    · exact ⟨b, first⟩
    · exact ih others later

/-- The loop rule for rounds that cannot fail. -/
theorem foldl_loop {g : σ → α → σ} (round : ∀ seen a left s, l = seen ++ a :: left → P seen s → P (seen ++ [a]) (g s a))
    {s : σ} (start : P [] s) : P l (l.foldl g s) := by
  obtain ⟨s', run, done⟩ : ∃ s', l.foldlM (fun s a => (.ok (g s a) : Outcome σ)) s = .ok s' ∧ P l s' :=
    foldlM_loop (fun seen a left s split here => ⟨_, rfl, round seen a left s split here⟩) start
  have pure_ : ∀ (l : List α) s, l.foldlM (fun s a => (.ok (g s a) : Outcome σ)) s = .ok (l.foldl g s) := by
    intro l
    induction l with
    | nil => exact fun s => rfl
    | cons a l ih => exact fun s => ih (g s a)
  rw [pure_] at run
  exact Except.ok.inj run ▸ done

end Folds

section Replay

variable {σ α ρ : Type}

/-- Run a list of commands, keeping what each one reported. -/
def runAll (exec : σ → α → Outcome (σ × ρ)) : σ → List α → Outcome (σ × List ρ)
  | s, [] => .ok (s, [])
  | s, a :: l => do
    let (s', r) ← exec s a
    let (s'', rs) ← runAll exec s' l
    return (s'', r :: rs)

variable {exec : σ → α → Outcome (σ × ρ)}

/-- A run of a nonempty list is its first command and then the rest. -/
theorem runAll_cons {s s' : σ} {a : α} {l : List α} {r : ρ} (first : exec s a = .ok (s', r)) :
    runAll exec s (a :: l) = (runAll exec s' l).map fun p => (p.1, r :: p.2) := by
  rw [runAll, first]
  cases h : runAll exec s' l <;> simp [h, Except.map]

/-- What each command of a run reported, against the abstract state before it. -/
inductive Reports {τ : Type} (step : τ → α → τ) (Q : τ → α → ρ → Prop) : τ → List α → List ρ → Prop where
  | nil {t : τ} : Reports step Q t [] []
  | cons {t : τ} {a : α} {r : ρ} {l : List α} {rs : List ρ} (first : Q t a r) (rest : Reports step Q (step t a) l rs) :
      Reports step Q t (a :: l) (r :: rs)

/-- The report at a position of the run. -/
theorem Reports.at_split {τ : Type} {step : τ → α → τ} {Q : τ → α → ρ → Prop} {pre post : List α} {a : α} {t : τ}
    {rs : List ρ} (reports : Reports step Q t (pre ++ a :: post) rs) :
    ∃ r, rs[pre.length]? = some r ∧ Q (pre.foldl step t) a r := by
  induction pre generalizing t rs with
  | nil =>
    cases reports with
    | cons first rest => exact ⟨_, rfl, first⟩
  | cons b pre ih =>
    cases reports with
    | cons first rest =>
      obtain ⟨r, here, holds⟩ := ih rest
      refine ⟨r, ?_, holds⟩
      rw [List.length_cons, List.getElem?_cons_succ, here]

/-- **Simulation.** When every command is matched by an abstract step, a run
never faults, is matched by the abstract run, and every report is explained. -/
theorem runAll_simulates {τ : Type} {step : τ → α → τ} {R : σ → τ → Prop} {Q : τ → α → ρ → Prop}
    (sim : ∀ s t a, R s t → ∃ s' r, exec s a = .ok (s', r) ∧ R s' (step t a) ∧ Q t a r)
    (l : List α) {s : σ} {t : τ} (related : R s t) :
    ∃ s' rs, runAll exec s l = .ok (s', rs) ∧ R s' (l.foldl step t) ∧ Reports step Q t l rs := by
  induction l generalizing s t with
  | nil => exact ⟨s, [], rfl, related, .nil⟩
  | cons a l ih =>
    obtain ⟨s', r, first, related', explained⟩ := sim s t a related
    obtain ⟨s'', rs, rest, done, reports⟩ := ih related'
    refine ⟨s'', r :: rs, ?_, done, .cons explained reports⟩
    rw [runAll_cons first, rest]
    rfl

/-- A run of a machine that cannot fault. -/
def runPure {τ : Type} (step : τ → α → τ × ρ) : τ → List α → τ × List ρ
  | t, [] => (t, [])
  | t, a :: l =>
    let (t', r) := step t a
    let (t'', rs) := runPure step t' l
    (t'', r :: rs)

section Refinement

variable {τ : Type} {step : τ → α → τ × ρ} {R : σ → τ → Prop} {Ok : τ → α → Prop}

theorem runPure_cons (t : τ) (a : α) (l : List α) : runPure step t (a :: l) =
    ((runPure step (step t a).1 l).1, (step t a).2 :: (runPure step (step t a).1 l).2) := rfl

/-- Commands that change nothing and of which nothing is told can be left out. -/
theorem runPure_filter {keep : α → Bool} {told : ρ → Bool}
    (dropped : ∀ t a, keep a = false → (step t a).1 = t ∧ told (step t a).2 = false) (t : τ) (l : List α) :
    (runPure step t (l.filter keep)).1 = (runPure step t l).1 ∧
      (runPure step t (l.filter keep)).2.filter told = (runPure step t l).2.filter told := by
  induction l generalizing t with
  | nil => exact ⟨rfl, rfl⟩
  | cons a l ih =>
    rw [runPure_cons]
    by_cases kept : keep a = true
    · rw [List.filter_cons_of_pos kept, runPure_cons]
      obtain ⟨last, reports⟩ := ih (step t a).1
      refine ⟨last, ?_⟩
      rw [List.filter_cons, List.filter_cons, reports]
    · obtain ⟨same, untold⟩ := dropped t a (Bool.eq_false_iff.2 kept)
      rw [List.filter_cons_of_neg kept, same, List.filter_cons_of_neg (ne_true_of_eq_false untold)]
      exact ih t

/-- Every command of a run meets a condition on the abstract state before it. -/
inductive Along (step : τ → α → τ × ρ) (Ok : τ → α → Prop) : τ → List α → Prop where
  | nil (t : τ) : Along step Ok t []
  | cons {t : τ} {a : α} {l : List α} (first : Ok t a) (rest : Along step Ok (step t a).1 l) : Along step Ok t (a :: l)

theorem Along.append {t : τ} {l l' : List α} (along : Along step Ok t (l ++ l')) :
    Along step Ok t l ∧ Along step Ok (runPure step t l).1 l' := by
  induction l generalizing t with
  | nil => exact ⟨.nil t, along⟩
  | cons a l ih =>
    cases along with
    | cons first rest => exact ⟨.cons first (ih rest).1, (ih rest).2⟩

theorem Along.filter {keep : α → Bool} (dropped : ∀ t a, keep a = false → (step t a).1 = t) {t : τ} {l : List α}
    (along : Along step Ok t l) : Along step Ok t (l.filter keep) := by
  induction along with
  | nil t => exact .nil t
  | @cons t a l first rest ih =>
    by_cases kept : keep a = true
    · rw [List.filter_cons_of_pos kept]
      exact .cons first ih
    · rw [List.filter_cons_of_neg kept, ← dropped t a (Bool.eq_false_iff.2 kept)]
      exact ih

/-- **Refinement of runs.** When every step of a machine reports what the
abstract machine reports, so does every run. -/
theorem runAll_refines
    (sim : ∀ s t a, R s t → Ok t a → ∃ s', exec s a = .ok (s', (step t a).2) ∧ R s' (step t a).1)
    {l : List α} {s : σ} {t : τ} (along : Along step Ok t l) (related : R s t) :
    ∃ s', runAll exec s l = .ok (s', (runPure step t l).2) ∧ R s' (runPure step t l).1 := by
  induction along generalizing s with
  | nil t => exact ⟨s, rfl, related⟩
  | @cons t a l ok rest ih =>
    obtain ⟨s', first, related'⟩ := sim s t a related ok
    obtain ⟨s'', last, done⟩ := ih related'
    refine ⟨s'', ?_, done⟩
    rw [runAll_cons first, last]
    rfl

end Refinement

/-- The commands of a run whose report satisfies `logged`, in order. -/
def logOf (exec : σ → α → Outcome (σ × ρ)) (logged : ρ → Bool) : σ → List α → List α
  | _, [] => []
  | s, a :: l =>
    match exec s a with
    | .error _ => []
    | .ok (s', r) => if logged r then a :: logOf exec logged s' l else logOf exec logged s' l

/-- The log of `l ++ l'` is the log of `l` and then that of `l'` from the state reached. -/
theorem logOf_append {logged : ρ → Bool} {l l' : List α} {s s' : σ} {rs : List ρ}
    (run : runAll exec s l = .ok (s', rs)) :
    logOf exec logged s (l ++ l') = logOf exec logged s l ++ logOf exec logged s' l' := by
  induction l generalizing s rs with
  | nil =>
    cases run
    rfl
  | cons a l ih =>
    simp only [runAll, bind_eq_ok, pure_eq, Except.ok.injEq, Prod.mk.injEq, Prod.exists] at run
    obtain ⟨mid, r, first, last, rest, tail, rfl, rfl⟩ := run
    simp only [List.cons_append, logOf, first, ih tail]
    split <;> rfl

/-- **Log replay.** If a command whose report is not logged leaves the state
as it was, replaying only the logged commands reaches the same state. -/
theorem replay_eq {logged : ρ → Bool} {P : σ → Prop}
    (total : ∀ s a, P s → ∃ s' r, exec s a = .ok (s', r) ∧ P s' ∧ (logged r = false → s' = s))
    (l : List α) {s : σ} (start : P s) : ∃ s' rs rs', runAll exec s l = .ok (s', rs) ∧
      runAll exec s (logOf exec logged s l) = .ok (s', rs') ∧ P s' := by
  induction l generalizing s with
  | nil => exact ⟨s, [], [], rfl, rfl, start⟩
  | cons a l ih =>
    obtain ⟨s', r, first, kept, frame⟩ := total s a start
    obtain ⟨last, rs, rs', master, replica, done⟩ := ih kept
    have here : runAll exec s (a :: l) = .ok (last, r :: rs) := by
      rw [runAll_cons first, master]
      rfl
    cases isLogged : logged r with
    | true =>
      refine ⟨last, r :: rs, r :: rs', here, ?_, done⟩
      simp only [logOf, first, isLogged, if_true]
      rw [runAll_cons first, replica]
      rfl
    | false =>
      have same : s' = s := frame isLogged
      refine ⟨last, r :: rs, rs', here, ?_, done⟩
      simp only [logOf, first, isLogged, Bool.false_eq_true, if_false]
      exact same ▸ replica

section Log

variable {τ : Type} {step : τ → α → τ × ρ} {R : σ → τ → Prop} {Ok : τ → α → Prop} {logged : ρ → Bool}

end Log

end Replay

end Exec
