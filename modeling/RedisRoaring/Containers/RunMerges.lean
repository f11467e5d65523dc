import RedisRoaring.Containers.Runs

/-!
# Merges of run containers

A union of runs pushes the runs of both operands by increasing starts, and a
value of an array acts as a run of its own. A difference walks over the runs of
the first operand and cuts the runs of the second out of them.
-/

namespace RedisRoaring

open Exec Intervals

/-! ## Unions -/

/-- The output of a merge and its last run, kept aside, for a list of intervals. -/
structure Tracks (state : List Rle16 × Rle16) (l : List Interval) : Prop where
  last : ∃ out, state.1 = out ++ [state.2]
  pushed : intervals state.1 = l

theorem Tracks.first (rle : Rle16) : Tracks ([rle], rle) (push [] rle.interval) := ⟨⟨[], rfl⟩, rfl⟩

section Append

variable {state : List Rle16 × Rle16} {l : List Interval}

/-- Appending a run pushes its interval. -/
theorem Tracks.append (tracks : Tracks state l) {vl : Rle16} (within : vl.stop ≤ 65536) :
    Tracks (runContainerAppend state.1 state.2 vl) (push l vl.interval) := by
  obtain ⟨runs, previousrl⟩ := state
  obtain ⟨⟨out, last⟩, rfl⟩ := tracks
  simp only at last ⊢
  subst last
  unfold runContainerAppend
  rw [intervals_append, intervals_cons, intervals_nil, push_concat]
  by_cases apart : previousrl.value.toNat + previousrl.length.toNat + 1 < vl.value.toNat
  · have apart' : previousrl.interval.stop < vl.interval.start := apart
    rw [if_pos apart, if_pos apart']
    exact ⟨⟨out ++ [previousrl], rfl⟩, by simp⟩
  · have touching : ¬ previousrl.interval.stop < vl.interval.start := apart
    rw [if_neg apart, if_neg touching]
    by_cases longer : previousrl.value.toNat + previousrl.length.toNat < vl.value.toNat + vl.length.toNat + 1
    · have stop : Rle16.stop { previousrl with
          length := UInt16.ofNat (vl.value.toNat + vl.length.toNat + 1 - 1 - previousrl.value.toNat) } =
            max previousrl.stop vl.stop := by
        simp only [Rle16.stop] at within ⊢
        rw [UInt16.toNat_ofNat_of_lt' (by show _ < 65536; omega)]
        omega
      rw [if_pos longer, List.dropLast_concat]
      refine ⟨⟨out, rfl⟩, ?_⟩
      rw [intervals_append, intervals_cons, intervals_nil, Rle16.interval, stop]
      rfl
    · have stop : max previousrl.interval.stop vl.interval.stop = previousrl.interval.stop := by
        simp only [Rle16.stop_interval, Rle16.stop]
        omega
      rw [if_neg longer, stop]
      exact ⟨⟨out, rfl⟩, by simp only [intervals_append, intervals_cons, intervals_nil, Rle16.interval]⟩

/-- A value of an array as a run of its own. -/
def singles (array : List UInt16) : List Rle16 := array.map fun value => { value, length := 0 }

@[simp] theorem singles_nil : singles [] = [] := rfl

@[simp] theorem singles_cons (value : UInt16) (array : List UInt16) :
    singles (value :: array) = { value, length := 0 } :: singles array := rfl

/-- Appending a value appends its run. -/
theorem runContainerAppendValue_eq (tracks : Tracks state l) (val : UInt16) :
    runContainerAppendValue state.1 state.2 val = runContainerAppend state.1 state.2 { value := val, length := 0 } := by
  obtain ⟨runs, previousrl⟩ := state
  obtain ⟨⟨out, last⟩, -⟩ := tracks
  have small := val.toNat_lt
  simp only at last ⊢
  subst last
  unfold runContainerAppendValue runContainerAppend
  simp only [List.dropLast_concat, UInt16.toNat_zero, Nat.add_zero, Nat.add_sub_cancel]
  by_cases apart : previousrl.value.toNat + previousrl.length.toNat + 1 < val.toNat
  · rw [if_pos apart, if_pos apart]
  rw [if_neg apart, if_neg apart]
  by_cases next : val.toNat = previousrl.value.toNat + previousrl.length.toNat + 1
  · have length : previousrl.length + 1 = UInt16.ofNat (val.toNat - previousrl.value.toNat) := by
      apply UInt16.toNat_inj.1
      rw [UInt16.toNat_ofNat_of_lt' (by show _ < 65536; omega), UInt16.toNat_add, UInt16.toNat_one]
      omega
    rw [if_pos next, if_pos (by omega), length]
  rw [if_neg next]
  split
  case isTrue here =>
    have length : UInt16.ofNat (val.toNat - previousrl.value.toNat) = previousrl.length := by
      apply UInt16.toNat_inj.1
      rw [UInt16.toNat_ofNat_of_lt' (by show _ < 65536; omega)]
      omega
    rw [length]
  case isFalse => rfl

theorem Tracks.foldl {runs : List Rle16} (within : ∀ rle ∈ runs, rle.stop ≤ 65536) (tracks : Tracks state l) :
    intervals (runs.foldl (fun s rle => runContainerAppend s.1 s.2 rle) state).1 = (intervals runs).foldl push l := by
  induction runs generalizing state l with
  | nil => exact tracks.pushed
  | cons rle runs ih =>
    obtain ⟨here, rest⟩ := List.forall_mem_cons.1 within
    exact ih rest (tracks.append here)

/-- The merge loop pushes the intervals of both operands by increasing starts. -/
theorem intervals_unionRunsLoop (input1 input2 : List Rle16) (within1 : ∀ rle ∈ input1, rle.stop ≤ 65536)
    (within2 : ∀ rle ∈ input2, rle.stop ≤ 65536) (tracks : Tracks state l) :
    intervals (unionRunsLoop input1 input2 state) =
      ((intervals input1).merge (intervals input2) startsFirst).foldl push l := by
  fun_induction unionRunsLoop input1 input2 state generalizing l with
  | case1 input2 state =>
    rw [intervals_nil, List.nil_merge]
    exact tracks.foldl within2
  | case2 input1 state _ =>
    rw [intervals_nil, List.merge_right]
    exact tracks.foldl within1
  | case3 rle1 input1 rle2 input2 state first ih =>
    obtain ⟨here, rest⟩ := List.forall_mem_cons.1 within1
    have order : startsFirst rle1.interval rle2.interval = true := startsFirst_iff.2 (UInt16.le_iff_toNat_le.1 first)
    rw [ih rest within2 (tracks.append here), intervals_cons, intervals_cons,
      List.cons_merge_cons_pos startsFirst _ _ order]
    rfl
  | case4 rle1 input1 rle2 input2 state second ih =>
    obtain ⟨here, rest⟩ := List.forall_mem_cons.1 within2
    have order : ¬ startsFirst rle1.interval rle2.interval = true := fun first =>
      second (UInt16.le_iff_toNat_le.2 (startsFirst_iff.1 first))
    rw [ih within1 rest (tracks.append here), intervals_cons, intervals_cons,
      List.cons_merge_cons_neg startsFirst _ _ order]
    rfl

/-- The merge of two lists of runs, from the one that starts first on. -/
def unionRuns (input1 input2 : List Rle16) : List Rle16 :=
  match input1, input2 with
  | rle1 :: input1, rle2 :: input2 =>
    if rle1.value ≤ rle2.value then unionRunsLoop input1 (rle2 :: input2) ([rle1], rle1)
    else unionRunsLoop (rle1 :: input1) input2 ([rle2], rle2)
  | _, _ => []

theorem intervals_unionRuns {input1 input2 : List Rle16} (within1 : ∀ rle ∈ input1, rle.stop ≤ 65536)
    (within2 : ∀ rle ∈ input2, rle.stop ≤ 65536) (some1 : input1 ≠ []) (some2 : input2 ≠ []) :
    intervals (unionRuns input1 input2) = Intervals.union (intervals input1) (intervals input2) := by
  obtain ⟨rle1, input1, rfl⟩ := List.exists_cons_of_ne_nil some1
  obtain ⟨rle2, input2, rfl⟩ := List.exists_cons_of_ne_nil some2
  rw [unionRuns, Intervals.union, intervals_cons, intervals_cons]
  split
  case isTrue first =>
    have order : startsFirst rle1.interval rle2.interval = true := startsFirst_iff.2 (UInt16.le_iff_toNat_le.1 first)
    rw [List.cons_merge_cons_pos startsFirst _ _ order, List.foldl_cons,
      intervals_unionRunsLoop _ _ (List.forall_mem_cons.1 within1).2 within2 (.first rle1)]
    rfl
  case isFalse second =>
    have order : ¬ startsFirst rle1.interval rle2.interval = true := fun first =>
      second (UInt16.le_iff_toNat_le.2 (startsFirst_iff.1 first))
    rw [List.cons_merge_cons_neg startsFirst _ _ order, List.foldl_cons,
      intervals_unionRunsLoop _ _ within1 (List.forall_mem_cons.1 within2).2 (.first rle2)]
    rfl

/-- The runs of a union are in order, cover what the operands cover and are no
more than those of the operands together. -/
theorem unionRuns_spec {input1 input2 : List Rle16} (ordered1 : RunsOrdered input1) (ordered2 : RunsOrdered input2)
    (some1 : input1 ≠ []) (some2 : input2 ≠ []) :
    RunsFor (unionRuns input1 input2) (fun n => Covers (intervals input1) n ∨ Covers (intervals input2) n) ∧
      (unionRuns input1 input2).length ≤ input1.length + input2.length := by
  have same := intervals_unionRuns ordered1.within ordered2.within some1 some2
  obtain ⟨ordered, covers⟩ := union_spec ordered1.intervals ordered2.intervals
  have length := length_union_le (intervals input1) (intervals input2)
  rw [← same] at ordered covers length
  refine ⟨⟨runsOrdered_iff.2 ⟨ordered, ?_⟩, covers⟩, by simpa [intervals] using length⟩
  intro rle member
  -- the last number of the run is one of the operands'
  have last : Covers (intervals (unionRuns input1 input2)) (rle.stop - 1) := by
    have some := rle.value_lt_stop
    refine covers_of_mem (List.mem_map_of_mem member) ?_
    rw [has_interval_iff]
    omega
  have small := ((covers _).1 last).elim ordered1.lt ordered2.lt
  omega

end Append

theorem RunContainer.Full.covers_iff {run : RunContainer} (full : run.Full) (n : Nat) :
    Covers (intervals run.runs) n ↔ n < 65536 := by
  have stop : Rle16.stop { value := 0, length := 0xFFFF } = 65536 := rfl
  rw [full, intervals_cons, intervals_nil, covers_cons, has_interval_iff, stop]
  simp

/-- The copy of a run container, in place of another. -/
theorem runContainerCopy_spec (src dst : RunContainer) :
    ∃ run, runContainerCopy src dst = .ok run ∧ run.runs = src.runs ∧ run.runs.length ≤ run.capacity := by
  unfold runContainerCopy
  split
  case isTrue short =>
    have room := le_capacity_runContainerGrow dst src.nRuns false
    exact ⟨_, RunContainer.store_eq_ok room, rfl, room⟩
  case isFalse enough =>
    have room : src.runs.length ≤ dst.capacity := Nat.le_of_not_lt enough
    exact ⟨_, RunContainer.store_eq_ok room, rfl, room⟩

/-- Making room for a union keeps the runs. -/
theorem grow_runs (run : RunContainer) (needed : Nat) :
    ∃ capacity, needed ≤ capacity ∧
      (if run.capacity < needed then runContainerGrow run needed true else run) = { run with capacity } := by
  split
  case isTrue => exact ⟨_, le_capacity_runContainerGrow run needed true, rfl⟩
  case isFalse enough => exact ⟨run.capacity, Nat.le_of_not_lt enough, rfl⟩

/-- The union of two run containers in place of the first. -/
theorem runContainerUnionInplace_spec {src1 src2 : RunContainer} (valid1 : src1.Valid) (valid2 : src2.Valid)
    (some1 : src1.runs ≠ []) (some2 : src2.runs ≠ []) :
    ∃ run, runContainerUnionInplace src1 src2 = .ok run ∧ run.runs.length ≤ run.capacity ∧
      RunsFor run.runs fun n => Covers (intervals src1.runs) n ∨ Covers (intervals src2.runs) n := by
  unfold runContainerUnionInplace
  by_cases full1 : runContainerIsFull src1 = true
  · have all := (runContainerIsFull_iff.1 full1).covers_iff
    refine ⟨src1, by rw [if_pos full1]; rfl, valid1.fits, valid1.ordered, ?_⟩
    intro n
    rw [all, or_iff_left_of_imp valid2.ordered.lt]
  by_cases full2 : runContainerIsFull src2 = true
  · obtain ⟨run, copied, runs, fits⟩ := runContainerCopy_spec src2 src1
    have all := (runContainerIsFull_iff.1 full2).covers_iff
    refine ⟨run, by simp only [full1, full2, copied]; rfl, fits, runs ▸ valid2.ordered, ?_⟩
    intro n
    rw [runs, all, or_iff_right_of_imp valid1.ordered.lt]
  · obtain ⟨runsFor, length⟩ := unionRuns_spec valid1.ordered valid2.ordered some1 some2
    obtain ⟨capacity, enough, grown⟩ := grow_runs src1 (src1.nRuns + src2.nRuns + src1.nRuns)
    have room : (unionRuns src1.runs src2.runs).length ≤ capacity := by
      unfold RunContainer.nRuns at enough
      omega
    refine ⟨{ capacity, runs := unionRuns src1.runs src2.runs }, ?_, room, runsFor⟩
    simp only [full1, full2, if_false, grown, Bool.false_eq_true]
    obtain ⟨rle1, input1, split1⟩ := List.exists_cons_of_ne_nil some1
    obtain ⟨rle2, input2, split2⟩ := List.exists_cons_of_ne_nil some2
    rw [split1, split2] at room ⊢
    simp only [unionRuns] at room ⊢
    split
    case isTrue first =>
      rw [if_pos first] at room
      exact RunContainer.store_eq_ok room
    case isFalse second =>
      rw [if_neg second] at room
      exact RunContainer.store_eq_ok room

/-! ## Differences -/

/-- The run of an interval. -/
theorem ofInterval_spec {start end_ : Nat} (some : start < end_) (within : end_ ≤ 65536) :
    (Rle16.ofInterval start end_).interval = { start, stop := end_ } := by
  rw [Rle16.interval, Rle16.stop, Rle16.ofInterval]
  simp only [Interval.mk.injEq]
  rw [UInt16.toNat_ofNat_of_lt' (by show _ < 65536; omega), UInt16.toNat_ofNat_of_lt' (by show _ < 65536; omega)]
  omega

/-- A run before others. -/
theorem RunsFor.ofInterval {runs : List Rle16} {P : Nat → Prop} {start end_ : Nat} (rest : RunsFor runs P)
    (some : start < end_) (within : end_ ≤ 65536) (after : ∀ c ∈ runs, end_ ≤ c.value.toNat) :
    RunsFor (Rle16.ofInterval start end_ :: runs) fun n => (start ≤ n ∧ n < end_) ∨ P n := by
  have here := ofInterval_spec some within
  have stop : (Rle16.ofInterval start end_).stop = end_ := congrArg Interval.stop here
  have apart : ∀ c ∈ runs, (Rle16.ofInterval start end_).stop ≤ c.value.toNat := by rwa [stop]
  refine ⟨(show RunsOrdered ([] ++ runs) from rest.ordered).put (by omega) (by simp) apart, fun n => ?_⟩
  rw [intervals_cons, covers_cons, here, rest.covers]
  rfl

theorem RunsFor.congr {runs : List Rle16} {P Q : Nat → Prop} (runsFor : RunsFor runs P) (same : ∀ n, P n ↔ Q n) :
    RunsFor runs Q := ⟨runsFor.ordered, fun n => (runsFor.covers n).trans (same n)⟩

theorem RunsFor.nil {P : Nat → Prop} (none : ∀ n, ¬ P n) : RunsFor [] P :=
  ⟨⟨by simp, .nil⟩, fun n => by simp [none n]⟩

/-- What is left of the first operand's runs: the current one and those after it. -/
def remaining (start end_ : Nat) (rest1 : List Rle16) (n : Nat) : Prop :=
  (start ≤ n ∧ n < end_) ∨ Covers (intervals rest1) n

/-- How many runs of the second operand can still cut one in two. -/
def cutsLeft (start : Nat) : List Rle16 → Nat
  | [] => 0
  | rle2 :: rest2 => rest2.length + if rle2.stop ≤ start then 0 else 1

/-- What the loop of a difference leaves. -/
structure AndnotLeft (start end_ : Nat) (rest1 runs2 out : List Rle16) : Prop where
  runsFor : RunsFor out fun n => remaining start end_ rest1 n ∧ ¬ Covers (intervals runs2) n
  after : ∀ c ∈ out, start ≤ c.value.toNat
  length : out.length ≤ rest1.length + 1 + cutsLeft start runs2

theorem cutsLeft_le (start : Nat) (runs2 : List Rle16) : cutsLeft start runs2 ≤ runs2.length := by
  cases runs2 with
  | nil => exact Nat.le_refl _
  | cons rle2 rest2 =>
    rw [cutsLeft, List.length_cons]
    split <;> omega

/-- The walk goes on with the next run of the first operand. -/
def andnotNext (rest1 runs2 : List Rle16) : List Rle16 :=
  match rest1 with
  | rle1 :: rest1 => andnotRunsLoop rle1.value.toNat rle1.stop rest1 runs2
  | [] => []

/-- What the walk leaves from the next run on. -/
structure AndnotNext (end_ : Nat) (rest1 runs2 out : List Rle16) : Prop where
  runsFor : RunsFor out fun n => Covers (intervals rest1) n ∧ ¬ Covers (intervals runs2) n
  after : ∀ c ∈ out, end_ ≤ c.value.toNat
  length : out.length ≤ rest1.length + runs2.length

theorem andnotNext_spec {end_ : Nat} {rest1 runs2 : List Rle16} (ordered1 : RunsOrdered rest1)
    (apart : ∀ c ∈ rest1, end_ ≤ c.value.toNat)
    (loop : match rest1 with
      | rle1 :: rest1 => rle1.value.toNat < rle1.stop → rle1.stop ≤ 65536 → RunsOrdered rest1 →
          (∀ c ∈ rest1, rle1.stop ≤ c.value.toNat) →
            AndnotLeft rle1.value.toNat rle1.stop rest1 runs2 (andnotRunsLoop rle1.value.toNat rle1.stop rest1 runs2)
      | [] => True) :
    AndnotNext end_ rest1 runs2 (andnotNext rest1 runs2) := by
  cases rest1 with
  | nil => exact ⟨.nil fun n => by simp, by simp [andnotNext], by simp [andnotNext]⟩
  | cons rle1 rest1 =>
    have tail : RunsOrdered rest1 := ordered1.sublist (List.sublist_cons_self ..)
    have later := (show RunsOrdered ([] ++ rle1 :: rest1) from ordered1).around.2
    have first := apart rle1 (by simp)
    obtain ⟨runsFor, after, length⟩ := loop rle1.value_lt_stop (ordered1.within rle1 (by simp)) tail later
    have cuts := cutsLeft_le rle1.value.toNat runs2
    refine ⟨runsFor.congr fun n => ?_, fun c member => first.trans (after c member), ?_⟩
    · rw [remaining, intervals_cons, covers_cons, has_interval_iff]
    · rw [andnotNext, List.length_cons]
      omega

theorem le_ofInterval {runs : List Rle16} {start end_ : Nat} (some : start < end_) (within : end_ ≤ 65536)
    (after : ∀ c ∈ runs, end_ ≤ c.value.toNat) : ∀ c ∈ Rle16.ofInterval start end_ :: runs, start ≤ c.value.toNat := by
  have here : (Rle16.ofInterval start end_).value.toNat = start :=
    congrArg Interval.start (ofInterval_spec some within)
  exact List.forall_mem_cons.2 ⟨here.ge, fun c member => some.le.trans (after c member)⟩

/-- Below the first of some runs in order no number is covered. -/
theorem RunsOrdered.not_covers_below {rle : Rle16} {runs : List Rle16} (ordered : RunsOrdered (rle :: runs)) {n : Nat}
    (below : n < rle.value.toNat) : ¬ Covers (RedisRoaring.intervals (rle :: runs)) n := by
  refine not_covers_of_lt (forall_mem_intervals.2 (List.forall_mem_cons.2 ⟨below, ?_⟩))
  intro c member
  exact below.trans (Nat.lt_of_lt_of_le rle.value_lt_stop ((List.pairwise_cons.1 ordered.apart).1 c member))

/-- Cutting a run out leaves what lies before it and what lies after it. -/
theorem remaining_cut {start end_ : Nat} {rest1 rest2 : List Rle16} {rle2 : Rle16}
    (ordered2 : RunsOrdered (rle2 :: rest2)) (overlap : rle2.value.toNat < end_) (ahead : start < rle2.stop) (n : Nat) :
    (start ≤ n ∧ n < rle2.value.toNat) ∨
        (remaining rle2.stop end_ rest1 n ∧ ¬ Covers (intervals (rle2 :: rest2)) n) ↔
      remaining start end_ rest1 n ∧ ¬ Covers (intervals (rle2 :: rest2)) n := by
  have below : n < rle2.value.toNat → ¬ Covers (intervals (rle2 :: rest2)) n := ordered2.not_covers_below
  have inside : rle2.value.toNat ≤ n → n < rle2.stop → Covers (intervals (rle2 :: rest2)) n := by
    intro from_ under
    rw [intervals_cons, covers_cons]
    exact .inl ⟨from_, under⟩
  rw [remaining, remaining]
  by_cases covered : Covers (intervals (rle2 :: rest2)) n
  · simp only [covered, not_true_eq_false, and_false, or_false, iff_false]
    intro given
    exact below given.2 covered
  · have outside : n < rle2.value.toNat ∨ rle2.stop ≤ n := by
      by_contra between
      exact covered (inside (by omega) (by omega))
    simp only [covered, not_false_eq_true, and_true, ← or_assoc]
    apply or_congr_left
    omega

theorem andnotRunsLoop_spec (start end_ : Nat) (rest1 runs2 : List Rle16) (some : start < end_) (within : end_ ≤ 65536)
    (ordered1 : RunsOrdered rest1) (apart : ∀ c ∈ rest1, end_ ≤ c.value.toNat) (ordered2 : RunsOrdered runs2) :
    AndnotLeft start end_ rest1 runs2 (andnotRunsLoop start end_ rest1 runs2) := by
  fun_induction andnotRunsLoop start end_ rest1 runs2 with
  | case1 start end_ rest1 =>
    refine ⟨(ordered1.runsFor.ofInterval some within apart).congr fun n => by simp [remaining],
      le_ofInterval some within apart, ?_⟩
    simp [cutsLeft]
  | case2 start end_ rest1 rle2 rest2 start2 before loop =>
    -- the current run ends before the second operand's
    have next : AndnotNext end_ rest1 (rle2 :: rest2) (andnotNext rest1 (rle2 :: rest2)) := by
      apply andnotNext_spec ordered1 apart
      cases rest1 with
      | nil => trivial
      | cons rle1 rest1 => exact fun some within ordered apart => loop some within ordered apart ordered2
    change AndnotLeft _ _ _ _ (Rle16.ofInterval start end_ :: andnotNext rest1 (rle2 :: rest2))
    refine ⟨(next.runsFor.ofInterval some within next.after).congr fun n => ?_,
      le_ofInterval some within next.after, ?_⟩
    · have free : n < end_ → ¬ Covers (intervals (rle2 :: rest2)) n := fun below =>
        ordered2.not_covers_below (below.trans_le before)
      rw [remaining]
      tauto
    · have length := next.length
      have late : ¬ rle2.stop ≤ start := by
        have := rle2.value_lt_stop
        omega
      rw [cutsLeft, if_neg late]
      rw [List.length_cons] at length ⊢
      omega
  | case3 start end_ rest1 rle2 rest2 start2 end2 overlap passed ih =>
    -- the second operand's run is passed
    have tail : RunsOrdered rest2 := ordered2.sublist (List.sublist_cons_self ..)
    obtain ⟨runsFor, after, length⟩ := ih some within ordered1 apart tail
    refine ⟨runsFor.congr fun n => ?_, after, ?_⟩
    · have from_ : remaining start end_ rest1 n → start ≤ n := by
        intro left
        rcases left with here | covered
        · exact here.1
        · by_contra below
          refine not_covers_of_lt (forall_mem_intervals.2 fun c member => ?_) covered
          have := apart c member
          rw [Rle16.start_interval]
          omega
      have past : start ≤ n → ¬ rle2.interval.Has n := by
        rw [has_interval_iff]
        omega
      rw [intervals_cons, covers_cons]
      tauto
    · have cuts := cutsLeft_le start rest2
      rw [cutsLeft, if_pos passed]
      omega
  | case4 start end_ rest1 rle2 rest2 start2 end2 overlap ahead ih loop =>
    have start2Lt : start2 < end2 := rle2.value_lt_stop
    have cuts : cutsLeft start (rle2 :: rest2) = rest2.length + 1 := by rw [cutsLeft, if_neg ahead]
    -- what the walk leaves after the second operand's run
    have rest : ∃ out, (if end2 < end_ then andnotRunsLoop end2 end_ rest1 (rle2 :: rest2)
          else andnotNext rest1 (rle2 :: rest2)) = out ∧
        RunsFor out (fun n => remaining end2 end_ rest1 n ∧ ¬ Covers (intervals (rle2 :: rest2)) n) ∧
        (∀ c ∈ out, start < c.value.toNat ∧ start2 < c.value.toNat) ∧
        out.length ≤ rest1.length + 1 + rest2.length := by
      refine ⟨_, rfl, ?_⟩
      split
      case isTrue inner =>
        obtain ⟨runsFor, after, length⟩ := ih inner within ordered1 apart ordered2
        rw [cutsLeft, if_pos (Nat.le_refl _)] at length
        refine ⟨runsFor, fun c member => ?_, length⟩
        have := after c member
        omega
      case isFalse outer =>
        have next : AndnotNext end_ rest1 (rle2 :: rest2) (andnotNext rest1 (rle2 :: rest2)) := by
          apply andnotNext_spec ordered1 apart
          cases rest1 with
          | nil => trivial
          | cons rle1 rest1 => exact fun some within ordered apart => loop some within ordered apart ordered2
        obtain ⟨runsFor, after, length⟩ := next
        refine ⟨runsFor.congr fun n => ?_, fun c member => ?_, ?_⟩
        · have none : ¬ (end2 ≤ n ∧ n < end_) := by omega
          rw [remaining]
          tauto
        · have := after c member
          omega
        · rw [List.length_cons] at length
          omega
    obtain ⟨out, isOut, runsFor, after, length⟩ := rest
    change AndnotLeft _ _ _ _ ((if start < start2 then [Rle16.ofInterval start start2] else []) ++
      if end2 < end_ then andnotRunsLoop end2 end_ rest1 (rle2 :: rest2) else andnotNext rest1 (rle2 :: rest2))
    rw [isOut]
    have split : ∀ n, _ ↔ remaining start end_ rest1 n ∧ _ :=
      remaining_cut ordered2 (Nat.lt_of_not_le overlap) (Nat.lt_of_not_le ahead)
    by_cases part : start < start2
    · rw [if_pos part, List.singleton_append]
      have after' : ∀ c ∈ out, start2 ≤ c.value.toNat := fun c member => (after c member).2.le
      have bound : start2 ≤ 65536 := by omega
      refine ⟨(runsFor.ofInterval part bound after').congr split, le_ofInterval part bound after', ?_⟩
      rw [cuts, List.length_cons]
      omega
    · rw [if_neg part, List.nil_append]
      refine ⟨runsFor.congr fun n => ?_, fun c member => ?_, by omega⟩
      · have none : ¬ (start ≤ n ∧ n < rle2.value.toNat) := by omega
        rw [← split]
        tauto
      · exact (after c member).1.le

/-- The walk from the first run on. -/
theorem andnotRuns_spec {rle1 : Rle16} {rest1 runs2 : List Rle16} (ordered1 : RunsOrdered (rle1 :: rest1))
    (ordered2 : RunsOrdered runs2) :
    RunsFor (andnotRunsLoop rle1.value.toNat rle1.stop rest1 runs2)
        (fun n => Covers (intervals (rle1 :: rest1)) n ∧ ¬ Covers (intervals runs2) n) ∧
      (andnotRunsLoop rle1.value.toNat rle1.stop rest1 runs2).length ≤ (rle1 :: rest1).length + runs2.length := by
  obtain ⟨within, rest⟩ := List.forall_mem_cons.1 ordered1.within
  obtain ⟨apart, tail⟩ := List.pairwise_cons.1 ordered1.apart
  obtain ⟨runsFor, -, length⟩ := andnotRunsLoop_spec _ _ rest1 runs2 rle1.value_lt_stop within ⟨rest, tail⟩ apart ordered2
  have cuts := cutsLeft_le rle1.value.toNat runs2
  refine ⟨runsFor.congr fun n => ?_, ?_⟩
  · rw [remaining, intervals_cons, covers_cons, has_interval_iff]
  · rw [List.length_cons]
    omega

/-- The difference of two run containers. -/
theorem runContainerAndnot_spec {src1 src2 : RunContainer} (valid1 : src1.Valid) (valid2 : src2.Valid)
    (dst : RunContainer) :
    ∃ run, runContainerAndnot src1 src2 dst = .ok run ∧ run.runs.length ≤ run.capacity ∧
      RunsFor run.runs fun n => Covers (intervals src1.runs) n ∧ ¬ Covers (intervals src2.runs) n := by
  obtain ⟨grown, isGrown, room⟩ : ∃ grown, (if dst.capacity < src1.nRuns + src2.nRuns then
      runContainerGrow dst (src1.nRuns + src2.nRuns) false else dst) = grown ∧
        src1.runs.length + src2.runs.length ≤ grown.capacity := by
    refine ⟨_, rfl, ?_⟩
    split
    case isTrue => exact le_capacity_runContainerGrow dst _ false
    case isFalse enough => exact Nat.le_of_not_lt enough
  have ordered1 := valid1.ordered
  unfold runContainerAndnot
  rw [isGrown]
  generalize src1.runs = runs1 at ordered1 room ⊢
  cases runs1 with
  | nil => exact ⟨_, RunContainer.store_eq_ok (Nat.zero_le _), Nat.zero_le _, .nil fun n => by simp⟩
  | cons rle1 rest1 =>
    obtain ⟨runsFor, length⟩ := andnotRuns_spec ordered1 valid2.ordered
    have fits := length.trans room
    exact ⟨_, RunContainer.store_eq_ok fits, fits, runsFor⟩

/-! ## Values as runs -/

theorem covers_singles {array : List UInt16} {x : UInt16} :
    Covers (intervals (singles array)) x.toNat ↔ x ∈ array := by
  have here : ∀ value : UInt16, (Rle16.interval { value, length := 0 }).Has x.toNat ↔ value = x := by
    intro value
    rw [has_interval_iff, show Rle16.stop { value, length := 0 } = value.toNat + 1 from rfl, ← UInt16.toNat_inj]
    simp only
    omega
  rw [covers_intervals, singles]
  simp only [List.mem_map, exists_exists_and_eq_and, here, exists_eq_right]

theorem singles_ordered {array : List UInt16} (sorted : array.Pairwise (· < ·)) : RunsOrdered (singles array) := by
  refine ⟨List.forall_mem_map.2 fun value _ => value.toNat_lt, List.pairwise_map.2 (sorted.imp fun {a b} less => ?_)⟩
  exact UInt16.lt_iff_toNat_lt.1 less

end RedisRoaring
