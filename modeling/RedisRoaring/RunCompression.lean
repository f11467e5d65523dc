import RedisRoaring.Containers.RunExpansion
import RedisRoaring.Containers.RunOptimize
import RedisRoaring.Dumps

/-!
# Run compression of bitmaps

`roaring_bitmap_run_optimize` and `roaring_bitmap_remove_run_compression` go
through the chunks and replace each container by what a conversion makes of it.
Both loops are the conversion of every chunk (`foldlM_convert`), so that what is
known of the containers holds of the bitmap.
-/

namespace RedisRoaring

open Exec

/-! ## The operations -/

/-- One round of `roaring_bitmap_run_optimize`. -/
def runOptimizeStep (state : RoaringBitmap × Bool) (i : Nat) : Outcome (RoaringBitmap × Bool) := do
  let (r, answer) := state
  let ra ← raUnshareContainerAtIndex r.highLowContainer (UInt16.ofNat i)
  match ← raGetContainerAtIndex ra (UInt16.ofNat i) with
  | .shared _ => .error .assertFailed
  | .owned c =>
    let c1 ← convertRunOptimize c
    let ra ← raSetContainerAtIndex ra i (.owned c1)
    return ({ r with highLowContainer := ra }, answer || isRunContainer (.owned c1))

/-- `roaring_bitmap_run_optimize`. -/
def roaringBitmapRunOptimize (r : RoaringBitmap) : Outcome (RoaringBitmap × Bool) :=
  (List.range r.highLowContainer.size).foldlM runOptimizeStep (r, false)

/-- One round of `roaring_bitmap_remove_run_compression`. -/
def removeRunCompressionStep (state : RoaringBitmap × Bool) (i : Nat) : Outcome (RoaringBitmap × Bool) := do
  let (r, answer) := state
  let c ← raGetContainerAtIndex r.highLowContainer (UInt16.ofNat i)
  match containerUnwrapShared c with
  | .run run =>
    let c1 ← convertToBitsetOrArrayContainer run (runContainerCardinality run)
    let ra ← raSetContainerAtIndex r.highLowContainer i (.owned c1)
    return ({ r with highLowContainer := ra }, true)
  | _ => return (r, answer)

/-- `roaring_bitmap_remove_run_compression`. -/
def roaringBitmapRemoveRunCompression (r : RoaringBitmap) : Outcome (RoaringBitmap × Bool) :=
  (List.range r.highLowContainer.size).foldlM removeRunCompressionStep (r, false)

/-! ## Loops over the chunks -/

/-- A chunk with another container. -/
def Chunk.put (chunk : Chunk) (c : Container) : Chunk := { chunk with container := .owned c }

/-- A chunk whose container is converted. -/
def Chunk.convert (convert : Container → Outcome Container) (chunk : Chunk) : Outcome Chunk := do
  return chunk.put (← convert chunk.content)

/-- A bitmap with other chunks. -/
def RoaringBitmap.withChunks (r : RoaringBitmap) (chunks : List Chunk) : RoaringBitmap :=
  { r with highLowContainer := { r.highLowContainer with chunks } }

section Loop

variable {P : Container → Prop} {r : RoaringBitmap} {chunks chunks' : List Chunk}
  {step : RoaringBitmap × Bool → Nat → Outcome (RoaringBitmap × Bool)} {convert : Container → Outcome Container}
  {marks : Chunk → Chunk → Bool}

/-- A round of such a loop converts the chunk at its index. -/
def Converts (P : Container → Prop) (step : RoaringBitmap × Bool → Nat → Outcome (RoaringBitmap × Bool))
    (convert : Container → Outcome Container) (marks : Chunk → Chunk → Bool) : Prop :=
  ∀ (r : RoaringBitmap) (answer : Bool) (pre post : List Chunk) (chunk : Chunk), pre.length < 65536 → chunk.Holds P →
    step (r.withChunks (pre ++ chunk :: post), answer) pre.length = do
      let chunk' ← chunk.convert convert
      return (r.withChunks (pre ++ chunk' :: post), answer || marks chunk chunk')

/-- The rest of a loop. -/
theorem foldlM_convert_rest (converts : Converts P step convert marks) (answer : Bool) {pre post : List Chunk}
    (small : pre.length + post.length ≤ 65536) (holds : ∀ chunk ∈ post, chunk.Holds P) :
    (List.range' pre.length post.length).foldlM step (r.withChunks (pre ++ post), answer) = do
      let chunks ← post.mapM (Chunk.convert convert)
      return (r.withChunks (pre ++ chunks), answer || (post.zip chunks).any fun pair => marks pair.1 pair.2) := by
  induction post generalizing pre answer with
  | nil => simp
  | cons chunk post ih =>
    rw [List.length_cons] at small
    have first := converts r answer pre post chunk (by omega) (holds chunk (by simp))
    rw [List.length_cons, List.range'_succ, List.foldlM_cons, first, List.mapM_cons]
    cases Chunk.convert convert chunk with
    | error fault => rfl
    | ok chunk' =>
      have next : (pre ++ [chunk']).length = pre.length + 1 := by rw [List.length_append]; rfl
      have rest := @ih (answer || marks chunk chunk') (pre ++ [chunk']) (by rw [next]; omega)
        fun other inside => holds other (List.mem_cons_of_mem _ inside)
      rw [List.append_assoc, List.singleton_append, next] at rest
      simp only [ok_bind, pure_eq, rest]
      cases post.mapM (Chunk.convert convert) with
      | error fault => rfl
      | ok chunks => simp [List.append_assoc, Bool.or_assoc]

/-- **The loop** converts every chunk. -/
theorem foldlM_convert (converts : Converts P step convert marks) (well : r.Well P) :
    (List.range r.highLowContainer.size).foldlM step (r, false) = do
      let chunks ← r.highLowContainer.chunks.mapM (Chunk.convert convert)
      return (r.withChunks chunks, (r.highLowContainer.chunks.zip chunks).any fun pair => marks pair.1 pair.2) := by
  have same : r.withChunks ([] ++ r.highLowContainer.chunks) = r := rfl
  have all := @foldlM_convert_rest P r step convert marks converts false [] r.highLowContainer.chunks
    (by simpa using well.array.chunks.length_le) well.array.chunks.holds
  rw [same] at all
  rw [List.range_eq_range', RoaringArray.size]
  simpa using all

end Loop

/-! ## What a conversion keeps -/

/-- A chunk and what a conversion has made of it: of the allowed kind, with the same values. -/
structure Chunk.Converted (convert : Container → Outcome Container) (Q : Container → Prop) (chunk chunk' : Chunk) : Prop where
  run : convert chunk.content = .ok chunk'.content
  key : chunk'.key = chunk.key
  owned : chunk'.container = .owned chunk'.content
  allowed : Q chunk'.content
  values : chunk'.content.values = chunk.content.values

section Convert

variable {P Q : Container → Prop} {r : RoaringBitmap} {chunk chunk' : Chunk} {chunks chunks' : List Chunk}
  {convert : Container → Outcome Container}

theorem convert_eq_ok : chunk.convert convert = .ok chunk' ↔ ∃ c, convert chunk.content = .ok c ∧ chunk.put c = chunk' := by
  simp only [Chunk.convert, bind_eq_ok, pure_eq, Except.ok.injEq]

/-- A conversion that keeps the values of every container converts all chunks. -/
theorem mapM_convert (keeps : ∀ c, P c → c.values ≠ [] → ∃ c', convert c = .ok c' ∧ Q c' ∧ c'.values = c.values)
    (holds : ∀ chunk ∈ chunks, chunk.Holds P) :
    ∃ chunks', chunks.mapM (Chunk.convert convert) = .ok chunks' ∧
      List.Forall₂ (Chunk.Converted convert Q) chunks chunks' := by
  induction chunks with
  | nil => exact ⟨[], rfl, .nil⟩
  | cons chunk chunks ih =>
    have here := holds chunk (by simp)
    obtain ⟨c', run, allowed, values⟩ := keeps chunk.content here.allowed here.nonempty
    obtain ⟨chunks', rest, converted⟩ := ih fun other inside => holds other (List.mem_cons_of_mem _ inside)
    have first : chunk.convert convert = .ok (chunk.put c') := convert_eq_ok.2 ⟨c', run, rfl⟩
    refine ⟨chunk.put c' :: chunks', ?_, .cons ⟨run, rfl, rfl, allowed, values⟩ converted⟩
    rw [List.mapM_cons, first, rest]
    rfl

variable (converted : List.Forall₂ (Chunk.Converted convert Q) chunks chunks')
include converted

theorem map_key_converted : chunks'.map Chunk.key = chunks.map Chunk.key := by
  induction converted with
  | nil => rfl
  | cons head _ ih => rw [List.map_cons, List.map_cons, head.key, ih]

theorem chunkValues_converted : chunkValues chunks' = chunkValues chunks := by
  induction converted with
  | nil => rfl
  | cons head _ ih => rw [chunkValues_cons, chunkValues_cons, Chunk.values, Chunk.values, head.key, head.values, ih]

theorem holds_converted (holds : ∀ chunk ∈ chunks, chunk.Holds P) : ∀ chunk' ∈ chunks', chunk'.Holds Q := by
  induction converted with
  | nil => exact List.forall_mem_nil _
  | cons head _ ih =>
    obtain ⟨here, later⟩ := List.forall_mem_cons.1 holds
    exact List.forall_mem_cons.2 ⟨⟨head.owned, head.allowed, head.values ▸ here.nonempty⟩, ih later⟩

theorem well_converted (well : ChunksWell P chunks) : ChunksWell Q chunks' :=
  ⟨map_key_converted converted ▸ well.sorted, holds_converted converted well.holds⟩

/-- A bitmap with converted chunks. -/
theorem RoaringBitmap.Well.withChunks (well : r.Well P) (isChunks : r.highLowContainer.chunks = chunks) :
    (r.withChunks chunks').Well Q := by
  refine ⟨⟨well_converted converted (isChunks ▸ well.array.chunks), ?_⟩, well.unshared⟩
  show chunks'.length ≤ r.highLowContainer.allocationSize
  rw [← converted.length_eq, ← isChunks]
  exact well.array.fits

/-- Marks that look at the old chunks, and at the new ones. -/
theorem any_zip_converted (mark : Chunk → Bool) :
    ((chunks.zip chunks').any fun pair => mark pair.1) = chunks.any mark ∧
      ((chunks.zip chunks').any fun pair => mark pair.2) = chunks'.any mark := by
  induction converted with
  | nil => exact ⟨rfl, rfl⟩
  | cons _ _ ih => simp only [List.zip_cons_cons, List.any_cons, ih, and_self]

end Convert

/-! ## Run optimisation -/

theorem runOptimize_converts (P : Container → Prop) :
    Converts P runOptimizeStep convertRunOptimize fun _ chunk' => isRunContainer chunk'.container := by
  intro r answer pre post chunk small holds
  have split : (r.withChunks (pre ++ chunk :: post)).highLowContainer.chunks = pre ++ chunk :: post := rfl
  rw [runOptimizeStep]
  simp only [raUnshareContainerAtIndex_split split small holds, raGetContainerAtIndex_split split small, ok_bind,
    holds.owned, Chunk.convert]
  cases convertRunOptimize chunk.content with
  | error fault => rfl
  | ok c =>
    simp only [ok_bind, raSetContainerAtIndex_split split]
    rfl

section RunOptimize

variable {r s : RoaringBitmap} {chunks chunks' : List Chunk}

/-- The loop of run optimisation. -/
theorem roaringBitmapRunOptimize_eq {P : Container → Prop} (well : r.Well P) {Q : Container → Prop}
    (run : r.highLowContainer.chunks.mapM (Chunk.convert convertRunOptimize) = .ok chunks')
    (converted : List.Forall₂ (Chunk.Converted convertRunOptimize Q) r.highLowContainer.chunks chunks') :
    roaringBitmapRunOptimize r = .ok (r.withChunks chunks', raHasRunContainer (r.withChunks chunks').highLowContainer) := by
  rw [roaringBitmapRunOptimize, foldlM_convert (runOptimize_converts P) well, run]
  exact congrArg (fun marked => Except.ok (r.withChunks chunks', marked))
    (any_zip_converted converted fun chunk => isRunContainer chunk.container).2

theorem containerBytes_cons (chunk : Chunk) (chunks : List Chunk) :
    containerBytes (chunk :: chunks) = containerSizeInBytes chunk.container + containerBytes chunks := by
  rw [containerBytes, List.map_cons, List.sum_cons]
  rfl

/-- Optimal containers are no larger than valid ones with the same values. -/
theorem containerBytes_optimal_le (same : List.Forall₂ (fun chunk chunk' : Chunk => chunk.key = chunk'.key ∧
      chunk.content.values = chunk'.content.values) chunks chunks')
    (optimal : ∀ chunk ∈ chunks, chunk.Holds Container.Optimal)
    (valid : ∀ chunk ∈ chunks', chunk.Holds Container.Valid) : containerBytes chunks ≤ containerBytes chunks' := by
  induction same with
  | nil => exact Nat.le_refl _
  | @cons chunk chunk' chunks chunks' head _ ih =>
    obtain ⟨here, later⟩ := List.forall_mem_cons.1 optimal
    obtain ⟨here', later'⟩ := List.forall_mem_cons.1 valid
    have size := leastSize_le here'.allowed
    rw [← head.2, ← here.allowed.least, ← here.owned, ← here'.owned] at size
    rw [containerBytes_cons, containerBytes_cons]
    exact Nat.add_le_add size (ih later later')

/-- Optimal containers are left as they are. -/
theorem eq_of_converted_optimal {Q : Container → Prop}
    (converted : List.Forall₂ (Chunk.Converted convertRunOptimize Q) chunks chunks')
    (optimal : ∀ chunk ∈ chunks, chunk.Holds Container.Optimal) : chunks' = chunks := by
  induction converted with
  | nil => rfl
  | @cons chunk chunk' chunks chunks' head _ ih =>
    obtain ⟨here, later⟩ := List.forall_mem_cons.1 optimal
    have content : chunk'.content = chunk.content := Except.ok.inj (head.run.symm.trans here.allowed.stays)
    have same : chunk' = chunk := by
      obtain ⟨key, container⟩ := chunk
      obtain ⟨key', container'⟩ := chunk'
      have keys := head.key
      have containers := head.owned.trans ((congrArg SlotContainer.owned content).trans here.owned.symm)
      simp only at keys containers
      rw [keys, containers]
    rw [same, ih later]

/-- Four runs of one value. -/
def exampleSingles : RunContainer :=
  { capacity := 4
    runs := [{ value := 1, length := 0 }, { value := 3, length := 0 }, { value := 5, length := 0 },
      { value := 7, length := 0 }] }

/-- **The smallest bitmap.** Of a bitmap without run containers run optimisation
makes one with the same values that no bitmap with these values is smaller than,
and that it does not change any more. -/
theorem run_optimize_least (well : r.Well Container.Plain) :
    ∃ r' hasRuns, roaringBitmapRunOptimize r = .ok (r', hasRuns) ∧ r'.Well Container.Valid ∧ r'.values = r.values ∧
      (∀ s : RoaringBitmap, s.Well Container.Valid → s.values = r.values →
        containerBytes r'.highLowContainer.chunks ≤ containerBytes s.highLowContainer.chunks) ∧
      roaringBitmapRunOptimize r' = .ok (r', hasRuns) := by
  obtain ⟨chunks', run, converted⟩ := mapM_convert
    (fun c plain some => convertRunOptimize_optimal plain some) well.array.chunks.holds
  have well' := well.withChunks converted rfl
  have optimal := well'.array.chunks.holds
  have valid := well'.mono fun _ optimal => optimal.valid
  have values : (r.withChunks chunks').values = r.values := chunkValues_converted converted
  refine ⟨_, _, roaringBitmapRunOptimize_eq well run converted, valid, values, ?_, ?_⟩
  · intro s wellS same
    apply containerBytes_optimal_le (valid.array.chunks.same_contents wellS.array.chunks ?_) optimal wellS.array.chunks.holds
    intro v
    exact (congrArg (v ∈ ·) (values.trans same.symm)).to_iff
  · obtain ⟨again, run', converted'⟩ := mapM_convert (Q := Container.Optimal)
      (fun c optimal some => ⟨c, optimal.stays, optimal, rfl⟩) optimal
    obtain rfl := eq_of_converted_optimal converted' optimal
    exact roaringBitmapRunOptimize_eq well' run' converted'

/-- Four neighbours in two chunks, which become runs. -/
theorem example_run_optimize_least :
    ∃ r' hasRuns,
      roaringBitmapRunOptimize (uniformBitmap [0, 1] (.array { capacity := 4, array := [1, 2, 3, 4] })) = .ok (r', hasRuns) ∧
      roaringBitmapRunOptimize r' = .ok (r', hasRuns) := by
  have plain : Container.Plain (.array { capacity := 4, array := [1, 2, 3, 4] }) :=
    .array ⟨by decide, by decide⟩ (by decide)
  have sorted : List.Pairwise (· < ·) ([0, 1] : List UInt16) := by decide
  obtain ⟨r', hasRuns, run, -, -, -, again⟩ := run_optimize_least (uniformBitmap_well sorted plain (by decide))
  exact ⟨r', hasRuns, run, again⟩

end RunOptimize

/-! ## Removing the runs -/

/-- What the removal makes of a container. -/
def withoutRuns : Container → Outcome Container
  | .run run => convertToBitsetOrArrayContainer run (runContainerCardinality run)
  | c => .ok c

theorem removeRunCompression_converts (P : Container → Prop) :
    Converts P removeRunCompressionStep withoutRuns fun chunk _ => isRunContainer chunk.container := by
  intro r answer pre post chunk small holds
  have split : (r.withChunks (pre ++ chunk :: post)).highLowContainer.chunks = pre ++ chunk :: post := rfl
  have kept : chunk.put chunk.content = chunk := by rw [Chunk.put, ← holds.owned]
  rw [removeRunCompressionStep]
  simp only [raGetContainerAtIndex_split split small, ok_bind, Chunk.convert]
  rw [holds.owned, isRunContainer]
  generalize chunk.content = c at kept
  cases c with
  | bitset b => simp only [containerUnwrapShared, withoutRuns, ok_bind, pure_eq, kept, Bool.or_false]
  | array arr => simp only [containerUnwrapShared, withoutRuns, ok_bind, pure_eq, kept, Bool.or_false]
  | run run =>
    simp only [containerUnwrapShared, withoutRuns]
    cases convertToBitsetOrArrayContainer run (runContainerCardinality run) with
    | error fault => rfl
    | ok c =>
      simp only [ok_bind, raSetContainerAtIndex_split split, pure_eq, Bool.or_true]
      rfl

/-- A container that the removal can write out: one that is written into an array
does not have the value 65535. -/
def Container.Removable (c : Container) : Prop :=
  ∀ run, c = .run run → 65535 ∈ run.values → 4096 < run.values.length

theorem withoutRuns_spec {c : Container} (valid : c.Valid) (removable : c.Removable) :
    ∃ c', withoutRuns c = .ok c' ∧ c'.Plain ∧ c'.values = c.values := by
  cases valid with
  | run valid => exact convertToBitsetOrArrayContainer_spec valid (removable _ rfl)
  | plain plain =>
    cases plain with
    | array valid small => exact ⟨_, rfl, .array valid small, rfl⟩
    | bitset exact large => exact ⟨_, rfl, .bitset exact large, rfl⟩

theorem removable_of_withoutRuns {c c' : Container} (valid : c.Valid) (run : withoutRuns c = .ok c') : c.Removable := by
  rintro r rfl last
  by_contra small
  cases valid with
  | plain plain => cases plain
  | run valid => exact convertToBitsetOrArrayContainer_fails valid last (Nat.not_lt.1 small) run

/-- **Removing the runs** succeeds exactly when no run container of at most 4096
values has the value 65535. Then it keeps the keys and the values, leaves no run
container, and tells whether there was one. -/
theorem remove_run_compression_iff {r : RoaringBitmap} (well : r.Well Container.Valid) :
    ((∃ result, roaringBitmapRemoveRunCompression r = .ok result) ↔
      ∀ chunk ∈ r.highLowContainer.chunks, chunk.content.Removable) ∧
    ∀ r' changed, roaringBitmapRemoveRunCompression r = .ok (r', changed) →
      r'.Well Container.Plain ∧ r'.highLowContainer.keys = r.highLowContainer.keys ∧ r'.values = r.values ∧
        changed = raHasRunContainer r.highLowContainer := by
  have loop := foldlM_convert (removeRunCompression_converts Container.Valid) well
  rw [← roaringBitmapRemoveRunCompression] at loop
  have needed : ∀ result, roaringBitmapRemoveRunCompression r = .ok result →
      ∀ chunk ∈ r.highLowContainer.chunks, chunk.content.Removable := by
    intro result run chunk inside
    rw [loop] at run
    obtain ⟨chunks', all, -⟩ := bind_eq_ok.1 run
    obtain ⟨chunk', one⟩ := mapM_ok_mem all inside
    obtain ⟨c', converted, -⟩ := convert_eq_ok.1 one
    exact removable_of_withoutRuns (well.array.chunks.holds chunk inside).allowed converted
  have enough : (∀ chunk ∈ r.highLowContainer.chunks, chunk.content.Removable) →
      ∃ r', roaringBitmapRemoveRunCompression r = .ok (r', raHasRunContainer r.highLowContainer) ∧
        r'.Well Container.Plain ∧ r'.highLowContainer.keys = r.highLowContainer.keys ∧ r'.values = r.values := by
    intro removable
    obtain ⟨chunks', run, converted⟩ := mapM_convert (P := fun c => c.Valid ∧ c.Removable)
      (fun c given _ => withoutRuns_spec given.1 given.2) fun chunk inside =>
        have holds := well.array.chunks.holds chunk inside
        ⟨holds.owned, ⟨holds.allowed, removable chunk inside⟩, holds.nonempty⟩
    refine ⟨r.withChunks chunks', ?_, well.withChunks converted rfl, map_key_converted converted,
      chunkValues_converted converted⟩
    rw [loop, run]
    exact congrArg (fun marked => Except.ok (r.withChunks chunks', marked))
      (any_zip_converted converted fun chunk => isRunContainer chunk.container).1
  refine ⟨⟨fun ⟨result, run⟩ => needed result run, fun removable => ?_⟩, fun r' changed run => ?_⟩
  · obtain ⟨r', run, -⟩ := enough removable
    exact ⟨_, run⟩
  · obtain ⟨r'', run', well', keys, values⟩ := enough (needed _ run)
    obtain ⟨rfl, rfl⟩ := Prod.mk.inj (Except.ok.inj (run.symm.trans run'))
    exact ⟨well', keys, values, rfl⟩

/-- The run from 65533 to 65535. -/
def exampleLast : RunContainer := { capacity := 1, runs := [{ value := 65533, length := 2 }] }

/-- Four runs are written out; a run up to 65535 is not. -/
theorem example_remove_run_compression :
    (∃ result, roaringBitmapRemoveRunCompression (uniformBitmap [0, 1] (.run exampleSingles)) = .ok result) ∧
      ¬ ∃ result, roaringBitmapRemoveRunCompression (uniformBitmap [0, 1] (.run exampleLast)) = .ok result := by
  have singles : exampleSingles.Valid := ⟨⟨by decide, by decide⟩, by decide, by decide⟩
  have last : exampleLast.Valid := ⟨⟨by decide, by decide⟩, by decide, by decide⟩
  have sorted : List.Pairwise (· < ·) ([0, 1] : List UInt16) := by decide
  have well := uniformBitmap_well sorted (Container.Valid.run singles) (by decide)
  have well' := uniformBitmap_well sorted (Container.Valid.run last) (by decide)
  constructor
  · refine (remove_run_compression_iff well).1.2 fun chunk inside => ?_
    rw [Chunk.content, chunk_uniformBitmap inside]
    rintro run ⟨⟩ isLast
    exact absurd isLast (by decide)
  · intro removed
    have removable := (remove_run_compression_iff well').1.1 removed
      { key := 0, container := .owned (.run exampleLast) } (by simp [uniformBitmap])
    exact absurd (removable exampleLast rfl (by decide)) (by decide)

end RedisRoaring
