import Llfs.Spec.InsertCorrect
import Llfs.Spec.Sizing
import Llfs.Spec.SliceWorkCorrect
import Llfs.Native.ParallelBuild

/-! # The parallel build is the sequential build

`parallel_build_bloom_filter` stands for `filter->clear()` followed by
`filter->insert(hash_fn(item))` for each item in order. Stage 1 gives each shard filter to
one task, which writes only that shard; stage 2 gives each word of the target to one task,
which writes only that word. So neither stage has a data race (`raceFree_stage1`,
`raceFree_stage2`), its steps commute, and every schedule ends where the tasks run one
after the other do (`runStage_eq_runSeq`). Run in order, shard `p`
is cleared and holds the bits of slice `p` of the input, and word `x` of the target
becomes the OR of the shards' words `x`: the OR of the masks of every hash of every item,
which is what the sequential inserts leave in a cleared filter.

Clearing a shard is a `memset` of `8 * (word_count_mask + 1)` bytes in `u64`; the shards
fit in `temp_memory` only when this does not wrap, so a build that returns clears every
word it later reads.

## Key results

- `runStage_stage1`: after stage 1, shard `p` holds the bits of slice `p`
- `runStage_stage2`: after stage 2, each word is the OR of the shards' words
- `parallelBuildBloomFilter_eq`: the build computed, with each of its faults
- `parallelBuildBloomFilter_refines`: a build that returns is the sequential build
- `parallelBuildBloomFilter_nil`: an empty input divides by `n_input_shards = 0`
- `parallelBuildBloomFilter_completes`: a nonempty input, a nonzero `hash_count` and a
  `temp_memory` whose size does not wrap give the sequential build
-/

namespace Llfs

open PackedBloomFilter

variable {α β : Type}

/-- The sequential build the parallel one stands for: `filter->clear()`, then
    `filter->insert(hash_fn(item))` for each item of `[first, last)` in order. -/
def buildSequential (filter : PackedBloomFilter) (items : List α) (hashFn : α → β)
    (getNthHash : β → Nat → BitVec 64) : PackedBloomFilter :=
  items.foldl (fun f item => f.insert getNthHash (hashFn item)) filter.clear

namespace PackedBloomFilter

/-- The word writes of inserting `hash_fn(item)` for every item of `xs`, in order. -/
theorem runSteps_flatMap_insertSteps (f : PackedBloomFilter) (gh : β → Nat → BitVec 64)
    (hashFn : α → β) (xs : List α) (w : Nat → BitVec 64) :
    runSteps (xs.flatMap fun item => f.insertSteps gh (hashFn item)) w =
      (insertedHashes gh f.hashCount.toNat (xs.map hashFn)).foldl f.setHashBit w := by
  induction xs generalizing w with
  | nil => rfl
  | cons x xs ih =>
    rw [List.flatMap_cons, runSteps_append, runSteps_insertSteps, ih]
    simp only [insertedHashes, List.map_cons, List.flatMap_cons, List.foldl_append,
      List.flatMap_nil, List.append_nil]

end PackedBloomFilter

theorem insertedHashes_flatMap {γ : Type} (gh : β → Nat → BitVec 64) (hashCount : Nat)
    (l : List γ) (g : γ → List β) :
    insertedHashes gh hashCount (l.flatMap g) =
      l.flatMap fun a => insertedHashes gh hashCount (g a) :=
  List.flatMap_assoc _ _ _

/-- The sequential build inserts into a cleared filter. -/
theorem buildSequential_eq (filter : PackedBloomFilter) (items : List α) (hashFn : α → β)
    (gh : β → Nat → BitVec 64) :
    buildSequential filter items hashFn gh = insertAll filter.clear gh (items.map hashFn) := by
  rw [buildSequential, insertAll, List.foldl_map]

/-! ## Stage 1: one shard per task -/

/-- The stage-1 task's steps all write its own shard. -/
theorem stage1Task_eq (filter : PackedBloomFilter) (items : List α) (hashFn : α → β)
    (gh : β → Nat → BitVec 64) (t : Nat × Nat × Nat) :
    stage1Task filter items hashFn gh t = (filter.clearSteps ++
      ((items.drop t.2.1).take t.2.2).flatMap fun item =>
        filter.insertSteps gh (hashFn item)).map (writeAt t.1) := rfl

/-- Stage 1 has no data race: each task writes only its own shard. -/
theorem raceFree_stage1 (filter : PackedBloomFilter) (items : List α) (hashFn : α → β)
    (gh : β → Nat → BitVec 64) (plan : WorkSlicePlan) :
    RaceFree (plan.tasks.map (stage1Task filter items hashFn gh)) := by
  refine raceFree_of_owned (fun i l => l = i) (fun i j l hij hi hj => hij (hi ▸ hj)) ?_
  intro i a ha
  rw [WorkSlicePlan.getD_map_tasks] at ha
  split_ifs at ha
  · rw [stage1Task_eq] at ha
    obtain ⟨g, -, rfl⟩ := List.mem_map.1 ha
    exact ⟨i, g, rfl, rfl⟩
  · exact absurd ha (List.not_mem_nil a)

/-- Tasks `t` of a plan whose steps all write location `t.1`, run one after the other. -/
theorem runSeq_tasks_writeAt {γ : Type} (plan : WorkSlicePlan)
    (ops : Nat × Nat × Nat → List (γ → γ)) (m : Nat → γ) (x : Nat) :
    runSeq (plan.tasks.map fun t => (ops t).map (writeAt t.1)) m x =
      if x < plan.nTasks then
        runSteps (ops (x, x * plan.taskSize,
          min plan.taskSize (plan.inputSize - x * plan.taskSize))) (m x)
      else m x := by
  rw [runSeq, ← List.flatMap_def, WorkSlicePlan.tasks, List.flatMap_map]
  exact runSteps_flatMap_range_writeAt _ _ m x

/-- After stage 1, under every schedule, shard `p` of the plan's is cleared and holds the
    bits of slice `p`; the memory past the last shard is as it was. -/
theorem runStage_stage1 (filter : PackedBloomFilter) (items : List α) (hashFn : α → β)
    (gh : β → Nat → BitVec 64) (plan : WorkSlicePlan) (sched : List Nat)
    (tempMemory : Nat → Nat → BitVec 64) (p x : Nat) :
    runStage sched (plan.tasks.map (stage1Task filter items hashFn gh)) tempMemory p x =
      if p < plan.nTasks then
        (if x < filter.clearCount then 0#64 else tempMemory p x) |||
          maskUnion filter (insertedHashes gh filter.hashCount.toNat
            ((plan.slice items p).map hashFn)) x
      else tempMemory p x := by
  rw [runStage_eq_runSeq (raceFree_stage1 filter items hashFn gh plan).noninterfering]
  simp only [funext (stage1Task_eq filter items hashFn gh)]
  rw [runSeq_tasks_writeAt]
  by_cases hp : p < plan.nTasks
  · rw [if_pos hp, if_pos hp, runSteps_append, runSteps_flatMap_insertSteps, foldl_setHashBit,
      runSteps_clearSteps]
    rfl
  · rw [if_neg hp, if_neg hp]

/-! ## Stage 2: one range of words per task -/

/-- The stage-2 task's steps all write words of its own range. -/
theorem stage2Task_eq (shards : Nat → Nat → BitVec 64) (n : Nat) (t : Nat × Nat × Nat) :
    stage2Task shards n t = (List.range' t.2.1 t.2.2).flatMap fun i =>
      ((fun _ => 0#64) :: (List.range n).map fun p w => w ||| shards p i).map (writeAt i) := by
  simp only [stage2Task, List.map_cons, List.map_map]
  rfl

/-- Stage 2 has no data race: the tasks' word ranges are disjoint. -/
theorem raceFree_stage2 (shards : Nat → Nat → BitVec 64) (n : Nat) (plan : WorkSlicePlan) :
    RaceFree (plan.tasks.map (stage2Task shards n)) := by
  refine raceFree_of_owned
    (fun i l => i * plan.taskSize ≤ l ∧ l < i * plan.taskSize + plan.taskSize) ?_ ?_
  · intro i j l hij hi hj
    have hij' : i < j + 1 := Nat.lt_of_mul_lt_mul_right (a := plan.taskSize) (by
      rw [Nat.succ_mul]; omega)
    have hji' : j < i + 1 := Nat.lt_of_mul_lt_mul_right (a := plan.taskSize) (by
      rw [Nat.succ_mul]; omega)
    omega
  · intro i a ha
    rw [WorkSlicePlan.getD_map_tasks] at ha
    split_ifs at ha
    · rw [stage2Task_eq] at ha
      obtain ⟨l, hl, ha⟩ := List.mem_flatMap.1 ha
      obtain ⟨g, -, rfl⟩ := List.mem_map.1 ha
      simp only [List.mem_range'_1] at hl
      have := min_le_left plan.taskSize (plan.inputSize - i * plan.taskSize)
      exact ⟨l, g, ⟨hl.1, by omega⟩, rfl⟩
    · exact absurd ha (List.not_mem_nil a)

/-- After stage 2, under every schedule, each word of `[0, word_count())` is the OR of the
    shards' words there; the words past it are as they were. -/
theorem runStage_stage2 (shards : Nat → Nat → BitVec 64) (n : Nat) {params : WorkSliceParams}
    {wc : Nat} {plan : WorkSlicePlan} (h : WorkSlicePlan.make params wc = some plan)
    (sched : List Nat) (words : Nat → BitVec 64) (x : Nat) :
    runStage sched (plan.tasks.map (stage2Task shards n)) words x =
      if x < wc then (List.range n).foldl (fun acc p => acc ||| shards p x) 0#64
      else words x := by
  have hflat : plan.tasks.flatMap (stage2Task shards n) = (List.range wc).flatMap fun i =>
      ((fun _ => 0#64) :: (List.range n).map fun p w => w ||| shards p i).map (writeAt i) := by
    rw [← WorkSlicePlan.flatMap_range' h, List.flatMap_assoc]
    exact congrArg _ (funext (stage2Task_eq shards n))
  rw [runStage_eq_runSeq (raceFree_stage2 shards n plan).noninterfering, runSeq,
    ← List.flatMap_def, hflat, runSteps_flatMap_range_writeAt]
  by_cases hx : x < wc
  · rw [if_pos hx, if_pos hx, runSteps_cons, runSteps, List.foldl_map]
  · rw [if_neg hx, if_neg hx]

/-! ## The two stages together -/

/-- Shards that fit in `temp_memory`, at least one of them, leave no wrap-around in
    `packed_sizeof` or in `8 * (word_count_mask + 1)`. -/
theorem wordCountMask_lt_of_shardsFit {filter : PackedBloomFilter} {n : Nat}
    (hfit : shardsFit filter n = true) (hn : 0 < n) :
    filter.wordCountMask.toNat + 3 < 2 ^ 61 := by
  simp only [shardsFit, Bool.or_eq_true, beq_iff_eq, decide_eq_true_eq] at hfit
  have := Nat.mod_lt ((packedSizeof filter).toNat * n) (Nat.two_pow_pos 64)
  omega

/-- At least one shard filter fits in `temp_memory` exactly when its size,
    `n * packed_sizeof(*filter)` bytes, does not wrap in `usize`. -/
theorem shardsFit_iff {filter : PackedBloomFilter} {n : Nat} (hn : 0 < n) :
    shardsFit filter n = true ↔ n * (16 + 8 * (filter.wordCountMask.toNat + 1)) < 2 ^ 64 := by
  have hfs := Nat.le_mul_of_pos_left (16 + 8 * (filter.wordCountMask.toNat + 1)) hn
  have hsub := Nat.sub_one_mul n (16 + 8 * (filter.wordCountMask.toNat + 1))
  constructor
  · intro hfit
    have hsize := packedSizeof_toNat (wordCountMask_lt_of_shardsFit hfit hn)
    simp only [shardsFit, hsize, Bool.or_eq_true, beq_iff_eq, decide_eq_true_eq] at hfit
    have hle := Nat.mod_le ((16 + 8 * (filter.wordCountMask.toNat + 1)) * n) (2 ^ 64)
    have hlt := Nat.mod_lt ((16 + 8 * (filter.wordCountMask.toNat + 1)) * n)
      (Nat.two_pow_pos 64)
    rw [Nat.mul_comm] at hle hlt
    omega
  · intro hlt
    have hsize := packedSizeof_toNat (f := filter) (by omega)
    simp only [shardsFit, hsize, Bool.or_eq_true, beq_iff_eq, decide_eq_true_eq]
    rw [Nat.mul_comm _ n, Nat.mod_eq_of_lt hlt]
    omega

/-- OR-ing shard words that are each the mask of some hashes gives the mask of them all. -/
theorem foldl_or_maskUnion (f : PackedBloomFilter) {shards : Nat → Nat → BitVec 64}
    {hs : Nat → List (BitVec 64)} {x : Nat} (l : List Nat)
    (h : ∀ p ∈ l, shards p x = maskUnion f (hs p) x) (acc : BitVec 64) :
    l.foldl (fun acc p => acc ||| shards p x) acc = acc ||| maskUnion f (l.flatMap hs) x := by
  induction l generalizing acc with
  | nil => simp
  | cons p l ih =>
    rw [List.foldl_cons, ih fun q hq => h q (List.mem_cons_of_mem p hq),
      h p (List.mem_cons_self p l), List.flatMap_cons, maskUnion_append, BitVec.or_assoc]

/-- With plans for both stages and shards that fit, the two stages leave the words of the
    sequential build. -/
theorem runStage_stages (filter : PackedBloomFilter) (items : List α) (hashFn : α → β)
    (gh : β → Nat → BitVec 64) (tempMemory : Nat → Nat → BitVec 64) (sched1 sched2 : List Nat)
    {params1 params2 : WorkSliceParams} {plan1 plan2 : WorkSlicePlan}
    (hp1 : WorkSlicePlan.make params1 items.length = some plan1)
    (hfit : shardsFit filter plan1.nTasks = true) (hn : 0 < plan1.nTasks)
    (hp2 : WorkSlicePlan.make params2 filter.wordCount.toNat = some plan2) :
    runStage sched2 (plan2.tasks.map (stage2Task
      (runStage sched1 (plan1.tasks.map (stage1Task filter items hashFn gh)) tempMemory)
      plan1.nTasks)) filter.words = (buildSequential filter items hashFn gh).words := by
  have hsmall := wordCountMask_lt_of_shardsFit hfit hn
  have hwc : filter.wordCount.toNat = filter.wordCountMask.toNat + 1 := by
    rw [wordCount_toNat]
    exact Nat.mod_eq_of_lt (by omega)
  have hcc : filter.clearCount = filter.wordCountMask.toNat + 1 := clearCount_eq (by omega)
  have hall : (List.range plan1.nTasks).flatMap (fun p => insertedHashes gh
      filter.hashCount.toNat ((plan1.slice items p).map hashFn)) =
      insertedHashes gh filter.hashCount.toNat (items.map hashFn) := by
    conv_rhs => rw [← WorkSlicePlan.flatMap_range_slice hp1]
    rw [List.map_flatMap, insertedHashes_flatMap]
  funext x
  rw [runStage_stage2 _ _ hp2, buildSequential_eq, insertAll_words_apply, clear_words,
    maskUnion_clear, clear_hashCount, hwc, hcc]
  by_cases hx : x < filter.wordCountMask.toNat + 1
  · rw [if_pos hx, if_pos hx, foldl_or_maskUnion filter _ fun p hp => ?_, hall]
    rw [runStage_stage1, if_pos (List.mem_range.1 hp), hcc, if_pos hx, BitVec.zero_or]
  · rw [if_neg hx, if_neg hx, maskUnion_of_lt _ _ (by omega), BitVec.or_zero]

/-! ## The whole build -/

/-- The build, computed: where it faults, and what it returns otherwise. -/
theorem parallelBuildBloomFilter_eq (workerPool : WorkerPool) (items : List α) (hashFn : α → β)
    (gh : β → Nat → BitVec 64) (filter : PackedBloomFilter)
    (tempMemory : Nat → Nat → BitVec 64) (sched1 sched2 : List Nat) :
    parallelBuildBloomFilter workerPool items hashFn gh filter tempMemory sched1 sched2 =
      if filter.hashCount.toNat = 0 then .error .stage1MinTaskSize
      else match WorkSlicePlan.make ⟨(1024 + filter.hashCount.toNat - 1) /
          filter.hashCount.toNat, workerPool.size + 1⟩ items.length with
        | none => .error .stage1Plan
        | some plan1 =>
          if shardsFit filter plan1.nTasks then
            if plan1.nTasks = 0 then .error .stage2MinTaskSize
            else match WorkSlicePlan.make ⟨(1024 + plan1.nTasks - 1) / plan1.nTasks,
                workerPool.size + 1⟩ filter.wordCount.toNat with
              | none => .error .stage2Plan
              | some plan2 => .ok ⟨filter.wordCountMask, filter.hashCount,
                  runStage sched2 (plan2.tasks.map (stage2Task (runStage sched1
                    (plan1.tasks.map (stage1Task filter items hashFn gh)) tempMemory)
                    plan1.nTasks)) filter.words⟩
          else .error .shardOverflow := by
  unfold parallelBuildBloomFilter checkedDiv
  dsimp only [bind, Except.bind, Option.elim, pure, Except.pure]
  split_ifs
  · rfl
  · dsimp only
    cases WorkSlicePlan.make ⟨(1024 + filter.hashCount.toNat - 1) / filter.hashCount.toNat,
      workerPool.size + 1⟩ items.length with
    | none => rfl
    | some plan1 =>
      dsimp only
      split_ifs
      · rfl
      · dsimp only
        cases WorkSlicePlan.make ⟨(1024 + plan1.nTasks - 1) / plan1.nTasks,
          workerPool.size + 1⟩ filter.wordCount.toNat <;> rfl
      · rfl

/-- What a build that returns went through: a nonzero `hash_count`, both plans, at least
    one shard, and shards that fit in `temp_memory`. -/
theorem parallelBuildBloomFilter_eq_ok {workerPool : WorkerPool} {items : List α}
    {hashFn : α → β} {gh : β → Nat → BitVec 64} {filter : PackedBloomFilter}
    {tempMemory : Nat → Nat → BitVec 64} {sched1 sched2 : List Nat} {out : PackedBloomFilter}
    (h : parallelBuildBloomFilter workerPool items hashFn gh filter tempMemory sched1 sched2 =
      .ok out) :
    ∃ plan1 plan2,
      WorkSlicePlan.make ⟨(1024 + filter.hashCount.toNat - 1) / filter.hashCount.toNat,
        workerPool.size + 1⟩ items.length = some plan1 ∧
      shardsFit filter plan1.nTasks = true ∧ 0 < plan1.nTasks ∧
      WorkSlicePlan.make ⟨(1024 + plan1.nTasks - 1) / plan1.nTasks, workerPool.size + 1⟩
        filter.wordCount.toNat = some plan2 ∧
      out.wordCountMask = filter.wordCountMask ∧ out.hashCount = filter.hashCount ∧
      out.words = runStage sched2 (plan2.tasks.map (stage2Task
        (runStage sched1 (plan1.tasks.map (stage1Task filter items hashFn gh)) tempMemory)
        plan1.nTasks)) filter.words := by
  rw [parallelBuildBloomFilter_eq] at h
  split_ifs at h
  split at h
  · cases h
  · rename_i plan1 hp1
    split_ifs at h with hfit hn
    split at h
    · cases h
    · rename_i plan2 hp2
      cases h
      exact ⟨plan1, plan2, hp1, hfit, Nat.pos_of_ne_zero hn, hp2, rfl, rfl, rfl⟩

/-- Whenever `parallel_build_bloom_filter` returns, for every input, worker pool size,
    schedule of either stage and contents of `temp_memory`, the target's words are those of
    `clear()` followed by the inserts in order, and its header is unchanged. -/
theorem parallelBuildBloomFilter_refines (workerPool : WorkerPool) (items : List α)
    (hashFn : α → β) (gh : β → Nat → BitVec 64) (filter : PackedBloomFilter)
    (tempMemory : Nat → Nat → BitVec 64) (sched1 sched2 : List Nat) (out : PackedBloomFilter)
    (hret : parallelBuildBloomFilter workerPool items hashFn gh filter tempMemory sched1 sched2 =
      .ok out) :
    out.words = (buildSequential filter items hashFn gh).words ∧
      out.wordCountMask = filter.wordCountMask ∧ out.hashCount = filter.hashCount := by
  obtain ⟨plan1, plan2, hp1, hfit, hn, hp2, hmask, hhc, hwords⟩ :=
    parallelBuildBloomFilter_eq_ok hret
  exact ⟨hwords.trans (runStage_stages filter items hashFn gh tempMemory sched1 sched2 hp1 hfit
    hn hp2), hmask, hhc⟩

theorem parallelBuildBloomFilter_refines_two_shards :
    parallelBuildBloomFilter ⟨1, Nat.one_lt_two_pow (Nat.succ_ne_zero 62)⟩ [0, 1] id
        (fun y i => BitVec.ofNat 64 (64 * (y + i) + i)) ⟨1#64, 1024#16, fun _ => 0#64⟩
        (fun _ _ => 5#64) [0, 1, 0] [0] =
      .ok ((parallelBuildBloomFilter ⟨1, Nat.one_lt_two_pow (Nat.succ_ne_zero 62)⟩ [0, 1]
        id (fun y i => BitVec.ofNat 64 (64 * (y + i) + i)) ⟨1#64, 1024#16, fun _ => 0#64⟩
        (fun _ _ => 5#64) [0, 1, 0] [0]).toOption.getD default) ∧
    ((parallelBuildBloomFilter ⟨1, Nat.one_lt_two_pow (Nat.succ_ne_zero 62)⟩ [0, 1] id
        (fun y i => BitVec.ofNat 64 (64 * (y + i) + i)) ⟨1#64, 1024#16, fun _ => 0#64⟩
        (fun _ _ => 5#64) [0, 1, 0] [0]).toOption.getD default).words =
      (buildSequential ⟨1#64, 1024#16, fun _ => 0#64⟩ [0, 1] id
        (fun y i => BitVec.ofNat 64 (64 * (y + i) + i))).words ∧
    ((parallelBuildBloomFilter ⟨1, Nat.one_lt_two_pow (Nat.succ_ne_zero 62)⟩ [0, 1] id
        (fun y i => BitVec.ofNat 64 (64 * (y + i) + i)) ⟨1#64, 1024#16, fun _ => 0#64⟩
        (fun _ _ => 5#64) [0, 1, 0] [0]).toOption.getD default).wordCountMask = 1#64 ∧
    ((parallelBuildBloomFilter ⟨1, Nat.one_lt_two_pow (Nat.succ_ne_zero 62)⟩ [0, 1] id
        (fun y i => BitVec.ofNat 64 (64 * (y + i) + i)) ⟨1#64, 1024#16, fun _ => 0#64⟩
        (fun _ _ => 5#64) [0, 1, 0] [0]).toOption.getD default).hashCount = 1024#16 :=
  ⟨rfl, parallelBuildBloomFilter_refines ⟨1, Nat.one_lt_two_pow (Nat.succ_ne_zero 62)⟩ [0, 1]
    id (fun y i => BitVec.ofNat 64 (64 * (y + i) + i)) ⟨1#64, 1024#16, fun _ => 0#64⟩
    (fun _ _ => 5#64) [0, 1, 0] [0] _ rfl⟩

/-- On an empty input range the stage-1 plan has no tasks, and the stage-2 `min_task_size`
    divides by `n_input_shards = 0`, for every worker pool and every filter. -/
theorem parallelBuildBloomFilter_nil (workerPool : WorkerPool) (hashFn : α → β)
    (gh : β → Nat → BitVec 64) (filter : PackedBloomFilter)
    (tempMemory : Nat → Nat → BitVec 64) (sched1 sched2 : List Nat)
    (hc : 0 < filter.hashCount.toNat) :
    parallelBuildBloomFilter workerPool ([] : List α) hashFn gh filter tempMemory sched1 sched2 =
      .error .stage2MinTaskSize := by
  obtain ⟨plan1, hp1⟩ : ∃ plan1, WorkSlicePlan.make ⟨(1024 + filter.hashCount.toNat - 1) /
      filter.hashCount.toNat, workerPool.size + 1⟩ ([] : List α).length = some plan1 :=
    WorkSlicePlan.make_isSome (Nat.succ_pos _) (Nat.div_pos (by omega) hc) _
  have hn : plan1.nTasks = 0 := (WorkSlicePlan.nTasks_eq_zero_iff hp1).2 rfl
  rw [parallelBuildBloomFilter_eq, if_neg hc.ne', hp1]
  dsimp only
  rw [if_pos (by rw [hn]; rfl), if_pos hn]

theorem parallelBuildBloomFilter_nil_one_hash :
    0 < (1#16).toNat ∧
    parallelBuildBloomFilter ⟨0, Nat.two_pow_pos 63⟩ ([] : List Unit) id (fun _ _ => 0#64)
      ⟨0#64, 1#16, fun _ => 0#64⟩ (fun _ _ => 0#64) [] [] = .error .stage2MinTaskSize :=
  ⟨by decide, parallelBuildBloomFilter_nil _ _ _ ⟨0#64, 1#16, fun _ => 0#64⟩ _ _ _ (by decide)⟩

/-- The build completes on every nonempty input when `hash_count` is nonzero and
    `temp_memory` for the most shards the pool can get does not wrap in `usize`: it then
    returns the sequential build. -/
theorem parallelBuildBloomFilter_completes (workerPool : WorkerPool) (items : List α)
    (hashFn : α → β) (gh : β → Nat → BitVec 64) (filter : PackedBloomFilter)
    (tempMemory : Nat → Nat → BitVec 64) (sched1 sched2 : List Nat)
    (hc : 0 < filter.hashCount.toNat) (hne : items ≠ [])
    (hmem : (workerPool.size + 1) * (16 + 8 * (filter.wordCountMask.toNat + 1)) < 2 ^ 64) :
    parallelBuildBloomFilter workerPool items hashFn gh filter tempMemory sched1 sched2 =
      .ok (buildSequential filter items hashFn gh) := by
  obtain ⟨plan1, hp1⟩ : ∃ plan1, WorkSlicePlan.make ⟨(1024 + filter.hashCount.toNat - 1) /
      filter.hashCount.toNat, workerPool.size + 1⟩ items.length = some plan1 :=
    WorkSlicePlan.make_isSome (Nat.succ_pos _) (Nat.div_pos (by omega) hc) _
  have hn : plan1.nTasks ≠ 0 := fun h =>
    hne (List.length_eq_zero.1 ((WorkSlicePlan.nTasks_eq_zero_iff hp1).1 h))
  have hfit : shardsFit filter plan1.nTasks = true :=
    (shardsFit_iff (Nat.pos_of_ne_zero hn)).2 (lt_of_le_of_lt
      (Nat.mul_le_mul_right _ (WorkSlicePlan.nTasks_le_maxTasks hp1)) hmem)
  obtain ⟨plan2, hp2⟩ : ∃ plan2, WorkSlicePlan.make ⟨(1024 + plan1.nTasks - 1) / plan1.nTasks,
      workerPool.size + 1⟩ filter.wordCount.toNat = some plan2 :=
    WorkSlicePlan.make_isSome (Nat.succ_pos _) (Nat.div_pos (by omega) (Nat.pos_of_ne_zero hn)) _
  rw [parallelBuildBloomFilter_eq, if_neg hc.ne', hp1]
  dsimp only
  rw [if_pos hfit, if_neg hn, hp2]
  dsimp only
  rw [runStage_stages filter items hashFn gh tempMemory sched1 sched2 hp1 hfit
    (Nat.pos_of_ne_zero hn) hp2, buildSequential_eq, insertAll_eq]
  rfl

theorem parallelBuildBloomFilter_completes_two_shards :
    0 < (1024#16).toNat ∧ [0, 1] ≠ [] ∧
    (1 + 1) * (16 + 8 * ((1#64).toNat + 1)) < 2 ^ 64 ∧
    parallelBuildBloomFilter ⟨1, Nat.one_lt_two_pow (Nat.succ_ne_zero 62)⟩ [0, 1] id
        (fun y i => BitVec.ofNat 64 (64 * (y + i) + i)) ⟨1#64, 1024#16, fun _ => 0#64⟩
        (fun _ _ => 5#64) [0, 1, 0] [0] =
      .ok (buildSequential ⟨1#64, 1024#16, fun _ => 0#64⟩ [0, 1] id
        (fun y i => BitVec.ofNat 64 (64 * (y + i) + i))) :=
  ⟨by decide, List.cons_ne_nil _ _, by decide,
    parallelBuildBloomFilter_completes ⟨1, Nat.one_lt_two_pow (Nat.succ_ne_zero 62)⟩ [0, 1]
      id (fun y i => BitVec.ofNat 64 (64 * (y + i) + i)) ⟨1#64, 1024#16, fun _ => 0#64⟩
      (fun _ _ => 5#64) [0, 1, 0] [0] (by decide) (List.cons_ne_nil _ _) (by decide)⟩

end Llfs
