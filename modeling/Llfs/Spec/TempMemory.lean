import Llfs.Spec.ParallelBuildCorrect

/-! # Stage 1 on the bytes of `temp_memory`

The build's model runs stage 1 on one word array per shard (`stage1Task`). The C++ runs it
on one block of bytes, with shard `p` at byte `p * filter_size` and its words after a
16-byte header (`stage1TaskMem`). When the shards fit in the block (`shardsFit`):

1. **Footprint**: every word write of a stage-1 task hits a word below `word_count()` of its
   own shard, and the shards' `filter_size`-byte slots lie one after the other inside the
   block. So no task writes another task's shard or any shard's header.
2. **No data race**: two different tasks never write the same word (`raceFree_stage1Mem`).
3. **Refinement**: under every schedule, each shard word of the block ends as the per-shard
   model says (`runStage_stage1TaskMem`). Stage 2 reads only those words.

Without `shardsFit`, `filter_size` can wrap in `usize` and the slots overlap; the build
faults there (`BuildFault.shardOverflow`) before stage 1 runs.

## Key results

- `stage1Writes_footprint`: where each stage-1 write lands in `temp_memory`
- `raceFree_stage1Mem`: stage 1 on the bytes of `temp_memory` has no data race
- `runStage_stage1TaskMem`: the per-shard model of stage 1 is the byte-level one
-/

namespace Llfs

open PackedBloomFilter

variable {α β : Type}

/-! ## Located writes of a stage-1 task -/

namespace PackedBloomFilter

theorem clearSteps_eq_writes (f : PackedBloomFilter) :
    f.clearSteps = f.clearWrites.map fun w => writeAt w.1 w.2 := by
  rw [clearSteps, clearWrites, List.map_map]
  rfl

theorem insertSteps_eq_writes (f : PackedBloomFilter) (gh : β → Nat → BitVec 64) (x : β) :
    f.insertSteps gh x = (f.insertWrites gh x).map fun w => writeAt w.1 w.2 := by
  rw [insertSteps, insertWrites, List.map_map]
  rfl

end PackedBloomFilter

/-- The stage-1 task is its located writes, each made in shard `task_index`. -/
theorem stage1Task_eq_writes (filter : PackedBloomFilter) (items : List α) (hashFn : α → β)
    (gh : β → Nat → BitVec 64) (t : Nat × Nat × Nat) :
    stage1Task filter items hashFn gh t =
      ((stage1Writes filter items hashFn gh t).map fun w => writeAt w.1 w.2).map
        (writeAt t.1) := by
  rw [stage1Task_eq, clearSteps_eq_writes]
  simp only [insertSteps_eq_writes, ← List.map_flatMap, ← List.map_append]
  rfl

/-- While `clear` does not wrap, a stage-1 task writes only words below
    `word_count_mask + 1` of its shard. -/
theorem stage1Writes_lt {filter : PackedBloomFilter} (h : filter.wordCountMask.toNat + 1 < 2 ^ 61)
    (items : List α) (hashFn : α → β) (gh : β → Nat → BitVec 64) (t : Nat × Nat × Nat)
    {w : Nat × (BitVec 64 → BitVec 64)} (hw : w ∈ stage1Writes filter items hashFn gh t) :
    w.1 < filter.wordCountMask.toNat + 1 := by
  obtain ⟨i, o, n⟩ := t
  rcases List.mem_append.1 hw with hw | hw
  · obtain ⟨j, hj, rfl⟩ := List.mem_map.1 hw
    exact clearCount_eq h ▸ List.mem_range.1 hj
  · obtain ⟨x, -, hx⟩ := List.mem_flatMap.1 hw
    obtain ⟨k, -, rfl⟩ := List.mem_map.1 hx
    exact Nat.lt_succ_of_le (filter.indexFromHash_le _)

/-! ## The shards' slots in `temp_memory` -/

section Layout

variable {filter : PackedBloomFilter} {n : Nat}

/-- With shards that fit, at least one of them, `filter_size` is the 16-byte header and the
    `word_count_mask + 1` words. -/
theorem packedSizeof_toNat_of_shardsFit (hfit : shardsFit filter n = true) (hn : 0 < n) :
    (packedSizeof filter).toNat = 16 + 8 * (filter.wordCountMask.toNat + 1) :=
  packedSizeof_toNat (wordCountMask_lt_of_shardsFit hfit hn)

/-- With shards that fit, word `y` of shard `q` and word `x` of shard `p`, both below
    `word_count_mask + 1`, are the same word only when `q = p` and `y = x`. -/
theorem shardWordOffset_eq_iff (hfit : shardsFit filter n = true) (hn : 0 < n) {p q x y : Nat}
    (hx : x < filter.wordCountMask.toNat + 1) (hy : y < filter.wordCountMask.toNat + 1) :
    shardWordOffset filter q y = shardWordOffset filter p x ↔ q = p ∧ y = x := by
  have hF := packedSizeof_toNat_of_shardsFit hfit hn
  rw [shardWordOffset, shardWordOffset]
  generalize (packedSizeof filter).toNat = F at hF
  -- a later shard starts at least one whole slot later
  have hgap : ∀ {a b : Nat}, a < b → a * F + F ≤ b * F := fun h =>
    Nat.succ_mul _ F ▸ Nat.mul_le_mul_right F h
  constructor
  · intro h
    rcases Nat.lt_trichotomy q p with hqp | rfl | hqp
    · have := hgap hqp; omega
    · exact ⟨rfl, by omega⟩
    · have := hgap hqp; omega
  · rintro ⟨rfl, rfl⟩
    rfl

/-- Each task's writes land in the words of its own shard, whose `filter_size`-byte slot
    ends inside the `filter_size * n` bytes of `temp_memory`. -/
theorem stage1Writes_footprint (hfit : shardsFit filter n = true) (items : List α)
    (hashFn : α → β) (gh : β → Nat → BitVec 64) {t : Nat × Nat × Nat} (ht : t.1 < n)
    {w : Nat × (BitVec 64 → BitVec 64)} (hw : w ∈ stage1Writes filter items hashFn gh t) :
    w.1 < filter.wordCount.toNat ∧
      shardWordOffset filter t.1 w.1 + 8 ≤ (t.1 + 1) * (packedSizeof filter).toNat ∧
      (t.1 + 1) * (packedSizeof filter).toNat ≤ (packedSizeof filter).toNat * n % 2 ^ 64 := by
  have hn : 0 < n := by omega
  have hsmall := wordCountMask_lt_of_shardsFit hfit hn
  have hF := packedSizeof_toNat_of_shardsFit hfit hn
  have hwc : filter.wordCount.toNat = filter.wordCountMask.toNat + 1 := by
    rw [wordCount_toNat]
    exact Nat.mod_eq_of_lt (by omega)
  have hlt := stage1Writes_lt (by omega) items hashFn gh t hw
  simp only [shardsFit, Bool.or_eq_true, beq_iff_eq, decide_eq_true_eq] at hfit
  have hfit' := hfit.resolve_left (by omega)
  rw [hwc, shardWordOffset]
  generalize (packedSizeof filter).toNat = F at *
  rw [Nat.add_one_mul t.1 F]
  -- the slot of shard `t.1` ends by the end of the last one, `n * F`
  have hslot := Nat.mul_le_mul_right F (Nat.succ_le_of_lt ht)
  rw [Nat.add_one_mul t.1 F] at hslot
  have hsub := Nat.sub_one_mul n F
  have hle := Nat.le_mul_of_pos_left F hn
  have hcomm := Nat.mul_comm F n
  exact ⟨hlt, by omega, by omega⟩

end Layout

/-! ## No data race -/

/-- With shards that fit, stage 1 on the bytes of `temp_memory` has no data race: the tasks
    write the words of their own shards, and different shards share no word. -/
theorem raceFree_stage1Mem {filter : PackedBloomFilter} (items : List α) (hashFn : α → β)
    (gh : β → Nat → BitVec 64) {plan : WorkSlicePlan}
    (hfit : shardsFit filter plan.nTasks = true) :
    RaceFree (plan.tasks.map (stage1TaskMem filter items hashFn gh)) := by
  refine raceFree_of_owned (fun i l => i < plan.nTasks ∧ ∃ y < filter.wordCountMask.toNat + 1,
    l = shardWordOffset filter i y) ?_ ?_
  · rintro i j l hij ⟨hi, y, hy, rfl⟩ ⟨-, y', hy', hl⟩
    exact hij ((shardWordOffset_eq_iff hfit (by omega) hy hy').1 hl.symm).1.symm
  · intro i a ha
    rw [WorkSlicePlan.getD_map_tasks] at ha
    split_ifs at ha with hi
    · obtain ⟨w, hw, rfl⟩ := List.mem_map.1 ha
      have hsmall := wordCountMask_lt_of_shardsFit hfit (by omega)
      exact ⟨_, w.2, ⟨hi, w.1, stage1Writes_lt (by omega) items hashFn gh _ hw, rfl⟩, rfl⟩
    · exact absurd ha (List.not_mem_nil a)

/-! ## The per-shard model is the byte-level one -/

/-- After stage 1 on per-shard arrays, under every schedule, word `x` of shard `p` is what
    the shard's own writes leave there. -/
theorem runStage_stage1_apply (filter : PackedBloomFilter) (items : List α) (hashFn : α → β)
    (gh : β → Nat → BitVec 64) (plan : WorkSlicePlan) (sched : List Nat)
    (tempMemory : Nat → Nat → BitVec 64) (p x : Nat) :
    runStage sched (plan.tasks.map (stage1Task filter items hashFn gh)) tempMemory p x =
      if p < plan.nTasks then updatesAt (stage1Writes filter items hashFn gh
        (p, p * plan.taskSize, min plan.taskSize (plan.inputSize - p * plan.taskSize))) x
          (tempMemory p x)
      else tempMemory p x := by
  rw [runStage_eq_runSeq (raceFree_stage1 filter items hashFn gh plan).noninterfering]
  simp only [funext (stage1Task_eq_writes filter items hashFn gh)]
  rw [runSeq_tasks_writeAt]
  split_ifs
  · exact runSteps_writes_apply _ _ x
  · rfl

/-- On the bytes of `temp_memory`, the stage-1 task is its located writes moved into the
    words of shard `task_index`. -/
theorem stage1TaskMem_eq_writes (filter : PackedBloomFilter) (items : List α) (hashFn : α → β)
    (gh : β → Nat → BitVec 64) (t : Nat × Nat × Nat) :
    stage1TaskMem filter items hashFn gh t =
      ((stage1Writes filter items hashFn gh t).map fun w =>
        (shardWordOffset filter t.1 w.1, w.2)).map fun w => writeAt w.1 w.2 := by
  rw [stage1TaskMem, List.map_map]
  rfl

/-- After stage 1 on the bytes of `temp_memory`, with shards that fit and under every
    schedule, word `x < word_count_mask + 1` of shard `p` is what the shard's own writes leave
    there. -/
theorem runStage_stage1TaskMem_apply {filter : PackedBloomFilter} (items : List α)
    (hashFn : α → β) (gh : β → Nat → BitVec 64) {plan : WorkSlicePlan} (sched : List Nat)
    (mem : Nat → BitVec 64) (hfit : shardsFit filter plan.nTasks = true) (p : Nat) {x : Nat}
    (hx : x < filter.wordCountMask.toNat + 1) :
    runStage sched (plan.tasks.map (stage1TaskMem filter items hashFn gh)) mem
        (shardWordOffset filter p x) =
      if p < plan.nTasks then updatesAt (stage1Writes filter items hashFn gh
        (p, p * plan.taskSize, min plan.taskSize (plan.inputSize - p * plan.taskSize))) x
          (mem (shardWordOffset filter p x))
      else mem (shardWordOffset filter p x) := by
  rw [runStage_eq_runSeq (raceFree_stage1Mem items hashFn gh hfit).noninterfering, runSeq,
    ← List.flatMap_def, funext (stage1TaskMem_eq_writes filter items hashFn gh), ← List.map_flatMap, runSteps_writes_apply,
    WorkSlicePlan.tasks, List.flatMap_map, updatesAt_flatMap_range _ fun i hi hip w hw => ?_]
  · by_cases hp : p < plan.nTasks
    · rw [if_pos hp, if_pos hp]
      exact updatesAt_map_injective (r := shardWordOffset filter p)
        (fun y y' h => by simp only [shardWordOffset] at h; omega) _ _ _
    · rw [if_neg hp, if_neg hp]
  · obtain ⟨w', hw', rfl⟩ := List.mem_map.1 hw
    have hsmall := wordCountMask_lt_of_shardsFit hfit (by omega)
    exact fun h => hip ((shardWordOffset_eq_iff hfit (by omega) hx
      (stage1Writes_lt (by omega) items hashFn gh _ hw')).1 h).1

/-- With shards that fit, stage 1 run on the bytes of `temp_memory` under any schedule leaves
    in word `x < word_count()` of each shard `p` what the per-shard model leaves there under
    any schedule, started from the same words. Stage 2 reads only those words, so the build's
    per-shard model of `temp_memory` is exact. -/
theorem runStage_stage1TaskMem (filter : PackedBloomFilter) (items : List α) (hashFn : α → β)
    (gh : β → Nat → BitVec 64) (plan : WorkSlicePlan) (sched sched' : List Nat)
    (mem : Nat → BitVec 64) (hfit : shardsFit filter plan.nTasks = true) (p x : Nat)
    (hx : x < filter.wordCount.toNat) :
    runStage sched (plan.tasks.map (stage1TaskMem filter items hashFn gh)) mem
        (shardWordOffset filter p x) =
      runStage sched' (plan.tasks.map (stage1Task filter items hashFn gh))
        (fun q y => mem (shardWordOffset filter q y)) p x := by
  have hx' : x < filter.wordCountMask.toNat + 1 :=
    lt_of_lt_of_le hx ((wordCount_toNat filter).symm ▸ Nat.mod_le _ _)
  rw [runStage_stage1TaskMem_apply items hashFn gh sched mem hfit p hx', runStage_stage1_apply]

theorem runStage_stage1TaskMem_two_shards :
    shardsFit ⟨1#64, 1024#16, fun _ => 0#64⟩ (⟨2, 1, 2⟩ : WorkSlicePlan).nTasks = true ∧
    1 < (⟨1#64, 1024#16, fun _ => 0#64⟩ : PackedBloomFilter).wordCount.toNat ∧
    runStage [1, 0, 1] ((⟨2, 1, 2⟩ : WorkSlicePlan).tasks.map (stage1TaskMem
        ⟨1#64, 1024#16, fun _ => 0#64⟩ [0, 1] id (fun y i => BitVec.ofNat 64 (64 * (y + i) + i))))
        (fun _ => 5#64) (shardWordOffset ⟨1#64, 1024#16, fun _ => 0#64⟩ 1 1) =
      runStage [] ((⟨2, 1, 2⟩ : WorkSlicePlan).tasks.map (stage1Task
        ⟨1#64, 1024#16, fun _ => 0#64⟩ [0, 1] id (fun y i => BitVec.ofNat 64 (64 * (y + i) + i))))
        (fun q y => (fun _ => 5#64) (shardWordOffset ⟨1#64, 1024#16, fun _ => 0#64⟩ q y)) 1 1 :=
  ⟨rfl, by decide, runStage_stage1TaskMem ⟨1#64, 1024#16, fun _ => 0#64⟩ [0, 1] id
    (fun y i => BitVec.ofNat 64 (64 * (y + i) + i)) ⟨2, 1, 2⟩ [1, 0, 1] [] (fun _ => 5#64) rfl 1 1
    (by decide)⟩

end Llfs
