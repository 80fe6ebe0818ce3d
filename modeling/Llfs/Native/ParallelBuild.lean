import Llfs.Native.SliceWork

/-! # `parallel_build_bloom_filter`

The two-stage parallel build of a `PackedBloomFilter`. Stage 1 slices the input range
among the worker pool; each task clears its own shard filter in `temp_memory` and inserts
its slice. Stage 2 slices the target's words; each task sets its words to the OR of the
shards' words.

The model returns `Except BuildFault`: a division by zero and a shard filter that runs
past the end of `temp_memory` are undefined behaviour in the C++, and here they are a
`BuildFault` naming where it happens. The scheduler's choices are the two schedules, and
the indeterminate bytes of `temp_memory` are the argument `tempMemory`: shard `k`'s word
`j` before anything is written.
-/

namespace Llfs

/-- Where `parallel_build_bloom_filter` fails to return. -/
inductive BuildFault where
  /-- `/ filter->hash_count` in the stage-1 `min_task_size`. -/
  | stage1MinTaskSize
  /-- A division inside `WorkSlicePlan` for stage 1. -/
  | stage1Plan
  /-- `/ n_input_shards` in the stage-2 `min_task_size`. -/
  | stage2MinTaskSize
  /-- A division inside `WorkSlicePlan` for stage 2. -/
  | stage2Plan
  /-- A shard filter placed `filter_size` bytes apart does not fit in `temp_memory`. -/
  | shardOverflow
  deriving DecidableEq, Repr

/-- Whether the `n` shard filters, `filter_size = packed_sizeof(*filter)` bytes apart, each
    fit with their 16-byte header and `word_count_mask + 1` words inside the
    `filter_size * n` bytes of `temp_memory`. -/
def shardsFit (filter : PackedBloomFilter) (n : Nat) : Bool :=
  let filterSize := (packedSizeof filter).toNat
  n == 0 || decide ((n - 1) * filterSize + (16 + 8 * (filter.wordCountMask.toNat + 1))
    ≤ filterSize * n % 2 ^ 64)

/-- The stage-1 task for `(task_index, task_offset, task_size)`:
    `dst->clear(); for (item : src) dst->insert(hash_fn(item));` on shard `task_index`,
    whose header copies the target's. -/
def stage1Task {α β : Type} (filter : PackedBloomFilter) (items : List α) (hashFn : α → β)
    (getNthHash : β → Nat → BitVec 64) (task : Nat × Nat × Nat) :
    List ((Nat → Nat → BitVec 64) → Nat → Nat → BitVec 64) :=
  let (taskIndex, taskOffset, taskSize) := task
  (filter.clearSteps ++ ((items.drop taskOffset).take taskSize).flatMap fun item =>
    filter.insertSteps getNthHash (hashFn item)).map (writeAt taskIndex)

/-- The stage-2 task for `(task_index, task_offset, task_size)`: for each of its words,
    `filter->words[i] = 0` and then `filter->words[i] |= partial->words[i]` for every shard. -/
def stage2Task (shards : Nat → Nat → BitVec 64) (nShards : Nat) (task : Nat × Nat × Nat) :
    List ((Nat → BitVec 64) → Nat → BitVec 64) :=
  let (_, taskOffset, taskSize) := task
  (List.range' taskOffset taskSize).flatMap fun i =>
    writeAt i (fun _ => 0#64) :: (List.range nShards).map fun p => writeAt i (· ||| shards p i)

/-- `parallel_build_bloom_filter(worker_pool, first, last, hash_fn, filter)`, with the input
    range as `items`, and the target's new state as the result. -/
def parallelBuildBloomFilter {α β : Type} (workerPool : WorkerPool) (items : List α)
    (hashFn : α → β) (getNthHash : β → Nat → BitVec 64) (filter : PackedBloomFilter)
    (tempMemory : Nat → Nat → BitVec 64) (sched1 sched2 : List Nat) :
    Except BuildFault PackedBloomFilter := do
  let hashCount := filter.hashCount.toNat
  let minTaskSize1 ← (checkedDiv (1024 + hashCount - 1) hashCount).elim
    (.error .stage1MinTaskSize) .ok
  let stage1Plan ← (WorkSlicePlan.make ⟨minTaskSize1, workerPool.size + 1⟩ items.length).elim
    (.error .stage1Plan) .ok
  let nInputShards := stage1Plan.nTasks
  unless shardsFit filter nInputShards do throw .shardOverflow
  let shards := runStage sched1
    (stage1Plan.tasks.map (stage1Task filter items hashFn getNthHash)) tempMemory
  let minTaskSize2 ← (checkedDiv (1024 + nInputShards - 1) nInputShards).elim
    (.error .stage2MinTaskSize) .ok
  let stage2Plan ← (WorkSlicePlan.make ⟨minTaskSize2, workerPool.size + 1⟩
    filter.wordCount.toNat).elim (.error .stage2Plan) .ok
  let words := runStage sched2 (stage2Plan.tasks.map (stage2Task shards nInputShards))
    filter.words
  return { filter with words }

/-! ## Stage 1 on the bytes of `temp_memory`

`stage1Task` sees `temp_memory` as one word array per shard. In the C++ it is one block of
`filter_size * n_input_shards` bytes: shard `p` starts `p * filter_size` bytes in, and its
words follow its 16-byte header. `filter_size = 24 + 8 * word_count_mask` in `usize` is a
multiple of 8, so every word sits at a multiple of 8 bytes: two word writes hit the same
word or share no byte, and the block is addressed here by the byte offsets of its words. -/

/-- The byte offset in `temp_memory` of `words[x]` of shard filter `p`. -/
def shardWordOffset (filter : PackedBloomFilter) (p x : Nat) : Nat :=
  p * (packedSizeof filter).toNat + 16 + 8 * x

/-- The word writes of the stage-1 task for `(task_index, task_offset, task_size)`, located
    by word index in its shard `dst`: `dst->clear()`, then `dst->insert(hash_fn(item))` for
    each item of its slice. -/
def stage1Writes {α β : Type} (filter : PackedBloomFilter) (items : List α) (hashFn : α → β)
    (getNthHash : β → Nat → BitVec 64) (task : Nat × Nat × Nat) :
    List (Nat × (BitVec 64 → BitVec 64)) :=
  let (_, taskOffset, taskSize) := task
  filter.clearWrites ++ ((items.drop taskOffset).take taskSize).flatMap fun item =>
    filter.insertWrites getNthHash (hashFn item)

/-- The stage-1 task on the bytes of `temp_memory`: each of its word writes at its byte
    offset in shard `task_index`. -/
def stage1TaskMem {α β : Type} (filter : PackedBloomFilter) (items : List α) (hashFn : α → β)
    (getNthHash : β → Nat → BitVec 64) (task : Nat × Nat × Nat) :
    List ((Nat → BitVec 64) → Nat → BitVec 64) :=
  (stage1Writes filter items hashFn getNthHash task).map fun w =>
    writeAt (shardWordOffset filter task.1 w.1) w.2

end Llfs
