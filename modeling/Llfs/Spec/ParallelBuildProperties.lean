import Llfs.Spec.TempMemory
import Llfs.Spec.BloomRefinement

/-! # What a parallel build guarantees

`parallel_build_bloom_filter` runs its two stages on the worker pool. The scheduler, the
pool's size, the indeterminate bytes of `temp_memory` and the words the target held before
are all outside the caller's control; this file states what holds for every choice of them.

1. **No data race**: when the shard filters fit in `temp_memory`, every stage-1 write lands
   in a word of its task's own shard, and in each stage two different tasks never write the
   same word.
2. **Faults**: the build fails only on a zero `hash_count`, an empty input, or a
   `temp_memory` size that wraps.
3. **Frame**: a build that returns has written none of the memory past the target's
   `word_count()` words.
4. **Queries**: the built filter reports a key present exactly when each of its bits is the
   bit of some hash of some item. So every item is reported present, and these are the only
   false positives.
5. **Determinism**: the words depend only on the target's header and the set of items.
6. **Abstract build**: on a target whose `word_count()` is a power of two, the result is the
   abstract Bloom filter after `clear` and the inserts.

Items 3 to 6 follow from one closed form of a build that returns (`words_of_ok`), as the
sequential build with a header the build does not change.

## Key results

- `parallelBuildBloomFilter_raceFree`: where stage 1 writes in `temp_memory`, and neither
  stage has a data race
- `parallelBuildBloomFilter_faults`: every way the build can fail
- `parallelBuildBloomFilter_frame`: the memory past `word_count()` is untouched
- `parallelBuildBloomFilter_mightContain_iff`: the exact answers of the built filter
- `parallelBuildBloomFilter_getWords_congr`: `get_words()` depends only on the header and the
  set of items
- `parallelBuildBloomFilter_toSpec`: the build refines the abstract `clear` and inserts
-/

namespace Llfs

open PackedBloomFilter

variable {α β : Type}

/-! ## No data race -/

/-- With shard filters that fit in `temp_memory`, as in every build that reaches stage 1, and
    for every plan of either stage: each word write of a stage-1 task lands in one of the
    `word_count()` words of its own shard, after the shard's 16-byte header and inside its
    `filter_size`-byte slot, and that slot lies inside the `filter_size * n_input_shards`
    bytes of `temp_memory`; two different stage-1 tasks never write the same word of
    `temp_memory`; and two different stage-2 tasks never write the same word of the
    target. -/
theorem parallelBuildBloomFilter_raceFree (filter : PackedBloomFilter) (items : List α)
    (hashFn : α → β) (gh : β → Nat → BitVec 64) (shards : Nat → Nat → BitVec 64)
    (plan1 plan2 : WorkSlicePlan) (hfit : shardsFit filter plan1.nTasks = true) :
    (∀ t ∈ plan1.tasks, ∀ w ∈ stage1Writes filter items hashFn gh t,
      w.1 < filter.wordCount.toNat ∧
      shardWordOffset filter t.1 w.1 + 8 ≤ (t.1 + 1) * (packedSizeof filter).toNat ∧
      (t.1 + 1) * (packedSizeof filter).toNat ≤
        (packedSizeof filter).toNat * plan1.nTasks % 2 ^ 64) ∧
    RaceFree (plan1.tasks.map (stage1TaskMem filter items hashFn gh)) ∧
    RaceFree (plan2.tasks.map (stage2Task shards plan1.nTasks)) := by
  refine ⟨fun t ht w hw => ?_, raceFree_stage1Mem items hashFn gh hfit,
    raceFree_stage2 shards plan1.nTasks plan2⟩
  obtain ⟨i, hi, rfl⟩ := List.mem_map.1 ht
  exact stage1Writes_footprint hfit items hashFn gh (List.mem_range.1 hi) hw

theorem parallelBuildBloomFilter_raceFree_two_shards :
    shardsFit ⟨1#64, 1024#16, fun _ => 0#64⟩ (⟨2, 1, 2⟩ : WorkSlicePlan).nTasks = true ∧
    (∀ t ∈ (⟨2, 1, 2⟩ : WorkSlicePlan).tasks, ∀ w ∈ stage1Writes ⟨1#64, 1024#16, fun _ => 0#64⟩
        [0, 1] id (fun y i => BitVec.ofNat 64 (64 * (y + i) + i)) t,
      w.1 < (⟨1#64, 1024#16, fun _ => 0#64⟩ : PackedBloomFilter).wordCount.toNat ∧
      shardWordOffset ⟨1#64, 1024#16, fun _ => 0#64⟩ t.1 w.1 + 8 ≤
        (t.1 + 1) * (packedSizeof ⟨1#64, 1024#16, fun _ => 0#64⟩).toNat ∧
      (t.1 + 1) * (packedSizeof ⟨1#64, 1024#16, fun _ => 0#64⟩).toNat ≤
        (packedSizeof ⟨1#64, 1024#16, fun _ => 0#64⟩).toNat *
          (⟨2, 1, 2⟩ : WorkSlicePlan).nTasks % 2 ^ 64) ∧
    RaceFree ((⟨2, 1, 2⟩ : WorkSlicePlan).tasks.map (stage1TaskMem ⟨1#64, 1024#16, fun _ => 0#64⟩
      [0, 1] id (fun y i => BitVec.ofNat 64 (64 * (y + i) + i)))) ∧
    RaceFree ((⟨2, 512, 1⟩ : WorkSlicePlan).tasks.map
      (stage2Task (fun _ _ => 0#64) (⟨2, 1, 2⟩ : WorkSlicePlan).nTasks)) :=
  ⟨rfl, parallelBuildBloomFilter_raceFree ⟨1#64, 1024#16, fun _ => 0#64⟩ [0, 1] id
    (fun y i => BitVec.ofNat 64 (64 * (y + i) + i)) (fun _ _ => 0#64) ⟨2, 1, 2⟩ ⟨2, 512, 1⟩ rfl⟩

/-! ## Faults -/

/-- The only ways the build fails: a zero `hash_count` divides by zero in the stage-1
    `min_task_size`; an empty input then divides by `n_input_shards = 0`; and the shards
    overflow `temp_memory` only when `(worker_pool.size() + 1) * packed_sizeof(*filter)`
    wraps in `usize`. The divisions inside `WorkSlicePlan` never fault. -/
theorem parallelBuildBloomFilter_faults (workerPool : WorkerPool) (items : List α)
    (hashFn : α → β) (gh : β → Nat → BitVec 64) (filter : PackedBloomFilter)
    (tempMemory : Nat → Nat → BitVec 64) (sched1 sched2 : List Nat) (e : BuildFault)
    (hret : parallelBuildBloomFilter workerPool items hashFn gh filter tempMemory sched1 sched2 =
      .error e) :
    (e = .stage1MinTaskSize ∧ filter.hashCount.toNat = 0) ∨
    (e = .stage2MinTaskSize ∧ 0 < filter.hashCount.toNat ∧ items = []) ∨
    (e = .shardOverflow ∧ 0 < filter.hashCount.toNat ∧ items ≠ [] ∧
      2 ^ 64 ≤ (workerPool.size + 1) * (16 + 8 * (filter.wordCountMask.toNat + 1))) := by
  rw [parallelBuildBloomFilter_eq] at hret
  by_cases hc : filter.hashCount.toNat = 0
  · rw [if_pos hc] at hret
    cases hret
    exact .inl ⟨rfl, hc⟩
  obtain ⟨plan1, hp1⟩ : ∃ plan1, WorkSlicePlan.make ⟨(1024 + filter.hashCount.toNat - 1) /
      filter.hashCount.toNat, workerPool.size + 1⟩ items.length = some plan1 :=
    WorkSlicePlan.make_isSome (Nat.succ_pos _) (Nat.div_pos (by omega) (Nat.pos_of_ne_zero hc)) _
  rw [if_neg hc, hp1] at hret
  dsimp only at hret
  have hempty : plan1.nTasks = 0 ↔ items = [] :=
    (WorkSlicePlan.nTasks_eq_zero_iff hp1).trans List.length_eq_zero
  by_cases hn : plan1.nTasks = 0
  · -- no shards: they fit, and `n_input_shards = 0` divides
    rw [if_pos (by rw [hn]; rfl), if_pos hn] at hret
    cases hret
    exact .inr (.inl ⟨rfl, Nat.pos_of_ne_zero hc, hempty.1 hn⟩)
  by_cases hfit : shardsFit filter plan1.nTasks = true
  · obtain ⟨plan2, hp2⟩ : ∃ plan2, WorkSlicePlan.make ⟨(1024 + plan1.nTasks - 1) /
        plan1.nTasks, workerPool.size + 1⟩ filter.wordCount.toNat = some plan2 :=
      WorkSlicePlan.make_isSome (Nat.succ_pos _) (Nat.div_pos (by omega)
        (Nat.pos_of_ne_zero hn)) _
    rw [if_pos hfit, if_neg hn, hp2] at hret
    cases hret
  · rw [if_neg hfit] at hret
    cases hret
    have hwrap := Nat.le_of_not_lt ((shardsFit_iff (Nat.pos_of_ne_zero hn)).not.1 hfit)
    exact .inr (.inr ⟨rfl, Nat.pos_of_ne_zero hc, mt hempty.2 hn, hwrap.trans
      (Nat.mul_le_mul_right _ (WorkSlicePlan.nTasks_le_maxTasks hp1))⟩)

theorem parallelBuildBloomFilter_faults_no_hash :
    parallelBuildBloomFilter ⟨0, Nat.two_pow_pos 63⟩ [()] id (fun _ _ => 0#64)
        ⟨0#64, 0#16, fun _ => 0#64⟩ (fun _ _ => 0#64) [] [] = .error .stage1MinTaskSize ∧
    ((BuildFault.stage1MinTaskSize = .stage1MinTaskSize ∧ (0#16).toNat = 0) ∨
    (BuildFault.stage1MinTaskSize = .stage2MinTaskSize ∧ 0 < (0#16).toNat ∧ [()] = []) ∨
    (BuildFault.stage1MinTaskSize = .shardOverflow ∧ 0 < (0#16).toNat ∧ [()] ≠ [] ∧
      2 ^ 64 ≤ (0 + 1) * (16 + 8 * ((0#64).toNat + 1)))) :=
  ⟨rfl, parallelBuildBloomFilter_faults ⟨0, Nat.two_pow_pos 63⟩ [()] id (fun _ _ => 0#64)
    ⟨0#64, 0#16, fun _ => 0#64⟩ (fun _ _ => 0#64) [] [] _ rfl⟩

/-! ## A build that returns -/

/-- The sequential build is the run `clear(); insert(hash_fn(x1)); ...` of filter
    operations. -/
theorem buildSequential_eq_run (filter : PackedBloomFilter) (items : List α) (hashFn : α → β)
    (gh : β → Nat → BitVec 64) :
    buildSequential filter items hashFn gh =
      (FilterOp.clear :: items.map (FilterOp.insert ∘ hashFn)).foldl (applyOp gh) filter := by
  rw [buildSequential, List.foldl_cons, List.foldl_map]
  rfl

section Returned

variable {workerPool : WorkerPool} {items : List α} {hashFn : α → β}
  {gh : β → Nat → BitVec 64} {filter : PackedBloomFilter}
  {tempMemory : Nat → Nat → BitVec 64} {sched1 sched2 : List Nat} {out : PackedBloomFilter}

/-- A build that returns is the sequential build, header and words. -/
theorem eq_buildSequential_of_ok
    (h : parallelBuildBloomFilter workerPool items hashFn gh filter tempMemory sched1 sched2 =
      .ok out) : out = buildSequential filter items hashFn gh := by
  obtain ⟨plan1, plan2, hp1, hfit, hn, hp2, hmask, hhc, hwords⟩ :=
    parallelBuildBloomFilter_eq_ok h
  calc out = ⟨out.wordCountMask, out.hashCount, out.words⟩ := rfl
    _ = ⟨filter.wordCountMask, filter.hashCount,
        (buildSequential filter items hashFn gh).words⟩ := by
      rw [hmask, hhc, hwords, runStage_stages filter items hashFn gh tempMemory sched1 sched2
        hp1 hfit hn hp2]
    _ = buildSequential filter items hashFn gh := by
      rw [buildSequential_eq, insertAll_eq]
      rfl

/-- A build that returns keeps the target's header. -/
theorem header_of_ok
    (h : parallelBuildBloomFilter workerPool items hashFn gh filter tempMemory sched1 sched2 =
      .ok out) : out.wordCountMask = filter.wordCountMask ∧ out.hashCount = filter.hashCount := by
  rw [eq_buildSequential_of_ok h, buildSequential_eq, insertAll_eq]
  exact ⟨rfl, rfl⟩

/-- A build that returns had its shards fit in `temp_memory`, so the target's size wraps
    nowhere. -/
theorem wordCountMask_lt_of_ok
    (h : parallelBuildBloomFilter workerPool items hashFn gh filter tempMemory sched1 sched2 =
      .ok out) : filter.wordCountMask.toNat + 3 < 2 ^ 61 := by
  obtain ⟨plan1, -, -, hfit, hn, -⟩ := parallelBuildBloomFilter_eq_ok h
  exact wordCountMask_lt_of_shardsFit hfit hn

theorem wordCount_toNat_of_ok
    (h : parallelBuildBloomFilter workerPool items hashFn gh filter tempMemory sched1 sched2 =
      .ok out) : filter.wordCount.toNat = filter.wordCountMask.toNat + 1 := by
  have := wordCountMask_lt_of_ok h
  rw [wordCount_toNat]
  exact Nat.mod_eq_of_lt (by omega)

/-- The words of a build that returns: each of the first `word_count()` is the OR of the
    masks of the hashes of the items that address it; past them, memory is as it was. -/
theorem words_of_ok
    (h : parallelBuildBloomFilter workerPool items hashFn gh filter tempMemory sched1 sched2 =
      .ok out) (x : Nat) :
    out.words x = if x < filter.wordCount.toNat then
      maskUnion filter (insertedHashes gh filter.hashCount.toNat (items.map hashFn)) x
    else filter.words x := by
  have hsmall := wordCountMask_lt_of_ok h
  rw [eq_buildSequential_of_ok h, buildSequential_eq, insertAll_words_apply, clear_words,
    maskUnion_clear, clear_hashCount, clearCount_eq (by omega), wordCount_toNat_of_ok h]
  by_cases hx : x < filter.wordCountMask.toNat + 1
  · rw [if_pos hx, if_pos hx, BitVec.zero_or]
  · rw [if_neg hx, if_neg hx, maskUnion_of_lt _ _ (by omega), BitVec.or_zero]

/-- The masks depend on the filter only through `word_count_mask`. -/
theorem maskUnion_eq_of_wordCountMask {f g : PackedBloomFilter}
    (h : f.wordCountMask = g.wordCountMask) : maskUnion f = maskUnion g := by
  funext hs k
  simp only [maskUnion, indexFromHash_congr h]

/-- `get_words()` of a build that returns. -/
theorem getWords_of_ok
    (h : parallelBuildBloomFilter workerPool items hashFn gh filter tempMemory sched1 sched2 =
      .ok out) :
    out.getWords = (List.range filter.wordCount.toNat).map
      (maskUnion filter (insertedHashes gh filter.hashCount.toNat (items.map hashFn))) := by
  rw [getWords, wordCount, (header_of_ok h).1, ← wordCount]
  exact List.map_congr_left fun x hx => by rw [words_of_ok h, if_pos (List.mem_range.1 hx)]

end Returned

/-! ## Frame -/

/-- A build that returns writes nothing past the target's `word_count()` words, for every
    worker pool, schedule and `temp_memory`. -/
theorem parallelBuildBloomFilter_frame (workerPool : WorkerPool) (items : List α)
    (hashFn : α → β) (gh : β → Nat → BitVec 64) (filter : PackedBloomFilter)
    (tempMemory : Nat → Nat → BitVec 64) (sched1 sched2 : List Nat) (out : PackedBloomFilter)
    (hret : parallelBuildBloomFilter workerPool items hashFn gh filter tempMemory sched1 sched2 =
      .ok out) (x : Nat) (hx : filter.wordCount.toNat ≤ x) :
    out.words x = filter.words x := by
  rw [words_of_ok hret, if_neg (Nat.not_lt.2 hx)]

theorem parallelBuildBloomFilter_frame_one_word :
    parallelBuildBloomFilter ⟨0, Nat.two_pow_pos 63⟩ [()] id (fun _ _ => 0#64)
        ⟨0#64, 1#16, fun _ => 1#64⟩ (fun _ _ => 0#64) [] [] =
      .ok ((parallelBuildBloomFilter ⟨0, Nat.two_pow_pos 63⟩ [()] id (fun _ _ => 0#64)
        ⟨0#64, 1#16, fun _ => 1#64⟩ (fun _ _ => 0#64) [] []).toOption.getD default) ∧
    (⟨0#64, 1#16, fun _ => 1#64⟩ : PackedBloomFilter).wordCount.toNat ≤ 1 ∧
    ((parallelBuildBloomFilter ⟨0, Nat.two_pow_pos 63⟩ [()] id (fun _ _ => 0#64)
        ⟨0#64, 1#16, fun _ => 1#64⟩ (fun _ _ => 0#64) [] []).toOption.getD default).words 1 =
      1#64 :=
  ⟨rfl, by decide, parallelBuildBloomFilter_frame ⟨0, Nat.two_pow_pos 63⟩ [()] id
    (fun _ _ => 0#64) ⟨0#64, 1#16, fun _ => 1#64⟩ (fun _ _ => 0#64) [] [] _ rfl 1 (by decide)⟩

/-! ## Queries -/

/-- A build that returns reports key `y` present exactly when each of its `hash_count` bits
    is the bit of some hash of some item. Every item is reported present, and a false
    positive is a key whose bits all collide with bits of the items. -/
theorem parallelBuildBloomFilter_mightContain_iff (workerPool : WorkerPool) (items : List α)
    (hashFn : α → β) (gh : β → Nat → BitVec 64) (filter : PackedBloomFilter)
    (tempMemory : Nat → Nat → BitVec 64) (sched1 sched2 : List Nat) (out : PackedBloomFilter)
    (hret : parallelBuildBloomFilter workerPool items hashFn gh filter tempMemory sched1 sched2 =
      .ok out) (y : β) :
    out.mightContain gh y = true ↔ ∀ i < filter.hashCount.toNat, ∃ x ∈ items,
      ∃ j < filter.hashCount.toNat, bitPosition filter (gh (hashFn x) j) =
        bitPosition filter (gh y i) := by
  obtain ⟨hmask, hhc⟩ := header_of_ok hret
  have hpos : 0 < filter.wordCount.toNat := by rw [wordCount_toNat_of_ok hret]; omega
  rw [mightContain_iff, hhc]
  refine forall₂_congr fun i _ => ?_
  rw [and_bitMaskFromHash_ne_zero_iff, indexFromHash_congr hmask, words_of_ok hret,
    if_pos (indexFromHash_lt_wordCount hpos _), getLsbD_maskUnion]
  simp only [mem_insertedHashes, List.mem_map, bitPosition_eq_bitPosition_iff]
  constructor
  · rintro ⟨_, ⟨_, ⟨x, hx, rfl⟩, j, hj, rfl⟩, hidx, hbit⟩
    exact ⟨x, hx, j, hj, hidx, hbit⟩
  · rintro ⟨x, hx, j, hj, hidx, hbit⟩
    exact ⟨_, ⟨_, ⟨x, hx, rfl⟩, j, hj, rfl⟩, hidx, hbit⟩

theorem parallelBuildBloomFilter_mightContain_iff_one_item :
    parallelBuildBloomFilter ⟨0, Nat.two_pow_pos 63⟩ [()] id (fun _ i => BitVec.ofNat 64 i)
        ⟨1#64, 2#16, fun _ => 0#64⟩ (fun _ _ => 0#64) [] [] =
      .ok ((parallelBuildBloomFilter ⟨0, Nat.two_pow_pos 63⟩ [()] id
        (fun _ i => BitVec.ofNat 64 i) ⟨1#64, 2#16, fun _ => 0#64⟩ (fun _ _ => 0#64) []
        []).toOption.getD default) ∧
    (((parallelBuildBloomFilter ⟨0, Nat.two_pow_pos 63⟩ [()] id (fun _ i => BitVec.ofNat 64 i)
        ⟨1#64, 2#16, fun _ => 0#64⟩ (fun _ _ => 0#64) [] []).toOption.getD default).mightContain
        (fun _ i => BitVec.ofNat 64 i) () = true ↔
      ∀ i < (2#16).toNat, ∃ x ∈ [()], ∃ j < (2#16).toNat,
        bitPosition ⟨1#64, 2#16, fun _ => 0#64⟩ (BitVec.ofNat 64 j) =
          bitPosition ⟨1#64, 2#16, fun _ => 0#64⟩ (BitVec.ofNat 64 i)) :=
  ⟨rfl, parallelBuildBloomFilter_mightContain_iff ⟨0, Nat.two_pow_pos 63⟩ [()] id
    (fun _ i => BitVec.ofNat 64 i) ⟨1#64, 2#16, fun _ => 0#64⟩ (fun _ _ => 0#64) [] [] _ rfl ()⟩

/-! ## Determinism -/

/-- Two builds that return, on targets with the same header and on inputs with the same set
    of items, give the same `get_words()`: whatever the worker pools, the schedules, the
    contents of `temp_memory`, the order and repetitions of the items, and the words the
    targets held before. -/
theorem parallelBuildBloomFilter_getWords_congr {workerPool workerPool' : WorkerPool}
    {items items' : List α} {hashFn : α → β} {gh : β → Nat → BitVec 64}
    {filter filter' : PackedBloomFilter} {tempMemory tempMemory' : Nat → Nat → BitVec 64}
    {sched1 sched2 sched1' sched2' : List Nat} {out out' : PackedBloomFilter}
    (hmask : filter.wordCountMask = filter'.wordCountMask)
    (hhc : filter.hashCount = filter'.hashCount) (hmem : ∀ x, x ∈ items ↔ x ∈ items')
    (hret : parallelBuildBloomFilter workerPool items hashFn gh filter tempMemory sched1 sched2 =
      .ok out)
    (hret' : parallelBuildBloomFilter workerPool' items' hashFn gh filter' tempMemory' sched1'
      sched2' = .ok out') :
    out.getWords = out'.getWords := by
  rw [getWords_of_ok hret, getWords_of_ok hret', wordCount, wordCount, hmask, hhc,
    maskUnion_eq_of_wordCountMask hmask]
  refine congrArg (List.map · _) (maskUnion_congr filter' fun h => ?_)
  simp only [mem_insertedHashes, List.mem_map, hmem]

theorem parallelBuildBloomFilter_getWords_congr_repeated :
    (⟨0#64, 1#16, fun _ => 0#64⟩ : PackedBloomFilter).wordCountMask =
      (⟨0#64, 1#16, fun _ => 7#64⟩ : PackedBloomFilter).wordCountMask ∧
    (⟨0#64, 1#16, fun _ => 0#64⟩ : PackedBloomFilter).hashCount =
      (⟨0#64, 1#16, fun _ => 7#64⟩ : PackedBloomFilter).hashCount ∧
    (∀ x, x ∈ [(), ()] ↔ x ∈ [()]) ∧
    parallelBuildBloomFilter ⟨0, Nat.two_pow_pos 63⟩ [(), ()] id (fun _ _ => 5#64)
        ⟨0#64, 1#16, fun _ => 0#64⟩ (fun _ _ => 0#64) [] [] =
      .ok ((parallelBuildBloomFilter ⟨0, Nat.two_pow_pos 63⟩ [(), ()] id (fun _ _ => 5#64)
        ⟨0#64, 1#16, fun _ => 0#64⟩ (fun _ _ => 0#64) [] []).toOption.getD default) ∧
    parallelBuildBloomFilter ⟨1, Nat.one_lt_two_pow (Nat.succ_ne_zero 62)⟩ [()] id
        (fun _ _ => 5#64) ⟨0#64, 1#16, fun _ => 7#64⟩ (fun _ _ => 3#64) [0] [0] =
      .ok ((parallelBuildBloomFilter ⟨1, Nat.one_lt_two_pow (Nat.succ_ne_zero 62)⟩ [()] id
        (fun _ _ => 5#64) ⟨0#64, 1#16, fun _ => 7#64⟩ (fun _ _ => 3#64) [0] [0]).toOption.getD
        default) ∧
    ((parallelBuildBloomFilter ⟨0, Nat.two_pow_pos 63⟩ [(), ()] id (fun _ _ => 5#64)
        ⟨0#64, 1#16, fun _ => 0#64⟩ (fun _ _ => 0#64) [] []).toOption.getD default).getWords =
      ((parallelBuildBloomFilter ⟨1, Nat.one_lt_two_pow (Nat.succ_ne_zero 62)⟩ [()] id
        (fun _ _ => 5#64) ⟨0#64, 1#16, fun _ => 7#64⟩ (fun _ _ => 3#64) [0] [0]).toOption.getD
        default).getWords :=
  ⟨rfl, rfl, fun _ => by simp, rfl, rfl,
    @parallelBuildBloomFilter_getWords_congr Unit Unit ⟨0, Nat.two_pow_pos 63⟩
      ⟨1, Nat.one_lt_two_pow (Nat.succ_ne_zero 62)⟩ [(), ()] [()] id (fun _ _ => 5#64)
      ⟨0#64, 1#16, fun _ => 0#64⟩ ⟨0#64, 1#16, fun _ => 7#64⟩ (fun _ _ => 0#64)
      (fun _ _ => 3#64) [] [] [0] [0] _ _ rfl rfl (fun _ => by simp) rfl rfl⟩

/-! ## The abstract build -/

/-- On a target whose `word_count()` is a power of two, a build that returns is the abstract
    Bloom filter after `clear()` and `insert(hash_fn(x))` for each item in order: its bits
    are the abstract bits, and `might_contain` is the abstract query. -/
theorem parallelBuildBloomFilter_toSpec (workerPool : WorkerPool) (items : List α)
    (hashFn : α → β) (gh : β → Nat → BitVec 64) (filter : PackedBloomFilter)
    (tempMemory : Nat → Nat → BitVec 64) (sched1 sched2 : List Nat) (out : PackedBloomFilter)
    (hpow : filter.wordCount.toNat.isPowerOfTwo)
    (hret : parallelBuildBloomFilter workerPool items hashFn gh filter tempMemory sched1 sched2 =
      .ok out) :
    out.toSpec = (FilterOp.clear :: items.map (FilterOp.insert ∘ hashFn)).foldl
      (BloomSpec.applyOp gh) filter.toSpec ∧
    ∀ y, out.mightContain gh y = ((FilterOp.clear :: items.map (FilterOp.insert ∘ hashFn)).foldl
      (BloomSpec.applyOp gh) filter.toSpec).query gh y := by
  have hlt : filter.wordCount.toNat < 2 ^ 61 := by
    have := wordCountMask_lt_of_ok hret
    rw [wordCount_toNat_of_ok hret]
    omega
  rw [eq_buildSequential_of_ok hret, buildSequential_eq_run]
  exact ⟨ValidFilter.toSpec_run gh ⟨filter, hpow, hlt⟩ _,
    ValidFilter.mightContain_run gh ⟨filter, hpow, hlt⟩ _⟩

theorem parallelBuildBloomFilter_toSpec_two_words :
    (⟨1#64, 1#16, fun _ => 0#64⟩ : PackedBloomFilter).wordCount.toNat.isPowerOfTwo ∧
    parallelBuildBloomFilter ⟨0, Nat.two_pow_pos 63⟩ [()] id (fun _ _ => 64#64)
        ⟨1#64, 1#16, fun _ => 0#64⟩ (fun _ _ => 0#64) [] [] =
      .ok ((parallelBuildBloomFilter ⟨0, Nat.two_pow_pos 63⟩ [()] id (fun _ _ => 64#64)
        ⟨1#64, 1#16, fun _ => 0#64⟩ (fun _ _ => 0#64) [] []).toOption.getD default) ∧
    ((parallelBuildBloomFilter ⟨0, Nat.two_pow_pos 63⟩ [()] id (fun _ _ => 64#64)
        ⟨1#64, 1#16, fun _ => 0#64⟩ (fun _ _ => 0#64) [] []).toOption.getD default).toSpec =
      [FilterOp.clear, FilterOp.insert ()].foldl (BloomSpec.applyOp fun _ _ => 64#64)
        (⟨1#64, 1#16, fun _ => 0#64⟩ : PackedBloomFilter).toSpec ∧
    ∀ y : Unit, ((parallelBuildBloomFilter ⟨0, Nat.two_pow_pos 63⟩ [()] id (fun _ _ => 64#64)
        ⟨1#64, 1#16, fun _ => 0#64⟩ (fun _ _ => 0#64) [] []).toOption.getD default).mightContain
        (fun _ _ => 64#64) y =
      ([FilterOp.clear, FilterOp.insert ()].foldl (BloomSpec.applyOp fun _ _ => 64#64)
        (⟨1#64, 1#16, fun _ => 0#64⟩ : PackedBloomFilter).toSpec).query (fun _ _ => 64#64) y :=
  ⟨⟨1, rfl⟩, rfl, parallelBuildBloomFilter_toSpec ⟨0, Nat.two_pow_pos 63⟩ [()] id
    (fun _ _ => 64#64) ⟨1#64, 1#16, fun _ => 0#64⟩ (fun _ _ => 0#64) [] [] _ ⟨1, rfl⟩ rfl⟩

end Llfs
