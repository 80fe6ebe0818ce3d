import Llfs.Spec.Interleaving

/-! # Work slice plans

A `WorkSlicePlan` exists when both of its divisors are nonzero, and then its task size is
positive and its `n_tasks` is the ceiling of the input size over the task size. The tasks
`slice_work` hands out for such a plan cut the input into consecutive slices, in order,
that together are the whole input; for an empty input there are no tasks at all.

## Key results

- `WorkSlicePlan.make_spec`: what a plan that exists satisfies
- `WorkSlicePlan.make_eq_none_iff`: when a plan does not exist
- `WorkSlicePlan.nTasks_eq_zero_iff`: a plan has no tasks exactly for an empty input
- `WorkSlicePlan.flatMap_slices`: the slices of the tasks, in order, are the input
- `WorkSlicePlan.flatMap_range'`: the index ranges of the tasks, in order, are `[0, n)`
- `WorkSlicePlan.tasks_partition`: every task is nonempty and in bounds, and together they
  partition `[0, n)`
-/

namespace Llfs

namespace WorkSlicePlan

/-- The plan, computed: `none` when a divisor is zero. -/
theorem make_eq (params : WorkSliceParams) (n : Nat) :
    make params n =
      if params.maxTasks = 0 ∨
          max params.minTaskSize ((n + params.maxTasks - 1) / params.maxTasks) = 0 then none
      else some ⟨n, max params.minTaskSize ((n + params.maxTasks - 1) / params.maxTasks),
        (n + max params.minTaskSize ((n + params.maxTasks - 1) / params.maxTasks) - 1) /
          max params.minTaskSize ((n + params.maxTasks - 1) / params.maxTasks)⟩ := by
  unfold make checkedDiv
  by_cases hm : params.maxTasks = 0
  · simp only [hm, if_true, true_or]
    rfl
  · simp only [hm, if_false, false_or, Option.bind_eq_bind, Option.some_bind]
    by_cases hts : max params.minTaskSize ((n + params.maxTasks - 1) / params.maxTasks) = 0
    · rw [if_pos hts, if_pos hts]
      rfl
    · rw [if_neg hts, if_neg hts]
      rfl

/-- What a plan that exists satisfies. -/
theorem make_spec {params : WorkSliceParams} {n : Nat} {plan : WorkSlicePlan}
    (h : make params n = some plan) :
    plan.inputSize = n ∧ 0 < params.maxTasks ∧ params.minTaskSize ≤ plan.taskSize ∧
      0 < plan.taskSize ∧ plan.nTasks = (n + plan.taskSize - 1) / plan.taskSize := by
  rw [make_eq] at h
  split_ifs at h with hz
  cases h
  exact ⟨rfl, Nat.pos_of_ne_zero fun h => hz (.inl h), le_max_left _ _,
    Nat.pos_of_ne_zero fun h => hz (.inr h), rfl⟩

/-- A plan fails to exist exactly when one of its divisors is zero. -/
theorem make_eq_none_iff (params : WorkSliceParams) (n : Nat) :
    make params n = none ↔ params.maxTasks = 0 ∨
      max params.minTaskSize ((n + params.maxTasks - 1) / params.maxTasks) = 0 := by
  rw [make_eq]
  split_ifs with hz
  · exact iff_of_true rfl hz
  · exact iff_of_false (by simp) hz

/-- With a positive minimum task size and task count, the plan exists. -/
theorem make_isSome {params : WorkSliceParams} (hmax : 0 < params.maxTasks)
    (hmin : 0 < params.minTaskSize) (n : Nat) : ∃ plan, make params n = some plan := by
  cases h : make params n with
  | none =>
    rcases (make_eq_none_iff params n).1 h with h | h
    · omega
    · exact absurd h (Nat.pos_iff_ne_zero.1 (lt_of_lt_of_le hmin (le_max_left _ _)))
  | some plan => exact ⟨plan, rfl⟩

/-- A plan has no tasks exactly when its input is empty. -/
theorem nTasks_eq_zero_iff {params : WorkSliceParams} {n : Nat} {plan : WorkSlicePlan}
    (h : make params n = some plan) : plan.nTasks = 0 ↔ n = 0 := by
  obtain ⟨-, -, -, hts, hn⟩ := make_spec h
  rw [hn, Nat.div_eq_zero_iff hts]
  omega

/-- The tasks cover the input: `n_tasks * task_size ≥ input_size`. -/
theorem le_nTasks_mul {params : WorkSliceParams} {n : Nat} {plan : WorkSlicePlan}
    (h : make params n = some plan) : n ≤ plan.nTasks * plan.taskSize := by
  obtain ⟨-, -, -, hts, hn⟩ := make_spec h
  have hdiv := Nat.div_add_mod (n + plan.taskSize - 1) plan.taskSize
  have hmod := Nat.mod_lt (n + plan.taskSize - 1) hts
  rw [hn, Nat.mul_comm]
  generalize plan.taskSize * ((n + plan.taskSize - 1) / plan.taskSize) = q at hdiv ⊢
  omega

/-- A plan has no more tasks than `max_tasks`. -/
theorem nTasks_le_maxTasks {params : WorkSliceParams} {n : Nat} {plan : WorkSlicePlan}
    (h : make params n = some plan) : plan.nTasks ≤ params.maxTasks := by
  obtain ⟨hin, hmax, -, hts, hn⟩ := make_spec h
  have hper : (n + params.maxTasks - 1) / params.maxTasks ≤ plan.taskSize := by
    rw [make_eq] at h
    split_ifs at h
    cases h
    exact le_max_right _ _
  have hdiv := Nat.div_add_mod (n + params.maxTasks - 1) params.maxTasks
  have hmod := Nat.mod_lt (n + params.maxTasks - 1) hmax
  have hcover := Nat.mul_le_mul_left params.maxTasks hper
  rw [hn, ← Nat.lt_succ_iff, Nat.div_lt_iff_lt_mul hts, Nat.succ_mul]
  generalize params.maxTasks * ((n + params.maxTasks - 1) / params.maxTasks) = q at hdiv hcover
  generalize params.maxTasks * plan.taskSize = r at hcover ⊢
  omega

/-- Task `i` of the list is the one for task index `i`. -/
theorem getD_map_tasks {γ : Type} (plan : WorkSlicePlan) (F : Nat × Nat × Nat → List γ)
    (i : Nat) : (plan.tasks.map F).getD i [] = if i < plan.nTasks then
      F (i, i * plan.taskSize, min plan.taskSize (plan.inputSize - i * plan.taskSize))
    else [] := by
  rw [List.getD_eq_getElem?_getD, tasks, List.map_map, List.getElem?_map]
  by_cases hi : i < plan.nTasks
  · rw [List.getElem?_range hi, if_pos hi]
    rfl
  · rw [List.getElem?_eq_none (by simpa using hi), if_neg hi]
    rfl

/-- Consecutive slices of `task_size`, `n` of them, are the first `n * task_size` items. -/
theorem flatMap_range_take_drop {γ : Type} (l : List γ) (ts n : Nat) :
    (List.range n).flatMap (fun i => (l.drop (i * ts)).take ts) = l.take (n * ts) := by
  induction n with
  | zero => simp
  | succ n ih =>
    rw [List.range_succ, List.flatMap_append, List.flatMap_singleton, ih, Nat.succ_mul,
      List.take_add]

/-- The slices of the tasks, in order, are the whole input. -/
theorem flatMap_slices {γ : Type} {params : WorkSliceParams} {plan : WorkSlicePlan}
    {l : List γ} (h : make params l.length = some plan) :
    plan.tasks.flatMap (fun t => (l.drop t.2.1).take t.2.2) = l := by
  obtain ⟨hin, -, -, -, -⟩ := make_spec h
  have hslice : ∀ i, (l.drop (i * plan.taskSize)).take
      (min plan.taskSize (plan.inputSize - i * plan.taskSize)) =
      (l.drop (i * plan.taskSize)).take plan.taskSize := by
    intro i
    rw [List.take_eq_take, List.length_drop, hin]
    omega
  simp only [tasks, List.flatMap_map, hslice, flatMap_range_take_drop]
  exact List.take_of_length_le (le_nTasks_mul h)

/-- The items of task `i`: `task_size` of them from `task_offset`, fewer for the last task. -/
def slice {γ : Type} (plan : WorkSlicePlan) (l : List γ) (i : Nat) : List γ :=
  (l.drop (i * plan.taskSize)).take (min plan.taskSize (plan.inputSize - i * plan.taskSize))

/-- The slices of tasks `0, ..., n_tasks - 1`, in order, are the whole input. -/
theorem flatMap_range_slice {γ : Type} {params : WorkSliceParams} {plan : WorkSlicePlan}
    {l : List γ} (h : make params l.length = some plan) :
    (List.range plan.nTasks).flatMap (plan.slice l) = l := by
  conv_rhs => rw [← flatMap_slices h]
  rw [tasks, List.flatMap_map]
  rfl

theorem take_drop_range (n a b : Nat) :
    ((List.range n).drop a).take b = List.range' a (min b (n - a)) := by
  apply List.ext_getElem
  · simp
  · intro j h₁ h₂
    simp [List.getElem_range']

/-- The index ranges of the tasks, in order, are `[0, input_size)`. -/
theorem flatMap_range' {params : WorkSliceParams} {n : Nat} {plan : WorkSlicePlan}
    (h : make params n = some plan) :
    plan.tasks.flatMap (fun t => List.range' t.2.1 t.2.2) = List.range n := by
  obtain ⟨hin, -, -, -, -⟩ := make_spec h
  have h' : make params (List.range n).length = some plan := by rwa [List.length_range]
  conv_rhs => rw [← flatMap_slices h']
  simp only [tasks, List.flatMap_map, take_drop_range, hin]
  congr 1
  funext i
  congr 1
  omega

/-- Every task starts before the end of the input: `task_index * task_size < n`. -/
theorem mul_taskSize_lt {params : WorkSliceParams} {n : Nat} {plan : WorkSlicePlan}
    (h : make params n = some plan) {i : Nat} (hi : i < plan.nTasks) :
    i * plan.taskSize < n := by
  obtain ⟨-, -, -, hts, hn⟩ := make_spec h
  have hle := (Nat.le_div_iff_mul_le hts).1 (hn ▸ hi : i + 1 ≤ (n + plan.taskSize - 1) /
    plan.taskSize)
  rw [Nat.succ_mul] at hle
  omega

/-- The tasks `slice_work` hands out for a plan: each has an index below `n_tasks` (the
    shard of `temp_filters` a stage-1 task writes) and a nonempty range
    `[task_offset, task_offset + task_size)` inside `[0, n)`, and in order these ranges are
    `[0, n)`. So no task moves an iterator or a word index out of bounds, and every input
    position belongs to exactly one task. -/
theorem tasks_partition {params : WorkSliceParams} {n : Nat} {plan : WorkSlicePlan}
    (h : make params n = some plan) :
    (∀ t ∈ plan.tasks, t.1 < plan.nTasks ∧ 0 < t.2.2 ∧ t.2.1 + t.2.2 ≤ n) ∧
      plan.tasks.flatMap (fun t => List.range' t.2.1 t.2.2) = List.range n := by
  obtain ⟨hin, -, -, hts, -⟩ := make_spec h
  refine ⟨fun t ht => ?_, flatMap_range' h⟩
  obtain ⟨i, hi, rfl⟩ := List.mem_map.1 ht
  have hi' := List.mem_range.1 hi
  have hlt := mul_taskSize_lt h hi'
  have hmin := min_le_right plan.taskSize (plan.inputSize - i * plan.taskSize)
  dsimp only
  exact ⟨hi', lt_min hts (by omega), by omega⟩

theorem tasks_partition_ten_items :
    make ⟨4, 3⟩ 10 = some ⟨10, 4, 3⟩ ∧
    ((∀ t ∈ (⟨10, 4, 3⟩ : WorkSlicePlan).tasks,
        t.1 < (⟨10, 4, 3⟩ : WorkSlicePlan).nTasks ∧ 0 < t.2.2 ∧ t.2.1 + t.2.2 ≤ 10) ∧
      (⟨10, 4, 3⟩ : WorkSlicePlan).tasks.flatMap (fun t => List.range' t.2.1 t.2.2) =
        List.range 10) :=
  ⟨rfl, @tasks_partition ⟨4, 3⟩ 10 ⟨10, 4, 3⟩ rfl⟩

end WorkSlicePlan

end Llfs
