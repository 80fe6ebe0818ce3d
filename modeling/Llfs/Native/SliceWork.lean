import Llfs.Native.BloomFilter

/-! # Work slicing on a worker pool

`parallel_build_bloom_filter` cuts its work with `batt::WorkSlicePlan`, hands the pieces
to a `batt::WorkerPool` with `batt::slice_work`, and waits for them at the end of a
`batt::ScopedWorkContext`. These belong to the `batteries` library, not to this
repository; they are modelled from its code. Sizes are `usize` there; here they are
`Nat`, which agrees because a range's `std::distance` and a pool's thread count stay far
below `2^63`.

The tasks of a stage run concurrently. A task is the list of its atomic steps, and a
stage runs by a *schedule*: the list of task indices in the order their next steps run.
When the schedule ends, the scope's join waits for every step still left. Every
interleaving of the tasks' steps is the run of some schedule.
-/

namespace Llfs

/-- `batt::WorkerPool`, seen through `size()`. The workers live in a `std::vector`, whose
    `max_size()` is below `2^63`, so `size() + 1` cannot wrap. -/
structure WorkerPool where
  size : Nat
  size_lt : size < 2 ^ 63

/-- `batt::WorkSliceParams`. -/
structure WorkSliceParams where
  minTaskSize : Nat
  maxTasks : Nat
  deriving DecidableEq, Repr

/-- `batt::WorkSlicePlan`. -/
structure WorkSlicePlan where
  inputSize : Nat
  taskSize : Nat
  nTasks : Nat
  deriving DecidableEq, Repr

/-- A `usize` division; `none` for a zero divisor, which is undefined behaviour. -/
def checkedDiv (a b : Nat) : Option Nat :=
  if b = 0 then none else some (a / b)

/-- The `WorkSlicePlan(params, input_size)` constructor:
    `task_size = max(min_task_size, (input_size + max_tasks - 1) / max_tasks)` and
    `n_tasks = (input_size + task_size - 1) / task_size`. -/
def WorkSlicePlan.make (params : WorkSliceParams) (inputSize : Nat) : Option WorkSlicePlan := do
  let perTask ← checkedDiv (inputSize + params.maxTasks - 1) params.maxTasks
  let taskSize := max params.minTaskSize perTask
  let nTasks ← checkedDiv (inputSize + taskSize - 1) taskSize
  return ⟨inputSize, taskSize, nTasks⟩

/-- The tasks `slice_work` generates for a plan, as `(task_index, task_offset, task_size)`:
    task `i` takes the slice at `i * task_size` of size `min(task_size, input_size - offset)`. -/
def WorkSlicePlan.tasks (plan : WorkSlicePlan) : List (Nat × Nat × Nat) :=
  (List.range plan.nTasks).map fun i =>
    (i, i * plan.taskSize, min plan.taskSize (plan.inputSize - i * plan.taskSize))

/-! ## Running a stage -/

section Stage

variable {σ : Type}

/-- The tasks run one after the other: the sequential reading of a stage. -/
def runSeq (tasks : List (List (σ → σ))) (s : σ) : σ :=
  runSteps tasks.flatten s

/-- Task `k` runs its next step, if it has one left. -/
def stepTask (c : List (List (σ → σ)) × σ) (k : Nat) : List (List (σ → σ)) × σ :=
  match c.1[k]? with
  | some (a :: rest) => (c.1.set k rest, a c.2)
  | _ => c

/-- A stage on the worker pool: steps run in the order `sched` names their tasks, then the
    join at the end of the `ScopedWorkContext` waits for all that is left. -/
def runStage (sched : List Nat) (tasks : List (List (σ → σ))) (s : σ) : σ :=
  let c := sched.foldl stepTask (tasks, s)
  runSeq c.1 c.2

end Stage

end Llfs
