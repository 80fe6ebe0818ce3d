import Llfs.Native.SliceWork

/-! # Every schedule of a stage gives its sequential result

The tasks of a stage run concurrently on the worker pool. When no step of one task
interferes with a step of another (they commute), the order the scheduler picks does not
matter: every schedule ends in the state the tasks reach one after the other.

The proof is an invariant of the schedule's run: after any prefix of the schedule, the
tasks are still non-interfering and running what is left of them one after the other
gives the sequential result. A step keeps it because the step commutes with every
step of the tasks before it in the sequential order.

## Key results

- `runSteps_commute`: a step commuting with a list of steps can move past them
- `runSteps_map_writeAt`: writes to one location compose there and touch nothing else
- `writeAt_commute`: writes to different locations commute
- `raceFree_of_owned`, `RaceFree.noninterfering`: tasks that write only what they own have
  no data race, and steps without a data race commute
- `runStage_eq_runSeq`: every schedule of non-interfering tasks gives the sequential result
-/

namespace Llfs

section Steps

variable {σ : Type}

@[simp] theorem runSteps_nil (s : σ) : runSteps [] s = s := rfl

@[simp] theorem runSteps_cons (a : σ → σ) (l : List (σ → σ)) (s : σ) :
    runSteps (a :: l) s = runSteps l (a s) := rfl

@[simp] theorem runSteps_append (l₁ l₂ : List (σ → σ)) (s : σ) :
    runSteps (l₁ ++ l₂) s = runSteps l₂ (runSteps l₁ s) :=
  List.foldl_append _ _ _ _

/-- A step that commutes with every step of `l` can run before them or after them. -/
theorem runSteps_commute {a : σ → σ} {l : List (σ → σ)} (h : ∀ b ∈ l, Function.Commute a b)
    (s : σ) : runSteps l (a s) = a (runSteps l s) := by
  induction l generalizing s with
  | nil => rfl
  | cons b l ih =>
    rw [runSteps_cons, runSteps_cons, ← (h b (List.mem_cons_self _ _)).eq,
      ih fun c hc => h c (List.mem_cons_of_mem _ hc)]

end Steps

section Write

variable {ι β : Type} [DecidableEq ι]

@[simp] theorem writeAt_same (l : ι) (g : β → β) (m : ι → β) : writeAt l g m l = g (m l) :=
  Function.update_same _ _ _

theorem writeAt_apply (l : ι) (g : β → β) (m : ι → β) (l' : ι) :
    writeAt l g m l' = if l' = l then g (m l) else m l' :=
  Function.update_apply _ _ _ _

/-- Writes to different locations commute. -/
theorem writeAt_commute {l l' : ι} (h : l ≠ l') (g g' : β → β) :
    Function.Commute (writeAt l g) (writeAt l' g') := by
  intro m
  funext x
  simp only [writeAt_apply]
  by_cases hx : x = l <;> by_cases hx' : x = l' <;> simp_all [Ne.symm h]

/-- Writes all to location `l` compose at `l` and leave every other location alone. -/
theorem runSteps_map_writeAt (l : ι) (gs : List (β → β)) (m : ι → β) :
    runSteps (gs.map (writeAt l)) m = writeAt l (runSteps gs) m := by
  induction gs generalizing m with
  | nil => exact (Function.update_eq_self (f := m) l).symm
  | cons g gs ih =>
    rw [List.map_cons, runSteps_cons, ih]
    simp only [writeAt, Function.update_same, Function.update_idem, runSteps_cons]

/-- Tasks `0, ..., n - 1`, task `i` writing only location `i`, run one after the other:
    each location gets its own task's writes. -/
theorem runSteps_flatMap_range_writeAt (ops : Nat → List (β → β)) (n : Nat) (m : Nat → β)
    (x : Nat) : runSteps ((List.range n).flatMap fun i => (ops i).map (writeAt i)) m x =
      if x < n then runSteps (ops x) (m x) else m x := by
  induction n with
  | zero => simp
  | succ n ih =>
    rw [List.range_succ, List.flatMap_append, List.flatMap_singleton, runSteps_append,
      runSteps_map_writeAt, writeAt_apply]
    by_cases hx : x = n
    · subst hx
      simp [ih]
    · rw [if_neg hx, ih]
      by_cases hxn : x < n
      · simp [hxn, Nat.lt_succ_of_lt hxn]
      · simp [hxn, show ¬ x < n + 1 by omega]

/-- What located writes leave at location `a`: the updates located at `a`, in order,
    applied to its old value `v`. -/
def updatesAt (ws : List (ι × (β → β))) (a : ι) (v : β) : β :=
  ws.foldl (fun v w => if w.1 = a then w.2 v else v) v

theorem updatesAt_cons (w : ι × (β → β)) (ws : List (ι × (β → β))) (a : ι) (v : β) :
    updatesAt (w :: ws) a v = updatesAt ws a (if w.1 = a then w.2 v else v) := rfl

theorem updatesAt_append (ws ws' : List (ι × (β → β))) (a : ι) (v : β) :
    updatesAt (ws ++ ws') a v = updatesAt ws' a (updatesAt ws a v) :=
  List.foldl_append _ _ _ _

/-- Running located writes: each location ends with its own updates applied to its old
    value. -/
theorem runSteps_writes_apply (ws : List (ι × (β → β))) (m : ι → β) (a : ι) :
    runSteps (ws.map fun w => writeAt w.1 w.2) m a = updatesAt ws a (m a) := by
  induction ws generalizing m with
  | nil => rfl
  | cons w ws ih =>
    rw [List.map_cons, runSteps_cons, ih, updatesAt_cons, writeAt_apply]
    by_cases h : a = w.1
    · subst h
      rw [if_pos rfl]
    · rw [if_neg h, if_neg (Ne.symm h)]

/-- Writes located elsewhere leave the value at `a` alone. -/
theorem updatesAt_of_forall_ne {ws : List (ι × (β → β))} {a : ι} (h : ∀ w ∈ ws, w.1 ≠ a)
    (v : β) : updatesAt ws a v = v := by
  induction ws generalizing v with
  | nil => rfl
  | cons w ws ih =>
    rw [updatesAt_cons, if_neg (h w (List.mem_cons_self _ _)),
      ih fun w' hw' => h w' (List.mem_cons_of_mem _ hw')]

/-- Moving writes by an injective map of locations moves their updates with them. -/
theorem updatesAt_map_injective {κ : Type} [DecidableEq κ] {r : ι → κ}
    (hr : Function.Injective r) (ws : List (ι × (β → β))) (a : ι) (v : β) :
    updatesAt (ws.map fun w => (r w.1, w.2)) (r a) v = updatesAt ws a v := by
  induction ws generalizing v with
  | nil => rfl
  | cons w ws ih =>
    simp only [List.map_cons, updatesAt_cons, hr.eq_iff, ih]

/-- The writes of tasks `0, ..., n - 1` in order, where no task but `p` writes location `a`:
    `a` gets task `p`'s updates, if there is a task `p`. -/
theorem updatesAt_flatMap_range (G : Nat → List (ι × (β → β))) {a : ι} {p n : Nat}
    (h : ∀ i < n, i ≠ p → ∀ w ∈ G i, w.1 ≠ a) (v : β) :
    updatesAt ((List.range n).flatMap G) a v = if p < n then updatesAt (G p) a v else v := by
  induction n with
  | zero => rfl
  | succ n ih =>
    rw [List.range_succ, List.flatMap_append, List.flatMap_singleton, updatesAt_append,
      ih fun i hi => h i (by omega)]
    by_cases hp : p < n
    · rw [if_pos hp, if_pos (by omega),
        updatesAt_of_forall_ne (h n (Nat.lt_succ_self n) (by omega))]
    · rw [if_neg hp]
      by_cases hpn : p = n
      · rw [if_pos (by omega), hpn]
      · rw [if_neg (by omega), updatesAt_of_forall_ne (h n (Nat.lt_succ_self n) (Ne.symm hpn))]

end Write

section Stage

variable {σ : Type}

/-- No step of one task interferes with a step of another: they commute. -/
def Noninterfering (tasks : List (List (σ → σ))) : Prop :=
  ∀ i j, i ≠ j → ∀ a ∈ tasks.getD i [], ∀ b ∈ tasks.getD j [], Function.Commute a b

section RaceFree

variable {ι β : Type} [DecidableEq ι]

/-- No data race: a step of one task and a step of another are writes, each reading and
    writing its own single location, and the two locations differ. -/
def RaceFree (tasks : List (List ((ι → β) → ι → β))) : Prop :=
  ∀ i j, i ≠ j → ∀ a ∈ tasks.getD i [], ∀ b ∈ tasks.getD j [],
    ∃ l l' g g', a = writeAt l g ∧ b = writeAt l' g' ∧ l ≠ l'

variable {tasks : List (List ((ι → β) → ι → β))}

/-- Steps without a data race commute. -/
theorem RaceFree.noninterfering (h : RaceFree tasks) : Noninterfering tasks := by
  intro i j hij a ha b hb
  obtain ⟨l, l', g, g', rfl, rfl, hl⟩ := h i j hij a ha b hb
  exact writeAt_commute hl g g'

/-- Tasks whose steps write only locations the task owns, no location owned twice, have no
    data race. -/
theorem raceFree_of_owned (owns : Nat → ι → Prop)
    (hdisj : ∀ i j l, i ≠ j → owns i l → owns j l → False)
    (hown : ∀ i, ∀ a ∈ tasks.getD i [], ∃ l g, owns i l ∧ a = writeAt l g) :
    RaceFree tasks := by
  intro i j hij a ha b hb
  obtain ⟨l, g, hl, rfl⟩ := hown i a ha
  obtain ⟨l', g', hl', rfl⟩ := hown j b hb
  exact ⟨l, l', g, g', rfl, rfl, fun h => hdisj i j l hij hl (h ▸ hl')⟩

end RaceFree

/-- A step of the task before `k` in the sequential order is a step of some task `i < k`. -/
theorem mem_flatten_take {tasks : List (List (σ → σ))} {k : Nat} {b : σ → σ}
    (hb : b ∈ (tasks.take k).flatten) : ∃ i < k, b ∈ tasks.getD i [] := by
  obtain ⟨t, ht, hbt⟩ := List.mem_flatten.1 hb
  obtain ⟨i, hi⟩ := List.mem_iff_getElem?.1 ht
  have hik : i < k := by
    by_contra hik
    rw [List.getElem?_take, if_neg hik] at hi
    exact Option.noConfusion hi
  rw [List.getElem?_take_of_lt hik] at hi
  exact ⟨i, hik, by rw [List.getD_eq_getElem?_getD, hi]; exact hbt⟩

/-- After task `k` runs its step, each task's steps are among those it had. -/
theorem mem_getD_set {tasks : List (List (σ → σ))} {k : Nat} {a : σ → σ} {rest : List (σ → σ)}
    (hk : tasks[k]? = some (a :: rest)) {i : Nat} {b : σ → σ}
    (hb : b ∈ (tasks.set k rest).getD i []) : b ∈ tasks.getD i [] := by
  rw [List.getD_eq_getElem?_getD, List.getElem?_set] at hb
  rw [List.getD_eq_getElem?_getD]
  by_cases hik : k = i
  · subst hik
    rw [if_pos rfl, if_pos (List.getElem?_eq_some_iff.1 hk).1] at hb
    rw [hk]
    exact List.mem_cons_of_mem _ hb
  · rwa [if_neg hik] at hb

/-- One step of the schedule keeps the tasks non-interfering and does not change what the
    rest of them, run one after the other, leads to. -/
theorem stepTask_inv {c : List (List (σ → σ)) × σ} (hc : Noninterfering c.1) (k : Nat) :
    Noninterfering (stepTask c k).1 ∧
      runSeq (stepTask c k).1 (stepTask c k).2 = runSeq c.1 c.2 := by
  unfold stepTask
  split
  · rename_i a rest hk
    have hlt := (List.getElem?_eq_some_iff.1 hk).1
    refine ⟨fun i j hij x hx y hy =>
      hc i j hij x (mem_getD_set hk hx) y (mem_getD_set hk hy), ?_⟩
    have hsplit : c.1 = c.1.take k ++ (a :: rest) :: c.1.drop (k + 1) := by
      obtain ⟨_, hget⟩ := List.getElem?_eq_some_iff.1 hk
      rw [← hget, ← List.drop_eq_getElem_cons, List.take_append_drop]
    have hcomm : ∀ b ∈ (c.1.take k).flatten, Function.Commute a b := by
      intro b hb
      obtain ⟨i, hik, hbi⟩ := mem_flatten_take hb
      have hak : a ∈ c.1.getD k [] := by
        rw [List.getD_eq_getElem?_getD, hk]
        exact List.mem_cons_self _ _
      exact hc k i (Nat.ne_of_gt hik) a hak b hbi
    rw [List.set_eq_take_append_cons_drop, if_pos hlt]
    conv_rhs => rw [hsplit]
    simp only [runSeq, List.flatten_append, List.flatten_cons, runSteps_append, runSteps_cons,
      runSteps_commute hcomm]
  · exact ⟨hc, rfl⟩

/-- Every schedule of non-interfering tasks ends in the state of running them one after
    the other. -/
theorem runStage_eq_runSeq {tasks : List (List (σ → σ))} (h : Noninterfering tasks)
    (sched : List Nat) (s : σ) : runStage sched tasks s = runSeq tasks s := by
  suffices ∀ c : List (List (σ → σ)) × σ, Noninterfering c.1 →
      runSeq (sched.foldl stepTask c).1 (sched.foldl stepTask c).2 = runSeq c.1 c.2 from
    this (tasks, s) h
  induction sched with
  | nil => exact fun _ _ => rfl
  | cons k sched ih =>
    intro c hc
    obtain ⟨hc', hrun⟩ := stepTask_inv hc k
    exact (ih _ hc').trans hrun

end Stage

end Llfs
