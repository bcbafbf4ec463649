import DistLabs.MapReduce.Coordinator

/-!
# What the two handlers do

The assignment of tasks, their expiry and the change of phase all happen inside the loops of
`fetchMap` and `fetchReduce`.  `scan_spec` says how such a loop ends, for either kind of task.
A request when all tasks of the phase are done is the same request in the next phase
(`requestTask_map`, `requestTask_reduce`), so that one that crosses two phases is no special case.

What a handler writes is always one field of one task; `Updates` says so, for either kind of task.
-/

set_option autoImplicit false

namespace DistLabs.MR

/-! ## Tasks by their job -/

namespace Job

/-- The phase in which a task is assigned. -/
def phase : Job → Nat
  | .map _ => 0
  | .reduce _ => 1

/-- The number of a task. -/
def num : Job → Nat
  | .map x => x
  | .reduce y => y

/-- How long a worker may take. -/
def limit : Job → Nat
  | .map _ => 15 * second
  | .reduce _ => 10 * second

end Job

/-- Nobody has the task, or somebody has had it for too long. -/
def Task.Assignable (limit now : Nat) (t : Task) : Prop :=
  t.status = .todo ∨ t.status = .doing ∧ limit < now - t.assignedAt

namespace Coordinator

/-- The task with a number, if it is set. -/
def task (c : Coordinator) : Job → Option Task
  | .map x => c.mapTask[x]?.join.map MapTask.toTask
  | .reduce y => c.reduceTask[y]?.join.map ReduceTask.toTask

/-- The numbers of the tasks go from `1` to `capX` and to `capY`. -/
def InRange (c : Coordinator) : Job → Prop
  | .map x => 1 ≤ x ∧ x ≤ c.capX
  | .reduce y => 1 ≤ y ∧ y ≤ c.capY

/-- `c'` is `c` with `f` done to one task. -/
structure Updates (c c' : Coordinator) (job : Job) (f : Task → Task) : Prop where
  /-- Same phase. -/
  phase : c'.phase = c.phase
  /-- Same number of files. -/
  capX : c'.capX = c.capX
  /-- Same number of reduce tasks. -/
  capY : c'.capY = c.capY
  /-- Same slice of reduce tasks. -/
  length : c'.reduceTask.length = c.reduceTask.length
  /-- The tasks. -/
  task : ∀ job', c'.task job' = if job' = job then (c.task job).map f else c.task job'

variable {c c' : Coordinator} {now : Nat}

theorem Updates.inRange {job job' : Job} {f : Task → Task} (h : Updates c c' job f) :
    c'.InRange job' ↔ c.InRange job' := by
  cases job' <;> simp [InRange, h.capX, h.capY]

/-- Doing nothing to a task. -/
theorem Updates.refl {job : Job} {f : Task → Task} (h : (c.task job).map f = c.task job) :
    Updates c c job f := by
  refine ⟨rfl, rfl, rfl, rfl, fun job' ↦ ?_⟩
  split
  · next heq => rw [heq, h]
  · rfl

/-- Where a task of `c'` comes from. -/
theorem Updates.task_cases {job job' : Job} {f : Task → Task} {t t' : Task} (h : Updates c c' job f)
    (ht : c.task job = some t) (ht' : c'.task job' = some t') :
    job' = job ∧ t' = f t ∨ job' ≠ job ∧ c.task job' = some t' := by
  rw [h.task] at ht'
  split at ht'
  · next heq =>
    rw [ht, Option.map_some, Option.some_inj] at ht'
    exact Or.inl ⟨heq, ht'.symm⟩
  · next hne => exact Or.inr ⟨hne, ht'⟩

/-- No task is set or unset. -/
theorem Updates.isSet {job job' : Job} {f : Task → Task} (h : Updates c c' job f) :
    (∃ t, c'.task job' = some t) ↔ ∃ t, c.task job' = some t := by
  rw [h.task]
  split
  · next heq => simp [heq]
  · rfl

theorem setMap_updates (c : Coordinator) (x : Nat) (f : Task → Task) :
    Updates c (c.setMap x f) (.map x) f := by
  refine ⟨rfl, rfl, rfl, rfl, fun job' ↦ ?_⟩
  cases job' with
  | reduce y => rw [if_neg (by simp)]; rfl
  | map x' =>
    simp only [task, setMap, List.getElem?_modify, Job.map.injEq]
    by_cases hx : x' = x
    · subst hx
      rw [if_pos rfl]
      rcases c.mapTask[x']? with _ | _ | tp <;> simp
    · rw [if_neg hx]
      simp [Ne.symm hx]

theorem setReduce_updates (c : Coordinator) (y : Nat) (f : Task → Task) :
    Updates c (c.setReduce y f) (.reduce y) f := by
  refine ⟨rfl, rfl, rfl, by simp [setReduce], fun job' ↦ ?_⟩
  cases job' with
  | map x => rw [if_neg (by simp)]; rfl
  | reduce y' =>
    simp only [task, setReduce, List.getElem?_modify, Job.reduce.injEq]
    by_cases hy : y' = y
    · subst hy
      rw [if_pos rfl]
      rcases c.reduceTask[y']? with _ | _ | tp <;> simp
    · rw [if_neg hy]
      simp [Ne.symm hy]

/-- Two writes to one task. -/
theorem Updates.trans {c₁ c₂ : Coordinator} {job : Job} {f g : Task → Task} (h : Updates c c₁ job f)
    (h' : Updates c₁ c₂ job g) : Updates c c₂ job (g ∘ f) := by
  refine ⟨h'.phase.trans h.phase, h'.capX.trans h.capX, h'.capY.trans h.capY,
    h'.length.trans h.length, fun job' ↦ ?_⟩
  rw [h'.task, h.task, h.task, if_pos rfl]
  split
  · rw [Option.map_map]
  · rfl

/-! ## The loop -/

/-- **How the loop ends**, if all its tasks are set. -/
theorem scan_spec (tasks : List (Option Task)) (limit now i k taskLeft : Nat) (hk : k ≤ taskLeft)
    (h : ∀ j, i ≤ j → j < i + k → ∃ t, tasks[j]?.join = some t) :
    ∃ out, scan tasks limit now i k taskLeft = some out ∧
      match out with
      | .todo j => i ≤ j ∧ j < i + k ∧ ∃ t, tasks[j]?.join = some t ∧ t.status = .todo
      | .expired j => i ≤ j ∧ j < i + k ∧
        ∃ t, tasks[j]?.join = some t ∧ t.status = .doing ∧ limit < now - t.assignedAt
      | .exhausted left =>
        (∀ j t, i ≤ j → j < i + k → tasks[j]?.join = some t → ¬ t.Assignable limit now) ∧
        (left + k = taskLeft ∧
            (∀ j t, i ≤ j → j < i + k → tasks[j]?.join = some t → t.status = .done) ∨
          taskLeft < left + k ∧
            ∃ j t, i ≤ j ∧ j < i + k ∧ tasks[j]?.join = some t ∧ t.status = .doing) := by
  induction k generalizing i taskLeft with
  | zero =>
    refine ⟨_, rfl, fun j t h1 h2 ↦ absurd h1 (by omega), Or.inl ⟨rfl, fun j t h1 h2 ↦ ?_⟩⟩
    omega
  | succ k ih =>
    obtain ⟨t, ht⟩ := h i (Nat.le_refl i) (by omega)
    rw [scan, ht]
    simp only [Option.bind_eq_bind, Option.bind_some]
    have hrest : ∀ j, i + 1 ≤ j → j < i + 1 + k → ∃ t, tasks[j]?.join = some t :=
      fun j h1 h2 ↦ h j (by omega) (by omega)
    -- the first task is this one, and the others are the rest
    have hsplit : ∀ {j : Nat}, i ≤ j → j < i + (k + 1) → j = i ∨ i + 1 ≤ j ∧ j < i + 1 + k := by
      omega
    cases hstat : t.status with
    | todo => exact ⟨_, rfl, Nat.le_refl i, by omega, t, ht, hstat⟩
    | doing =>
      dsimp only
      split
      · next hlong => exact ⟨_, rfl, Nat.le_refl i, by omega, t, ht, hstat, hlong⟩
      · next hshort =>
        obtain ⟨out, hout, hspec⟩ := ih (i + 1) taskLeft (by omega) hrest
        refine ⟨out, hout, ?_⟩
        match out with
        | .todo j =>
          obtain ⟨h1, h2, h3⟩ := hspec
          exact ⟨by omega, by omega, h3⟩
        | .expired j =>
          obtain ⟨h1, h2, h3⟩ := hspec
          exact ⟨by omega, by omega, h3⟩
        | .exhausted left =>
          obtain ⟨hno, hcount⟩ := hspec
          refine ⟨fun j t' h1 h2 ht' ↦ ?_,
            Or.inr ⟨by omega, i, t, Nat.le_refl i, by omega, ht, hstat⟩⟩
          rcases hsplit h1 h2 with rfl | ⟨h1', h2'⟩
          · obtain rfl := Option.some_inj.mp (ht.symm.trans ht')
            rintro (htodo | ⟨-, hlong⟩)
            · simp [hstat] at htodo
            · exact hshort hlong
          · exact hno j t' h1' h2' ht'
    | done =>
      dsimp only
      obtain ⟨out, hout, hspec⟩ := ih (i + 1) (taskLeft - 1) (by omega) hrest
      refine ⟨out, hout, ?_⟩
      match out with
      | .todo j =>
        obtain ⟨h1, h2, h3⟩ := hspec
        exact ⟨by omega, by omega, h3⟩
      | .expired j =>
        obtain ⟨h1, h2, h3⟩ := hspec
        exact ⟨by omega, by omega, h3⟩
      | .exhausted left =>
        obtain ⟨hno, hcount⟩ := hspec
        refine ⟨fun j t' h1 h2 ht' ↦ ?_, ?_⟩
        · rcases hsplit h1 h2 with rfl | ⟨h1', h2'⟩
          · obtain rfl := Option.some_inj.mp (ht.symm.trans ht')
            rintro (hbad | ⟨hbad, -⟩) <;> simp [hstat] at hbad
          · exact hno j t' h1' h2' ht'
        · rcases hcount with ⟨hall, hdone⟩ | ⟨hlt, j, t', h1, h2, hj⟩
          · refine Or.inl ⟨by omega, fun j t' h1 h2 ht' ↦ ?_⟩
            rcases hsplit h1 h2 with rfl | ⟨h1', h2'⟩
            · obtain rfl := Option.some_inj.mp (ht.symm.trans ht')
              exact hstat
            · exact hdone j t' h1' h2' ht'
          · exact Or.inr ⟨by omega, j, t', by omega, by omega, hj⟩

theorem mapTasks_getElem (c : Coordinator) (x : Nat) :
    (c.mapTask.map (Option.map MapTask.toTask))[x]?.join = c.task (.map x) := by
  rw [List.getElem?_map, task]
  rcases c.mapTask[x]? with _ | _ | tp <;> rfl

theorem reduceTasks_getElem (c : Coordinator) (y : Nat) :
    (c.reduceTask.map (Option.map ReduceTask.toTask))[y]?.join = c.task (.reduce y) := by
  rw [List.getElem?_map, task]
  rcases c.reduceTask[y]? with _ | _ | tp <;> rfl

/-- What `fetchMap` or `fetchReduce` returns: the coordinator and a number, where `mk 1`, …,
`mk cap` are the tasks looked at and `next` is the coordinator in the next phase. -/
inductive Fetched (c : Coordinator) (mk : Nat → Job) (cap limit now : Nat) (next : Coordinator) :
    Coordinator → Nat → Prop
  /-- A task that is about to be assigned. -/
  | found {c₁ i t f} : 1 ≤ i → i ≤ cap → c.task (mk i) = some t → t.Assignable limit now →
      Updates c c₁ (mk i) f → assign now ∘ f = assign now → Fetched c mk cap limit now next c₁ i
  /-- Somebody has a task, and no task can be assigned. -/
  | busy {i t} : 1 ≤ i → i ≤ cap → c.task (mk i) = some t → t.status = .doing →
      (∀ i t, 1 ≤ i → i ≤ cap → c.task (mk i) = some t → ¬ t.Assignable limit now) →
      Fetched c mk cap limit now next c 0
  /-- All tasks are done. -/
  | finished : (∀ i t, 1 ≤ i → i ≤ cap → c.task (mk i) = some t → t.status = .done) →
      Fetched c mk cap limit now next next 0

/-- The loop and what follows it, for either kind of task. -/
theorem fetched_of_scan (next : Coordinator) {tasks : List (Option Task)} {limit cap : Nat}
    {mk : Nat → Job} {write : Nat → (Task → Task) → Coordinator}
    (hwrite : ∀ i f, Updates c (write i f) (mk i) f)
    (htask : ∀ i, tasks[i]?.join = c.task (mk i))
    (hset : ∀ i, 1 ≤ i → i ≤ cap → ∃ t, c.task (mk i) = some t) :
    ∃ out, scan tasks limit now 1 cap cap = some out ∧
      match out with
      | .todo i => Fetched c mk cap limit now next c i
      | .expired i =>
        Fetched c mk cap limit now next (write i fun tp ↦ { tp with status := .todo }) i
      | .exhausted left => Fetched c mk cap limit now next (if left = 0 then next else c) 0 := by
  obtain ⟨out, hout, hspec⟩ := scan_spec tasks limit now 1 cap cap (Nat.le_refl cap)
    fun i h1 h2 ↦ htask i ▸ hset i h1 (by omega)
  refine ⟨out, hout, ?_⟩
  simp only [htask] at hspec
  match out with
  | .todo i =>
    obtain ⟨h1, h2, t, ht, hstat⟩ := hspec
    exact .found (f := id) h1 (by omega) ht (Or.inl hstat) (.refl (by simp)) rfl
  | .expired i =>
    obtain ⟨h1, h2, t, ht, hstat⟩ := hspec
    exact .found h1 (by omega) ht (Or.inr hstat) (hwrite i _) rfl
  | .exhausted left =>
    obtain ⟨hno, ⟨hall, hdone⟩ | ⟨hlt, i, t, h1, h2, ht, hstat⟩⟩ := hspec
    · simp only [show left = 0 by omega, if_true]
      exact .finished fun i t h1 h2 ↦ hdone i t h1 (by omega)
    · simp only [show left ≠ 0 by omega, if_false]
      exact .busy h1 (by omega) ht hstat fun i t h1 h2 ↦ hno i t h1 (by omega)

theorem fetchMap_spec (now : Nat) (hset : ∀ x, 1 ≤ x → x ≤ c.capX → ∃ t, c.task (.map x) = some t) :
    ∃ c₁ x, c.fetchMap now = some (c₁, x) ∧
      Fetched c .map c.capX (15 * second) now (fillReduce { c with phase := 1 }) c₁ x := by
  obtain ⟨out, hout, hspec⟩ := fetched_of_scan (fillReduce { c with phase := 1 }) (setMap_updates c)
    (mapTasks_getElem c) hset
  rw [fetchMap, hout]
  match out with
  | .todo x => exact ⟨_, _, rfl, hspec⟩
  | .expired x => exact ⟨_, _, rfl, hspec⟩
  | .exhausted left =>
    refine ⟨_, _, ?_, hspec⟩
    by_cases h : left = 0 <;> simp [h]

theorem fetchReduce_spec (now : Nat)
    (hset : ∀ y, 1 ≤ y → y ≤ c.capY → ∃ t, c.task (.reduce y) = some t) :
    ∃ c₁ y, c.fetchReduce now = some (c₁, y) ∧
      Fetched c .reduce c.capY (10 * second) now { c with phase := 2 } c₁ y := by
  obtain ⟨out, hout, hspec⟩ := fetched_of_scan { c with phase := 2 } (setReduce_updates c)
    (reduceTasks_getElem c) hset
  rw [fetchReduce, hout]
  match out with
  | .todo y => exact ⟨_, _, rfl, hspec⟩
  | .expired y => exact ⟨_, _, rfl, hspec⟩
  | .exhausted left =>
    refine ⟨_, _, ?_, hspec⟩
    by_cases h : left = 0 <;> simp [h]

/-! ## `RequestTask`, phase by phase -/

/-- What a request is answered with, and what it does, while the tasks of the phase last. -/
inductive Hands (c : Coordinator) (now : Nat) : Coordinator → TaskAssignment → Prop
  /-- A task that nobody has, or that somebody has had for too long. -/
  | assign {c' tap job t} : tap.job = some job → c.InRange job → job.phase = c.phase →
      c.task job = some t → t.Assignable job.limit now → Updates c c' job (assign now) →
      Hands c now c' tap
  /-- Nothing: somebody has a task, and no task can be assigned. -/
  | none {tap job t} : tap.taskType = .none → c.InRange job → job.phase = c.phase →
      c.task job = some t → t.status = .doing →
      (∀ job t, job.phase = c.phase → c.InRange job → c.task job = some t →
        ¬ t.Assignable job.limit now) →
      Hands c now c tap

/-- A request in the map phase is answered from the map tasks, or it begins the reduce phase. -/
theorem requestTask_map (now : Nat) (hphase : c.phase = 0)
    (hset : ∀ x, 1 ≤ x → x ≤ c.capX → ∃ t, c.task (.map x) = some t) :
    (∃ c' tap, c.requestTask now = some (c', tap) ∧ Hands c now c' tap) ∨
      (∀ x t, 1 ≤ x → x ≤ c.capX → c.task (.map x) = some t → t.status = .done) ∧
        c.requestTask now = (fillReduce { c with phase := 1 }).requestTask now := by
  obtain ⟨c₁, x, hfetch, hspec⟩ := fetchMap_spec now hset
  cases hspec with
  | @found _ _ t f h1 h2 ht hopen hup hassign =>
    have ht₁ := hup.task (.map x)
    rw [if_pos rfl, ht] at ht₁
    obtain ⟨tp, htp, -⟩ := Option.map_eq_some_iff.mp ht₁
    refine Or.inl ⟨c₁.setMap x (Coordinator.assign now),
      { taskType := .map, filename := tp.filename, lowerX := x, X := c.capX, Y := c.capY }, ?_,
      .assign rfl ⟨h1, h2⟩ hphase.symm ht hopen (hassign ▸ hup.trans (setMap_updates c₁ x _))⟩
    simp [requestTask, hphase, hfetch, hup.phase, show 0 < x by omega, htp]
  | busy h1 h2 ht hstat hno =>
    refine Or.inl ⟨c, { X := c.capX, Y := c.capY }, ?_,
      .none rfl (show c.InRange (.map _) from ⟨h1, h2⟩) hphase.symm ht hstat ?_⟩
    · simp [requestTask, hphase, hfetch]
    · rintro (x | y) t hp hr
      · exact hno x t hr.1 hr.2
      · simp [Job.phase, hphase] at hp
  | finished hdone =>
    refine Or.inr ⟨hdone, ?_⟩
    simp [requestTask, hphase, hfetch, fillReduce]

/-- A request in the reduce phase is answered from the reduce tasks, or it ends the job. -/
theorem requestTask_reduce (now : Nat) (hphase : c.phase = 1)
    (hset : ∀ y, 1 ≤ y → y ≤ c.capY → ∃ t, c.task (.reduce y) = some t) :
    (∃ c' tap, c.requestTask now = some (c', tap) ∧ Hands c now c' tap) ∨
      (∀ y t, 1 ≤ y → y ≤ c.capY → c.task (.reduce y) = some t → t.status = .done) ∧
        c.requestTask now = requestTask { c with phase := 2 } now := by
  obtain ⟨c₁, y, hfetch, hspec⟩ := fetchReduce_spec now hset
  cases hspec with
  | @found _ _ t f h1 h2 ht hopen hup hassign =>
    have ht₁ := hup.task (.reduce y)
    rw [if_pos rfl, ht] at ht₁
    obtain ⟨tp, htp, -⟩ := Option.map_eq_some_iff.mp ht₁
    refine Or.inl ⟨c₁.setReduce y (Coordinator.assign now),
      { taskType := .reduce, lowerY := y, X := c.capX, Y := c.capY }, ?_,
      .assign rfl ⟨h1, h2⟩ hphase.symm ht hopen (hassign ▸ hup.trans (setReduce_updates c₁ y _))⟩
    simp [requestTask, hphase, hfetch, hup.phase, show 0 < y by omega, htp]
  | busy h1 h2 ht hstat hno =>
    refine Or.inl ⟨c, { X := c.capX, Y := c.capY }, ?_,
      .none rfl (show c.InRange (.reduce _) from ⟨h1, h2⟩) hphase.symm ht hstat ?_⟩
    · simp [requestTask, hphase, hfetch]
    · rintro (x | y) t hp hr
      · simp [Job.phase, hphase] at hp
      · exact hno y t hr.1 hr.2
  | finished hdone =>
    refine Or.inr ⟨hdone, ?_⟩
    simp [requestTask, hphase, hfetch]

/-- A request when the job is done. -/
theorem requestTask_done (hphase : c.phase = 2) :
    c.requestTask now = some (c, { taskType := .exit, X := c.capX, Y := c.capY }) := by
  simp [requestTask, hphase]

/-! ## `fillReduce` and `ResponseTask` -/

/-- The reduce tasks in range are new, whatever they were. -/
theorem task_fillReduce (hlen : c.reduceTask.length = c.capY + 1) (y : Nat) :
    (fillReduce c).task (.reduce y) =
      if 1 ≤ y ∧ y ≤ c.capY then some {} else c.task (.reduce y) := by
  simp only [task, fillReduce, List.getElem?_mapIdx]
  by_cases hy : y < c.reduceTask.length
  · rw [List.getElem?_eq_getElem hy]
    by_cases hr : 1 ≤ y ∧ y ≤ c.capY <;> simp [hr]
  · rw [List.getElem?_eq_none (by omega), if_neg (by omega)]
    rfl

/-- What `ResponseTask` writes into a task. -/
def finish (tp : Task) : Task := { tp with status := .done }

/-- A report of a task that is set is taken, and does nothing if the task is done already. -/
theorem responseTask_spec {job : Job} {t : Task} (hnum : job.num ≠ 0) (ht : c.task job = some t) :
    ∃ c', c.responseTask job.completion = some c' ∧ Updates c c' job finish := by
  -- a second report changes nothing
  have hagain : t.status = .done → (c.task job).map finish = c.task job := by
    intro hdone
    rw [ht, Option.map_some, finish, ← hdone]
  cases job with
  | map x =>
    obtain ⟨tp, htp, rfl⟩ := Option.map_eq_some_iff.mp ht
    replace hnum : x ≠ 0 := hnum
    by_cases hdone : tp.status = .done
    · refine ⟨c, ?_, .refl (hagain hdone)⟩
      simp [responseTask, Job.completion, hnum, htp, hdone]
    · refine ⟨c.setMap x finish, ?_, setMap_updates c x finish⟩
      simp [responseTask, Job.completion, hnum, htp, hdone]
      rfl
  | reduce y =>
    obtain ⟨tp, htp, rfl⟩ := Option.map_eq_some_iff.mp ht
    replace hnum : y ≠ 0 := hnum
    by_cases hdone : tp.status = .done
    · refine ⟨c, ?_, .refl (hagain hdone)⟩
      simp [responseTask, Job.completion, hnum, htp, hdone]
    · refine ⟨c.setReduce y finish, ?_, setReduce_updates c y finish⟩
      simp [responseTask, Job.completion, hnum, htp, hdone]
      rfl

/-! ## What a worker is told -/

/-- The input files by the numbers of their tasks. -/
def files (c : Coordinator) : List (Option String) := c.mapTask.map (Option.map MapTask.filename)

theorem setMap_files (c : Coordinator) (x : Nat) (f : Task → Task) :
    (c.setMap x f).files = c.files := by
  refine List.ext_getElem? fun i ↦ ?_
  simp only [files, setMap, List.getElem?_map, List.getElem?_modify]
  by_cases hx : x = i
  · subst hx
    rcases c.mapTask[x]? with _ | _ | tp <;> simp
  · simp [hx]

theorem fetchMap_files {c₁ : Coordinator} {x : Nat} (h : c.fetchMap now = some (c₁, x)) :
    c₁.files = c.files := by
  obtain ⟨out, -, h⟩ := Option.bind_eq_some_iff.mp h
  match out with
  | .todo i =>
    obtain ⟨rfl, -⟩ := Prod.mk.inj (Option.some_inj.mp h)
    rfl
  | .expired i =>
    obtain ⟨rfl, -⟩ := Prod.mk.inj (Option.some_inj.mp h)
    exact setMap_files c i _
  | .exhausted left =>
    dsimp only at h
    split at h
    · obtain ⟨rfl, -⟩ := Prod.mk.inj (Option.some_inj.mp h)
      rfl
    · obtain ⟨rfl, -⟩ := Prod.mk.inj (Option.some_inj.mp h)
      rfl

theorem fetchReduce_files {c₁ : Coordinator} {y : Nat} (h : c.fetchReduce now = some (c₁, y)) :
    c₁.files = c.files := by
  obtain ⟨out, -, h⟩ := Option.bind_eq_some_iff.mp h
  match out with
  | .todo i =>
    obtain ⟨rfl, -⟩ := Prod.mk.inj (Option.some_inj.mp h)
    rfl
  | .expired i =>
    obtain ⟨rfl, -⟩ := Prod.mk.inj (Option.some_inj.mp h)
    rfl
  | .exhausted left =>
    dsimp only at h
    split at h
    · obtain ⟨rfl, -⟩ := Prod.mk.inj (Option.some_inj.mp h)
      rfl
    · obtain ⟨rfl, -⟩ := Prod.mk.inj (Option.some_inj.mp h)
      rfl

/-- `RequestTask` once it has found the tasks `x` and `y`. -/
def hand (c : Coordinator) (now x y : Nat) (tap : TaskAssignment) :
    Option (Coordinator × TaskAssignment) :=
  if c.phase = 2 then some (c, { tap with taskType := .exit })
  else if x > 0 then do
    let tp ← c.mapTask[x]?.join
    return (c.setMap x (assign now),
      { tap with taskType := .map, filename := tp.filename, lowerX := x })
  else if y > 0 then do
    let _ ← c.reduceTask[y]?.join
    return (c.setReduce y (assign now), { tap with taskType := .reduce, lowerY := y })
  else some (c, tap)

theorem requestTask_eq (c : Coordinator) (now : Nat) : c.requestTask now =
    (if c.phase = 0 then c.fetchMap now else some (c, 0)).bind fun p ↦
      (if p.1.phase = 1 then p.1.fetchReduce now else some (p.1, 0)).bind fun q ↦
        q.1.hand now p.2 q.2 { X := c.capX, Y := c.capY } := by
  -- the second request, for either outcome of the first
  have hsecond : ∀ p : Coordinator × Nat,
      (if p.1.phase = 1 then (p.1.fetchReduce now).bind fun q ↦
          q.1.hand now p.2 q.2 { X := c.capX, Y := c.capY }
        else (some (p.1, 0)).bind fun q ↦ q.1.hand now p.2 q.2 { X := c.capX, Y := c.capY }) =
      (if p.1.phase = 1 then p.1.fetchReduce now else some (p.1, 0)).bind fun q ↦
        q.1.hand now p.2 q.2 { X := c.capX, Y := c.capY } := by
    intro p
    split <;> rfl
  by_cases hphase : c.phase = 0
  · rw [if_pos hphase, ← funext hsecond, requestTask, if_pos hphase]
    rfl
  · rw [if_neg hphase, ← funext hsecond, requestTask, if_neg hphase]
    rfl

/-- **What a worker is told**: the numbers of tasks, and the file of its map task. -/
theorem requestTask_told {tap : TaskAssignment} (h : c.requestTask now = some (c', tap)) :
    c'.files = c.files ∧ tap.X = c.capX ∧ tap.Y = c.capY ∧
      (tap.taskType = .map → c.files[tap.lowerX]?.join = some tap.filename) := by
  rw [requestTask_eq] at h
  obtain ⟨⟨c₁, x⟩, h₁, h⟩ := Option.bind_eq_some_iff.mp h
  obtain ⟨⟨c₂, y⟩, h₂, h⟩ := Option.bind_eq_some_iff.mp h
  have hf₁ : c₁.files = c.files := by
    split at h₁
    · exact fetchMap_files h₁
    · rw [← (Prod.mk.inj (Option.some_inj.mp h₁)).1]
  have hf₂ : c₂.files = c.files := by
    rw [← hf₁]
    dsimp only at h₂
    split at h₂
    · exact fetchReduce_files h₂
    · rw [← (Prod.mk.inj (Option.some_inj.mp h₂)).1]
  dsimp only at h
  rw [hand] at h
  split at h
  · obtain ⟨rfl, rfl⟩ := Prod.mk.inj (Option.some_inj.mp h)
    exact ⟨hf₂, rfl, rfl, by simp⟩
  split at h
  · obtain ⟨tp, htp, h⟩ := Option.bind_eq_some_iff.mp h
    obtain ⟨rfl, rfl⟩ := Prod.mk.inj (Option.some_inj.mp h)
    refine ⟨(setMap_files c₂ x _).trans hf₂, rfl, rfl, fun _ ↦ ?_⟩
    rw [← hf₂, files, List.getElem?_map]
    cases hx : c₂.mapTask[x]? with
    | none => simp [hx] at htp
    | some tp' => simp_all
  split at h
  · obtain ⟨tp, htp, h⟩ := Option.bind_eq_some_iff.mp h
    obtain ⟨rfl, rfl⟩ := Prod.mk.inj (Option.some_inj.mp h)
    exact ⟨hf₂, rfl, rfl, by simp⟩
  · obtain ⟨rfl, rfl⟩ := Prod.mk.inj (Option.some_inj.mp h)
    exact ⟨hf₂, rfl, rfl, by simp⟩

theorem responseTask_files {tcp : TaskCompletion} (h : c.responseTask tcp = some c') :
    c'.files = c.files := by
  -- what follows the test of `lowerX`, if that does not write
  have hreduce : ∀ {o : Option Bool}, (o.bind fun reduceOpen ↦
      if reduceOpen = true then some (c.setReduce tcp.lowerY finish) else some c) = some c' →
      c'.files = c.files := by
    intro o h
    obtain ⟨reduceOpen, -, h⟩ := Option.bind_eq_some_iff.mp h
    split at h
    · rw [← Option.some_inj.mp h]
      rfl
    · rw [← Option.some_inj.mp h]
  simp only [responseTask, Option.bind_eq_bind, Option.pure_def] at h
  split at h
  · obtain ⟨mapOpen, -, h⟩ := Option.bind_eq_some_iff.mp h
    split at h
    · rw [← Option.some_inj.mp h]
      exact setMap_files c _ _
    · split at h
      · exact hreduce h
      · exact hreduce h
  · rw [Option.bind_some, if_neg (by simp)] at h
    split at h
    · exact hreduce h
    · exact hreduce h

end Coordinator

end DistLabs.MR
