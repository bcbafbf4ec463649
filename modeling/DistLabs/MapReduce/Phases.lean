import DistLabs.MapReduce.Requests
import Mathlib.Order.Nat

/-!
# Map, then reduce, then done

`Inv` is what holds of the coordinator and of what its workers have been told and have said: a task
is done if and only if it was reported, and the tasks of an earlier phase are done.  A request
keeps it, whatever it is answered with (`Inv.request`), and so does a report (`Inv.response`).
Everything else is read off it (`coordinator_correct`).
-/

set_option autoImplicit false

namespace DistLabs.MR

namespace World

open Coordinator

/-! ## The invariant -/

/-- What holds of the coordinator and of what was assigned and reported. -/
structure Inv (σ : World) : Prop where
  /-- The slice of reduce tasks has its size. -/
  length : σ.coord.reduceTask.length = σ.coord.capY + 1
  /-- There are three phases. -/
  phase_le : σ.coord.phase ≤ 2
  /-- The tasks of this phase and of the earlier ones are set. -/
  isSet : ∀ job, σ.coord.InRange job → job.phase ≤ σ.coord.phase → ∃ t, σ.coord.task job = some t
  /-- No others are. -/
  inRange : ∀ job t, σ.coord.task job = some t → σ.coord.InRange job ∧ job.phase ≤ σ.coord.phase
  /-- The tasks of the earlier phases are done. -/
  finished : ∀ job t, σ.coord.task job = some t → job.phase < σ.coord.phase → t.status = .done
  /-- Only tasks that are set were assigned. -/
  ofAssigned : ∀ job ∈ σ.assigned, ∃ t, σ.coord.task job = some t
  /-- Only tasks that were assigned were reported. -/
  ofReported : ∀ job ∈ σ.reported, job ∈ σ.assigned
  /-- Somebody has a task only if it was assigned. -/
  ofDoing : ∀ job t, σ.coord.task job = some t → t.status = .doing → job ∈ σ.assigned
  /-- The tasks that are done are those that were reported. -/
  done_iff : ∀ job t, σ.coord.task job = some t → (t.status = .done ↔ job ∈ σ.reported)

variable {σ : World}

theorem Inv.of_init (fnames : List String) (nReduce now : Nat) :
    Inv ⟨makeCoordinator fnames nReduce, now, [], []⟩ := by
  have htask : ∀ job t, (makeCoordinator fnames nReduce).task job = some t →
      t = {} ∧ (makeCoordinator fnames nReduce).InRange job ∧ job.phase = 0 := by
    rintro ((_ | x) | y) t ht
    · simp [task, makeCoordinator] at ht
    · obtain ⟨tp, htp, rfl⟩ := Option.map_eq_some_iff.mp ht
      simp only [makeCoordinator, List.getElem?_cons_succ, List.getElem?_map,
        Option.join_eq_some_iff, Option.map_eq_some_iff, Option.some_inj] at htp
      obtain ⟨fname, hf, rfl⟩ := htp
      obtain ⟨hlt, -⟩ := List.getElem?_eq_some_iff.mp hf
      exact ⟨rfl, ⟨by omega, hlt⟩, rfl⟩
    · simp [task, makeCoordinator, List.getElem?_replicate] at ht
      split at ht <;> simp at ht
  exact {
    length := by simp [makeCoordinator]
    phase_le := by simp [makeCoordinator]
    isSet := by
      rintro ((_ | x) | y) hr hp
      · exact absurd hr.1 (by omega)
      · have hx : x < fnames.length := hr.2
        refine ⟨{}, ?_⟩
        simp [task, makeCoordinator, List.getElem?_eq_getElem hx]
      · exact absurd hp (by simp [Job.phase, makeCoordinator])
    inRange := fun job t ht ↦ ⟨(htask job t ht).2.1, Nat.le_of_eq (htask job t ht).2.2⟩
    finished := fun job t ht hlt ↦ absurd hlt (by simp [makeCoordinator])
    ofAssigned := fun job hjob ↦ absurd hjob (by simp)
    ofReported := fun job hjob ↦ absurd hjob (by simp)
    ofDoing := fun job t ht hdoing ↦ absurd hdoing (by simp [(htask job t ht).1])
    done_iff := fun job t ht ↦ by simp [(htask job t ht).1] }

/-- The invariant does not look at the clock. -/
theorem Inv.wait (h : Inv σ) (duration : Nat) : Inv { σ with now := σ.now + duration } :=
  ⟨h.length, h.phase_le, h.isSet, h.inRange, h.finished, h.ofAssigned, h.ofReported, h.ofDoing,
    h.done_iff⟩

/-- One task, which is set, is written to, and `assigned` and `reported` are kept up to date. -/
theorem Inv.updates (h : Inv σ) {c' : Coordinator} {job : Job} {f : Task → Task} {t : Task}
    {assigned reported : List Job} (ht : σ.coord.task job = some t)
    (hup : Updates σ.coord c' job f) (hover : job.phase < σ.coord.phase → (f t).status = .done)
    (hassigned : ∀ job', job' ≠ job → (job' ∈ assigned ↔ job' ∈ σ.assigned))
    (hdoing : (f t).status = .doing → job ∈ assigned)
    (hreported : ∀ job', job' ≠ job → (job' ∈ reported ↔ job' ∈ σ.reported))
    (hsub : job ∈ reported → job ∈ assigned)
    (hdone : (f t).status = .done ↔ job ∈ reported) :
    Inv { σ with coord := c', assigned := assigned, reported := reported } where
  length := by rw [hup.length, hup.capY, h.length]
  phase_le := hup.phase ▸ h.phase_le
  isSet job' hr hp := hup.isSet.mpr (h.isSet job' (hup.inRange.mp hr) (hup.phase ▸ hp))
  inRange job' t' ht' := by
    obtain ⟨t₀, ht₀⟩ := hup.isSet.mp ⟨t', ht'⟩
    have := h.inRange job' t₀ ht₀
    exact ⟨hup.inRange.mpr this.1, hup.phase ▸ this.2⟩
  finished job' t' ht' hlt := by
    rcases hup.task_cases ht ht' with ⟨rfl, rfl⟩ | ⟨hne, hold⟩
    · exact hover (hup.phase ▸ hlt)
    · exact h.finished job' t' hold (hup.phase ▸ hlt)
  ofAssigned job' hjob' := by
    refine hup.isSet.mpr ?_
    by_cases hj : job' = job
    · exact ⟨t, hj ▸ ht⟩
    · exact h.ofAssigned job' ((hassigned job' hj).mp hjob')
  ofReported job' hjob' := by
    by_cases hj : job' = job
    · exact hj ▸ hsub (hj ▸ hjob')
    · exact (hassigned job' hj).mpr (h.ofReported job' ((hreported job' hj).mp hjob'))
  ofDoing job' t' ht' hstat := by
    rcases hup.task_cases ht ht' with ⟨rfl, rfl⟩ | ⟨hne, hold⟩
    · exact hdoing hstat
    · exact (hassigned job' hne).mpr (h.ofDoing job' t' hold hstat)
  done_iff job' t' ht' := by
    rcases hup.task_cases ht ht' with ⟨rfl, rfl⟩ | ⟨hne, hold⟩
    · exact hdone
    · exact (h.done_iff job' t' hold).trans (hreported job' hne).symm

/-- A task that is not done is assigned. -/
theorem Inv.assign (h : Inv σ) {c' : Coordinator} {job : Job} {t : Task}
    (hphase : job.phase = σ.coord.phase) (ht : σ.coord.task job = some t) (hdone : t.status ≠ .done)
    (hup : Updates σ.coord c' job (Coordinator.assign σ.now)) :
    Inv { σ with coord := c', assigned := σ.assigned ++ [job] } := by
  have hunreported : job ∉ σ.reported := (h.done_iff job t ht).not.mp hdone
  refine h.updates ht hup (fun hlt ↦ absurd hlt (by omega)) (fun job' hne ↦ by simp [hne])
    (fun _ ↦ by simp) (fun job' hne ↦ Iff.rfl) (fun _ ↦ by simp) ?_
  simp [Coordinator.assign, hunreported]

/-- A task that was assigned is reported. -/
theorem Inv.report (h : Inv σ) {c' : Coordinator} {job : Job} {t : Task} (hjob : job ∈ σ.assigned)
    (ht : σ.coord.task job = some t) (hup : Updates σ.coord c' job finish) :
    Inv { σ with coord := c', reported := σ.reported ++ [job] } := by
  refine h.updates ht hup (fun _ ↦ rfl) (fun job' hne ↦ Iff.rfl) (fun _ ↦ hjob)
    (fun job' hne ↦ by simp [hne]) (fun _ ↦ hjob) ?_
  simp [finish]

/-- In the map phase no reduce task is set. -/
theorem Inv.reduce_unset (h : Inv σ) (hphase : σ.coord.phase = 0) {y : Nat} {t : Task}
    (ht : σ.coord.task (.reduce y) = some t) : False := by
  have := (h.inRange _ t ht).2
  simp [Job.phase, hphase] at this

/-- When the reduce phase begins, all its tasks are new. -/
theorem Inv.fillReduce_task (h : Inv σ) (hphase : σ.coord.phase = 0) {y : Nat} {t : Task}
    (ht : (fillReduce { σ.coord with phase := 1 }).task (.reduce y) = some t) :
    (1 ≤ y ∧ y ≤ σ.coord.capY) ∧ t = {} := by
  rw [task_fillReduce (c := { σ.coord with phase := 1 }) h.length] at ht
  split at ht
  · next hr => exact ⟨hr, (Option.some_inj.mp ht).symm⟩
  · exact (h.reduce_unset hphase ht).elim

/-- The map tasks are done, and the reduce tasks are set. -/
theorem Inv.enterReduce (h : Inv σ) (hphase : σ.coord.phase = 0)
    (hdone : ∀ x t, 1 ≤ x → x ≤ σ.coord.capX → σ.coord.task (.map x) = some t → t.status = .done) :
    Inv { σ with coord := fillReduce { σ.coord with phase := 1 } } := by
  -- no reduce task was set before, so none was assigned or reported
  have hunreported : ∀ y, .reduce y ∉ σ.reported := fun y hy ↦ by
    obtain ⟨t, ht⟩ := h.ofAssigned _ (h.ofReported _ hy)
    exact h.reduce_unset hphase ht
  exact {
    length := by simp [fillReduce, h.length]
    phase_le := by simp [fillReduce]
    isSet := by
      rintro (x | y) hr hp
      · exact h.isSet (.map x) hr (Nat.zero_le _)
      · exact ⟨{}, (task_fillReduce h.length y).trans (if_pos hr)⟩
    inRange := by
      rintro (x | y) t ht
      · exact ⟨(h.inRange (.map x) t ht).1, Nat.zero_le _⟩
      · exact ⟨(h.fillReduce_task hphase ht).1, Nat.le_refl 1⟩
    finished := by
      rintro (x | y) t ht hlt
      · have hr := (h.inRange (.map x) t ht).1
        exact hdone x t hr.1 hr.2 ht
      · exact absurd hlt (by simp [Job.phase, fillReduce])
    ofAssigned := by
      rintro (x | y) hjob
      · exact h.ofAssigned (.map x) hjob
      · obtain ⟨t, ht⟩ := h.ofAssigned _ hjob
        exact (h.reduce_unset hphase ht).elim
    ofReported := h.ofReported
    ofDoing := by
      rintro (x | y) t ht hstat
      · exact h.ofDoing (.map x) t ht hstat
      · simp [(h.fillReduce_task hphase ht).2] at hstat
    done_iff := by
      rintro (x | y) t ht
      · exact h.done_iff (.map x) t ht
      · simp [(h.fillReduce_task hphase ht).2, hunreported y] }

/-- The reduce tasks are done. -/
theorem Inv.enterDone (h : Inv σ) (hphase : σ.coord.phase = 1)
    (hdone : ∀ y t, 1 ≤ y → y ≤ σ.coord.capY → σ.coord.task (.reduce y) = some t →
      t.status = .done) :
    Inv { σ with coord := { σ.coord with phase := 2 } } where
  length := h.length
  phase_le := Nat.le_refl 2
  isSet job hr _ := h.isSet job hr (by cases job <;> simp [Job.phase, hphase])
  inRange job t ht := ⟨(h.inRange job t ht).1, by cases job <;> simp [Job.phase]⟩
  finished job t ht _ := by
    cases job with
    | map x => exact h.finished (.map x) t ht (by simp [Job.phase, hphase])
    | reduce y =>
      have hr := (h.inRange (.reduce y) t ht).1
      exact hdone y t hr.1 hr.2 ht
  ofAssigned := h.ofAssigned
  ofReported := h.ofReported
  ofDoing := h.ofDoing
  done_iff := h.done_iff

/-! ## Requests and runs -/

/-- What a request does and what it is answered with. -/
structure Answered (σ : World) (c' : Coordinator) (tap : TaskAssignment) : Prop where
  /-- The invariant is kept. -/
  inv : Inv { σ with coord := c', assigned := σ.assigned ++ tap.job.toList }
  /-- The numbers of tasks do not change. -/
  caps : c'.capX = σ.coord.capX ∧ c'.capY = σ.coord.capY
  /-- The phase does not go back. -/
  phase : σ.coord.phase ≤ c'.phase
  /-- A task that is done stays so. -/
  keeps : ∀ job t, σ.coord.task job = some t → t.status = .done → c'.task job = some t
  /-- A task that is done is not assigned. -/
  fresh : ∀ job t, tap.job = some job → σ.coord.task job = some t → t.status ≠ .done
  /-- A reduce task is assigned in the phase for it. -/
  reduce : tap.taskType = .reduce → c'.phase = 1
  /-- The worker is sent away when the job is done. -/
  exit : tap.taskType = .exit → c'.phase = 2
  /-- Nothing is assigned only if somebody has a task of the phase and no task can be assigned. -/
  none : tap.taskType = .none → c' = σ.coord ∧
    (∃ job t, job.phase = σ.coord.phase ∧ σ.coord.task job = some t ∧ t.status = .doing) ∧
      ∀ job t, job.phase = σ.coord.phase → σ.coord.task job = some t →
        ¬ t.Assignable job.limit σ.now

theorem Assignable.not_done {limit now : Nat} {t : Task} (h : t.Assignable limit now) :
    t.status ≠ .done := by
  rcases h with h | ⟨h, -⟩ <;> simp [h]

/-- A request that is answered from the tasks of the phase. -/
theorem Inv.answered (h : Inv σ) {c' : Coordinator} {tap : TaskAssignment}
    (hands : Hands σ.coord σ.now c' tap) : Answered σ c' tap := by
  cases hands with
  | @assign _ _ job t hjob hr hphase ht hopen hup =>
    have hnot := Assignable.not_done hopen
    exact {
      inv := by
        rw [hjob, Option.toList_some]
        exact h.assign hphase ht hnot hup
      caps := ⟨hup.capX, hup.capY⟩
      phase := Nat.le_of_eq hup.phase.symm
      keeps := fun job' t' ht' hdone ↦ by
        have hne : job' ≠ job := by
          rintro rfl
          exact hnot (Option.some_inj.mp (ht.symm.trans ht') ▸ hdone)
        rw [hup.task, if_neg hne, ht']
      fresh := fun job' t' hjob' ht' ↦ by
        obtain rfl := Option.some_inj.mp (hjob.symm.trans hjob')
        exact Option.some_inj.mp (ht.symm.trans ht') ▸ hnot
      reduce := fun htype ↦ by
        simp only [TaskAssignment.job, htype, Option.some_inj] at hjob
        rw [hup.phase, ← hphase, ← hjob]
        rfl
      exit := fun htype ↦ by simp [TaskAssignment.job, htype] at hjob
      none := fun htype ↦ by simp [TaskAssignment.job, htype] at hjob }
  | @none _ job t htype hr hphase ht hstat hno =>
    have hjob : tap.job = Option.none := by simp [TaskAssignment.job, htype]
    exact {
      inv := by simpa [hjob] using h
      caps := ⟨rfl, rfl⟩
      phase := Nat.le_refl _
      keeps := fun _ _ ht' _ ↦ ht'
      fresh := fun _ _ hjob' ↦ by simp [hjob] at hjob'
      reduce := fun htype' ↦ by simp [htype] at htype'
      exit := fun htype' ↦ by simp [htype] at htype'
      none := fun _ ↦ ⟨rfl, ⟨job, t, hphase, ht, hstat⟩,
        fun job' t' hp ht' ↦ hno job' t' hp (h.inRange job' t' ht').1 ht'⟩ }

/-- What is so after the change of phase is so for the whole request. -/
theorem Answered.of_enter {c₁ c' : Coordinator} {tap : TaskAssignment}
    (h : Answered { σ with coord := c₁ } c' tap) (hphase : σ.coord.phase ≤ c₁.phase)
    (hcaps : c₁.capX = σ.coord.capX ∧ c₁.capY = σ.coord.capY)
    (hkeeps : ∀ job t, σ.coord.task job = some t → c₁.task job = some t)
    (hnew : ∀ job t, job.phase = c₁.phase → c₁.task job = some t → t.status ≠ .doing) :
    Answered σ c' tap where
  inv := h.inv
  caps := ⟨h.caps.1.trans hcaps.1, h.caps.2.trans hcaps.2⟩
  phase := Nat.le_trans hphase h.phase
  keeps job t ht hdone := h.keeps job t (hkeeps job t ht) hdone
  fresh job t hjob ht := h.fresh job t hjob (hkeeps job t ht)
  reduce := h.reduce
  exit := h.exit
  none htype := by
    -- nobody can have a task of a phase that has just begun
    obtain ⟨-, ⟨job, t, hp, ht, hstat⟩, -⟩ := h.none htype
    exact absurd hstat (hnew job t hp ht)

/-- A request when the job is done. -/
theorem Inv.request_done (h : Inv σ) (hphase : σ.coord.phase = 2) :
    ∃ c' tap, σ.coord.requestTask σ.now = some (c', tap) ∧ Answered σ c' tap := by
  refine ⟨_, _, requestTask_done hphase, ?_⟩
  exact {
    inv := by simpa [TaskAssignment.job] using h
    caps := ⟨rfl, rfl⟩
    phase := Nat.le_refl _
    keeps := fun _ _ ht _ ↦ ht
    fresh := fun _ _ hjob ↦ by simp [TaskAssignment.job] at hjob
    reduce := fun htype ↦ by simp at htype
    exit := fun _ ↦ hphase
    none := fun htype ↦ by simp at htype }

/-- A request in the reduce phase, which may be its last one. -/
theorem Inv.request_reduce (h : Inv σ) (hphase : σ.coord.phase = 1) :
    ∃ c' tap, σ.coord.requestTask σ.now = some (c', tap) ∧ Answered σ c' tap := by
  have hset : ∀ y, 1 ≤ y → y ≤ σ.coord.capY → ∃ t, σ.coord.task (.reduce y) = some t :=
    fun y h1 h2 ↦ h.isSet (.reduce y) ⟨h1, h2⟩ (Nat.le_of_eq hphase.symm)
  rcases requestTask_reduce σ.now hphase hset with ⟨c', tap, hreq, hands⟩ | ⟨hall, hreq⟩
  · exact ⟨c', tap, hreq, h.answered hands⟩
  · obtain ⟨c', tap, hreq', hans⟩ := (h.enterDone hphase hall).request_done rfl
    refine ⟨c', tap, hreq.trans hreq', hans.of_enter (by simp [hphase]) ⟨rfl, rfl⟩
      (fun _ _ ht ↦ ht) ?_⟩
    rintro (x | y) t hp <;> simp [Job.phase] at hp

/-- A request in the map phase, which may be its last one. -/
theorem Inv.request_map (h : Inv σ) (hphase : σ.coord.phase = 0) :
    ∃ c' tap, σ.coord.requestTask σ.now = some (c', tap) ∧ Answered σ c' tap := by
  have hset : ∀ x, 1 ≤ x → x ≤ σ.coord.capX → ∃ t, σ.coord.task (.map x) = some t :=
    fun x h1 h2 ↦ h.isSet (.map x) ⟨h1, h2⟩ (Nat.zero_le _)
  rcases requestTask_map σ.now hphase hset with ⟨c', tap, hreq, hands⟩ | ⟨hall, hreq⟩
  · exact ⟨c', tap, hreq, h.answered hands⟩
  · obtain ⟨c', tap, hreq', hans⟩ := (h.enterReduce hphase hall).request_reduce rfl
    refine ⟨c', tap, hreq.trans hreq', hans.of_enter (by simp [hphase]) ⟨rfl, rfl⟩ ?_ ?_⟩
    · rintro (x | y) t ht
      · exact ht
      · exact (h.reduce_unset hphase ht).elim
    · rintro (x | y) t hp ht hstat
      · simp [Job.phase, fillReduce] at hp
      · simp [(h.fillReduce_task hphase ht).2] at hstat

/-- **Every request is answered**, and in one of the ways `Answered` allows. -/
theorem Inv.request (h : Inv σ) :
    ∃ c' tap, σ.coord.requestTask σ.now = some (c', tap) ∧ Answered σ c' tap := by
  have hcases : σ.coord.phase = 0 ∨ σ.coord.phase = 1 ∨ σ.coord.phase = 2 := by
    have := h.phase_le
    omega
  rcases hcases with hphase | hphase | hphase
  · exact h.request_map hphase
  · exact h.request_reduce hphase
  · exact h.request_done hphase

/-- A report of a task that was assigned is taken. -/
theorem Inv.response (h : Inv σ) {job : Job} (hjob : job ∈ σ.assigned) :
    ∃ c', σ.coord.responseTask job.completion = some c' ∧ Updates σ.coord c' job finish ∧
      Inv { σ with coord := c', reported := σ.reported ++ [job] } := by
  obtain ⟨t, ht⟩ := h.ofAssigned job hjob
  have hnum : job.num ≠ 0 := by
    have hr := (h.inRange job t ht).1
    cases job <;> exact Nat.pos_iff_ne_zero.mp hr.1
  obtain ⟨c', hresp, hup⟩ := responseTask_spec hnum ht
  exact ⟨c', hresp, hup, h.report hjob ht hup⟩

/-- One action keeps the invariant, the numbers of tasks, the order of the phases and what is
done. -/
theorem Inv.step (h : Inv σ) {a : Action} {σ' : World} (hs : σ.step a = some σ') :
    Inv σ' ∧ (σ'.coord.capX = σ.coord.capX ∧ σ'.coord.capY = σ.coord.capY) ∧
      σ.coord.phase ≤ σ'.coord.phase ∧
      ∀ job t, σ.coord.task job = some t → t.status = .done → σ'.coord.task job = some t := by
  cases a with
  | request =>
    obtain ⟨c', tap, hreq, hans⟩ := h.request
    simp only [World.step, hreq, Option.bind_eq_bind, Option.bind_some, Option.pure_def,
      Option.some_inj] at hs
    subst hs
    exact ⟨hans.inv, hans.caps, hans.phase, hans.keeps⟩
  | report job =>
    simp only [World.step] at hs
    split at hs
    · next hjob =>
      obtain ⟨c', hresp, hup, hinv⟩ := h.response hjob
      simp only [hresp, Option.bind_eq_bind, Option.bind_some, Option.pure_def,
        Option.some_inj] at hs
      subst hs
      refine ⟨hinv, ⟨hup.capX, hup.capY⟩, Nat.le_of_eq hup.phase.symm, fun job' t ht hdone ↦ ?_⟩
      rw [hup.task]
      split
      · next heq =>
        subst heq
        rw [ht, Option.map_some, finish, ← hdone]
      · exact ht
    · simp at hs
  | wait duration =>
    simp only [World.step, Option.some_inj] at hs
    subst hs
    exact ⟨h.wait duration, ⟨rfl, rfl⟩, Nat.le_refl _, fun _ _ ht _ ↦ ht⟩

variable {fnames : List String} {nReduce : Nat}

/-- The invariant holds in every run, and the numbers of tasks are those of the start. -/
theorem inv_of_reach (h : (machine fnames nReduce).Reach (fun _ _ _ ↦ True) σ) :
    Inv σ ∧ σ.coord.capX = fnames.length ∧ σ.coord.capY = nReduce := by
  refine h.invariant (I := fun σ ↦ Inv σ ∧ σ.coord.capX = fnames.length ∧ σ.coord.capY = nReduce)
    ⟨Inv.of_init fnames nReduce 0, rfl, rfl⟩ fun σ a σ' _ hinv hs _ ↦ ?_
  obtain ⟨hinv', hcaps, -, -⟩ := hinv.1.step hs
  exact ⟨hinv', hcaps.1.trans hinv.2.1, hcaps.2.trans hinv.2.2⟩

/-- What is done stays done, for the rest of a run. -/
theorem done_of_leads {σ' : World} (h : (machine fnames nReduce).Reach (fun _ _ _ ↦ True) σ)
    (hl : (machine fnames nReduce).Leads σ σ') {job : Job} {t : Task}
    (ht : σ.coord.task job = some t) (hdone : t.status = .done) : σ'.coord.task job = some t := by
  have hmono := Machine.Leads.monotone (f := fun σ : World ↦ σ.coord.task job = some t)
    (fun σ a σ' hr hs ht ↦ ((inv_of_reach hr).1.step hs).2.2.2 job t ht hdone) hl h
  exact hmono ht

/-- A task of an earlier phase was reported. -/
theorem reported_of_phase (h : (machine fnames nReduce).Reach (fun _ _ _ ↦ True) σ) {job : Job}
    (hr : σ.coord.InRange job) (hlt : job.phase < σ.coord.phase) : job ∈ σ.reported := by
  have hinv := (inv_of_reach h).1
  obtain ⟨t, ht⟩ := hinv.isSet job hr (Nat.le_of_lt hlt)
  exact (hinv.done_iff job t ht).mp (hinv.finished job t ht hlt)

/-- Every task was reported. -/
def AllReported (fnames : List String) (nReduce : Nat) (σ : World) : Prop :=
  (∀ x, 1 ≤ x → x ≤ fnames.length → .map x ∈ σ.reported) ∧
    ∀ y, 1 ≤ y → y ≤ nReduce → .reduce y ∈ σ.reported

theorem allReported_of_phase (h : (machine fnames nReduce).Reach (fun _ _ _ ↦ True) σ)
    (hphase : σ.coord.phase = 2) : AllReported fnames nReduce σ := by
  obtain ⟨-, hX, hY⟩ := inv_of_reach h
  refine ⟨fun x h1 h2 ↦ ?_, fun y h1 h2 ↦ ?_⟩
  · exact reported_of_phase h ⟨h1, hX ▸ h2⟩ (by simp [Job.phase, hphase])
  · exact reported_of_phase h ⟨h1, hY ▸ h2⟩ (by simp [Job.phase, hphase])

/-- **The coordinator's state machine.**  Whatever workers ask for, report and let expire: phases go
forward only; a task that is done stays done and is not assigned again; every request is answered, a
reduce task is assigned only after all map tasks were reported, a worker is sent away only after all
tasks were, and one is made to wait only while another one has a task of the phase, in time and not
reported, and no task can be assigned; `Done` is true only when all tasks were reported; and no
report follows a `nil` pointer. -/
theorem coordinator_correct (h : (machine fnames nReduce).Reach (fun _ _ _ ↦ True) σ) :
    (∀ σ', (machine fnames nReduce).Leads σ σ' →
      σ.coord.phase ≤ σ'.coord.phase ∧
      ∀ job t, σ.coord.task job = some t → t.status = .done →
        (∃ t', σ'.coord.task job = some t' ∧ t'.status = .done) ∧
        ∀ c' tap, σ'.coord.requestTask σ'.now = some (c', tap) → tap.job ≠ some job) ∧
    (∃ c' tap, σ.coord.requestTask σ.now = some (c', tap) ∧
      (tap.taskType = .reduce → ∀ x, 1 ≤ x → x ≤ fnames.length → .map x ∈ σ.reported) ∧
      (tap.taskType = .exit → AllReported fnames nReduce σ) ∧
      (tap.taskType = .none →
        (∃ job t, job.phase = σ.coord.phase ∧ σ.coord.task job = some t ∧ job ∈ σ.assigned ∧
          σ.now - t.assignedAt ≤ job.limit ∧ job ∉ σ.reported) ∧
        ∀ job t, job.phase = σ.coord.phase → σ.coord.task job = some t →
          ¬ t.Assignable job.limit σ.now)) ∧
    (σ.coord.done = true → AllReported fnames nReduce σ) ∧
    ∀ job ∈ σ.assigned, (σ.coord.responseTask job.completion).isSome := by
  have hinv := (inv_of_reach h).1
  refine ⟨fun σ' hl ↦ ⟨?_, fun job t ht hdone ↦ ⟨⟨t, done_of_leads h hl ht hdone, hdone⟩, ?_⟩⟩,
    ?_, fun hdone ↦ ?_, fun job hjob ↦ ?_⟩
  · exact hl.monotone (f := fun σ ↦ σ.coord.phase)
      (fun σ a σ' hr hs ↦ ((inv_of_reach hr).1.step hs).2.2.1) h
  · intro c' tap hreq hjob
    obtain ⟨c'', tap', hreq', hans⟩ := (inv_of_reach (hl.reach h)).1.request
    obtain ⟨rfl, rfl⟩ := Prod.mk.inj (Option.some_inj.mp (hreq.symm.trans hreq'))
    exact hans.fresh job t hjob (done_of_leads h hl ht hdone) hdone
  · obtain ⟨c', tap, hreq, hans⟩ := hinv.request
    -- the state after the request
    have h' : (machine fnames nReduce).Reach (fun _ _ _ ↦ True)
        { σ with coord := c', assigned := σ.assigned ++ tap.job.toList } := by
      refine h.step (a := .request) ?_ trivial
      simp [machine, World.step, hreq]
    obtain ⟨-, hX, -⟩ := inv_of_reach h'
    refine ⟨c', tap, hreq, fun htype x h1 h2 ↦ ?_, fun htype ↦ ?_, fun htype ↦ ?_⟩
    · exact reported_of_phase h' (show InRange c' (.map x) from ⟨h1, hX ▸ h2⟩)
        (by simp [Job.phase, hans.reduce htype])
    · obtain ⟨hmap, hreduce⟩ := allReported_of_phase h' (hans.exit htype)
      exact ⟨hmap, hreduce⟩
    · obtain ⟨-, ⟨job, t, hp, ht, hstat⟩, hno⟩ := hans.none htype
      refine ⟨⟨job, t, hp, ht, hinv.ofDoing job t ht hstat, ?_, ?_⟩, hno⟩
      · exact Nat.le_of_not_lt fun hlong ↦ hno job t hp ht (Or.inr ⟨hstat, hlong⟩)
      · exact (hinv.done_iff job t ht).not.mp (by simp [hstat])
  · exact allReported_of_phase h (of_decide_eq_true hdone)
  · obtain ⟨c', hresp, -⟩ := hinv.response hjob
    simp [hresp]

/-- A map task that expires and is reported by both workers, then the reduce task. -/
def lateReport : List Action :=
  [.request, .wait (16 * second), .request, .report (.map 1), .request, .report (.map 1),
    .report (.reduce 1), .request]

theorem coordinator_correct_lateReport :
    ∃ σ, (machine ["in"] 1).Reach (fun _ _ _ ↦ True) σ ∧ σ.coord.done = true ∧
      .map 1 ∈ σ.reported ∧ .reduce 1 ∈ σ.reported := by
  obtain ⟨σ, hr, hdone⟩ := Machine.exists_reach_of_exec (Q := fun σ : World ↦ σ.coord.done = true)
    (M := machine ["in"] 1) (P := fun _ _ _ ↦ True) lateReport (by decide +kernel)
  obtain ⟨-, -, hall, -⟩ := coordinator_correct hr
  obtain ⟨hmap, hreduce⟩ := hall hdone
  exact ⟨σ, hr, hdone, hmap 1 (by decide) (by decide), hreduce 1 (by decide) (by decide)⟩

end World

end DistLabs.MR
