import DistLabs.MapReduce.Phases
import DistLabs.MapReduce.Process

/-!
# Workers on a common directory

A coordinator, any number of workers, and the directory they share.  A worker may be as slow as it
likes, and may crash at any point; a call of `RequestTask` or `ResponseTask` may fail after or
before the coordinator has dealt with it.

A worker whose task has been assigned to somebody else since is not told, and goes on, so that two
workers may write one file.  `creator` records who has created a file last.  In a run all of whose
steps meet `KeepsTmp`, a worker does not go on with a temporary file that somebody else has created
again; `KeepsOut` is the like for output files.

The coordinator's part of a run is a run of `World`, so what is known of the coordinator holds here.
-/

set_option autoImplicit false

namespace DistLabs.MR

/-- The coordinator, the workers and their directory. -/
structure Site where
  /-- The coordinator, and what was assigned and reported. -/
  world : World
  /-- The directory. -/
  fs : FileSystem String
  /-- The workers. -/
  worker : Nat → Stage
  /-- The worker that has created the file with a name last. -/
  creator : String → Option Nat
  /-- What reducers got out of the intermediate files, oldest first. -/
  reads : List Read

namespace Site

/-- What can happen. -/
inductive Act
  /-- A worker calls `RequestTask`. -/
  | request (w : Nat)
  /-- A worker calls `RequestTask`, and the answer is lost. -/
  | requestLost
  /-- A worker does its next call to the operating system. -/
  | work (w : Nat) (choice : Choice)
  /-- A worker calls `ResponseTask`. -/
  | report (w : Nat)
  /-- A worker calls `ResponseTask`, and the call is lost. -/
  | reportLost (w : Nat)
  /-- A worker crashes. -/
  | crash (w : Nat)
  /-- Time passes. -/
  | wait (duration : Nat)

/-- A worker moves on. -/
def setStage (s : Site) (w : Nat) (st : Stage) : Site :=
  { s with worker := Function.update s.worker w st }

/-- The coordinator has answered a request. -/
def assign (s : Site) (c : Coordinator) (tap : TaskAssignment) : Site :=
  { s with world := { s.world with coord := c, assigned := s.world.assigned ++ tap.job.toList } }

/-- A worker has done a call to the operating system. -/
def moveOn (s : Site) (w : Nat) (fs : FileSystem String) (st : Stage) (reads : List Read) : Site :=
  { s.setStage w st with
    fs := fs
    creator := match (s.worker w).created st with
      | some name => Function.update s.creator name (some w)
      | none => s.creator
    reads := s.reads ++ reads }

section Machine

variable [Codec KeyValue] (J : Program)

/-- One action. -/
def step (s : Site) : Act → Option Site
  | .request w =>
    match s.worker w with
    | .idle => do
      let (c, tap) ← s.world.coord.requestTask s.world.now
      return (s.assign c tap).setStage w tap.begin
    | _ => none
  | .requestLost => do
    let (c, tap) ← s.world.coord.requestTask s.world.now
    return s.assign c tap
  | .work w choice => do
    let (fs, st, reads) ← advance J s.fs (s.worker w) choice
    return s.moveOn w fs st reads
  | .report w =>
    match s.worker w with
    | .reporting job => do
      let world ← s.world.step (.report job)
      return { s.setStage w .idle with world := world }
    | _ => none
  | .reportLost w =>
    match s.worker w with
    | .reporting _ => some (s.setStage w .idle)
    | _ => none
  | .crash w => some (s.setStage w .exited)
  | .wait duration =>
    some { s with world := { s.world with now := s.world.now + duration } }

/-- The program, started in a directory with anything in it. -/
def machine : Machine Site Act where
  init := ⟨(World.machine J.fnames J.nReduce).init, J.leftovers, fun _ ↦ .idle, fun _ ↦ none, []⟩
  step := step J

end Machine

/-- The worker that goes on with its task or reports it. -/
def Act.worker : Act → Option Nat
  | .work w _ | .report w => some w
  | .request _ | .requestLost | .reportLost _ | .crash _ | .wait _ => none

/-- No worker writes or renames a temporary file that somebody else has created again since. -/
def KeepsTmp (s : Site) (act : Act) : Prop :=
  ∀ w ∈ act.worker, ∀ name ∈ (s.worker w).tmp, s.creator name = some w

/-- No worker writes or reports an output file that somebody else has created again since, and none
creates the output file of a task that was reported. -/
def KeepsOut (s : Site) (act : Act) : Prop :=
  ∀ w ∈ act.worker, (∀ name ∈ (s.worker w).out, s.creator name = some w) ∧
    ∀ y ∈ (s.worker w).ready, .reduce y ∉ s.world.reported

instance (s : Site) (act : Act) : Decidable (s.KeepsTmp act) :=
  inferInstanceAs (Decidable (∀ _ ∈ _, ∀ _ ∈ _, _))

instance (s : Site) (act : Act) : Decidable (s.KeepsOut act) :=
  inferInstanceAs (Decidable (∀ _ ∈ _, _ ∧ _))

/-! ## Outcomes -/

variable [Codec KeyValue] {J : Program} {s s' : Site}

/-- The outcomes of an action. -/
inductive Does (J : Program) (s : Site) : Act → Site → Prop
  | request {w : Nat} {c : Coordinator} {tap : TaskAssignment} (hw : s.worker w = .idle)
      (h : s.world.coord.requestTask s.world.now = some (c, tap)) :
      Does J s (.request w) ((s.assign c tap).setStage w tap.begin)
  | requestLost {c : Coordinator} {tap : TaskAssignment}
      (h : s.world.coord.requestTask s.world.now = some (c, tap)) :
      Does J s .requestLost (s.assign c tap)
  | work {w : Nat} {choice : Choice} {fs : FileSystem String} {st : Stage} {reads : List Read}
      (h : Moves J s.fs (s.worker w) fs st reads) :
      Does J s (.work w choice) (s.moveOn w fs st reads)
  | report {w : Nat} {job : Job} {world : World} (hw : s.worker w = .reporting job)
      (h : s.world.step (.report job) = some world) :
      Does J s (.report w) { s.setStage w .idle with world := world }
  | reportLost {w : Nat} {job : Job} (hw : s.worker w = .reporting job) :
      Does J s (.reportLost w) (s.setStage w .idle)
  | crash {w : Nat} : Does J s (.crash w) (s.setStage w .exited)
  | wait {duration : Nat} : Does J s (.wait duration)
      { s with world := { s.world with now := s.world.now + duration } }

theorem Does.of_step {act : Act} (h : s.step J act = some s') : Does J s act s' := by
  cases act with
  | request w =>
    rw [step] at h
    split at h
    · next hw =>
      obtain ⟨⟨c, tap⟩, hreq, h⟩ := Option.bind_eq_some_iff.mp h
      obtain rfl := Option.some_inj.mp h
      exact .request hw hreq
    · simp at h
  | requestLost =>
    obtain ⟨⟨c, tap⟩, hreq, h⟩ := Option.bind_eq_some_iff.mp h
    obtain rfl := Option.some_inj.mp h
    exact .requestLost hreq
  | work w choice =>
    obtain ⟨⟨fs, st, reads⟩, hadv, h⟩ := Option.bind_eq_some_iff.mp h
    obtain rfl := Option.some_inj.mp h
    exact .work (.of_advance hadv)
  | report w =>
    rw [step] at h
    split at h
    · next hw =>
      obtain ⟨world, hrep, h⟩ := Option.bind_eq_some_iff.mp h
      obtain rfl := Option.some_inj.mp h
      exact .report hw hrep
    · simp at h
  | reportLost w =>
    rw [step] at h
    split at h
    · next hw =>
      obtain rfl := Option.some_inj.mp h
      exact .reportLost hw
    · simp at h
  | crash w =>
    obtain rfl := Option.some_inj.mp h
    exact .crash
  | wait duration =>
    obtain rfl := Option.some_inj.mp h
    exact .wait

/-! ## The coordinator's part -/

/-- An action leaves the coordinator alone or is one of `World`'s. -/
theorem Does.world {act : Act} (h : Does J s act s') :
    s'.world = s.world ∨ ∃ a, s.world.step a = some s'.world := by
  cases h with
  | request _ hreq | requestLost hreq =>
    refine Or.inr ⟨.request, ?_⟩
    simp [World.step, hreq, assign, setStage]
  | report _ hrep => exact Or.inr ⟨_, hrep⟩
  | wait => exact Or.inr ⟨.wait _, rfl⟩
  | work | reportLost | crash => exact Or.inl rfl

variable {P : Site → Act → Site → Prop}

/-- **The coordinator's part of a run is a run of `World`.** -/
theorem reach_world (h : (machine J).Reach P s) :
    (World.machine J.fnames J.nReduce).Reach (fun _ _ _ ↦ True) s.world := by
  refine h.project (f := Site.world) rfl fun s act s' hs _ ↦ ?_
  rcases (Does.of_step hs).world with hsame | ⟨a, ha⟩
  · exact Or.inl hsame
  · exact Or.inr ⟨a, ha, trivial⟩

/-! ## Tasks -/

omit [Codec KeyValue] in
theorem job_begin (tap : TaskAssignment) : tap.begin.job = tap.job := by
  rw [TaskAssignment.begin, TaskAssignment.job]
  cases tap.taskType <;> rfl

omit [Codec KeyValue] in
/-- A worker that has just got a task has created no file. -/
theorem tmp_begin (tap : TaskAssignment) : tap.begin.tmp = none := by
  rw [TaskAssignment.begin]
  split <;> rfl

omit [Codec KeyValue] in
theorem out_begin (tap : TaskAssignment) : tap.begin.out = none := by
  rw [TaskAssignment.begin]
  split <;> rfl

/-- What holds of the workers' tasks, however the workers interfere. -/
structure Tasks (J : Program) (s : Site) : Prop where
  /-- The coordinator knows the files. -/
  files : s.world.coord.files = none :: J.fnames.map some
  /-- The workers were told so. -/
  begun : ∀ w, (s.worker w).Begun J
  /-- Their tasks were assigned to them. -/
  assigned : ∀ w job, (s.worker w).job = some job → job ∈ s.world.assigned

omit [Codec KeyValue] in
/-- One worker moves on, and the others stay where they are. -/
theorem forall_setStage_of_ne {Q : Nat → Stage → Prop} {w : Nat} {st : Stage} (hw : Q w st)
    (h : ∀ w', w' ≠ w → Q w' (s.worker w')) (w' : Nat) : Q w' ((s.setStage w st).worker w') := by
  by_cases heq : w' = w
  · subst heq
    simpa [setStage] using hw
  · simpa [setStage, heq] using h w' heq

omit [Codec KeyValue] in
theorem forall_setStage {Q : Nat → Stage → Prop} {w : Nat} {st : Stage} (hw : Q w st)
    (h : ∀ w', Q w' (s.worker w')) : ∀ w', Q w' ((s.setStage w st).worker w') :=
  forall_setStage_of_ne hw fun w' _ ↦ h w'

omit [Codec KeyValue] in
/-- What a worker is told. -/
theorem Tasks.begin (h : Tasks J s)
    (hr : (World.machine J.fnames J.nReduce).Reach (fun _ _ _ ↦ True) s.world)
    {c : Coordinator} {tap : TaskAssignment}
    (hreq : s.world.coord.requestTask s.world.now = some (c, tap)) : tap.begin.Begun J := by
  obtain ⟨-, hX, hY, hfile⟩ := Coordinator.requestTask_told hreq
  obtain ⟨-, hcapX, hcapY⟩ := World.inv_of_reach hr
  rw [TaskAssignment.begin]
  split
  · trivial
  · trivial
  · next htype =>
    refine ⟨?_, hY.trans hcapY, Nat.le_refl 1⟩
    have hname := hfile htype
    rw [h.files] at hname
    cases hx : tap.lowerX with
    | zero => simp [hx] at hname
    | succ x =>
      rw [hx, List.getElem?_cons_succ, List.getElem?_map] at hname
      rw [Program.filename, Nat.add_sub_cancel, List.getD_eq_getElem?_getD]
      cases hn : J.fnames[x]? with
      | none => simp [hn] at hname
      | some name => simp_all
  · exact ⟨hX.trans hcapX, Nat.le_refl 1, by omega⟩

omit [Codec KeyValue] in
/-- `ResponseTask` does not touch what was assigned, and adds one report. -/
theorem report_spec {σ σ' : World} {job : Job} (h : σ.step (.report job) = some σ') :
    σ'.assigned = σ.assigned ∧ σ'.reported = σ.reported ++ [job] ∧
      σ'.coord.files = σ.coord.files := by
  rw [World.step] at h
  split at h
  · obtain ⟨c, hc, h⟩ := Option.bind_eq_some_iff.mp h
    obtain rfl := Option.some_inj.mp h
    exact ⟨rfl, rfl, Coordinator.responseTask_files hc⟩
  · simp at h

theorem Tasks.step {act : Act} (h : Tasks J s) (hd : Does J s act s')
    (hr : (World.machine J.fnames J.nReduce).Reach (fun _ _ _ ↦ True) s.world) : Tasks J s' := by
  cases hd with
  | @request w c tap hw hreq =>
    have hfiles := (Coordinator.requestTask_told hreq).1
    refine ⟨hfiles.trans h.files, forall_setStage (h.begin hr hreq) h.begun, ?_⟩
    refine forall_setStage
      (Q := fun _ st ↦ ∀ job, st.job = some job → job ∈ s.world.assigned ++ tap.job.toList)
      (fun job hjob ↦ ?_) fun w' job hjob ↦ List.mem_append_left _ (h.assigned w' job hjob)
    rw [job_begin] at hjob
    exact List.mem_append_right _ (by simp [hjob])
  | requestLost hreq =>
    have hfiles := (Coordinator.requestTask_told hreq).1
    exact ⟨hfiles.trans h.files, h.begun,
      fun w' job hjob ↦ List.mem_append_left _ (h.assigned w' job hjob)⟩
  | @work w choice fs st reads hm =>
    refine ⟨h.files, forall_setStage (hm.begun (h.begun w)) h.begun, ?_⟩
    refine forall_setStage (Q := fun _ st ↦ ∀ job, st.job = some job → job ∈ s.world.assigned)
      (fun job hjob ↦ ?_) h.assigned
    rcases hm.job with hsame | hnone
    · exact h.assigned w job (hsame ▸ hjob)
    · simp [hnone] at hjob
  | @report w job world hw hrep =>
    obtain ⟨hassigned, -, hfiles⟩ := report_spec hrep
    refine ⟨hfiles.trans h.files, forall_setStage trivial h.begun, ?_⟩
    refine forall_setStage (Q := fun _ st ↦ ∀ job, st.job = some job → job ∈ world.assigned)
      (fun job hjob ↦ by simp [Stage.job] at hjob) fun w' job hjob ↦ ?_
    exact hassigned ▸ h.assigned w' job hjob
  | @reportLost w | @crash w =>
    refine ⟨h.files, forall_setStage trivial h.begun, ?_⟩
    exact forall_setStage (Q := fun _ st ↦ ∀ job, st.job = some job → job ∈ s.world.assigned)
      (fun job hjob ↦ by simp [Stage.job] at hjob) h.assigned
  | wait => exact ⟨h.files, h.begun, h.assigned⟩

theorem tasks_of_reach (h : (machine J).Reach P s) : Tasks J s := by
  have hinit : Tasks J (machine J).init := by
    refine ⟨?_, fun _ ↦ trivial, fun w job hjob ↦ ?_⟩
    · simp [machine, World.machine, Coordinator.makeCoordinator, Coordinator.files]
    · simp [machine, Stage.job] at hjob
  exact h.invariant hinit fun s act s' hr hi hs _ ↦ hi.step (.of_step hs) (reach_world hr)

/-- The number of a worker's task. -/
theorem inRange_of_job (h : (machine J).Reach P s) {w : Nat} {job : Job}
    (hjob : (s.worker w).job = some job) : s.world.coord.InRange job := by
  have hinv := (World.inv_of_reach (reach_world h)).1
  obtain ⟨t, ht⟩ := hinv.ofAssigned job ((tasks_of_reach h).assigned w job hjob)
  exact (hinv.inRange job t ht).1

/-- A worker that reduces can count on all map tasks. -/
theorem reported_of_reduce (h : (machine J).Reach P s) {w y : Nat}
    (hjob : (s.worker w).job = some (.reduce y)) {x : Nat} (h1 : 1 ≤ x) (h2 : x ≤ J.fnames.length) :
    .map x ∈ s.world.reported := by
  obtain ⟨hinv, hX, -⟩ := World.inv_of_reach (reach_world h)
  obtain ⟨t, ht⟩ := hinv.ofAssigned _ ((tasks_of_reach h).assigned w _ hjob)
  exact World.reported_of_phase (reach_world h)
    (show s.world.coord.InRange (.map x) from ⟨h1, hX ▸ h2⟩)
    (Nat.lt_of_lt_of_le Nat.zero_lt_one (hinv.inRange _ t ht).2)

/-- What was reported is not assigned again. -/
theorem not_reported_of_request (h : (machine J).Reach P s) {c : Coordinator} {tap : TaskAssignment}
    {job : Job} (hreq : s.world.coord.requestTask s.world.now = some (c, tap))
    (hjob : tap.job = some job) : job ∉ s.world.reported := by
  intro hrep
  have hinv := (World.inv_of_reach (reach_world h)).1
  obtain ⟨c', tap', hreq', hans⟩ := hinv.request
  obtain ⟨rfl, rfl⟩ := Prod.mk.inj (Option.some_inj.mp (hreq.symm.trans hreq'))
  obtain ⟨t, ht⟩ := hinv.ofAssigned job (hinv.ofReported job hrep)
  exact hans.fresh job t hjob ht ((hinv.done_iff job t ht).mpr hrep)

/-! ## Files and their creators -/

omit [Codec KeyValue] in
theorem moveOn_creator (w : Nat) (fs : FileSystem String) (st : Stage) (reads : List Read)
    (name : String) : (s.moveOn w fs st reads).creator name =
      if (s.worker w).created st = some name then some w else s.creator name := by
  cases hcreated : (s.worker w).created st with
  | none => simp [moveOn, hcreated]
  | some name' =>
    by_cases heq : name' = name
    · simp [moveOn, hcreated, heq]
    · simp [moveOn, hcreated, heq, Function.update_of_ne (Ne.symm heq)]

/-- What is so of every worker, unless somebody else has created its file again. -/
def Owners (s : Site) (file : Stage → Option String) (Q : Stage → Prop) : Prop :=
  ∀ w, (∀ name ∈ file (s.worker w), s.creator name = some w) → Q (s.worker w)

namespace Owners

variable {file : Stage → Option String} {Q Q' : Stage → Prop} {w : Nat} {st : Stage}

omit [Codec KeyValue] in
theorem setStage (h : s.Owners file Q) (hst : Q st) : (s.setStage w st).Owners file Q :=
  forall_setStage (Q := fun w' st ↦ (∀ name ∈ file st, s.creator name = some w') → Q st)
    (fun _ ↦ hst) h

omit [Codec KeyValue] in
/-- A worker goes on.  Files that it creates are not those of the others any more. -/
theorem moveOn (h : s.Owners file Q) {fs : FileSystem String} {reads : List Read} (hst : Q' st)
    (hother : ∀ w' ≠ w, (∀ name ∈ file (s.worker w'), s.creator name = some w' ∧
      (s.worker w).created st ≠ some name) → Q (s.worker w') → Q' (s.worker w')) :
    (s.moveOn w fs st reads).Owners file Q' := by
  refine forall_setStage_of_ne (Q := fun w' st' ↦ (∀ name ∈ file st',
    (s.moveOn w fs st reads).creator name = some w') → Q' st') (fun _ ↦ hst) fun w' hne hmine ↦ ?_
  have hmine' : ∀ name ∈ file (s.worker w'), s.creator name = some w' ∧
      (s.worker w).created st ≠ some name := by
    intro name hname
    have hcreator := hmine name hname
    rw [moveOn_creator] at hcreator
    split at hcreator
    · exact absurd (Option.some_inj.mp hcreator).symm hne
    · next hcreated => exact ⟨hcreator, hcreated⟩
  exact hother w' hne hmine' (h w' fun name hname ↦ (hmine' name hname).1)

end Owners

end Site

end DistLabs.MR
