import DistLabs.Lib.Lists
import DistLabs.Lib.Simulations
import DistLabs.MapReduce.Output
import DistLabs.MapReduce.Solo

/-!
# A job never gets stuck

Workers may crash with a task in their hands, lose their answers and be given up by the coordinator.
Whatever has happened, one worker that is idle can finish the job by itself: it waits until every
task that others have has timed out, and then does the tasks that nobody has reported, one after
another (`Site.job_finishes`).

That is for runs in which nobody goes on with a file that somebody else has created again since.
Without that a reducer may find an intermediate file that is cut off, and fail on it for ever
(`Site.unreadable_blocks`).  It is also for jobs with reduce tasks: without any, every worker that
has a `KeyValue` to put somewhere panics (`Site.not_done_of_nReduce_eq_zero`).
-/

set_option autoImplicit false

namespace DistLabs.MR

/-- All tasks. -/
def Program.jobs (J : Program) : List Job :=
  (List.range' 1 J.fnames.length).map .map ++ (List.range' 1 J.nReduce).map .reduce

namespace Coordinator

/-- There is a time at which all tasks had been assigned. -/
theorem exists_assignedAt_le (c : Coordinator) :
    ∃ B, ∀ job t, c.task job = some t → t.assignedAt ≤ B := by
  obtain ⟨B, hB⟩ := c.mapTask.exists_bound fun tp ↦ (tp.map (·.assignedAt)).getD 0
  obtain ⟨B', hB'⟩ := c.reduceTask.exists_bound fun tp ↦ (tp.map (·.assignedAt)).getD 0
  refine ⟨max B B', ?_⟩
  rintro (x | y) t ht
  · obtain ⟨tp, htp, rfl⟩ := Option.map_eq_some_iff.mp ht
    have := hB _ (List.mem_of_getElem? (Option.join_eq_some_iff.mp htp))
    exact this.trans (Nat.le_max_left _ _)
  · obtain ⟨tp, htp, rfl⟩ := Option.map_eq_some_iff.mp ht
    have := hB' _ (List.mem_of_getElem? (Option.join_eq_some_iff.mp htp))
    exact this.trans (Nat.le_max_right _ _)

end Coordinator

namespace Site

/-- The steps of one worker, and the passage of time. -/
def Act.By (w : Nat) : Act → Prop
  | .request w' => w' = w
  | .work w' _ => w' = w
  | .report w' => w' = w
  | .wait _ => True
  | _ => False

/-- Nobody goes on with a file that somebody else has created again since, and only `w` does
anything. -/
def Solo (w : Nat) (s : Site) (act : Act) (_ : Site) : Prop :=
  (s.KeepsTmp act ∧ s.KeepsOut act) ∧ act.By w

/-- Nobody else has created the files of worker `w` again. -/
def Mine (s : Site) (w : Nat) : Prop :=
  (∀ name ∈ (s.worker w).tmp, s.creator name = some w) ∧
    ∀ name ∈ (s.worker w).out, s.creator name = some w

variable {J : Program} {s : Site} {w : Nat}

/-- An action that is about no file. -/
theorem solo_of_none {act : Act} {s' : Site} (hnone : act.worker = none) (hby : act.By w) :
    Solo w s act s' := by
  refine ⟨⟨fun w' hw' ↦ ?_, fun w' hw' ↦ ?_⟩, hby⟩ <;> simp [hnone] at hw'

/-- An action of a worker whose files are its own and whose task was not reported. -/
theorem solo_of_mine {act : Act} {s' : Site} (hact : act.worker = some w) (hby : act.By w)
    (hmine : s.Mine w) (hnew : ∀ y, (s.worker w).ready = some y → .reduce y ∉ s.world.reported) :
    Solo w s act s' := by
  refine ⟨⟨fun w' hw' ↦ ?_, fun w' hw' ↦ ?_⟩, hby⟩
  · obtain rfl := Option.some_inj.mp (hact.symm.trans hw')
    exact hmine.1
  · obtain rfl := Option.some_inj.mp (hact.symm.trans hw')
    exact ⟨hmine.2, hnew⟩

theorem job_of_ready {st : Stage} {y : Nat} (h : st.ready = some y) :
    st.job = some (.reduce y) := by
  cases st with
  | gathering y' X x mp =>
    simp only [Stage.ready, Option.ite_none_right_eq_some, Option.some_inj] at h
    rw [← h.2]
    rfl
  | _ => simp [Stage.ready] at h

section Runs

variable [Codec KeyValue]

/-- A worker has created the files it goes on with. -/
theorem Mine.moveOn {fs : FileSystem String} {st : Stage} {reads : List Read} (h : s.Mine w)
    (hm : Moves J s.fs (s.worker w) fs st reads) : (s.moveOn w fs st reads).Mine w := by
  have hworker : (s.moveOn w fs st reads).worker w = st := by simp [Site.moveOn, setStage]
  have hcreator {name : String} (hname : (s.worker w).created st = some name ∨
      s.creator name = some w) : (s.moveOn w fs st reads).creator name = some w := by
    rw [moveOn_creator]
    split
    · rfl
    · next hnot => exact hname.resolve_left hnot
  rw [Mine, hworker]
  exact ⟨fun name hname ↦ hcreator ((hm.tmp hname).imp_right (h.1 name)),
    fun name hname ↦ hcreator ((hm.out hname).imp_right (h.2 name))⟩

/-- **A task that is done alone is done here too**, by a worker whose files are its own. -/
theorem reach_of_alone {st st' : Stage} {fs' : FileSystem String} (hw : s.worker w = st)
    (hmine : s.Mine w) (hnew : ∀ y, st.job = some (.reduce y) → .reduce y ∉ s.world.reported)
    (h : (alone J s.fs st).Reach (fun _ _ _ ↦ True) (fs', st')) :
    ∃ s', ((machine J).startingAt s).Reach (Solo w) s' ∧ s'.world = s.world ∧ s'.worker w = st' ∧
      s'.Mine w := by
  suffices hgen : ∀ p, (alone J s.fs st).Reach (fun _ _ _ ↦ True) p →
      (p.2.job = st.job ∨ p.2.job = none) ∧ ∃ s', ((machine J).startingAt s).Reach (Solo w) s' ∧
        s'.world = s.world ∧ s'.fs = p.1 ∧ s'.worker w = p.2 ∧ s'.Mine w by
    obtain ⟨-, s', hr, hworld, -, hw', hmine'⟩ := hgen _ h
    exact ⟨s', hr, hworld, hw', hmine'⟩
  intro p hp
  induction hp with
  | init => exact ⟨Or.inl rfl, s, .init, rfl, rfl, hw, hmine⟩
  | @step p q choice _ hstep _ ih =>
    obtain ⟨hjob, s₁, hr, hworld, hfs, hw₁, hmine₁⟩ := ih
    obtain ⟨⟨fs₂, st₂, reads⟩, hadv, rfl⟩ := Option.map_eq_some_iff.mp hstep
    rw [← hfs, ← hw₁] at hadv
    refine ⟨?_, s₁.moveOn w fs₂ st₂ reads, ?_, hworld, rfl, by simp [Site.moveOn, setStage],
      hmine₁.moveOn (.of_advance hadv)⟩
    · rcases (Moves.of_advance hadv).job with hsame | hnone
      · rwa [hsame, hw₁]
      · exact Or.inr hnone
    · refine hr.step (a := .work w choice) ?_ (solo_of_mine rfl rfl hmine₁ fun y hy ↦ ?_)
      · simp [machine, Machine.startingAt, step, hadv]
      · have hreduce := job_of_ready hy
        rw [hw₁] at hreduce
        rw [hworld]
        rcases hjob with hjob | hjob
        · exact hnew y (hjob ▸ hreduce)
        · simp [hjob] at hreduce

/-! ## One task after another -/

/-- The tasks that nobody has reported. -/
def unreported (J : Program) (s : Site) : List Job := J.jobs.filter (· ∉ s.world.reported)

omit [Codec KeyValue] in
theorem unreported_lt {s' : Site} {job : Job} (hjob : job ∈ J.jobs)
    (hnew : job ∉ s.world.reported) (hrep : s'.world.reported = s.world.reported ++ [job]) :
    (s'.unreported J).length < (s.unreported J).length := by
  have hfilter : s'.unreported J = (s.unreported J).filter (· ≠ job) := by
    rw [unreported, unreported, List.filter_filter]
    refine List.filter_congr fun job' _ ↦ ?_
    simp only [hrep, List.mem_append, List.mem_singleton, not_or, ne_eq]
    by_cases h : job' ∈ s.world.reported <;> by_cases h' : job' = job <;> simp [h, h']
  rw [hfilter, List.length_filter_lt_length_iff_exists]
  exact ⟨job, by simp [unreported, hjob, hnew], by simp⟩

/-- The run so far, and what one worker does then. -/
abbrev Kept (J : Program) (s : Site) : Prop :=
  (machine J).Reach (fun s act _ ↦ s.KeepsTmp act ∧ s.KeepsOut act) s

theorem Kept.append {s' : Site} (h : Kept J s)
    (h' : ((machine J).startingAt s).Reach (Solo w) s') : Kept J s' :=
  Machine.Reach.append h (h'.mono fun _ _ _ hp ↦ hp.1)

/-- The task of a worker is one of the tasks. -/
theorem mem_jobs (h : Kept J s) {job : Job} (hjob : (s.worker w).job = some job) :
    job ∈ J.jobs := by
  have hr := inRange_of_job h hjob
  obtain ⟨-, hX, hY⟩ := World.inv_of_reach (reach_world h)
  cases job with
  | map x =>
    obtain ⟨h1, h2⟩ := hr
    simp only [Program.jobs, List.mem_append, List.mem_map, List.mem_range'_1]
    exact Or.inl ⟨x, by omega, rfl⟩
  | reduce y =>
    obtain ⟨h1, h2⟩ := hr
    simp only [Program.jobs, List.mem_append, List.mem_map, List.mem_range'_1]
    exact Or.inr ⟨y, by omega, rfl⟩

/-- **A worker that has just got a task can do it.** -/
theorem exists_done_alone (hY : 1 ≤ J.nReduce) (h : Kept J s) {tap : TaskAssignment} {job : Job}
    (hw : s.worker w = tap.begin) (hjob : tap.job = some job) :
    ∃ fs', (alone J s.fs tap.begin).Reach (fun _ _ _ ↦ True) (fs', .reporting job) := by
  have hjob' : (s.worker w).job = some job := by rw [hw, job_begin, hjob]
  have hbegun := (tasks_of_reach h).begun w
  rw [hw] at hbegun
  rw [TaskAssignment.begin] at hbegun ⊢
  rw [TaskAssignment.job] at hjob
  cases htype : tap.taskType with
  | none => simp [htype] at hjob
  | exit => simp [htype] at hjob
  | map =>
    simp only [htype, Option.some_inj] at hjob hbegun
    exact hjob ▸ exists_mapper_alone (hbegun.2.1 ▸ hY) s.fs 1
  | reduce =>
    simp only [htype, Option.some_inj] at hjob hbegun
    obtain rfl := hjob
    obtain ⟨hX, -, -⟩ := hbegun
    have hrange : 1 ≤ tap.lowerY ∧ tap.lowerY ≤ s.world.coord.capY := inRange_of_job h hjob'
    obtain ⟨-, -, hcapY⟩ := World.inv_of_reach (reach_world h)
    -- all map tasks were reported, so their files are there
    have hfiles (x : Nat) (h1 : 1 ≤ x) (h2 : x ≤ tap.X) :
        s.fs.contents (intermediateName x tap.lowerY) =
          some ((J.part x tap.lowerY).flatMap Codec.write) :=
      (MapInv.of_reach (fun _ _ _ hp ↦ hp.1) h).reported x
        (reported_of_reduce h hjob' h1 (hX ▸ h2)) _ hrange.1 (hcapY ▸ hrange.2)
    obtain ⟨fs', hfs', -⟩ := exists_reducer_alone (J := J)
      (reducer_eq (fun _ ↦ RangeOrder.of (List.Perm.refl [])) J.reducef hfiles)
    exact ⟨fs', hfs'⟩

/-- A worker that is done with a task reports it. -/
theorem exists_reported (h : Kept J s) {job : Job} (hw : s.worker w = .reporting job)
    (hmine : s.Mine w) :
    ∃ s', ((machine J).startingAt s).Reach (Solo w) s' ∧ s'.worker w = .idle ∧
      s'.world.reported = s.world.reported ++ [job] := by
  have hjob : (s.worker w).job = some job := by rw [hw]; rfl
  have hassigned := (tasks_of_reach h).assigned w job hjob
  obtain ⟨c, hresp, -⟩ := (World.inv_of_reach (reach_world h)).1.response hassigned
  refine ⟨{ s.setStage w .idle with
      world := { s.world with coord := c, reported := s.world.reported ++ [job] } },
    .single (a := .report w) ?_ (solo_of_mine rfl rfl hmine fun y hy ↦ ?_), by simp [setStage],
    rfl⟩
  · simp [machine, step, hw, World.step, hassigned, hresp]
  · simp [hw, Stage.ready] at hy

/-- **One more task**: an idle worker gets one, does it and reports it, or the job is done. -/
theorem exists_progress (hY : 1 ≤ J.nReduce) (h : Kept J s) (hw : s.worker w = .idle) :
    ∃ s', ((machine J).startingAt s).Reach (Solo w) s' ∧ (s'.world.coord.done = true ∨
      s'.worker w = .idle ∧ (s'.unreported J).length < (s.unreported J).length) := by
  -- all tasks that others have time out
  obtain ⟨B, hB⟩ := s.world.coord.exists_assignedAt_le
  set s₁ : Site := { s with world := { s.world with now := s.world.now + (15 * second + 1 + B) } }
    with hs₁
  have hwait : ((machine J).startingAt s).Reach (Solo w) s₁ :=
    .single (a := .wait _) rfl (solo_of_none rfl trivial)
  have h₁ : Kept J s₁ := h.append hwait
  obtain ⟨c, tap, hreq, hans⟩ := (World.inv_of_reach (reach_world h₁)).1.request
  set s₂ : Site := (s₁.assign c tap).setStage w tap.begin with hs₂
  have hrequest : ((machine J).startingAt s₁).Reach (Solo w) s₂ := by
    refine .single (a := .request w) ?_ (solo_of_none rfl rfl)
    have hw₁ : s₁.worker w = .idle := hw
    simp [machine, step, hw₁, hreq, hs₂]
  have h₂ : Kept J s₂ := h₁.append hrequest
  cases hjob : tap.job with
  | none =>
    refine ⟨s₂, hwait.append hrequest, Or.inl ?_⟩
    cases htype : tap.taskType with
    | map => simp [TaskAssignment.job, htype] at hjob
    | reduce => simp [TaskAssignment.job, htype] at hjob
    | exit => exact decide_eq_true (hans.exit htype)
    | none =>
      -- somebody has a task, but for too long
      obtain ⟨-, ⟨job, t, hphase, ht, hdoing⟩, hno⟩ := hans.none htype
      refine absurd (Or.inr ⟨hdoing, ?_⟩) (hno job t hphase ht)
      have hle := hB job t ht
      cases job <;> simp only [Job.limit, hs₁, second] <;> omega
  | some job =>
    have hw₂ : s₂.worker w = tap.begin := by simp [hs₂, setStage]
    have hnew : job ∉ s₂.world.reported := not_reported_of_request h₁ hreq hjob
    have hmine : s₂.Mine w := by
      rw [Mine, hw₂, tmp_begin, out_begin]
      exact ⟨fun _ hname ↦ by simp at hname, fun _ hname ↦ by simp at hname⟩
    obtain ⟨fs', halone⟩ := exists_done_alone hY h₂ hw₂ hjob
    obtain ⟨s₃, hwork, hworld, hw₃, hmine₃⟩ := reach_of_alone hw₂ hmine (fun y hy ↦ by
      rw [job_begin, hjob, Option.some_inj] at hy
      exact hy ▸ hnew) halone
    obtain ⟨s', hreport, hidle, hreported⟩ := exists_reported (h₂.append hwork) hw₃ hmine₃
    rw [hworld] at hreported
    refine ⟨s', (hwait.append hrequest).append (hwork.append hreport), Or.inr ⟨hidle, ?_⟩⟩
    exact unreported_lt (mem_jobs h₂ (by rw [hw₂, job_begin, hjob])) hnew hreported

/-- **A job never gets stuck**, if there is a reduce task.  Whatever workers have crashed, been slow
or lost their answers, if nobody goes on with a file that somebody else has created again since, or
creates the output of a task that was reported, then a worker that is idle can finish the job by
itself, and then all output files are there, with one line for each key. -/
theorem job_finishes (hY : 1 ≤ J.nReduce)
    (h : (machine J).Reach (fun s act _ ↦ s.KeepsTmp act ∧ s.KeepsOut act) s)
    (hw : s.worker w = .idle) :
    ∃ s', ((machine J).startingAt s).Reach (Solo w) s' ∧ s'.world.coord.done = true ∧
      ∀ y, 1 ≤ y → y ≤ J.nReduce → Printed J s'.fs y := by
  suffices hgen : ∀ k, ∀ s : Site, Kept J s → s.worker w = .idle →
      (s.unreported J).length = k →
      ∃ s', ((machine J).startingAt s).Reach (Solo w) s' ∧ s'.world.coord.done = true by
    obtain ⟨s', hs', hdone⟩ := hgen _ s h hw rfl
    exact ⟨s', hs', hdone, fun y h1 h2 ↦ printed_of_keeps (Kept.append h hs') hdone h1 h2⟩
  intro k
  induction k using Nat.strong_induction_on with
  | _ k ih =>
    intro s h hw hk
    obtain ⟨s₁, hs₁, hdone | ⟨hidle, hlt⟩⟩ := exists_progress hY h hw
    · exact ⟨s₁, hs₁, hdone⟩
    · obtain ⟨s', hs', hdone⟩ := ih _ (hk ▸ hlt) s₁ (h.append hs₁) hidle rfl
      exact ⟨s', hs₁.append hs', hdone⟩

/-! ## What blocks a job for good -/

/-- A worker that does not get past the file of map task `x` for reduce task `y`, and that has no
map task. -/
def Held (x y : Nat) (fs : FileSystem String) : Stage → Prop
  | .mapping _ _ _ _ | .encoding _ _ _ _ _ _ _ => False
  | .gathering y' _ x' _ => y' = y → x' ≤ x
  | .reading y' _ x' _ file buf => y' = y → x' ≤ x ∧
    (x' = x → fs.dir (intermediateName x y) = some file ∧ buf <+: fs.data file)
  | .printing y' file _ _ => y' ≠ y ∧ fs.dir (outName (y' - 1)) = some file
  | .reporting job => (∀ x', job ≠ .map x') ∧ job ≠ .reduce y
  | .idle | .exited => True

/-- The file of map task `x` for reduce task `y` cannot be read, and nobody will write it again. -/
structure Blocked (x y : Nat) (s : Site) : Prop where
  /-- The map tasks are over. -/
  phase : s.world.coord.phase = 1
  /-- The reduce task is not. -/
  unfinished : .reduce y ∉ s.world.reported
  /-- The file is missing, or the decoder returns an error. -/
  unreadable : ∀ bytes, s.fs.contents (intermediateName x y) = some bytes →
    decodeAll bytes.length bytes = none
  /-- No worker is past it. -/
  held : ∀ w, Held x y s.fs (s.worker w)

/-- A request in the reduce phase is answered with a reduce task or with none. -/
theorem Blocked.request {x y : Nat} (h : Blocked x y s) {σ : World} (hσ : σ = s.world)
    (hi : σ.Inv) (hy : σ.coord.InRange (.reduce y)) {c : Coordinator} {tap : TaskAssignment}
    (hreq : σ.coord.requestTask σ.now = some (c, tap)) :
    c.phase = 1 ∧ ∀ x', tap.job ≠ some (.map x') := by
  subst hσ
  rcases Coordinator.requestTask_reduce s.world.now h.phase
    (fun y h1 h2 ↦ hi.isSet (.reduce y) ⟨h1, h2⟩ (Nat.le_of_eq h.phase.symm)) with
    ⟨c', tap', hreq', hands⟩ | ⟨hall, -⟩
  · obtain ⟨rfl, rfl⟩ := Prod.mk.inj (Option.some_inj.mp (hreq.symm.trans hreq'))
    cases hands with
    | assign hjob _ hphase _ _ hup =>
      refine ⟨hup.phase.trans h.phase, fun x' hx' ↦ ?_⟩
      obtain rfl := Option.some_inj.mp (hjob.symm.trans hx')
      simp [Job.phase, h.phase] at hphase
    | none htype => exact ⟨h.phase, fun x' hx' ↦ by simp [TaskAssignment.job, htype] at hx'⟩
  · -- not all reduce tasks are done
    obtain ⟨t, ht⟩ := hi.isSet (.reduce y) hy (Nat.le_of_eq h.phase.symm)
    exact absurd ((hi.done_iff _ t ht).mp (hall y t hy.1 hy.2 ht)) h.unfinished

omit [Codec KeyValue] in
theorem held_begin {x y : Nat} {fs : FileSystem String} {tap : TaskAssignment} (hx : 1 ≤ x)
    (hno : ∀ x', tap.job ≠ some (.map x')) : Held x y fs tap.begin := by
  rw [TaskAssignment.begin]
  rw [TaskAssignment.job] at hno
  cases htype : tap.taskType with
  | none => trivial
  | exit => trivial
  | map => simp [htype] at hno
  | reduce => exact fun _ ↦ hx

/-- A worker that is held does not touch intermediate files, and is held by its next step too. -/
theorem Held.moves {x y : Nat} {fs fs' : FileSystem String} {st st' : Stage} {reads : List Read}
    (hx : x ≤ J.fnames.length) (hb : st.Begun J)
    (hbad : ∀ bytes, fs.contents (intermediateName x y) = some bytes →
      decodeAll bytes.length bytes = none)
    (h : Held x y fs st) (hm : Moves J fs st fs' st' reads) :
    fs.Frame fs' (fun name ↦ ∃ k, name = outName k) ∧ Held x y fs' st' := by
  cases hm with
  | panicked => exact h.elim
  | create => exact h.elim
  | mapped => exact h.elim
  | encode => exact h.elim
  | rename => exact h.elim
  | renameFailed => exact h.elim
  | openFile hle hd =>
    refine ⟨.refl _, fun hy ↦ ⟨h hy, ?_⟩⟩
    rintro rfl
    exact ⟨hy ▸ hd, List.nil_prefix⟩
  | openFailed => exact ⟨.refl _, trivial⟩
  | fill =>
    refine ⟨.refl _, fun hy ↦ ⟨(h hy).1, fun hxx ↦ ?_⟩⟩
    obtain ⟨hd, hbuf⟩ := (h hy).2 hxx
    exact ⟨hd, hbuf.append_take_drop _⟩
  | decode hend hdec =>
    refine ⟨.refl _, fun hy ↦ ?_⟩
    obtain ⟨hle, hfile⟩ := h hy
    rcases Nat.lt_or_eq_of_le hle with hlt | heq
    · exact hlt
    · -- the file that cannot be read
      obtain ⟨hd, hpre⟩ := hfile heq
      have hnone := hbad _ (FileSystem.contents_of_dir hd)
      rw [← hpre.eq_of_length_le hend, hdec] at hnone
      simp at hnone
  | decodeFailed => exact ⟨.refl _, trivial⟩
  | @createOut y' X x' mp entries hlt =>
    refine ⟨(FileSystem.Frame.create fs _).mono fun _ hn ↦ ⟨_, hn⟩, ?_,
      FileSystem.create_dir_self fs _⟩
    rintro rfl
    have := h rfl
    have := hb.1
    omega
  | print =>
    exact ⟨(FileSystem.Frame.writeAt h.2 _ _).mono fun _ hn ↦ ⟨_, hn⟩, h⟩
  | reduced =>
    refine ⟨.refl _, by simp, ?_⟩
    simpa using h.1

omit [Codec KeyValue] in
/-- What the others do does not help. -/
theorem Held.frame {x y : Nat} {fs fs' : FileSystem String} {st : Stage} (h : Held x y fs st)
    (hf : fs.Frame fs' (fun name ↦ ∃ k, name = outName k))
    (hout : ∀ k i, fs.dir (outName k) = some i → fs'.dir (outName k) = some i) :
    Held x y fs' st := by
  cases st with
  | mapping | encoding => exact h
  | gathering => exact h
  | reporting => exact h
  | idle | exited => trivial
  | printing y' file => exact ⟨h.1, hout _ _ h.2⟩
  | reading y' X x' mp file buf =>
    intro hy
    refine ⟨(h hy).1, fun hxx ↦ ?_⟩
    obtain ⟨hd, hpre⟩ := (h hy).2 hxx
    have hne : ¬ ∃ k, intermediateName x y = outName k :=
      fun ⟨k, hk⟩ ↦ intermediateName_ne_outName x y k hk
    have hd' := (hf.dir_eq _ hne).trans hd
    have hcont := hf.contents hne
    rw [FileSystem.contents_of_dir hd, FileSystem.contents_of_dir hd', Option.some_inj] at hcont
    exact ⟨hd', hcont ▸ hpre⟩

/-- **Nothing that happens later helps.** -/
theorem Blocked.step {x y : Nat} {s' : Site} {act : Act} (hx1 : 1 ≤ x) (hx : x ≤ J.fnames.length)
    (hy1 : 1 ≤ y) (hy : y ≤ J.nReduce) (h : Blocked x y s)
    (hr : (machine J).Reach (fun _ _ _ ↦ True) s) (hd : Does J s act s') : Blocked x y s' := by
  obtain ⟨hi, -, hY⟩ := World.inv_of_reach (reach_world hr)
  have hrange : s.world.coord.InRange (.reduce y) := ⟨hy1, hY ▸ hy⟩
  cases hd with
  | @request w c tap hw hreq =>
    obtain ⟨hphase, hno⟩ := h.request rfl hi hrange hreq
    exact ⟨hphase, h.unfinished, h.unreadable,
      forall_setStage (s := s.assign c tap) (held_begin hx1 hno) h.held⟩
  | requestLost hreq => exact ⟨(h.request rfl hi hrange hreq).1, h.unfinished, h.unreadable, h.held⟩
  | @work w choice fs st reads hm =>
    obtain ⟨hframe, hheld⟩ :=
      Held.moves hx ((tasks_of_reach hr).begun w) h.unreadable (h.held w) hm
    have hne : ¬ ∃ k, intermediateName x y = outName k :=
      fun ⟨k, hk⟩ ↦ intermediateName_ne_outName x y k hk
    refine ⟨h.phase, h.unfinished, fun bytes hb ↦ ?_, forall_setStage hheld fun w' ↦ ?_⟩
    · exact h.unreadable bytes ((hframe.contents hne).symm.trans hb)
    · exact (h.held w').frame hframe fun k i hk ↦ hm.dir_outName_stays hk
  | @report w job world hw hrep =>
    have hheld := h.held w
    rw [hw] at hheld
    have hjob := (tasks_of_reach hr).assigned w job (by rw [hw]; rfl)
    obtain ⟨c, hresp, hup, -⟩ := hi.response hjob
    obtain rfl : { s.world with coord := c, reported := s.world.reported ++ [job] } = world := by
      simpa [World.step, hjob, hresp] using hrep
    refine ⟨hup.phase.trans h.phase, ?_, h.unreadable, forall_setStage trivial h.held⟩
    simp only [List.mem_append, List.mem_singleton, not_or]
    exact ⟨h.unfinished, fun heq ↦ hheld.2 heq.symm⟩
  | reportLost => exact ⟨h.phase, h.unfinished, h.unreadable, forall_setStage trivial h.held⟩
  | crash => exact ⟨h.phase, h.unfinished, h.unreadable, forall_setStage trivial h.held⟩
  | wait => exact ⟨h.phase, h.unfinished, h.unreadable, h.held⟩

/-- The output file of a worker that prints. -/
def OwnsOut (fs : FileSystem String) : Stage → Prop
  | .printing y file _ _ => fs.dir (outName (y - 1)) = some file
  | _ => True

/-- A worker that prints does so to the file with the name of its output, in every run. -/
theorem ownsOut_of_reach {P : Site → Act → Site → Prop} (h : (machine J).Reach P s) :
    ∀ w, OwnsOut s.fs (s.worker w) := by
  have hinit : ∀ w, OwnsOut (machine J).init.fs ((machine J).init.worker w) := fun _ ↦ trivial
  refine h.invariant (I := fun s : Site ↦ ∀ w, OwnsOut s.fs (s.worker w)) hinit
    fun s act s' _ hi hs _ ↦ ?_
  cases Does.of_step hs with
  | @request w c tap hw hreq =>
    refine forall_setStage (s := s.assign c tap) ?_ hi
    rw [TaskAssignment.begin]
    split <;> trivial
  | requestLost => exact hi
  | @work w choice fs st reads hm =>
    refine forall_setStage (Q := fun _ st ↦ OwnsOut fs st) ?_ fun w' ↦ ?_
    · have hw := hi w
      generalize s.worker w = st₀ at hm hw
      cases hm with
      | createOut => exact FileSystem.create_dir_self s.fs _
      | print => exact hw
      | _ => trivial
    · have hw' := hi w'
      cases hst : s.worker w' with
      | printing y file =>
        rw [hst] at hw'
        exact hm.dir_outName_stays hw'
      | _ => trivial
  | report | reportLost | crash => exact forall_setStage trivial hi
  | wait => exact hi

/-- **An intermediate file that cannot be read blocks the job for good.**  If the map phase is over,
nobody has a map task any more, a file that a reduce task needs is missing or ends in the middle of
a `KeyValue`, and the reduce task was not reported and nobody has it, then the reduce task is never
reported, and `Done` is never true: the coordinator does not run a map task again that was reported.
-/
theorem unreadable_blocks (h : (machine J).Reach (fun _ _ _ ↦ True) s)
    (hphase : s.world.coord.phase = 1) {x y : Nat} (hx1 : 1 ≤ x) (hx : x ≤ J.fnames.length)
    (hy1 : 1 ≤ y) (hy : y ≤ J.nReduce)
    (hbad : ∀ bytes, s.fs.contents (intermediateName x y) = some bytes →
      decodeAll bytes.length bytes = none)
    (hmap : ∀ w x', (s.worker w).job ≠ some (.map x'))
    (hreduce : .reduce y ∉ s.world.reported ∧ ∀ w, (s.worker w).job ≠ some (.reduce y)) :
    ∀ s', ((machine J).startingAt s).Reach (fun _ _ _ ↦ True) s' →
      .reduce y ∉ s'.world.reported ∧ s'.world.coord.done = false := by
  have hheld (w : Nat) : Held x y s.fs (s.worker w) := by
    have hm := hmap w
    have hr := hreduce.2 w
    have ho := ownsOut_of_reach h w
    cases hst : s.worker w with
    | mapping filename x' | encoding filename x' =>
      rw [hst] at hm
      exact hm x' rfl
    | gathering y' | reading y' =>
      rw [hst] at hr
      exact fun heq ↦ absurd (congrArg (some ∘ Job.reduce) heq) hr
    | printing y' =>
      rw [hst] at hr ho
      exact ⟨fun heq ↦ hr (congrArg (some ∘ Job.reduce) heq), ho⟩
    | reporting job =>
      rw [hst] at hm hr
      exact ⟨fun x' heq ↦ hm x' (congrArg some heq), fun heq ↦ hr (congrArg some heq)⟩
    | idle | exited => trivial
  intro s' hs'
  have hblocked := hs'.invariant (I := fun s ↦ Blocked x y s) ⟨hphase, hreduce.1, hbad, hheld⟩
    fun t act t' ht hi hs _ ↦ hi.step hx1 hx hy1 hy (h.append ht) (.of_step hs)
  exact ⟨hblocked.unfinished, by simp [Coordinator.done, hblocked.phase]⟩

/-! ## A job without reduce tasks -/

/-- A worker that has map task `x` is at its beginning. -/
def Starting (x : Nat) (st : Stage) : Prop :=
  st.job = some (.map x) → ∃ filename Y y, st = .mapping filename x Y y

omit [Codec KeyValue] in
theorem starting_begin (x : Nat) (tap : TaskAssignment) : Starting x tap.begin := by
  rw [TaskAssignment.begin]
  split <;> simp [Starting, Stage.job]

/-- A worker that divides by zero is gone. -/
theorem Starting.moves {x : Nat} {fs fs' : FileSystem String} {st st' : Stage} {reads : List Read}
    (hY : J.nReduce = 0) (hne : J.mapf (J.filename x) (J.input (J.filename x)) ≠ [])
    (h : Starting x st) (hb : st.Begun J) (hm : Moves J fs st fs' st' reads) : Starting x st' := by
  intro hjob
  rcases hm.job with hsame | hnone
  · obtain ⟨filename, Y, y, rfl⟩ := h (hsame ▸ hjob)
    obtain ⟨rfl, rfl, -⟩ := hb
    have hpanic : buckets J.nReduce (J.mapf (J.filename x) (J.input (J.filename x))) = none :=
      hY ▸ buckets_zero hne
    cases hm with
    | panicked => simp [Stage.job] at hjob
    | create _ hmp => simp [hpanic] at hmp
    | mapped _ hmp => simp [hpanic] at hmp
  · simp [hnone] at hjob

/-- Map task `x` has not been reported and is not going to be. -/
structure Unmapped (x : Nat) (s : Site) : Prop where
  /-- It was not reported. -/
  unfinished : .map x ∉ s.world.reported
  /-- Nobody is on the way to report it. -/
  starting : ∀ w, Starting x (s.worker w)

theorem Unmapped.step {x : Nat} {s' : Site} {act : Act} (hY : J.nReduce = 0)
    (hne : J.mapf (J.filename x) (J.input (J.filename x)) ≠ []) (h : Unmapped x s)
    (htasks : Tasks J s) (hd : Does J s act s') : Unmapped x s' := by
  cases hd with
  | @request w c tap =>
    exact ⟨h.unfinished, forall_setStage (s := s.assign c tap) (starting_begin x tap) h.starting⟩
  | requestLost => exact ⟨h.unfinished, h.starting⟩
  | @work w choice fs st reads hm =>
    exact ⟨h.unfinished,
      forall_setStage ((h.starting w).moves hY hne (htasks.begun w) hm) h.starting⟩
  | @report w job world hw hrep =>
    obtain ⟨-, hreported, -⟩ := report_spec hrep
    refine ⟨?_, forall_setStage (by simp [Starting, Stage.job]) h.starting⟩
    rw [hreported, List.mem_append, List.mem_singleton, not_or]
    refine ⟨h.unfinished, ?_⟩
    rintro rfl
    obtain ⟨filename, Y, y, hst⟩ := h.starting w (by rw [hw]; rfl)
    simp [hw] at hst
  | reportLost | crash =>
    exact ⟨h.unfinished, forall_setStage (by simp [Starting, Stage.job]) h.starting⟩
  | wait => exact ⟨h.unfinished, h.starting⟩

/-- **Without reduce tasks a job is never done**, if `mapf` makes anything of one of its files:
whoever gets the map task panics. -/
theorem not_done_of_nReduce_eq_zero {P : Site → Act → Site → Prop} (h : (machine J).Reach P s)
    (hY : J.nReduce = 0) {x : Nat} (h1 : 1 ≤ x) (h2 : x ≤ J.fnames.length)
    (hne : J.mapf (J.filename x) (J.input (J.filename x)) ≠ []) : s.world.coord.done = false := by
  have hinit : Unmapped x (machine J).init := by
    refine ⟨by simp [machine, World.machine], fun w hjob ↦ ?_⟩
    simp [machine, Stage.job] at hjob
  have hinv := h.invariant hinit fun s act s' hr hi hs _ ↦
    hi.step hY hne (tasks_of_reach hr) (.of_step hs)
  refine Bool.eq_false_iff.mpr fun hdone ↦ hinv.unfinished ?_
  exact (World.allReported_of_phase (reach_world h) (of_decide_eq_true hdone)).1 x h1 h2

end Runs

/-! ## Two runs -/

/-- Whether a worker is idle. -/
def isIdle : Stage → Bool
  | .idle => true
  | _ => false

/-- One worker crashes in the middle of the reduce task, and another one finishes the job. -/
theorem job_finishes_crashedReducer : ∃ s s' : Site,
    (machine twoWords).Reach (fun s act _ ↦ s.KeepsTmp act ∧ s.KeepsOut act) s ∧
      s.worker 1 = .idle ∧ ((machine twoWords).startingAt s).Reach (Solo 1) s' ∧
      s'.world.coord.done = true ∧ Printed twoWords s'.fs 1 := by
  obtain ⟨s, hs, hidle⟩ := Machine.exists_reach_of_exec (M := machine twoWords)
    (P := fun s act _ ↦ s.KeepsTmp act ∧ s.KeepsOut act)
    (Q := fun s ↦ isIdle (s.worker 1) = true) (crashedReducer.take 14) (by decide +kernel)
  have hw : s.worker 1 = .idle := by
    cases hst : s.worker 1 <;> simp [hst, isIdle] at hidle ⊢
  obtain ⟨s', hs', hdone, hprinted⟩ := job_finishes (by decide) hs hw
  exact ⟨s, s', hs, hw, hs', hdone, hprinted 1 (by decide) (by decide)⟩

/-- The worker that does something. -/
def Act.actor : Act → Option Nat
  | .request w | .work w _ | .report w | .reportLost w | .crash w => some w
  | .requestLost | .wait _ => none

/-- Workers that do nothing are idle. -/
theorem idle_of_reach {J : Program} {n : Nat} {s : Site}
    (h : (machine J).Reach (fun _ act _ ↦ ∀ w ∈ act.actor, w < n) s) {w : Nat} (hw : n ≤ w) :
    s.worker w = .idle := by
  refine h.invariant (I := fun s : Site ↦ s.worker w = .idle) rfl fun s act s' _ hi hs hp ↦ ?_
  have hother {w' : Nat} (hact : act.actor = some w') (st : Stage) :
      Function.update s.worker w' st w = .idle := by
    have := hp w' hact
    rw [Function.update_of_ne (by omega)]
    exact hi
  cases Does.of_step hs with
  | request => exact hother rfl _
  | requestLost => exact hi
  | work => exact hother rfl _
  | report => exact hother rfl _
  | reportLost => exact hother rfl _
  | crash => exact hother rfl _
  | wait => exact hi

/-- Like `twoWords`, with one of the words empty. -/
def emptyWord : Program := { twoWords with mapf := fun _ _ ↦ [⟨"", "1"⟩, ⟨"b", "1"⟩] }

/-- The first worker has written the first word when the second one creates the file again.  It
writes the second word where it would belong, with a hole before it, renames the file and reports.
The second worker crashes, and so does the one that gets the reduce task. -/
def hole : List Act :=
  [.request 0, .work 0 .go, .work 0 .go, .wait (16 * second), .request 1, .work 1 .go, .work 0 .go,
    .work 0 .go, .work 0 .go, .report 0, .crash 1, .request 2, .crash 2]

/-- **The job hangs**, although there are as many idle workers as one likes. -/
theorem unreadable_blocks_hole : ∃ s, (machine emptyWord).Reach (fun _ _ _ ↦ True) s ∧
    .map 1 ∈ s.world.reported ∧
    ∀ s', ((machine emptyWord).startingAt s).Reach (fun _ _ _ ↦ True) s' →
      s'.world.coord.done = false := by
  have hrun : ∃ s, (machine emptyWord).Reach (fun _ act _ ↦ ∀ w ∈ act.actor, w < 3) s ∧
      .map 1 ∈ s.world.reported ∧ s.world.coord.phase = 1 ∧ .reduce 1 ∉ s.world.reported ∧
      (s.fs.contents (intermediateName 1 1)).map (fun bytes ↦ decodeAll bytes.length bytes) =
        some none ∧
      ∀ w < 3, (s.worker w).job = none :=
    Machine.exists_reach_of_exec hole (by decide +kernel)
  obtain ⟨s, hs, hrep, hphase, hopen, hbad, hjobs⟩ := hrun
  have hreach := hs.mono fun _ _ _ _ ↦ trivial
  have hnone (w : Nat) : (s.worker w).job = none := by
    rcases Nat.lt_or_ge w 3 with hlt | hge
    · exact hjobs w hlt
    · rw [idle_of_reach hs hge]
      rfl
  have hfile (bytes : Bytes) (hb : s.fs.contents (intermediateName 1 1) = some bytes) :
      decodeAll bytes.length bytes = none := by
    simpa [hb] using hbad
  refine ⟨s, hreach, hrep, fun s' hs' ↦ (unreadable_blocks hreach hphase (Nat.le_refl 1)
    (Nat.le_refl 1) (Nat.le_refl 1) (Nat.le_refl 1) hfile (fun w x' ↦ by simp [hnone])
    ⟨hopen, fun w ↦ by simp [hnone]⟩ s' hs').2⟩

end Site

end DistLabs.MR
