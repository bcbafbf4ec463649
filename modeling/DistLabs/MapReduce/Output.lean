import DistLabs.MapReduce.Intermediate

/-!
# What is left in the end

A reduce task that has timed out may be running twice, and both workers write `mr-out-k` under its
final name.  The coordinator takes the first report; a worker that is still on its way then creates
the file again, and whoever looks at it after `Done` may find it empty or half written.

In a run in which no worker goes on with an output file that somebody else has created again since,
or creates the output file of a task that was reported (`Site.KeepsOut`), and in which reducers have
read complete intermediate files, the output files are what they should be when the job is done, and
stay so (`OutInv`).  Workers with map tasks may do what they like: none of the files they write is
an output file.

If nobody goes on with a temporary file that somebody else has created again either, reducers do
read what they should; then the program writes what the sequential program writes
(`Site.done_perm_mrsequential`).
-/

set_option autoImplicit false

namespace DistLabs.MR

section Invariant

variable [Codec KeyValue] {J : Program} {fs fs' : FileSystem String} {st st' : Stage}
  {reads : List Read}

/-! ## Output files -/

/-- One line for each key of a partition, with what `reducef` makes of its values, in any order. -/
def Program.IsOutput (J : Program) (y : Nat) (bytes : Bytes) : Prop :=
  ∃ keys : List String, keys.Nodup ∧
    (∀ key, key ∈ keys ↔ key ∈ (J.partition y).map KeyValue.key) ∧
    bytes = text (keys.map fun key ↦ (key, J.reducef key
      (Grouping.valuesOf KeyValue.key KeyValue.value (J.partition y) key)))

/-- The output file of a reduce task is as it should be. -/
def Printed (J : Program) (fs : FileSystem String) (y : Nat) : Prop :=
  ∃ bytes, fs.contents (outName (y - 1)) = some bytes ∧ J.IsOutput y bytes

/-- What is printed for some entries of the map. -/
def Program.printed (J : Program) (entries : List (String × List String)) : Bytes :=
  text (entries.map fun p ↦ (p.1, J.reducef p.1 p.2))

omit [Codec KeyValue] in
theorem printed_concat (entries : List (String × List String)) (p : String × List String) :
    J.printed (entries ++ [p]) = J.printed entries ++ line p.1 (J.reducef p.1 p.2) := by
  simp [Program.printed, text]

omit [Codec KeyValue] in
/-- All entries of the map, in any order, are the output. -/
theorem isOutput_printed {y : Nat} {entries : List (String × List String)}
    (h : entries.Perm (Grouping.pairs
      (Grouping.collect KeyValue.key KeyValue.value (J.partition y)))) :
    J.IsOutput y (J.printed entries) := by
  have hgroup := Grouping.isGrouping_collect KeyValue.key KeyValue.value (J.partition y)
  refine ⟨entries.map Prod.fst, ((h.map Prod.fst).nodup_iff).mpr hgroup.nodup, fun key ↦ ?_, ?_⟩
  · rw [(h.map Prod.fst).mem_iff, hgroup.mem_iff]
  · rw [Program.printed, List.map_map]
    refine congrArg text (List.map_congr_left fun p hp ↦ ?_)
    have hp := h.mem_iff.mp hp
    rw [Grouping.mem_pairs, Grouping.lookup_collect] at hp
    split at hp
    · rw [Function.comp_apply, ← Option.some_inj.mp hp]
    · simp at hp

omit [Codec KeyValue] in
/-- An output file groups its partition. -/
theorem Program.IsOutput.exists_grouping {y : Nat} {bytes : Bytes} (h : J.IsOutput y bytes) :
    ∃ g, Grouping.IsGrouping KeyValue.key KeyValue.value (J.partition y) g ∧
      bytes = J.printed g := by
  obtain ⟨keys, hnodup, hkeys, rfl⟩ := h
  refine ⟨keys.map fun key ↦
    (key, Grouping.valuesOf KeyValue.key KeyValue.value (J.partition y) key),
    ⟨?_, ?_, ?_⟩, ?_⟩
  · simpa [Function.comp_def] using hnodup
  · simpa [Function.comp_def] using hkeys
  · intro p hp
    obtain ⟨key, -, rfl⟩ := List.mem_map.mp hp
    exact List.Perm.refl _
  · rw [Program.printed, List.map_map]
    rfl

omit [Codec KeyValue] in
/-- **All output files together have the lines that the sequential program writes**, if `reducef`
does not depend on the order of the values. -/
theorem Program.isOutput_perm_mrsequential (sort : KeySort) (hY : 1 ≤ J.nReduce)
    (hreduce : ∀ key vs vs', vs.Perm vs' → J.reducef key vs = J.reducef key vs') {out : Nat → Bytes}
    (hout : ∀ k < J.nReduce, J.IsOutput (k + 1) (out k)) :
    ((List.range J.nReduce).flatMap fun k ↦ lines (out k)).Perm
      (lines (mrsequential sort J.input J.fnames J.mapf J.reducef)) := by
  have hgroups : ∀ k, ∃ g, k < J.nReduce →
      Grouping.IsGrouping KeyValue.key KeyValue.value (J.partition (k + 1)) g ∧
        out k = J.printed g := by
    intro k
    by_cases hk : k < J.nReduce
    · obtain ⟨g, hg⟩ := (hout k hk).exists_grouping
      exact ⟨g, fun _ ↦ hg⟩
    · exact ⟨[], fun h ↦ absurd h hk⟩
  choose g hg using hgroups
  refine lines_perm_mrsequential J.input J.fnames J.mapf hreduce sort hY (g := fun y ↦ g (y - 1))
    (fun y hy ↦ ?_) fun k hk ↦ (hg k hk).2
  obtain ⟨h1, h2⟩ := List.mem_range'_1.mp hy
  have hgroup := (hg (y - 1) (by omega)).1
  rw [Nat.sub_add_cancel h1] at hgroup
  rwa [← flatMap_part J.input J.fnames J.mapf J.nReduce y]

/-! ## Workers -/

/-- The entries that the files of the first map tasks give. -/
def gathered (J : Program) (y x : Nat) : AList fun _ : String ↦ List String :=
  Grouping.collect KeyValue.key KeyValue.value ((List.range' 1 (x - 1)).flatMap (J.part · y))

namespace Stage

/-- What any worker can count on: a file that a map task has open is no output file. -/
def OutSound (J : Program) (fs : FileSystem String) : Stage → Prop
  | .encoding _ _ _ _ file _ _ => file < fs.next ∧ ∀ k, fs.dir (outName k) ≠ some file
  | .gathering y _ x mp | .reading y _ x mp _ _ => mp = gathered J y x
  | .printing y file _ _ => fs.dir (outName (y - 1)) = some file
  | .mapping _ _ _ _ | .reporting _ | .idle | .exited => True

/-- What a worker that has a reduce task has done so far, if nobody else has created its file again.
-/
def Prints (J : Program) (fs : FileSystem String) : Stage → Prop
  | .printing y _ offset rest => ∃ entries,
    (entries ++ rest).Perm (Grouping.pairs
      (Grouping.collect KeyValue.key KeyValue.value (J.partition y))) ∧
    fs.contents (outName (y - 1)) = some (J.printed entries) ∧ offset = (J.printed entries).length
  | .reporting (.reduce y) => Printed J fs y
  | _ => True

omit [Codec KeyValue] in
/-- Only the output file itself matters. -/
theorem Prints.congr (h : st.Prints J fs)
    (hout : ∀ name ∈ st.out, fs'.contents name = fs.contents name) : st.Prints J fs' := by
  cases st with
  | printing y file offset rest =>
    obtain ⟨entries, hperm, hcont, hoff⟩ := h
    exact ⟨entries, hperm, (hout _ rfl).trans hcont, hoff⟩
  | reporting job =>
    cases job with
    | map x => trivial
    | reduce y =>
      obtain ⟨bytes, hcont, hbytes⟩ := h
      exact ⟨bytes, (hout _ rfl).trans hcont, hbytes⟩
  | idle | mapping | encoding | gathering | reading | exited => trivial

end Stage

/-- **Other output files stay as they are**, also if a map task writes to a file it has lost. -/
theorem Moves.contents_outName (h : Moves J fs st fs' st' reads) (hs : st.OutSound J fs) {k : Nat}
    (hk : ¬ st.Touches st' (outName k)) : fs'.contents (outName k) = fs.contents (outName k) := by
  cases st with
  | encoding filename x Y y file offset rest =>
    cases h with
    | encode =>
      cases hd : fs.dir (outName k) with
      | none => simp [FileSystem.contents, hd]
      | some i =>
        have hne : i ≠ file := fun heq ↦ hs.2 k (heq ▸ hd)
        simp [FileSystem.contents, hd, FileSystem.writeAt_data_of_ne fs offset _ hne]
    | rename hren =>
      obtain ⟨rfl, -⟩ := FileSystem.rename_spec hren (intermediateName_ne_tmp x y _).symm
      refine (FileSystem.Frame.move fs _ _).contents ?_
      rintro (hname | hname)
      · exact tmpName_ne_outName x y k hname.symm
      · exact intermediateName_ne_outName x y k hname.symm
    | renameFailed => rfl
  | printing => exact (h.frame hs).contents hk
  | idle | mapping | gathering | reading | reporting | exited => exact (h.frame trivial).contents hk

namespace Stage

/-- Another worker moves. -/
theorem OutSound.frame {mover mover' : Stage} (h : st.OutSound J fs)
    (hm : Moves J fs mover fs' mover' reads) : st.OutSound J fs' := by
  cases st with
  | encoding => exact ⟨h.1.trans_le hm.next_le, fun k ↦ hm.dir_outName_ne h.1 (h.2 k)⟩
  | printing => exact hm.dir_outName_stays h
  | gathering | reading => exact h
  | idle | mapping | reporting | exited => trivial

end Stage

/-- **A reduce task, call by call**: what it has gathered is what it should have. -/
theorem Moves.outSound (h : Moves J fs st fs' st' reads) (hb : st.Begun J) (hs : st.OutSound J fs)
    (hreads : ∀ r ∈ reads, r.kvs = some (J.part r.x r.y)) : st'.OutSound J fs' := by
  cases h with
  | @create filename x Y y =>
    refine ⟨by simp only [FileSystem.create]; omega, fun k hd ↦ ?_⟩
    rw [FileSystem.create_dir_of_ne fs (tmpName_ne_outName x y k).symm] at hd
    refine FileSystem.file_ne (fs.dir_lt _ _ hd) (fun htmp ↦ ?_) rfl
    exact tmpName_ne_outName x y k (fs.dir_inj _ _ _ htmp hd)
  | encode => exact hs
  | openFile => exact hs
  | fill => exact hs
  | @decode y X x mp file buf kvs hend hdec =>
    obtain ⟨-, h1, -⟩ := hb
    have hkvs : kvs = J.part x y := by simpa using hreads ⟨x, y, some kvs⟩ List.mem_cons_self
    have hrange : List.range' 1 x = List.range' 1 (x - 1) ++ [x] := by
      obtain ⟨k, rfl⟩ : ∃ k, x = k + 1 := ⟨x - 1, by omega⟩
      rw [List.range'_1_concat, Nat.add_sub_cancel, Nat.add_comm 1 k]
    change _ = gathered J y (x + 1)
    rw [hs, hkvs, gathered, gathered, Nat.add_sub_cancel, hrange, List.flatMap_append,
      List.flatMap_singleton, Grouping.collect, Grouping.collect, List.foldl_append]
  | createOut => exact FileSystem.create_dir_self fs _
  | print => exact hs
  | panicked | mapped | rename | renameFailed | openFailed | decodeFailed | reduced => trivial

/-- **A reduce task, call by call**: what it has written is what it should have, while nobody
else creates its file. -/
theorem Moves.prints (h : Moves J fs st fs' st' reads) (hb : st.Begun J) (hs : st.OutSound J fs)
    (hp : st.Prints J fs) : st'.Prints J fs' := by
  cases h with
  | @createOut y X x mp entries hx hperm =>
    obtain ⟨rfl, -, hle⟩ := hb
    obtain rfl : x = J.fnames.length + 1 := by omega
    refine ⟨[], ?_, ?_, rfl⟩
    · rw [List.nil_append, Program.partition]
      rwa [hs, gathered, Nat.add_sub_cancel] at hperm
    · rw [FileSystem.contents_of_dir (FileSystem.create_dir_self fs _),
        FileSystem.create_data_self]
      rfl
  | @print y file offset p rest =>
    obtain ⟨entries, hperm, hcont, rfl⟩ := hp
    rw [FileSystem.contents_of_dir hs, Option.some_inj] at hcont
    have hdata : (fs.writeAt file (J.printed entries).length
        (line p.1 (J.reducef p.1 p.2))).data file = J.printed (entries ++ [p]) := by
      rw [FileSystem.writeAt_data_self, hcont, FileSystem.splice_length, printed_concat]
    refine ⟨entries ++ [p], by simpa using hperm, ?_, ?_⟩
    · refine (FileSystem.contents_of_dir (i := file) ?_).trans (congrArg some hdata)
      exact hs
    · rw [printed_concat, List.length_append]
  | reduced =>
    obtain ⟨entries, hperm, hcont, -⟩ := hp
    rw [List.append_nil] at hperm
    exact ⟨_, hcont, isOutput_printed hperm⟩
  | panicked | create | mapped | encode | rename | renameFailed | openFile | openFailed | fill
  | decode | decodeFailed => trivial

/-! ## The site -/

namespace Site

variable {s s' : Site} {P : Site → Act → Site → Prop}

/-- What reducers have read is what there was to read. -/
def ReadsComplete (J : Program) (s : Site) : Prop := ∀ r ∈ s.reads, r.kvs = some (J.part r.x r.y)

instance (J : Program) (s : Site) : Decidable (ReadsComplete J s) :=
  inferInstanceAs (Decidable (∀ _ ∈ _, _))

/-- Whoever has created the output file of a task that was reported is done with it. -/
def Settled (s : Site) : Prop :=
  ∀ y, .reduce y ∈ s.world.reported → ∀ w, s.creator (outName (y - 1)) = some w →
    (s.worker w).out ≠ some (outName (y - 1))

omit [Codec KeyValue] in
theorem Settled.setStage (h : s.Settled) {w : Nat} {st : Stage} (hst : st.out = none) :
    (s.setStage w st).Settled := by
  intro y hy
  exact forall_setStage (Q := fun w' st ↦ s.creator (outName (y - 1)) = some w' →
    st.out ≠ some (outName (y - 1))) (fun _ ↦ by simp [hst]) (h y hy)

/-- What holds while no worker goes on with an output file that somebody else has created again, or
creates that of a task that was reported. -/
structure OutInv (J : Program) (s : Site) : Prop where
  /-- Files that are open, and what was gathered. -/
  sound : ∀ w, (s.worker w).OutSound J s.fs
  /-- Reduce tasks on the way. -/
  prints : s.Owners Stage.out fun st ↦ st.Prints J s.fs
  /-- Reduce tasks that nobody has any more. -/
  settled : s.Settled
  /-- Reduce tasks that were reported. -/
  reported : ∀ y, .reduce y ∈ s.world.reported → Printed J s.fs y

/-- A reduce task that was reported has a number from `1` on. -/
theorem pos_of_reported (h : (machine J).Reach P s) {y : Nat}
    (hy : .reduce y ∈ s.world.reported) : 1 ≤ y := by
  have hinv := (World.inv_of_reach (reach_world h)).1
  obtain ⟨t, ht⟩ := hinv.ofAssigned _ (hinv.ofReported _ hy)
  exact (hinv.inRange _ t ht).1.1

/-- Nobody touches the output of a task that was reported. -/
theorem Settled.not_touches (h : s.Settled) (hr : (machine J).Reach P s) {w : Nat} {choice : Choice}
    (hm : Moves J s.fs (s.worker w) fs st reads) (hk : s.KeepsOut (.work w choice)) {y : Nat}
    (hy : .reduce y ∈ s.world.reported) : ¬ (s.worker w).Touches st (outName (y - 1)) := by
  obtain ⟨hmine, hnew⟩ := hk w rfl
  intro ht
  rcases Stage.touches_outName ht with hcreated | hout
  · obtain ⟨y', hready, hjob, heq⟩ := hm.ready_of_created hcreated
    have h1 := pos_of_reported hr hy
    have h1' : 1 ≤ y' := (inRange_of_job hr hjob).1
    obtain rfl : y = y' := by omega
    exact hnew y hready hy
  · exact h y hy w (hmine _ hout) hout

theorem Settled.moveOn (h : s.Settled) (hr : (machine J).Reach P s) {w : Nat} {choice : Choice}
    (hm : Moves J s.fs (s.worker w) fs st reads) (hk : s.KeepsOut (.work w choice)) :
    (s.moveOn w fs st reads).Settled := by
  intro y hy w' hw'
  have hcreated : (s.worker w).created st ≠ some (outName (y - 1)) :=
    fun hc ↦ h.not_touches hr hm hk hy (Or.inl hc)
  rw [moveOn_creator, if_neg hcreated] at hw'
  refine forall_setStage (Q := fun w' st ↦ s.creator (outName (y - 1)) = some w' →
    st.out ≠ some (outName (y - 1))) (fun hw hout ↦ ?_) (h y hy) w' hw'
  exact h y hy w hw ((hm.out hout).resolve_left hcreated)

namespace OutInv

omit [Codec KeyValue] in
/-- A worker gets a task, or none. -/
theorem request (h : OutInv J s) (w : Nat) (c : Coordinator) (tap : TaskAssignment) :
    OutInv J ((s.assign c tap).setStage w tap.begin) := by
  refine ⟨forall_setStage (s := s.assign c tap) ?_ h.sound,
    Owners.setStage (s := s.assign c tap) h.prints ?_,
    Settled.setStage (s := s.assign c tap) h.settled (out_begin tap), h.reported⟩
  · rw [TaskAssignment.begin]
    split
    · trivial
    · trivial
    · trivial
    · rfl
  · rw [TaskAssignment.begin]
    split <;> trivial

omit [Codec KeyValue] in
/-- A worker drops its task. -/
theorem drop (h : OutInv J s) (w : Nat) {st : Stage} (hst : st = .idle ∨ st = .exited) :
    OutInv J (s.setStage w st) := by
  refine ⟨forall_setStage ?_ h.sound, h.prints.setStage ?_, h.settled.setStage ?_, h.reported⟩
  · rcases hst with rfl | rfl <;> trivial
  · rcases hst with rfl | rfl <;> trivial
  · rcases hst with rfl | rfl <;> rfl

omit [Codec KeyValue] in
/-- A worker reports its task. -/
theorem report (h : OutInv J s) {w : Nat} {job : Job} {world : World}
    (hw : s.worker w = .reporting job) (hrep : s.world.step (.report job) = some world)
    (hk : s.KeepsOut (.report w)) : OutInv J { s.setStage w .idle with world := world } := by
  obtain ⟨-, hreported, -⟩ := report_spec hrep
  have hmine := (hk w rfl).1
  have hdrop := h.drop w (Or.inl rfl)
  have hcases : ∀ {y}, .reduce y ∈ world.reported →
      .reduce y ∈ s.world.reported ∨ job = .reduce y := by
    intro y hy
    rw [hreported, List.mem_append, List.mem_singleton] at hy
    exact hy.imp_right Eq.symm
  refine ⟨hdrop.sound, hdrop.prints, fun y hy ↦ ?_, fun y hy ↦ ?_⟩
  · rcases hcases hy with hold | rfl
    · exact hdrop.settled y hold
    · -- whoever reports the task has created the file
      intro w' hw'
      have hcreator := hmine (outName (y - 1)) (by rw [hw]; rfl)
      obtain rfl := Option.some_inj.mp (hcreator.symm.trans hw')
      simp [Site.setStage, Stage.out]
  · rcases hcases hy with hold | rfl
    · exact h.reported y hold
    · have hdone := h.prints w hmine
      rw [hw] at hdone
      exact hdone

/-- **A worker goes on with its task.** -/
theorem work (h : OutInv J s) (hr : (machine J).Reach P s) {w : Nat} {choice : Choice}
    (hm : Moves J s.fs (s.worker w) fs st reads) (hk : s.KeepsOut (.work w choice))
    (hreads : ∀ r ∈ reads, r.kvs = some (J.part r.x r.y)) : OutInv J (s.moveOn w fs st reads) := by
  have hbegun := (tasks_of_reach hr).begun
  have hmine := (hk w rfl).1
  refine ⟨forall_setStage (hm.outSound (hbegun w) (h.sound w) hreads) fun w' ↦
      (h.sound w').frame hm,
    h.prints.moveOn (hm.prints (hbegun w) (h.sound w) (h.prints w hmine))
      fun w' hne hmine' hw' ↦ hw'.congr fun name hname ↦ ?_,
    h.settled.moveOn hr hm hk, fun y hy ↦ ?_⟩
  · obtain ⟨hcreator, hcreated⟩ := hmine' name hname
    obtain ⟨k, rfl⟩ := Stage.exists_of_out hname
    refine hm.contents_outName (h.sound w) fun ht ↦ ?_
    rcases Stage.touches_outName ht with hnew | hold
    · exact hcreated hnew
    · -- two workers cannot both have created the file last
      exact hne (Option.some_inj.mp (hcreator.symm.trans (hmine _ hold)))
  · obtain ⟨bytes, hcont, hbytes⟩ := h.reported y hy
    have hno := h.settled.not_touches hr hm hk hy
    exact ⟨bytes, (hm.contents_outName (h.sound w) hno).trans hcont, hbytes⟩

theorem step {act : Act} (h : OutInv J s) (hr : (machine J).Reach P s) (hd : Does J s act s')
    (hk : s.KeepsOut act) (hreads : ReadsComplete J s') : OutInv J s' := by
  cases hd with
  | request => exact h.request _ _ _
  | requestLost => exact ⟨h.sound, h.prints, h.settled, h.reported⟩
  | work hm => exact h.work hr hm hk fun r hr ↦ hreads r (List.mem_append_right _ hr)
  | report hw hrep => exact h.report hw hrep hk
  | reportLost => exact h.drop _ (Or.inl rfl)
  | crash => exact h.drop _ (Or.inr rfl)
  | wait => exact ⟨h.sound, h.prints, h.settled, h.reported⟩

theorem of_reach (hP : ∀ s act s', P s act s' → s.KeepsOut act ∧ ReadsComplete J s')
    (h : (machine J).Reach P s) : OutInv J s := by
  have hinit : OutInv J (machine J).init := by
    refine ⟨fun _ ↦ trivial, fun _ _ ↦ trivial, fun y hy ↦ ?_, fun y hy ↦ ?_⟩
    · simp [machine, World.machine] at hy
    · simp [machine, World.machine] at hy
  refine h.invariant hinit fun s act s' hr hi hs hp ↦ ?_
  obtain ⟨hk, hreads⟩ := hP s act s' hp
  exact hi.step hr (.of_step hs) hk hreads

end OutInv

/-- **The output of a task that was reported stays as it is**, as nobody touches it. -/
theorem contents_step {act : Act} (h : (machine J).Reach P s)
    (hP : ∀ s act s', P s act s' → s.KeepsOut act ∧ ReadsComplete J s') (hd : Does J s act s')
    (hk : s.KeepsOut act) {y : Nat} (hy : .reduce y ∈ s.world.reported) :
    .reduce y ∈ s'.world.reported ∧
      s'.fs.contents (outName (y - 1)) = s.fs.contents (outName (y - 1)) := by
  cases hd with
  | @work w choice fs st reads hm =>
    have hinv := OutInv.of_reach hP h
    exact ⟨hy, hm.contents_outName (hinv.sound w) (hinv.settled.not_touches h hm hk hy)⟩
  | report hw hrep =>
    obtain ⟨-, hreported, -⟩ := report_spec hrep
    exact ⟨by rw [hreported]; exact List.mem_append_left _ hy, rfl⟩
  | request | requestLost | reportLost | crash | wait => exact ⟨hy, rfl⟩

/-- **The output files are final when the job is done**, in every run in which no worker writes or
reports an output file that somebody else has created again since, none creates the output file of a
task that was reported, and reducers have read complete intermediate files: each output file is
there, with one line for each key of its partition, and whatever happens afterwards leaves it as it
is. -/
theorem output_final
    (h : (machine J).Reach (fun s act s' ↦ s.KeepsOut act ∧ ReadsComplete J s') s)
    (hdone : s.world.coord.done = true) :
    (∀ y, 1 ≤ y → y ≤ J.nReduce → Printed J s.fs y) ∧
      ∀ s', ((machine J).startingAt s).Reach
        (fun s act s' ↦ s.KeepsOut act ∧ ReadsComplete J s') s' → ∀ y, 1 ≤ y → y ≤ J.nReduce →
          s'.fs.contents (outName (y - 1)) = s.fs.contents (outName (y - 1)) := by
  have hreported : ∀ y, 1 ≤ y → y ≤ J.nReduce → .reduce y ∈ s.world.reported :=
    (World.allReported_of_phase (reach_world h) (of_decide_eq_true hdone)).2
  refine ⟨fun y h1 h2 ↦ (OutInv.of_reach (fun _ _ _ ↦ id) h).reported y (hreported y h1 h2),
    fun s' hs' y h1 h2 ↦ ?_⟩
  -- from here on the task stays reported and its file stays as it is
  have hstays := hs'.invariant (I := fun t ↦ .reduce y ∈ t.world.reported ∧
    t.fs.contents (outName (y - 1)) = s.fs.contents (outName (y - 1))) ⟨hreported y h1 h2, rfl⟩
    fun t act t' ht hi hs hp ↦ by
      obtain ⟨hrep, hsame⟩ := contents_step (h.append ht) (fun _ _ _ ↦ id) (.of_step hs) hp.1 hi.1
      exact ⟨hrep, hsame.trans hi.2⟩
  exact hstays.2

/-- If nobody goes on with a file of either phase that somebody else has created again, reducers
read what they should, and when the job is done its output is there. -/
theorem printed_of_keeps (h : (machine J).Reach (fun s act _ ↦ s.KeepsTmp act ∧ s.KeepsOut act) s)
    (hdone : s.world.coord.done = true) {y : Nat} (h1 : 1 ≤ y) (h2 : y ≤ J.nReduce) :
    Printed J s.fs y := by
  have hout : (machine J).Reach (fun s act s' ↦ s.KeepsOut act ∧ ReadsComplete J s') s := by
    refine h.strengthen fun s act s' hr hs hk ↦ ⟨hk.2, fun r hr' ↦ ?_⟩
    exact ((MapInv.of_reach (fun _ _ _ hp ↦ hp.1) (hr.step hs hk)).reads r hr').2
  exact (OutInv.of_reach (fun _ _ _ ↦ id) hout).reported y
    ((World.allReported_of_phase (reach_world h) (of_decide_eq_true hdone)).2 y h1 h2)

/-- **The distributed program and the sequential one**, now with workers that come and go at any
time: if nobody goes on with a file that somebody else has created again, or creates the output of a
task that was reported, then the output files of a job that is done have the lines that the
sequential program writes. -/
theorem done_perm_mrsequential
    (h : (machine J).Reach (fun s act _ ↦ s.KeepsTmp act ∧ s.KeepsOut act) s)
    (hdone : s.world.coord.done = true) (sort : KeySort) (hY : 1 ≤ J.nReduce)
    (hreduce : ∀ key vs vs', vs.Perm vs' → J.reducef key vs = J.reducef key vs') :
    ((List.range J.nReduce).flatMap fun k ↦ lines ((s.fs.contents (outName k)).getD [])).Perm
      (lines (mrsequential sort J.input J.fnames J.mapf J.reducef)) := by
  refine J.isOutput_perm_mrsequential sort hY hreduce fun k hk ↦ ?_
  obtain ⟨bytes, hcont, hbytes⟩ := printed_of_keeps h hdone (Nat.le_add_left 1 k) hk
  rw [Nat.add_sub_cancel] at hcont
  rwa [hcont]

end Site

end Invariant

/-! ## Two runs -/

namespace Site

/-- The first worker does the map task and crashes in the middle of the reduce task.  The second one
does all of it, in another order, reports, and is sent away. -/
def crashedReducer : List Act :=
  [.request 0, .work 0 .go, .work 0 .go, .work 0 .go, .work 0 .go, .work 0 .go, .report 0,
    .request 0, .work 0 .go, .work 0 (.chunk 100), .work 0 (.chunk 0),
    .work 0 (.order [("a", ["1"]), ("b", ["1"])]), .work 0 .go, .crash 0, .wait (11 * second),
    .request 1, .work 1 .go, .work 1 (.chunk 100), .work 1 (.chunk 0),
    .work 1 (.order [("b", ["1"]), ("a", ["1"])]), .work 1 .go, .work 1 .go, .work 1 .go, .report 1,
    .request 1]

theorem output_final_crashedReducer :
    ∃ s, (machine twoWords).Reach (fun s act s' ↦ s.KeepsOut act ∧ ReadsComplete twoWords s') s ∧
      s.world.coord.done = true ∧ Printed twoWords s.fs 1 ∧
      ∀ s', ((machine twoWords).startingAt s).Reach
        (fun s act s' ↦ s.KeepsOut act ∧ ReadsComplete twoWords s') s' →
          s'.fs.contents (outName 0) = s.fs.contents (outName 0) := by
  obtain ⟨s, hs, hdone⟩ :=
    Machine.exists_reach_of_exec (M := machine twoWords)
    (P := fun s act s' ↦ s.KeepsOut act ∧ ReadsComplete twoWords s')
    (Q := fun s ↦ s.world.coord.done = true) crashedReducer (by decide +kernel)
  obtain ⟨hprinted, hstays⟩ := output_final hs hdone
  exact ⟨s, hs, hdone, hprinted 1 (by decide) (by decide),
    fun s' hs' ↦ hstays s' hs' 1 (by decide) (by decide)⟩

theorem done_perm_mrsequential_crashedReducer :
    ∃ s : Site, s.world.coord.done = true ∧
      (lines ((s.fs.contents (outName 0)).getD [])).Perm (lines (mrsequential .stable
        twoWords.input twoWords.fnames twoWords.mapf twoWords.reducef)) := by
  obtain ⟨s, hs, hdone⟩ :=
    Machine.exists_reach_of_exec (M := machine twoWords)
    (P := fun s act _ ↦ s.KeepsTmp act ∧ s.KeepsOut act)
    (Q := fun s ↦ s.world.coord.done = true) crashedReducer (by decide +kernel)
  refine ⟨s, hdone, ?_⟩
  simpa [twoWords] using done_perm_mrsequential hs hdone .stable (by decide)
    fun _ _ _ hperm ↦ congrArg toString hperm.length_eq

/-- The first worker does the map task, reads its file in the reduce task, and is slow.  The second
one, which has been assigned the reduce task in the meantime, does all of it, reports, and is sent
away. -/
def slowReducer : List Act :=
  [.request 0, .work 0 .go, .work 0 .go, .work 0 .go, .work 0 .go, .work 0 .go, .report 0,
    .request 0, .work 0 .go, .work 0 (.chunk 100), .work 0 (.chunk 0), .wait (11 * second),
    .request 1, .work 1 .go, .work 1 (.chunk 100), .work 1 (.chunk 0),
    .work 1 (.order [("a", ["1"]), ("b", ["1"])]), .work 1 .go, .work 1 .go, .work 1 .go, .report 1,
    .request 1]

/-- **The output is gone after the job is done**: the first worker goes on, and creates the file
again. -/
theorem output_truncated :
    ∃ s s', (machine twoWords).Reach (fun _ _ s' ↦ ReadsComplete twoWords s') s ∧
      s.world.coord.done = true ∧
      s.fs.contents (outName 0) = some (text [("a", "1"), ("b", "1")]) ∧
      s.step twoWords (.work 0 (.order [("a", ["1"]), ("b", ["1"])])) = some s' ∧
      s'.fs.contents (outName 0) = some [] := by
  obtain ⟨s, hs, hdone, hbefore, hafter⟩ :=
    Machine.exists_reach_of_exec (M := machine twoWords)
    (P := fun _ _ s' ↦ ReadsComplete twoWords s')
    (Q := fun s ↦ s.world.coord.done = true ∧
      s.fs.contents (outName 0) = some (text [("a", "1"), ("b", "1")]) ∧
      (s.step twoWords (.work 0 (.order [("a", ["1"]), ("b", ["1"])]))).map
        (fun s' ↦ s'.fs.contents (outName 0)) = some (some [])) slowReducer (by decide +kernel)
  obtain ⟨s', hs', hgone⟩ := Option.map_eq_some_iff.mp hafter
  exact ⟨s, s', hs, hdone, hbefore, hs', hgone⟩

end Site

end DistLabs.MR
