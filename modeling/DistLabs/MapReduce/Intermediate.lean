import DistLabs.MapReduce.Equivalence
import DistLabs.MapReduce.Site

/-!
# What reducers see

A map task that has timed out may be running twice, and both workers write `mr-x-y.tmp`: the second
`os.Create` empties the file the first one is writing, or has just written, and the first
`os.Rename` moves the file of the second.  So a map task may be reported with files that are empty
or half written.

In a run in which no worker goes on with a temporary file that somebody else has created again since
(`Site.KeepsTmp`), every intermediate file of a task that was reported is complete, and so is what a
reducer has open (`MapInv`).  Two workers may then still do the same map task at the same time, and
a file may get its name a second time while it is read: what is in it is the same.
-/

set_option autoImplicit false

namespace DistLabs.MR

section Invariant

variable [Codec KeyValue] {J : Program} {fs fs' : FileSystem String} {st st' : Stage}
  {reads : List Read}

/-- The file from map task `x` to reduce task `y` is there and complete. -/
def Complete (J : Program) (fs : FileSystem String) (x y : Nat) : Prop :=
  fs.contents (intermediateName x y) = some ((J.part x y).flatMap Codec.write)

namespace Stage

/-- What a worker that reads or writes an open file can count on. -/
def Sound (J : Program) (fs : FileSystem String) : Stage → Prop
  | .reading y _ x _ file buf => file < fs.next ∧
    (∀ name, fs.dir name = some file → name = intermediateName x y) ∧
    fs.data file = (J.part x y).flatMap Codec.write ∧ buf <+: fs.data file
  | .printing y file _ _ => fs.dir (outName (y - 1)) = some file
  | _ => True

/-- What a worker that has a map task has done so far, if nobody else has created its file again. -/
def Writes (J : Program) (fs : FileSystem String) : Stage → Prop
  | .mapping _ x _ y => ∀ y', 1 ≤ y' → y' < y → Complete J fs x y'
  | .encoding _ x _ y file offset rest => fs.dir (tmpName x y) = some file ∧
    (∃ written, written ++ rest = J.part x y ∧ fs.data file = written.flatMap Codec.write ∧
      offset = (fs.data file).length) ∧
    ∀ y', 1 ≤ y' → y' < y → Complete J fs x y'
  | .reporting (.map x) => ∀ y', 1 ≤ y' → y' ≤ J.nReduce → Complete J fs x y'
  | _ => True

/-- A worker that has created its file last still has it under its name. -/
theorem Writes.owns (h : st.Writes J fs) (hs : st.Sound J fs) : st.Owns fs := by
  cases st with
  | encoding => exact h.1
  | printing => exact hs
  | idle | mapping | gathering | reading | reporting | exited => trivial

end Stage

/-! ## What every worker keeps -/

theorem Complete.frame {names : String → Prop} {x y : Nat} (h : Complete J fs x y)
    (hf : fs.Frame fs' names) (hn : ¬ names (intermediateName x y)) : Complete J fs' x y :=
  (hf.contents hn).trans h

/-- A file that is written gets its name. -/
theorem complete_of_rename {filename : String} {x Y y file offset : Nat}
    (hw : (Stage.encoding filename x Y y file offset []).Writes J fs)
    (hren : fs.rename (tmpName x y) (intermediateName x y) = some fs') : Complete J fs' x y := by
  obtain ⟨hd, ⟨written, hrest, hdata, -⟩, -⟩ := hw
  have hne : intermediateName x y ≠ tmpName x y := intermediateName_ne_tmp x y _
  obtain ⟨rfl, -⟩ := FileSystem.rename_spec hren hne.symm
  have hd' : (fs.move (tmpName x y) (intermediateName x y)).dir (intermediateName x y) =
      some file := by
    rw [FileSystem.move_dir, if_neg hne, if_pos rfl, hd]
  rw [List.append_nil] at hrest
  rw [Complete, FileSystem.contents_of_dir hd', FileSystem.move_data, hdata, hrest]

/-- **Files stay complete**, as whatever takes their place is complete too. -/
theorem Moves.complete (h : Moves J fs st fs' st' reads) (ho : st.Owns fs) (hw : st.Writes J fs)
    {x y : Nat} (hc : Complete J fs x y) : Complete J fs' x y := by
  by_cases ht : st.Touches st' (intermediateName x y)
  · have hname := Stage.touches_intermediateName ht
    cases h with
    | rename hren =>
      obtain ⟨rfl, rfl⟩ := intermediateName_inj (Option.some_inj.mp hname)
      exact complete_of_rename hw hren
    | renameFailed => exact hc
    | _ => simp [Stage.published] at hname
  · exact hc.frame (h.frame ho) ht

/-- **What a reducer has open stays as it is**, also if another file takes its place. -/
theorem Moves.reader (h : Moves J fs st fs' st' reads) (ho : st.Owns fs) {x y file : Nat}
    (hlt : file < fs.next) (hsole : ∀ name, fs.dir name = some file → name = intermediateName x y) :
    file < fs'.next ∧ (∀ name, fs'.dir name = some file → name = intermediateName x y) ∧
      fs'.data file = fs.data file := by
  by_cases ht : st.Touches st' (intermediateName x y)
  · have hname := Stage.touches_intermediateName ht
    cases h with
    | @rename filename x' Y y' file' offset _ hren =>
      have hne : intermediateName x' y' ≠ tmpName x' y' := intermediateName_ne_tmp x' y' _
      obtain ⟨rfl, -⟩ := FileSystem.rename_spec hren hne.symm
      refine ⟨hlt, fun name hd ↦ ?_, rfl⟩
      rw [FileSystem.move_dir] at hd
      split_ifs at hd
      · exact absurd (hsole _ hd).symm (intermediateName_ne_tmp x y _)
      · exact hsole name hd
    | renameFailed => exact ⟨hlt, hsole, rfl⟩
    | _ => simp [Stage.published] at hname
  · have hf := h.frame ho
    have hnot : ∀ name, fs.dir name = some file → ¬ st.Touches st' name :=
      fun name hd ↦ hsole name hd ▸ ht
    exact ⟨hlt.trans_le hf.next_le, fun name hd ↦ hsole name (hf.dir_of file hlt hnot name hd),
      hf.data_eq file hlt hnot⟩

namespace Stage

variable {mover mover' : Stage}

/-- Another worker moves. -/
theorem Sound.frame (h : st.Sound J fs) (hm : Moves J fs mover fs' mover' reads)
    (ho : mover.Owns fs) : st.Sound J fs' := by
  cases st with
  | reading y X x mp file buf =>
    obtain ⟨hlt, hsole, hdata, hbuf⟩ := h
    obtain ⟨hlt', hsole', hsame⟩ := hm.reader ho hlt hsole
    exact ⟨hlt', hsole', hsame.trans hdata, hsame ▸ hbuf⟩
  | printing => exact hm.dir_outName_stays h
  | idle | mapping | encoding | gathering | reporting | exited => trivial

/-- Another worker moves, and does not touch the temporary file. -/
theorem Writes.frame (h : st.Writes J fs) (hm : Moves J fs mover fs' mover' reads)
    (ho : mover.Owns fs) (hw : mover.Writes J fs)
    (hn : ∀ name ∈ st.tmp, ¬ mover.Touches mover' name) : st.Writes J fs' := by
  cases st with
  | mapping filename x Y y => exact fun y' h1 h2 ↦ hm.complete ho hw (h y' h1 h2)
  | encoding filename x Y y file offset rest =>
    obtain ⟨hd, ⟨written, hrest, hdata, hoff⟩, hdone⟩ := h
    have hmine : ¬ mover.Touches mover' (tmpName x y) := hn _ rfl
    have hsole : ∀ name, fs.dir name = some file → ¬ mover.Touches mover' name :=
      fun name hname ↦ fs.dir_inj name _ file hname hd ▸ hmine
    have hsame := (hm.frame ho).data_eq file (fs.dir_lt _ _ hd) hsole
    refine ⟨((hm.frame ho).dir_eq _ hmine).trans hd, ⟨written, hrest, hsame.trans hdata, ?_⟩,
      fun y' h1 h2 ↦ hm.complete ho hw (hdone y' h1 h2)⟩
    rw [hsame, hoff]
  | reporting job =>
    cases job with
    | map x => exact fun y' h1 h2 ↦ hm.complete ho hw (h y' h1 h2)
    | reduce y => trivial
  | idle | gathering | reading | printing | exited => trivial

end Stage

/-! ## What a worker does itself -/

omit [Codec KeyValue] in
/-- A worker that was told the right file divides what is in it. -/
theorem buckets_eq_part {filename : String} {x Y y : Nat} {mp : Nat → List KeyValue}
    (hmp : buckets Y (J.mapf filename (J.input filename)) = some mp)
    (hb : filename = J.filename x ∧ Y = J.nReduce ∧ 1 ≤ y) : mp y = J.part x y := by
  obtain ⟨rfl, rfl, -⟩ := hb
  exact buckets_spec hmp y

/-- **A map task, call by call**, while nobody else creates its files. -/
theorem Moves.writes (h : Moves J fs st fs' st' reads) (hb : st.Begun J) (ho : st.Owns fs)
    (hw : st.Writes J fs) : st'.Writes J fs' := by
  have hcomplete := fun {x y} ↦ h.complete ho hw (x := x) (y := y)
  cases h with
  | create hy hmp =>
    refine ⟨FileSystem.create_dir_self fs _, ⟨[], ?_, ?_, ?_⟩,
      fun y' h1 h2 ↦ hcomplete (hw y' h1 h2)⟩
    · exact buckets_eq_part hmp hb
    · simp
    · simp
  | mapped hy =>
    obtain ⟨-, rfl, -⟩ := hb
    exact fun y' h1 h2 ↦ hw y' h1 (by omega)
  | @encode filename x Y y file offset kv rest =>
    obtain ⟨hd, ⟨written, hrest, hdata, rfl⟩, hdone⟩ := hw
    have hdata' : (fs.writeAt file (fs.data file).length (Codec.write kv)).data file =
        fs.data file ++ Codec.write kv := by
      rw [FileSystem.writeAt_data_self, FileSystem.splice_length]
    refine ⟨hd, ⟨written ++ [kv], ?_, ?_, ?_⟩, fun y' h1 h2 ↦ hcomplete (hdone y' h1 h2)⟩
    · rw [← hrest, List.append_assoc, List.singleton_append]
    · rw [hdata', hdata, List.flatMap_append, List.flatMap_singleton]
    · rw [hdata', List.length_append]
  | @rename filename x Y y file offset _ hren =>
    intro y' h1 h2
    rcases Nat.lt_or_ge y' y with hlt | hge
    · exact hcomplete (hw.2.2 y' h1 hlt)
    · -- the file that was just written
      obtain rfl : y' = y := by omega
      exact complete_of_rename hw hren
  | panicked | renameFailed | openFile | openFailed | fill | decode | decodeFailed | createOut
  | print | reduced => trivial

/-- **A reduce task, call by call**, while the files it reads are complete. -/
theorem Moves.sound (h : Moves J fs st fs' st' reads) (hb : st.Begun J) (hs : st.Sound J fs)
    (hc : ∀ y, st.job = some (.reduce y) → ∀ x, 1 ≤ x → x ≤ J.fnames.length → Complete J fs x y) :
    st'.Sound J fs' ∧ ∀ r ∈ reads, st.job = some (.reduce r.y) ∧ 1 ≤ r.x ∧ r.x ≤ J.fnames.length ∧
      r.kvs = some (J.part r.x r.y) := by
  cases h with
  | panicked | create | mapped | encode | rename | renameFailed | reduced =>
    exact ⟨trivial, by simp⟩
  | @openFile y X x mp file hx hd =>
    obtain ⟨rfl, h1, -⟩ := hb
    have hdata := hc y rfl x h1 hx
    rw [Complete, FileSystem.contents_of_dir hd, Option.some_inj] at hdata
    exact ⟨⟨fs.dir_lt _ _ hd, fun name hname ↦ fs.dir_inj name _ file hname hd, hdata,
      List.nil_prefix⟩, by simp⟩
  | @openFailed y X x mp hx hd =>
    obtain ⟨rfl, h1, -⟩ := hb
    have hdata := hc y rfl x h1 hx
    simp [Complete, FileSystem.contents, hd] at hdata
  | @fill y X x mp file buf k =>
    obtain ⟨hlt, hname, hdata, hbuf⟩ := hs
    exact ⟨⟨hlt, hname, hdata, hbuf.append_take_drop _⟩, by simp⟩
  | @decode y X x mp file buf kvs hend hdec =>
    obtain ⟨rfl, h1, h2⟩ := hb
    obtain ⟨-, -, hdata, hbuf⟩ := hs
    have hall : buf = fs.data file := hbuf.eq_of_length_le hend
    rw [hall, hdata, decodeAll_file, Option.some_inj] at hdec
    exact ⟨trivial, by simp [Stage.job, h1, h2, hdec]⟩
  | @decodeFailed y X x mp file buf hend hdec =>
    obtain ⟨-, -, hdata, hbuf⟩ := hs
    have hall : buf = fs.data file := hbuf.eq_of_length_le hend
    rw [hall, hdata, decodeAll_file] at hdec
    simp at hdec
  | createOut => exact ⟨FileSystem.create_dir_self fs _, by simp⟩
  | print => exact ⟨hs, by simp⟩

namespace Site

variable {s s' : Site} {P : Site → Act → Site → Prop}

/-- What holds while no worker goes on with a temporary file that somebody else has created again.
-/
structure MapInv (J : Program) (s : Site) : Prop where
  /-- Files that are open. -/
  sound : ∀ w, (s.worker w).Sound J s.fs
  /-- Map tasks on the way. -/
  writes : s.Owners Stage.tmp fun st ↦ st.Writes J s.fs
  /-- Map tasks that were reported. -/
  reported : ∀ x, .map x ∈ s.world.reported →
    ∀ y, 1 ≤ y → y ≤ J.nReduce → Complete J s.fs x y
  /-- What reducers have read. -/
  reads : ∀ r ∈ s.reads, .map r.x ∈ s.world.reported ∧ r.kvs = some (J.part r.x r.y)

namespace MapInv

/-- A worker gets a task, or none. -/
theorem request (h : MapInv J s) (w : Nat) (c : Coordinator) (tap : TaskAssignment) :
    MapInv J ((s.assign c tap).setStage w tap.begin) := by
  refine ⟨forall_setStage (s := s.assign c tap) ?_ h.sound,
    Owners.setStage (s := s.assign c tap) h.writes ?_, h.reported, h.reads⟩
  · rw [TaskAssignment.begin]
    split <;> trivial
  · rw [TaskAssignment.begin]
    split
    · trivial
    · trivial
    · exact fun y' h1 h2 ↦ by omega
    · trivial

/-- A worker drops its task. -/
theorem drop (h : MapInv J s) (w : Nat) {st : Stage} (hst : st = .idle ∨ st = .exited) :
    MapInv J (s.setStage w st) := by
  refine ⟨forall_setStage ?_ h.sound, h.writes.setStage ?_, h.reported, h.reads⟩
  · rcases hst with rfl | rfl <;> trivial
  · rcases hst with rfl | rfl <;> trivial

/-- A worker reports its task. -/
theorem report (h : MapInv J s) {w : Nat} {job : Job} {world : World}
    (hw : s.worker w = .reporting job) (hrep : s.world.step (.report job) = some world) :
    MapInv J { s.setStage w .idle with world := world } := by
  obtain ⟨-, hreported, -⟩ := report_spec hrep
  have hdrop := h.drop w (Or.inl rfl)
  refine ⟨hdrop.sound, hdrop.writes, fun x hx ↦ ?_, fun r hr ↦ ?_⟩
  · change .map x ∈ world.reported at hx
    rw [hreported, List.mem_append, List.mem_singleton] at hx
    rcases hx with hx | rfl
    · exact h.reported x hx
    · have hdone := h.writes w (by simp [hw, Stage.tmp])
      rw [hw] at hdone
      exact hdone
  · obtain ⟨hx, hkvs⟩ := h.reads r hr
    exact ⟨by rw [hreported]; exact List.mem_append_left _ hx, hkvs⟩

/-- **A worker goes on with its task.**  The others are not disturbed: the temporary file that it
writes is no one else's, and the file that it renames is complete. -/
theorem work (h : MapInv J s) (hr : (machine J).Reach P s) {w : Nat} {choice : Choice}
    (hm : Moves J s.fs (s.worker w) fs st reads) (hk : s.KeepsTmp (.work w choice)) :
    MapInv J (s.moveOn w fs st reads) := by
  have hbegun := (tasks_of_reach hr).begun
  have hmine : ∀ name ∈ (s.worker w).tmp, s.creator name = some w := hk w rfl
  have hwrites := h.writes w hmine
  have howns := hwrites.owns (h.sound w)
  have hcomplete : ∀ y, (s.worker w).job = some (.reduce y) → ∀ x, 1 ≤ x → x ≤ J.fnames.length →
      Complete J s.fs x y := by
    intro y hjob x h1 h2
    obtain ⟨-, -, hY⟩ := World.inv_of_reach (reach_world hr)
    have hrange : 1 ≤ y ∧ y ≤ s.world.coord.capY := inRange_of_job hr hjob
    exact h.reported x (reported_of_reduce hr hjob h1 h2) y hrange.1 (hY ▸ hrange.2)
  obtain ⟨hsound, hreads⟩ := hm.sound (hbegun w) (h.sound w) hcomplete
  refine ⟨forall_setStage hsound fun w' ↦ (h.sound w').frame hm howns,
    h.writes.moveOn (hm.writes (hbegun w) howns hwrites) fun w' hne hmine' hw' ↦ ?_,
    fun x hx y h1 h2 ↦ hm.complete howns hwrites (h.reported x hx y h1 h2), fun r hr' ↦ ?_⟩
  · refine hw'.frame hm howns hwrites fun name hname ht ↦ ?_
    obtain ⟨hcreator, hcreated⟩ := hmine' name hname
    obtain ⟨x, y, rfl⟩ := Stage.exists_of_tmp hname
    rcases Stage.touches_tmpName ht with hnew | hold
    · exact hcreated hnew
    · -- two workers cannot both have created the file last
      exact hne (Option.some_inj.mp (hcreator.symm.trans (hmine _ hold)))
  · rcases List.mem_append.mp hr' with hr' | hr'
    · exact h.reads r hr'
    · obtain ⟨hjob, h1, h2, hkvs⟩ := hreads r hr'
      exact ⟨reported_of_reduce hr hjob h1 h2, hkvs⟩

theorem step {act : Act} (h : MapInv J s) (hr : (machine J).Reach P s) (hd : Does J s act s')
    (hk : s.KeepsTmp act) : MapInv J s' := by
  cases hd with
  | request => exact h.request _ _ _
  | requestLost => exact ⟨h.sound, h.writes, h.reported, h.reads⟩
  | work hm => exact h.work hr hm hk
  | report hw hrep => exact h.report hw hrep
  | reportLost => exact h.drop _ (Or.inl rfl)
  | crash => exact h.drop _ (Or.inr rfl)
  | wait => exact ⟨h.sound, h.writes, h.reported, h.reads⟩

theorem of_reach (hP : ∀ s act s', P s act s' → s.KeepsTmp act) (h : (machine J).Reach P s) :
    MapInv J s := by
  have hinit : MapInv J (machine J).init := by
    refine ⟨fun _ ↦ trivial, fun _ _ ↦ trivial, fun x hx ↦ ?_, fun r hr ↦ ?_⟩
    · simp [machine, World.machine] at hx
    · simp [machine] at hr
  exact h.invariant hinit fun s act s' hr hi hs hp ↦ hi.step hr (.of_step hs) (hP s act s' hp)

end MapInv

/-- **Reducers only see complete intermediate files**, in every run in which no worker writes or
renames a temporary file that somebody else has created again since: whatever a reducer of partition
`y` gets out of `mr-x-y`, map task `x` was reported, and it is what `mapf` has made of file `x` for
`y`, in order. -/
theorem intermediate_complete (h : (machine J).Reach (fun s act _ ↦ s.KeepsTmp act) s) :
    ∀ r ∈ s.reads, .map r.x ∈ s.world.reported ∧ r.kvs = some (J.part r.x r.y) :=
  (MapInv.of_reach (fun _ _ _ ↦ id) h).reads

end Site

end Invariant

/-! ## Two runs -/

/-- One file with two words, and one reduce task. -/
def twoWords : Program where
  input _ := []
  fnames := ["in"]
  nReduce := 1
  mapf _ _ := [⟨"a", "1"⟩, ⟨"b", "1"⟩]
  reducef _ values := toString values.length

namespace Site

/-- The first worker crashes in the middle of its map task, and the second one is slow.  The third
one does all of it, and a reducer opens the file.  Now the second one goes on, does all of it once
more and reports it, too, and the reducer reads on. -/
def crashedMapper : List Act :=
  [.request 0, .work 0 .go, .work 0 .go, .crash 0, .wait (16 * second), .request 1,
    .wait (16 * second), .request 3, .work 3 .go, .work 3 .go, .work 3 .go, .work 3 .go,
    .work 3 .go, .report 3, .request 2, .work 2 .go, .work 2 (.chunk 2), .work 1 .go, .work 1 .go,
    .work 1 .go, .work 2 (.chunk 2), .work 1 .go, .work 1 .go, .report 1, .work 2 (.chunk 100),
    .work 2 (.chunk 0)]

theorem intermediate_complete_crashedMapper :
    ∃ s, (machine twoWords).Reach (fun s act _ ↦ s.KeepsTmp act) s ∧
      ∃ r ∈ s.reads, r.x = 1 ∧ .map 1 ∈ s.world.reported ∧ r.kvs = some (twoWords.part 1 1) := by
  obtain ⟨s, hs, r, hr, hx, hy⟩ :=
    Machine.exists_reach_of_exec (M := machine twoWords) (P := fun s act _ ↦ s.KeepsTmp act)
    (Q := fun s ↦ ∃ r ∈ s.reads, r.x = 1 ∧ r.y = 1) crashedMapper (by decide +kernel)
  obtain ⟨hrep, hkvs⟩ := intermediate_complete hs r hr
  rw [hx] at hrep
  rw [hx, hy] at hkvs
  exact ⟨s, hs, r, hr, hx, hrep, hkvs⟩

/-- The first worker is slow: it has written its file when the second one, which has been assigned
the task in the meantime, creates the file again.  The first one renames what is left, and reports.
-/
def slowMapper : List Act :=
  [.request 0, .work 0 .go, .work 0 .go, .work 0 .go, .wait (16 * second), .request 1, .work 1 .go,
    .work 0 .go, .work 0 .go, .report 0, .request 2, .work 2 .go, .work 2 (.chunk 0)]

/-- **A reducer sees an empty file**, although the map task was reported and has two pairs for it.
-/
theorem empty_intermediate : ∃ s, (machine twoWords).Reach (fun _ _ _ ↦ True) s ∧
    .map 1 ∈ s.world.reported ∧ ⟨1, 1, some []⟩ ∈ s.reads ∧
    twoWords.part 1 1 = [⟨"a", "1"⟩, ⟨"b", "1"⟩] := by
  obtain ⟨s, hs, hrep, hread⟩ :=
    Machine.exists_reach_of_exec (M := machine twoWords) (P := fun _ _ _ ↦ True)
    (Q := fun s ↦ .map 1 ∈ s.world.reported ∧ ⟨1, 1, some []⟩ ∈ s.reads)
    slowMapper (by decide +kernel)
  exact ⟨s, hs, hrep, hread, by decide +kernel⟩

end Site

end DistLabs.MR
