import DistLabs.MapReduce.Process
import DistLabs.Lib.Machine

/-!
# A worker that nobody disturbs

`Process.lean` cuts a task into calls of the operating system, and `Worker.lean` runs it in one go.
If no other worker comes in between, the two are the same: the calls leave the directory in the
state in which `mapper` or `reducer` leaves it, with some order of the map (`mapper_alone`,
`reducer_alone`), and any such state can be reached (`exists_mapper_alone`, `exists_reducer_alone`).

`Stage.Leads` is what is still to be done: which directories a worker that is on its way can end
with. No call adds to them.
-/

set_option autoImplicit false

namespace DistLabs.MR

/-! ## What is left of a task -/

/-- A file that a worker writes has its name, and ends where the worker goes on. -/
def Stage.AtEnd (fs : FileSystem String) : Stage → Prop
  | .encoding _ x _ y file offset _ =>
    fs.dir (tmpName x y) = some file ∧ offset = (fs.data file).length
  | .printing y file offset _ =>
    fs.dir (outName (y - 1)) = some file ∧ offset = (fs.data file).length
  | .reading y X x _ file buf => x ≤ X ∧ fs.dir (intermediateName x y) = some file ∧
    buf <+: fs.data file
  | _ => True

/-- The second loop of `reducer`. -/
def printRest (J : Program) (y : Nat) (entries : List (String × List String)) (d : Disk) : Disk :=
  entries.foldl (fun d p ↦ d.write (outName (y - 1)) (line p.1 (J.reducef p.1 p.2))) d

/-- What `reducer` can end with, after the first loop. -/
def Reduces (J : Program) (d : Disk) (y : Nat) (res : Option Disk) :
    Option (AList fun _ : String ↦ List String) → Prop
  | none => res = none
  | some mp => ∃ entries : List (String × List String), entries.Perm (Grouping.pairs mp) ∧
      res = some (printRest J y entries (d.create (outName (y - 1))))

/-- An order in which the entries of one map are as they are given. -/
def RangeOrder.of {l entries : List (String × List String)} (h : entries.Perm l) : RangeOrder where
  order l' := if l' = l then entries else l'
  perm l' := by
    split
    · next heq => exact heq ▸ h
    · exact List.Perm.refl _

variable [Codec KeyValue]

/-- `mapper` from the file for `y` on; `none` is a panic. -/
def mapRest (J : Program) (filename : String) (x Y y : Nat) (d : Disk) : Option Disk :=
  (buckets Y (J.mapf filename (J.input filename))).map fun mp ↦
    (List.range' y (Y + 1 - y)).foldl (fun d y ↦
      intermediateFileWriter d (intermediateName x y) (mp y)) d

/-- The first loop of `reducer` from `x` on. -/
def gatherRest (d : Disk) (y X x : Nat) (mp : AList fun _ : String ↦ List String) :
    Option (AList fun _ : String ↦ List String) :=
  (List.range' x (X + 1 - x)).foldlM (fun (mp : AList fun _ : String ↦ List String) x ↦ do
    let file ← d (intermediateName x y)
    let kvs ← decodeAll file.length file
    return kvs.foldl (fun mp kv ↦ Grouping.push mp kv.key kv.value) mp) mp

/-- What a worker can end with; `none` is an error or a panic. -/
def Stage.Leads (J : Program) (d : Disk) : Stage → Option Disk → Prop
  | .mapping filename x Y y, res => res = mapRest J filename x Y y d
  | .encoding filename x Y y _ _ rest, res =>
    let d := rest.foldl (fun d kv ↦ d.write (tmpName x y) (Codec.write kv)) d
    res = mapRest J filename x Y (y + 1) (d.rename (tmpName x y) (intermediateName x y))
  | .gathering y X x mp, res | .reading y X x mp _ _, res =>
    Reduces J d y res (gatherRest d y X x mp)
  | .printing y _ _ rest, res => res = some (printRest J y rest d)
  | .reporting _, res => res = some d
  | .idle, res | .exited, res => res = none

/-! ### One turn of each loop -/

section Loops

variable {J : Program} {filename : String} {x X y Y : Nat} {d : Disk}
  {mp : AList fun _ : String ↦ List String} {parts : Nat → List KeyValue}

theorem mapRest_of_lt (hparts : buckets Y (J.mapf filename (J.input filename)) = some parts)
    (h : Y < y) : mapRest J filename x Y y d = some d := by
  rw [mapRest, hparts, show Y + 1 - y = 0 by omega]
  rfl

theorem mapRest_of_le (hparts : buckets Y (J.mapf filename (J.input filename)) = some parts)
    (h : y ≤ Y) : mapRest J filename x Y y d = mapRest J filename x Y (y + 1)
      (intermediateFileWriter d (intermediateName x y) (parts y)) := by
  rw [mapRest, mapRest, hparts, show Y + 1 - y = (Y + 1 - (y + 1)) + 1 by omega, List.range'_succ,
    Option.map_some, Option.map_some, List.foldl_cons]

theorem gatherRest_of_lt (h : X < x) : gatherRest d y X x mp = some mp := by
  rw [gatherRest, show X + 1 - x = 0 by omega]
  rfl

theorem gatherRest_of_le (h : x ≤ X) : gatherRest d y X x mp =
    (d (intermediateName x y)).bind fun file ↦ (decodeAll file.length file).bind fun kvs ↦
      gatherRest d y X (x + 1)
        (kvs.foldl (fun mp kv ↦ Grouping.push mp kv.key kv.value) mp) := by
  rw [gatherRest, show X + 1 - x = (X + 1 - (x + 1)) + 1 by omega, List.range'_succ,
    List.foldlM_cons]
  simp only [Option.bind_eq_bind, Option.bind_assoc, Option.pure_def, Option.bind_some]
  rfl

end Loops

/-! ## One call -/

section Calls

variable {J : Program} {fs fs' : FileSystem String} {st st' : Stage} {reads : List Read}

omit [Codec KeyValue] in
theorem contents_write {name : String} {file : Nat} (hd : fs.dir name = some file) (bytes : Bytes) :
    (fs.writeAt file (fs.data file).length bytes).contents = Disk.write fs.contents name bytes := by
  rw [FileSystem.contents_writeAt hd, Disk.write, FileSystem.contents_of_dir hd, Option.map_some]

/-- **No call adds to what a worker can end with.** -/
theorem Moves.leads (h : Moves J fs st fs' st' reads) (hs : st.AtEnd fs) :
    st'.AtEnd fs' ∧ ∀ res, st'.Leads J fs'.contents res → st.Leads J fs.contents res := by
  cases h with
  | panicked hnone =>
    refine ⟨trivial, fun res hres ↦ ?_⟩
    rw [Stage.Leads, mapRest, hnone, hres, Option.map_none]
  | @create filename x Y y parts hy hparts =>
    refine ⟨⟨FileSystem.create_dir_self fs _, by simp⟩, fun res hres ↦ ?_⟩
    rw [Stage.Leads, mapRest_of_le hparts hy, hres, FileSystem.contents_create]
    rfl
  | mapped hy hparts =>
    refine ⟨trivial, fun res hres ↦ ?_⟩
    rw [Stage.Leads, mapRest_of_lt hparts hy, hres]
  | @encode filename x Y y file offset kv rest =>
    obtain ⟨hd, rfl⟩ := hs
    refine ⟨⟨hd, ?_⟩, fun res hres ↦ ?_⟩
    · rw [FileSystem.writeAt_data_self, FileSystem.splice_length, List.length_append]
    · rw [hres, Stage.Leads, contents_write hd]
      rfl
  | @rename filename x Y y file offset _ hren =>
    obtain ⟨rfl, -⟩ := FileSystem.rename_spec hren (intermediateName_ne_tmp x y _).symm
    refine ⟨trivial, fun res hres ↦ ?_⟩
    rw [hres, Stage.Leads, FileSystem.contents_move]
    rfl
  | renameFailed hren =>
    -- the file is there
    rw [FileSystem.rename, if_neg (by simp [hs.1])] at hren
    split at hren <;> simp at hren
  | openFile hx hd => exact ⟨⟨hx, hd, List.nil_prefix⟩, fun _ hres ↦ hres⟩
  | openFailed hx hd =>
    refine ⟨trivial, fun res hres ↦ ?_⟩
    rw [Stage.Leads, gatherRest_of_le hx, FileSystem.contents, hd]
    exact hres
  | @fill y X x mp file buf k =>
    obtain ⟨hx, hd, hbuf⟩ := hs
    exact ⟨⟨hx, hd, hbuf.append_take_drop _⟩, fun _ hres ↦ hres⟩
  | decode hend hdec | decodeFailed hend hdec =>
    obtain ⟨hx, hd, hbuf⟩ := hs
    refine ⟨trivial, fun res hres ↦ ?_⟩
    rw [Stage.Leads, gatherRest_of_le hx, FileSystem.contents_of_dir hd,
      ← hbuf.eq_of_length_le hend, Option.bind_some, hdec]
    exact hres
  | @createOut y X x mp entries hx hperm =>
    refine ⟨⟨FileSystem.create_dir_self fs _, by simp⟩, fun res hres ↦ ?_⟩
    rw [Stage.Leads, gatherRest_of_lt hx]
    refine ⟨entries, hperm, ?_⟩
    rw [hres, FileSystem.contents_create]
    rfl
  | @print y file offset p rest =>
    obtain ⟨hd, rfl⟩ := hs
    refine ⟨⟨hd, ?_⟩, fun res hres ↦ ?_⟩
    · rw [FileSystem.writeAt_data_self, FileSystem.splice_length, List.length_append]
    · rw [hres, Stage.Leads, contents_write hd]
      rfl
  | reduced => exact ⟨trivial, fun _ hres ↦ hres⟩

end Calls

/-! ## Whole tasks -/

/-- One worker and the directory. -/
def alone (J : Program) (fs : FileSystem String) (st : Stage) :
    Machine (FileSystem String × Stage) Choice where
  init := (fs, st)
  step s choice := (advance J s.1 s.2 choice).map fun r ↦ (r.1, r.2.1)

section Tasks

variable {J : Program} {fs fs' : FileSystem String} {st st' : Stage} {x X y Y : Nat}
  {filename : String}

/-- **What a worker ends with is what it could end with from the start.** -/
theorem leads_of_reach (h : (alone J fs st).Reach (fun _ _ _ ↦ True) (fs', st'))
    (hs : st.AtEnd fs) :
    ∀ res, st'.Leads J fs'.contents res → st.Leads J fs.contents res := by
  refine (h.invariant (I := fun s ↦ s.2.AtEnd s.1 ∧
    ∀ res, s.2.Leads J s.1.contents res → st.Leads J fs.contents res) ⟨hs, fun _ ↦ id⟩ ?_).2
  intro s choice s' _ hi hstep _
  obtain ⟨⟨fs₁, st₁, reads⟩, hadv, rfl⟩ := Option.map_eq_some_iff.mp hstep
  obtain ⟨hend, hleads⟩ := (Moves.of_advance hadv).leads hi.1
  exact ⟨hend, fun res hres ↦ hi.2 res (hleads res hres)⟩

/-- `mapper`, loop by loop. -/
theorem mapper_eq_mapRest (d : Disk) :
    mapper J.input d filename x Y J.mapf = mapRest J filename x Y 1 d := by
  rw [mapper, mapRest, Nat.add_sub_cancel, Option.map_eq_bind]
  rfl

/-- **A map task that nobody disturbs** does what `mapper` does, -/
theorem mapper_alone (h : (alone J fs (.mapping filename x Y 1)).Reach (fun _ _ _ ↦ True)
    (fs', .reporting (.map x))) :
    mapper J.input fs.contents filename x Y J.mapf = some fs'.contents := by
  rw [mapper_eq_mapRest]
  exact (leads_of_reach h trivial _ rfl).symm

/-- and fails or panics where `mapper` does. -/
theorem mapper_alone_none (hst : st' = .idle ∨ st' = .exited)
    (h : (alone J fs (.mapping filename x Y 1)).Reach (fun _ _ _ ↦ True) (fs', st')) :
    mapper J.input fs.contents filename x Y J.mapf = none := by
  rw [mapper_eq_mapRest]
  rcases hst with rfl | rfl
  · exact (leads_of_reach h trivial none rfl).symm
  · exact (leads_of_reach h trivial none rfl).symm

/-- `reducer`, loop by loop. -/
theorem reducer_eq_gatherRest (range : RangeOrder) (d : Disk) :
    reducer range d y X J.reducef = (gatherRest d y X 1 ∅).map fun mp ↦
      printRest J y (range.order (Grouping.pairs mp)) (d.create (outName (y - 1))) := by
  rw [reducer, gatherRest, Nat.add_sub_cancel, Option.map_eq_bind]
  rfl

/-- **A reduce task that nobody disturbs** does what `reducer` does, with some order of the map, -/
theorem reducer_alone (h : (alone J fs (.gathering y X 1 ∅)).Reach (fun _ _ _ ↦ True)
    (fs', .reporting (.reduce y))) :
    ∃ range, reducer range fs.contents y X J.reducef = some fs'.contents := by
  have hleads := leads_of_reach h trivial _ rfl
  rw [Stage.Leads] at hleads
  cases hgather : gatherRest fs.contents y X 1 ∅ with
  | none => simp [hgather, Reduces] at hleads
  | some mp =>
    rw [hgather] at hleads
    obtain ⟨entries, hperm, hres⟩ := hleads
    refine ⟨RangeOrder.of hperm, ?_⟩
    have horder : (RangeOrder.of hperm).order (Grouping.pairs mp) = entries := if_pos rfl
    rw [reducer_eq_gatherRest, hgather, Option.map_some, hres, horder]

/-- and fails where `reducer` does. -/
theorem reducer_alone_idle (h : (alone J fs (.gathering y X 1 ∅)).Reach (fun _ _ _ ↦ True)
    (fs', .idle)) (range : RangeOrder) : reducer range fs.contents y X J.reducef = none := by
  have hleads := leads_of_reach h trivial none rfl
  rw [Stage.Leads] at hleads
  cases hgather : gatherRest fs.contents y X 1 ∅ with
  | none => rw [reducer_eq_gatherRest, hgather, Option.map_none]
  | some mp => simp [hgather, Reduces] at hleads

/-! ## Getting there -/

/-- The next call, and then what is reached from there. -/
theorem reach_call (choice : Choice) {reads : List Read} {s : FileSystem String × Stage}
    (h : advance J fs st choice = some (fs', st', reads))
    (hs : (alone J fs' st').Reach (fun _ _ _ ↦ True) s) :
    (alone J fs st).Reach (fun _ _ _ ↦ True) s := by
  have hstep : (alone J fs st).step (fs, st) choice = some (fs', st') := by simp [alone, h]
  exact (Machine.Reach.init.step hstep trivial).append hs

theorem exists_encoded {file offset : Nat} (rest : List KeyValue)
    (hs : (Stage.encoding filename x Y y file offset rest).AtEnd fs) :
    ∃ fs', (alone J fs (.encoding filename x Y y file offset rest)).Reach (fun _ _ _ ↦ True)
      (fs', .mapping filename x Y (y + 1)) := by
  induction rest generalizing fs offset with
  | nil =>
    have hren : fs.rename (tmpName x y) (intermediateName x y) =
        some (fs.move (tmpName x y) (intermediateName x y)) := by
      have hne : tmpName x y ≠ intermediateName x y := (intermediateName_ne_tmp x y _).symm
      rw [FileSystem.rename, if_neg (by simp [hs.1]), if_neg hne]
    exact ⟨_, reach_call .go (by rw [advance, hren]) .init⟩
  | cons kv rest ih =>
    obtain ⟨fs', hfs'⟩ := ih (Moves.encode (J := J).leads hs).1
    exact ⟨fs', reach_call .go rfl hfs'⟩

/-- **A map task that nobody disturbs gets done**, if there are reduce tasks. -/
theorem exists_mapper_alone (hY : 1 ≤ Y) (fs : FileSystem String) (y : Nat) :
    ∃ fs', (alone J fs (.mapping filename x Y y)).Reach (fun _ _ _ ↦ True)
      (fs', .reporting (.map x)) := by
  obtain ⟨parts, hparts⟩ := exists_buckets hY (J.mapf filename (J.input filename))
  obtain ⟨k, hk⟩ : ∃ k, Y + 1 - y = k := ⟨_, rfl⟩
  induction k generalizing fs y with
  | zero =>
    have hend : advance J fs (.mapping filename x Y y) .go =
        some (fs, .reporting (.map x), []) := by
      simp only [advance, hparts]
      rw [if_neg (by omega)]
    exact ⟨fs, reach_call .go hend .init⟩
  | succ k ih =>
    have hy : y ≤ Y := by omega
    have hcreate : advance J fs (.mapping filename x Y y) .go = some (fs.create (tmpName x y),
        .encoding filename x Y y (fs.file (tmpName x y)) 0 (parts y), []) := by
      simp only [advance, hparts, if_pos hy]
    obtain ⟨fs₁, hfs₁⟩ := exists_encoded (J := J) _ ((Moves.of_advance hcreate).leads trivial).1
    obtain ⟨fs₂, hfs₂⟩ := ih fs₁ (y + 1) (by omega)
    exact ⟨fs₂, reach_call .go hcreate (hfs₁.append hfs₂)⟩

variable {mp mp' : AList fun _ : String ↦ List String}

/-- The file of one map task is read to its end. -/
theorem reach_decoded {file : Nat} {kvs : List KeyValue} (hx : x ≤ X)
    (hd : fs.dir (intermediateName x y) = some file)
    (hdec : decodeAll (fs.data file).length (fs.data file) = some kvs) :
    (alone J fs (.gathering y X x mp)).Reach (fun _ _ _ ↦ True) (fs, .gathering y X (x + 1)
      (kvs.foldl (fun mp kv ↦ Grouping.push mp kv.key kv.value) mp)) := by
  have hopen : advance J fs (.gathering y X x mp) .go =
      some (fs, .reading y X x mp file [], []) := by
    rw [advance, if_pos hx, hd]
  have hend : ∀ k, advance J fs (.reading y X x mp file (fs.data file)) (.chunk k) =
      some (fs, .gathering y X (x + 1)
        (kvs.foldl (fun mp kv ↦ Grouping.push mp kv.key kv.value) mp), [⟨x, y, some kvs⟩]) := by
    intro k
    simp [advance, hdec]
  refine reach_call .go hopen ?_
  -- one read for all of it, if there is anything, and one that finds the end
  by_cases hempty : fs.data file = []
  · rw [hempty] at hend
    exact reach_call (.chunk 0) (hend 0) .init
  · have hall : advance J fs (.reading y X x mp file []) (.chunk (fs.data file).length) =
        some (fs, .reading y X x mp file (fs.data file), []) := by
      simp [advance, hempty]
    exact reach_call _ hall (reach_call (.chunk 0) (hend 0) .init)

/-- All files are read, if they can be. -/
theorem reach_gathered (hx : x ≤ X + 1) (h : gatherRest fs.contents y X x mp = some mp') :
    (alone J fs (.gathering y X x mp)).Reach (fun _ _ _ ↦ True)
      (fs, .gathering y X (X + 1) mp') := by
  obtain ⟨k, hk⟩ : ∃ k, X + 1 - x = k := ⟨_, rfl⟩
  induction k generalizing x mp with
  | zero =>
    obtain rfl : x = X + 1 := by omega
    rw [gatherRest_of_lt (Nat.lt_succ_self X), Option.some_inj] at h
    exact h ▸ .init
  | succ k ih =>
    have hx' : x ≤ X := by omega
    rw [gatherRest_of_le hx'] at h
    obtain ⟨bytes, hcont, h⟩ := Option.bind_eq_some_iff.mp h
    obtain ⟨kvs, hdec, hrest⟩ := Option.bind_eq_some_iff.mp h
    obtain ⟨file, hd, rfl⟩ := Option.map_eq_some_iff.mp hcont
    exact (reach_decoded hx' hd hdec).append (ih (by omega) hrest (by omega))

theorem exists_printed {file offset : Nat} (rest : List (String × List String))
    (hs : (Stage.printing y file offset rest).AtEnd fs) :
    ∃ fs', (alone J fs (.printing y file offset rest)).Reach (fun _ _ _ ↦ True)
      (fs', .reporting (.reduce y)) := by
  induction rest generalizing fs offset with
  | nil => exact ⟨fs, reach_call .go rfl .init⟩
  | cons p rest ih =>
    obtain ⟨fs', hfs'⟩ := ih (Moves.print (J := J).leads hs).1
    exact ⟨fs', reach_call .go rfl hfs'⟩

/-- **A reduce task that nobody disturbs can end with whatever `reducer` ends with.** -/
theorem exists_reducer_alone {range : RangeOrder} {d : Disk}
    (h : reducer range fs.contents y X J.reducef = some d) :
    ∃ fs', (alone J fs (.gathering y X 1 ∅)).Reach (fun _ _ _ ↦ True)
      (fs', .reporting (.reduce y)) ∧ fs'.contents = d := by
  rw [reducer_eq_gatherRest] at h
  obtain ⟨mp, hgather, rfl⟩ := Option.map_eq_some_iff.mp h
  have hgathered := reach_gathered (J := J) (Nat.le_add_left 1 X) hgather
  have hstep : advance J fs (.gathering y X (X + 1) mp) (.order (range.order (Grouping.pairs mp))) =
      some (fs.create (outName (y - 1)), .printing y (fs.file (outName (y - 1))) 0
        (range.order (Grouping.pairs mp)), []) := by
    rw [advance, if_pos ⟨Nat.lt_succ_self X, range.perm _⟩]
  have hend := ((Moves.of_advance hstep).leads trivial).1
  obtain ⟨fs', hfs'⟩ := exists_printed (J := J) _ hend
  refine ⟨fs', hgathered.append (reach_call _ hstep hfs'), ?_⟩
  have hres := leads_of_reach hfs' hend _ rfl
  rw [Stage.Leads, Option.some_inj, FileSystem.contents_create] at hres
  exact hres

end Tasks

end DistLabs.MR
