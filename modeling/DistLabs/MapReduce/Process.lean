import DistLabs.Lib.FileSystem
import DistLabs.MapReduce.Coordinator
import DistLabs.MapReduce.Files

/-!
# A worker, one call of the operating system at a time

`Worker.lean` runs a task in one go.  Here a worker is a process: between any two of its calls to
the operating system others may do theirs, on the same files.  `Stage` is its place in the code of
`worker.go`, with the local variables that are still needed, and `advance` is what it does next.

* `intermediateFileWriter` creates `mr-x-y.tmp`, writes it one `Encode` at a time at the offset of
  its own descriptor, and renames it.
* `reducer` opens `mr-x-y`, reads it in chunks of any size up to the end, and goes on with what the
  decoder makes of it; then it creates the output file and writes it line by line, in any order of
  the map (`Choice`).

What a `reducer` got out of an intermediate file is recorded as a `Read`; one without result has
failed.  A worker that panics is gone.
-/

set_option autoImplicit false

namespace DistLabs.MR

/-- What is to be computed, and where. -/
structure Program where
  /-- The input files. -/
  input : String → Bytes
  /-- Their names. -/
  fnames : List String
  /-- The number of reduce tasks. -/
  nReduce : Nat
  /-- `mapf`. -/
  mapf : MapFunc
  /-- `reducef`. -/
  reducef : ReduceFunc
  /-- What is in the directory before. -/
  leftovers : FileSystem String := .empty

namespace Program

/-- The file of map task `x`. -/
def filename (J : Program) (x : Nat) : String := J.fnames.getD (x - 1) ""

/-- What map task `x` has for reduce task `y`. -/
def part (J : Program) (x y : Nat) : List KeyValue :=
  MR.part J.input J.mapf J.nReduce (J.filename x) y

/-- All that reduce task `y` has to look at. -/
def partition (J : Program) (y : Nat) : List KeyValue :=
  (List.range' 1 J.fnames.length).flatMap (J.part · y)

end Program

/-- The name under which an intermediate file is written. -/
def tmpName (x y : Nat) : String := intermediateName x y ++ ".tmp"

/-- The place of a worker in its code. -/
inductive Stage
  /-- Between two tasks. -/
  | idle
  /-- In `mapper`, before the file for reduce task `y`. -/
  | mapping (filename : String) (x Y y : Nat)
  /-- In `intermediateFileWriter`, with an open file. -/
  | encoding (filename : String) (x Y y : Nat) (file offset : Nat) (rest : List KeyValue)
  /-- In `reducer`, before the file of map task `x`. -/
  | gathering (y X x : Nat) (mp : AList fun _ : String ↦ List String)
  /-- In `reducer`, with that file open and what was read of it. -/
  | reading (y X x : Nat) (mp : AList fun _ : String ↦ List String) (file : Nat) (buf : Bytes)
  /-- In `reducer`, with the output file open and the entries that are still to be written. -/
  | printing (y file offset : Nat) (rest : List (String × List String))
  /-- Before the call of `ResponseTask`. -/
  | reporting (job : Job)
  /-- The loop has ended. -/
  | exited

/-- The task a worker has. -/
def Stage.job : Stage → Option Job
  | .mapping _ x _ _ | .encoding _ x _ _ _ _ _ => some (.map x)
  | .gathering y _ _ _ | .reading y _ _ _ _ _ | .printing y _ _ _ => some (.reduce y)
  | .reporting job => some job
  | .idle | .exited => none

/-- What `eachCall` does with an assignment. -/
def TaskAssignment.begin (tap : TaskAssignment) : Stage :=
  match tap.taskType with
  | .exit => .exited
  | .none => .idle
  | .map => .mapping tap.filename tap.lowerX tap.Y 1
  | .reduce => .gathering tap.lowerY tap.X 1 ∅

/-- What is not up to the worker. -/
inductive Choice
  /-- Nothing. -/
  | go
  /-- A read that returns at most `k + 1` bytes. -/
  | chunk (k : Nat)
  /-- The order in which the map is iterated. -/
  | order (entries : List (String × List String))

/-- What a `reducer` got out of `mr-x-y`. -/
structure Read where
  /-- The map task. -/
  x : Nat
  /-- The reduce task. -/
  y : Nat
  /-- The result; `none` is an error. -/
  kvs : Option (List KeyValue)
deriving DecidableEq, Repr

variable [Codec KeyValue] (J : Program)

/-- The next call to the operating system; after an error the worker asks for another task. -/
def advance (fs : FileSystem String) :
    Stage → Choice → Option (FileSystem String × Stage × List Read)
  | .mapping filename x Y y, .go =>
    match buckets Y (J.mapf filename (J.input filename)) with
    | none => some (fs, .exited, [])
    | some mp =>
      if y ≤ Y then
        some (fs.create (tmpName x y),
          .encoding filename x Y y (fs.file (tmpName x y)) 0 (mp y), [])
      else some (fs, .reporting (.map x), [])
  | .encoding filename x Y y file offset (kv :: rest), .go =>
    some (fs.writeAt file offset (Codec.write kv),
      .encoding filename x Y y file (offset + (Codec.write kv).length) rest, [])
  | .encoding filename x Y y _ _ [], .go =>
    match fs.rename (tmpName x y) (intermediateName x y) with
    | none => some (fs, .idle, [])
    | some fs' => some (fs', .mapping filename x Y (y + 1), [])
  | .gathering y X x mp, .go =>
    if x ≤ X then
      match fs.dir (intermediateName x y) with
      | none => some (fs, .idle, [⟨x, y, none⟩])
      | some file => some (fs, .reading y X x mp file [], [])
    else none
  | .reading y X x mp file buf, .chunk k =>
    let chunk := ((fs.data file).drop buf.length).take (k + 1)
    if chunk = [] then
      match decodeAll buf.length buf with
      | none => some (fs, .idle, [⟨x, y, none⟩])
      | some kvs => some (fs, .gathering y X (x + 1)
          (kvs.foldl (fun mp kv ↦ Grouping.push mp kv.key kv.value) mp), [⟨x, y, some kvs⟩])
    else some (fs, .reading y X x mp file (buf ++ chunk), [])
  | .gathering y X x mp, .order entries =>
    if X < x ∧ entries.Perm (Grouping.pairs mp) then
      some (fs.create (outName (y - 1)), .printing y (fs.file (outName (y - 1))) 0 entries, [])
    else none
  | .printing y file offset (p :: rest), .go =>
    let bytes := line p.1 (J.reducef p.1 p.2)
    some (fs.writeAt file offset bytes, .printing y file (offset + bytes.length) rest, [])
  | .printing y _ _ [], .go => some (fs, .reporting (.reduce y), [])
  | _, _ => none

/-! ## Outcomes -/

/-- The outcomes of `advance`. -/
inductive Moves (fs : FileSystem String) : Stage → FileSystem String → Stage → List Read → Prop
  /-- `yOf` panics. -/
  | panicked {filename x Y y} (h : buckets Y (J.mapf filename (J.input filename)) = none) :
      Moves fs (.mapping filename x Y y) fs .exited []
  /-- `os.Create` of an intermediate file. -/
  | create {filename x Y y mp} (h : y ≤ Y)
      (hmp : buckets Y (J.mapf filename (J.input filename)) = some mp) :
      Moves fs (.mapping filename x Y y) (fs.create (tmpName x y))
        (.encoding filename x Y y (fs.file (tmpName x y)) 0 (mp y)) []
  /-- The loop of `mapper` is over. -/
  | mapped {filename x Y y mp} (h : Y < y)
      (hmp : buckets Y (J.mapf filename (J.input filename)) = some mp) :
      Moves fs (.mapping filename x Y y) fs (.reporting (.map x)) []
  /-- `enc.Encode`. -/
  | encode {filename x Y y file offset kv rest} :
      Moves fs (.encoding filename x Y y file offset (kv :: rest))
        (fs.writeAt file offset (Codec.write kv))
        (.encoding filename x Y y file (offset + (Codec.write kv).length) rest) []
  /-- `os.Rename`. -/
  | rename {filename x Y y file offset fs'}
      (h : fs.rename (tmpName x y) (intermediateName x y) = some fs') :
      Moves fs (.encoding filename x Y y file offset []) fs' (.mapping filename x Y (y + 1)) []
  /-- `os.Rename` fails. -/
  | renameFailed {filename x Y y file offset}
      (h : fs.rename (tmpName x y) (intermediateName x y) = none) :
      Moves fs (.encoding filename x Y y file offset []) fs .idle []
  /-- `os.Open` of an intermediate file. -/
  | openFile {y X x mp file} (hx : x ≤ X) (h : fs.dir (intermediateName x y) = some file) :
      Moves fs (.gathering y X x mp) fs (.reading y X x mp file []) []
  /-- `os.Open` fails. -/
  | openFailed {y X x mp} (hx : x ≤ X) (h : fs.dir (intermediateName x y) = none) :
      Moves fs (.gathering y X x mp) fs .idle [⟨x, y, none⟩]
  /-- The decoder reads on. -/
  | fill {y X x mp file buf k} : Moves fs (.reading y X x mp file buf) fs
      (.reading y X x mp file (buf ++ ((fs.data file).drop buf.length).take (k + 1))) []
  /-- The decoder has come to the end. -/
  | decode {y X x mp file buf kvs} (hend : (fs.data file).length ≤ buf.length)
      (h : decodeAll buf.length buf = some kvs) : Moves fs (.reading y X x mp file buf) fs
      (.gathering y X (x + 1) (kvs.foldl (fun mp kv ↦ Grouping.push mp kv.key kv.value) mp))
      [⟨x, y, some kvs⟩]
  /-- The decoder returns an error. -/
  | decodeFailed {y X x mp file buf} (hend : (fs.data file).length ≤ buf.length)
      (h : decodeAll buf.length buf = none) :
      Moves fs (.reading y X x mp file buf) fs .idle [⟨x, y, none⟩]
  /-- `os.Create` of the output file. -/
  | createOut {y X x mp entries} (hx : X < x) (h : entries.Perm (Grouping.pairs mp)) :
      Moves fs (.gathering y X x mp) (fs.create (outName (y - 1)))
        (.printing y (fs.file (outName (y - 1))) 0 entries) []
  /-- `fmt.Fprintf`. -/
  | print {y file offset p rest} : Moves fs (.printing y file offset (p :: rest))
      (fs.writeAt file offset (line p.1 (J.reducef p.1 p.2)))
      (.printing y file (offset + (line p.1 (J.reducef p.1 p.2)).length) rest) []
  /-- The loop of `reducer` is over. -/
  | reduced {y file offset} :
      Moves fs (.printing y file offset []) fs (.reporting (.reduce y)) []

variable {J} {fs fs' : FileSystem String} {st st' : Stage} {reads : List Read}

/-- **The outcomes are all there is.** -/
theorem Moves.of_advance {choice : Choice} (h : advance J fs st choice = some (fs', st', reads)) :
    Moves J fs st fs' st' reads := by
  cases st with
  | idle | reporting | exited => cases choice <;> simp [advance] at h
  | mapping filename x Y y =>
    cases choice with
    | go =>
      rw [advance] at h
      split at h
      · next hmp =>
        cases h
        exact .panicked hmp
      · next hmp =>
        split at h
        · next hy =>
          cases h
          exact .create hy hmp
        · next hy =>
          cases h
          exact .mapped (by omega) hmp
    | chunk | order => simp [advance] at h
  | encoding filename x Y y file offset rest =>
    cases choice with
    | go =>
      cases rest with
      | cons kv rest =>
        cases h
        exact .encode
      | nil =>
        rw [advance] at h
        split at h
        · next hren =>
          cases h
          exact .renameFailed hren
        · next hren =>
          cases h
          exact .rename hren
    | chunk | order => cases rest <;> simp [advance] at h
  | gathering y X x mp =>
    cases choice with
    | go =>
      rw [advance] at h
      split at h
      · next hx =>
        split at h
        · next hd =>
          cases h
          exact .openFailed hx hd
        · next hd =>
          cases h
          exact .openFile hx hd
      · simp at h
    | chunk => simp [advance] at h
    | order entries =>
      rw [advance] at h
      split at h
      · next hx =>
        cases h
        exact .createOut hx.1 hx.2
      · simp at h
  | reading y X x mp file buf =>
    cases choice with
    | go | order => simp [advance] at h
    | chunk k =>
      rw [advance] at h
      split at h
      · next hchunk =>
        have hend : (fs.data file).length ≤ buf.length := by
          simpa using hchunk
        split at h
        · next hdec =>
          cases h
          exact .decodeFailed hend hdec
        · next hdec =>
          cases h
          exact .decode hend hdec
      · cases h
        exact .fill
  | printing y file offset rest =>
    cases choice with
    | go =>
      cases rest with
      | cons p rest =>
        cases h
        exact .print
      | nil =>
        cases h
        exact .reduced
    | chunk | order => cases rest <;> simp [advance] at h

/-! ## Names -/

omit [Codec KeyValue] in
theorem tmpName_ne_outName (x y k : Nat) : tmpName x y ≠ outName k := by
  intro h
  have hdot : '.' ∈ (outName k).toList := by
    rw [← h, tmpName, String.toList_append]
    exact List.mem_append_right _ (by decide)
  simp [toList_outName, not_mem_toDigits] at hdot

/-! ## What a worker touches -/

namespace Stage

/-- The temporary file that a worker is writing. -/
def tmp : Stage → Option String
  | .encoding _ x _ y _ _ _ => some (tmpName x y)
  | .idle | .mapping _ _ _ _ | .gathering _ _ _ _ | .reading _ _ _ _ _ _ | .printing _ _ _ _
  | .reporting _ | .exited => none

/-- The output file that a worker is writing, or has written and not reported. -/
def out : Stage → Option String
  | .printing y _ _ _ | .reporting (.reduce y) => some (outName (y - 1))
  | .idle | .mapping _ _ _ _ | .encoding _ _ _ _ _ _ _ | .gathering _ _ _ _
  | .reading _ _ _ _ _ _ | .reporting (.map _) | .exited => none

/-- The reduce task of a worker that has read all its files, and creates its output file next. -/
def ready : Stage → Option Nat
  | .gathering y X x _ => if X < x then some y else none
  | .idle | .mapping _ _ _ _ | .encoding _ _ _ _ _ _ _ | .reading _ _ _ _ _ _ | .printing _ _ _ _
  | .reporting _ | .exited => none

/-- The file that a worker creates, if it goes from one place to the other. -/
def created : Stage → Stage → Option String
  | .mapping _ x _ y, .encoding _ _ _ _ _ _ _ => some (tmpName x y)
  | .gathering y _ _ _, .printing _ _ _ _ => some (outName (y - 1))
  | _, _ => none

/-- The name that a worker gives to its temporary file. -/
def published : Stage → Option String
  | .encoding _ x _ y _ _ [] => some (intermediateName x y)
  | _ => none

/-- The names of the files that a worker creates, writes or moves on its way from one place to the
other. -/
def Touches (st st' : Stage) (name : String) : Prop :=
  st.created st' = some name ∨ st.tmp = some name ∨ st.published = some name ∨ st.out = some name

/-- The file it writes is still under the name under which it was opened. -/
def Owns (fs : FileSystem String) : Stage → Prop
  | .encoding _ x _ y file _ _ => fs.dir (tmpName x y) = some file
  | .printing y file _ _ => fs.dir (outName (y - 1)) = some file
  | _ => True

/-! ### Which names are which -/

section Names

variable {st st' : Stage} {name : String}

omit [Codec KeyValue]

theorem exists_of_tmp (h : st.tmp = some name) : ∃ x y, name = tmpName x y := by
  cases st <;> simp only [tmp, Option.some_inj, reduceCtorEq] at h
  exact ⟨_, _, h.symm⟩

theorem exists_of_out (h : st.out = some name) : ∃ k, name = outName k := by
  unfold out at h
  split at h <;> simp only [Option.some_inj, reduceCtorEq] at h
  · exact ⟨_, h.symm⟩
  · exact ⟨_, h.symm⟩

theorem exists_of_published (h : st.published = some name) :
    ∃ x y, name = intermediateName x y := by
  unfold published at h
  split at h <;> simp only [Option.some_inj, reduceCtorEq] at h
  exact ⟨_, _, h.symm⟩

theorem exists_of_created (h : st.created st' = some name) :
    (∃ x y, name = tmpName x y) ∨ ∃ k, name = outName k := by
  unfold created at h
  split at h <;> simp only [Option.some_inj, reduceCtorEq] at h
  · exact Or.inl ⟨_, _, h.symm⟩
  · exact Or.inr ⟨_, h.symm⟩

theorem touches_tmpName {x y : Nat} (h : st.Touches st' (tmpName x y)) :
    st.created st' = some (tmpName x y) ∨ st.tmp = some (tmpName x y) := by
  rcases h with h | h | h | h
  · exact Or.inl h
  · exact Or.inr h
  · obtain ⟨x', y', heq⟩ := exists_of_published h
    exact absurd heq.symm (intermediateName_ne_tmp x' y' _)
  · obtain ⟨k, heq⟩ := exists_of_out h
    exact absurd heq (tmpName_ne_outName x y k)

theorem touches_outName {k : Nat} (h : st.Touches st' (outName k)) :
    st.created st' = some (outName k) ∨ st.out = some (outName k) := by
  rcases h with h | h | h | h
  · exact Or.inl h
  · obtain ⟨x, y, heq⟩ := exists_of_tmp h
    exact absurd heq.symm (tmpName_ne_outName x y k)
  · obtain ⟨x, y, heq⟩ := exists_of_published h
    exact absurd heq.symm (intermediateName_ne_outName x y k)
  · exact Or.inr h

theorem touches_intermediateName {x y : Nat} (h : st.Touches st' (intermediateName x y)) :
    st.published = some (intermediateName x y) := by
  rcases h with h | h | h | h
  · rcases exists_of_created h with ⟨x', y', heq⟩ | ⟨k, heq⟩
    · exact absurd heq (intermediateName_ne_tmp x y _)
    · exact absurd heq (intermediateName_ne_outName x y k)
  · obtain ⟨x', y', heq⟩ := exists_of_tmp h
    exact absurd heq (intermediateName_ne_tmp x y _)
  · exact h
  · obtain ⟨k, heq⟩ := exists_of_out h
    exact absurd heq (intermediateName_ne_outName x y k)

end Names

end Stage

/-- **A worker leaves other files alone**, if the one it writes is still its own. -/
theorem Moves.frame (h : Moves J fs st fs' st' reads) (ho : st.Owns fs) :
    fs.Frame fs' (st.Touches st') := by
  cases h with
  | create => exact (FileSystem.Frame.create fs _).mono fun _ hn ↦ Or.inl (congrArg some hn.symm)
  | encode =>
    exact (FileSystem.Frame.writeAt ho _ _).mono fun _ hn ↦ Or.inr (Or.inl (congrArg some hn.symm))
  | @rename filename x Y y file offset _ hren =>
    obtain ⟨rfl, -⟩ := FileSystem.rename_spec hren (intermediateName_ne_tmp x y _).symm
    refine (FileSystem.Frame.move fs _ _).mono ?_
    rintro _ (rfl | rfl)
    · exact Or.inr (Or.inl rfl)
    · exact Or.inr (Or.inr (Or.inl rfl))
  | createOut => exact (FileSystem.Frame.create fs _).mono fun _ hn ↦ Or.inl (congrArg some hn.symm)
  | print =>
    refine (FileSystem.Frame.writeAt ho _ _).mono fun _ hn ↦ ?_
    exact Or.inr (Or.inr (Or.inr (congrArg some hn.symm)))
  | panicked | mapped | renameFailed | openFile | openFailed | fill | decode | decodeFailed
  | reduced => exact .refl fs

/-- The name of an output file leads where it has led, or to a new file if it has led nowhere. -/
theorem Moves.dir_outName (h : Moves J fs st fs' st' reads) (k : Nat) :
    fs'.dir (outName k) = fs.dir (outName k) ∨
      fs.dir (outName k) = none ∧ fs'.dir (outName k) = some fs.next := by
  cases h with
  | @create filename x Y y =>
    exact Or.inl (FileSystem.create_dir_of_ne fs (tmpName_ne_outName x y k).symm)
  | @rename filename x Y y file offset _ hren =>
    obtain ⟨rfl, -⟩ := FileSystem.rename_spec hren (intermediateName_ne_tmp x y _).symm
    rw [FileSystem.move_dir, if_neg (tmpName_ne_outName x y k).symm,
      if_neg (intermediateName_ne_outName x y k).symm]
    exact Or.inl rfl
  | @createOut y X x mp entries =>
    by_cases heq : outName k = outName (y - 1)
    · rw [heq, FileSystem.create_dir_self]
      cases hd : fs.dir (outName (y - 1)) with
      | none => exact Or.inr ⟨rfl, congrArg some (FileSystem.file_of_none hd)⟩
      | some i => exact Or.inl (congrArg some (FileSystem.file_of_dir hd))
    · exact Or.inl (FileSystem.create_dir_of_ne fs heq)
  | encode | print | panicked | mapped | renameFailed | openFile | openFailed | fill | decode
  | decodeFailed | reduced => exact Or.inl rfl

/-- Once there is an output file, its name leads to it for good. -/
theorem Moves.dir_outName_stays (h : Moves J fs st fs' st' reads) {k i : Nat}
    (hd : fs.dir (outName k) = some i) : fs'.dir (outName k) = some i := by
  rcases h.dir_outName k with hsame | ⟨hnone, -⟩
  · exact hsame.trans hd
  · simp [hd] at hnone

/-- It never leads to a file that was there for something else. -/
theorem Moves.dir_outName_ne (h : Moves J fs st fs' st' reads) {k i : Nat} (hi : i < fs.next)
    (hd : fs.dir (outName k) ≠ some i) : fs'.dir (outName k) ≠ some i := by
  rcases h.dir_outName k with hsame | ⟨-, hnew⟩
  · rwa [hsame]
  · rw [hnew, Ne, Option.some_inj]
    omega

theorem Moves.next_le (h : Moves J fs st fs' st' reads) : fs.next ≤ fs'.next := by
  cases h with
  | create | createOut => exact (FileSystem.Frame.create fs _).next_le
  | @rename filename x Y y file offset _ hren =>
    obtain ⟨rfl, -⟩ := FileSystem.rename_spec hren (intermediateName_ne_tmp x y _).symm
    exact Nat.le_refl _
  | encode | print | panicked | mapped | renameFailed | openFile | openFailed | fill | decode
  | decodeFailed | reduced => exact Nat.le_refl _

/-- A worker keeps its task until it has reported it or gives up. -/
theorem Moves.job (h : Moves J fs st fs' st' reads) : st'.job = st.job ∨ st'.job = none := by
  cases h <;> first | exact Or.inl rfl | exact Or.inr rfl

/-- A worker has created the temporary file that it writes. -/
theorem Moves.tmp (h : Moves J fs st fs' st' reads) {name : String} (ht : st'.tmp = some name) :
    st.created st' = some name ∨ st.tmp = some name := by
  cases h with
  | create => exact Or.inl ht
  | encode => exact Or.inr ht
  | _ => simp [Stage.tmp] at ht

/-- A worker has created the output file that it writes or has written. -/
theorem Moves.out (h : Moves J fs st fs' st' reads) {name : String} (ho : st'.out = some name) :
    st.created st' = some name ∨ st.out = some name := by
  cases h with
  | createOut => exact Or.inl ho
  | print | reduced => exact Or.inr ho
  | _ => simp [Stage.out] at ho

/-- An output file is created by a worker that has read all its files. -/
theorem Moves.ready_of_created (h : Moves J fs st fs' st' reads) {k : Nat}
    (hc : st.created st' = some (outName k)) :
    ∃ y, st.ready = some y ∧ st.job = some (.reduce y) ∧ k = y - 1 := by
  cases h with
  | createOut hx => exact ⟨_, if_pos hx, rfl, (outName_inj (Option.some_inj.mp hc)).symm⟩
  | create => exact absurd (Option.some_inj.mp hc) (tmpName_ne_outName _ _ k)
  | _ => simp [Stage.created] at hc

/-- What a worker was told is what the coordinator knows, and its loops are in their range. -/
def Stage.Begun (J : Program) : Stage → Prop
  | .mapping filename x Y y => filename = J.filename x ∧ Y = J.nReduce ∧ 1 ≤ y
  | .encoding filename x Y y _ _ _ => filename = J.filename x ∧ Y = J.nReduce ∧ 1 ≤ y ∧ y ≤ Y
  | .gathering _ X x _ => X = J.fnames.length ∧ 1 ≤ x ∧ x ≤ X + 1
  | .reading _ X x _ _ _ => X = J.fnames.length ∧ 1 ≤ x ∧ x ≤ X
  | .printing _ _ _ _ | .reporting _ | .idle | .exited => True

theorem Moves.begun (h : Moves J fs st fs' st' reads) (hb : st.Begun J) : st'.Begun J := by
  cases h with
  | create hy => exact ⟨hb.1, hb.2.1, hb.2.2, hy⟩
  | encode => exact hb
  | rename => exact ⟨hb.1, hb.2.1, by omega⟩
  | openFile hx => exact ⟨hb.1, hb.2.1, hx⟩
  | fill => exact hb
  | decode =>
    obtain ⟨hX, h1, h2⟩ := hb
    exact ⟨hX, by omega, by omega⟩
  | panicked | mapped | renameFailed | openFailed | decodeFailed | createOut | print | reduced =>
    trivial

end DistLabs.MR
