import DistLabs.Lib.Machine
import DistLabs.Porcupine.Single
import Mathlib.Algebra.BigOperators.Group.Finset.Piecewise

/-!
# Checking the parts of a history in parallel

`checkParallel`: one goroutine for each part runs `checkSingle` and sends its verdict over a
buffered channel, and the main goroutine takes the verdicts until it has all of them, until one is
negative or until the time is up.  It may then tell the others to stop, through a flag they look at
in every turn of their loops; a goroutine that is stopped sends `false`, whatever its part is.

The goroutines take steps in any order.  `Inv` says what is known in between: while nobody
has been stopped, what is in the channel are true verdicts.

What `checkParallel` returns besides the result (`linearizationInfo`) is kept only up to the slice
`longest` it is made of.
-/

set_option autoImplicit false

namespace DistLabs.Porcupine

/-- `CheckResult`. -/
inductive CheckResult
  | unknown
  | ok
  | illegal
deriving DecidableEq, Repr

/-- The arguments of `checkParallel`. -/
structure Job (S I O : Type) where
  /-- The model. -/
  model : Model S I O
  /-- The parts of the history. -/
  history : List (List (Entry I O))
  /-- Whether partial results are wanted. -/
  computeInfo : Bool
  /-- Whether there is a timeout. -/
  timeout : Bool

/-- A goroutine. -/
inductive Routine (S I O : Type)
  /-- It is in the loop of `checkSingle`. -/
  | running (L : Loop S I O)
  /-- `checkSingle` has returned. -/
  | returned (ok : Bool) (longest : Longest)
  /-- It has sent the verdict. -/
  | sent

/-- Where the main goroutine is. -/
inductive Main
  /-- In the loop with the `select`. -/
  | loop
  /-- After the loop. -/
  | drain
  /-- It has returned. -/
  | returned (result : CheckResult)
deriving DecidableEq, Repr

/-- The variables of `checkParallel`, and its goroutines. -/
structure Parallel (S I O : Type) where
  /-- The goroutines. -/
  routines : List (Routine S I O)
  /-- What they have found. -/
  longest : List (Option Longest)
  /-- The channel. -/
  results : List Bool
  /-- The flag that stops them. -/
  kill : Bool
  /-- The main goroutine. -/
  main : Main
  /-- How many verdicts it has taken. -/
  count : Nat
  /-- Whether all of them were positive. -/
  ok : Bool
  /-- Whether the time is up. -/
  timedOut : Bool

/-- What can happen next. -/
inductive Tick
  /-- A goroutine does one turn of its loop. -/
  | turn (i : Nat)
  /-- A goroutine sends its verdict. -/
  | send (i : Nat)
  /-- The main goroutine takes a verdict. -/
  | receive
  /-- The time is up. -/
  | timeout
  /-- The main goroutine returns. -/
  | finish
deriving DecidableEq, Repr

namespace Parallel

variable {S I O : Type}

/-- All goroutines are started. -/
def start (J : Job S I O) : Parallel S I O where
  routines := J.history.map fun h ↦ .running (.start J.model h)
  longest := J.history.map fun _ ↦ none
  results := []
  kill := false
  main := .loop
  count := 0
  ok := true
  timedOut := false

/-- One turn of goroutine `i`; a panic is not a step. -/
def turn (J : Job S I O) (s : Parallel S I O) (i : Nat) : Option (Parallel S I O) :=
  match J.history[i]?, s.routines[i]? with
  | some h, some (.running L) =>
    match L.turn J.model J.computeInfo s.kill h.length with
    | none => none
    | some (.next L') => some { s with routines := s.routines.set i (.running L') }
    | some (.return ok longest) =>
      some { s with routines := s.routines.set i (.returned ok longest) }
  | _, _ => none

/-- Goroutine `i` writes `longest[i]` and sends its verdict. -/
def send (J : Job S I O) (s : Parallel S I O) (i : Nat) : Option (Parallel S I O) :=
  match s.routines[i]? with
  | some (.returned ok longest) =>
    if s.results.length < J.history.length then
      some { s with
        routines := s.routines.set i .sent
        longest := s.longest.set i (some longest)
        results := s.results ++ [ok] }
    else none
  | _ => none

/-- The main goroutine in its loop, with a verdict. -/
def take (J : Job S I O) (s : Parallel S I O) (result : Bool) (rest : List Bool) :
    Parallel S I O :=
  let s := { s with results := rest, count := s.count + 1, ok := s.ok && result }
  if !s.ok && !J.computeInfo then { s with kill := true, main := .drain }
  else if s.count ≥ J.history.length then { s with main := .drain }
  else s

/-- The main goroutine takes a verdict; after its loop it only counts. -/
def receive (J : Job S I O) (s : Parallel S I O) : Option (Parallel S I O) :=
  match s.results with
  | [] => none
  | result :: rest =>
    match s.main with
    | .loop => some (s.take J result rest)
    | .drain =>
      if J.computeInfo = true ∧ s.count < J.history.length then
        some { s with results := rest, count := s.count + 1 }
      else none
    | .returned _ => none

/-- The time is up. -/
def expire (J : Job S I O) (s : Parallel S I O) : Option (Parallel S I O) :=
  if J.timeout = true ∧ s.main = .loop then
    some { s with timedOut := true, kill := true, main := .drain }
  else none

/-- The result of `checkParallel`. -/
def result (s : Parallel S I O) : CheckResult :=
  if !s.ok then .illegal else if s.timedOut then .unknown else .ok

/-- The main goroutine returns. -/
def finish (J : Job S I O) (s : Parallel S I O) : Option (Parallel S I O) :=
  if s.main = .drain ∧ ¬ (J.computeInfo = true ∧ s.count < J.history.length) then
    some { s with main := .returned s.result }
  else none

/-- One step. -/
def step (J : Job S I O) (s : Parallel S I O) : Tick → Option (Parallel S I O)
  | .turn i => s.turn J i
  | .send i => s.send J i
  | .receive => s.receive J
  | .timeout => s.expire J
  | .finish => s.finish J

/-- `checkParallel`. -/
def machine (J : Job S I O) : Machine (Parallel S I O) Tick := ⟨start J, step J⟩

/-! ## Steps -/

variable {J : Job S I O} {s s' : Parallel S I O}

/-- What a step can do. -/
inductive Step (J : Job S I O) (s : Parallel S I O) : Parallel S I O → Prop
  | next {i : Nat} {h : List (Entry I O)} {L L' : Loop S I O} (hi : J.history[i]? = some h)
      (hr : s.routines[i]? = some (.running L))
      (ht : L.turn J.model J.computeInfo s.kill h.length = some (.next L')) :
      Step J s { s with routines := s.routines.set i (.running L') }
  | return {i : Nat} {h : List (Entry I O)} {L : Loop S I O} {ok : Bool} {longest : Longest}
      (hi : J.history[i]? = some h) (hr : s.routines[i]? = some (.running L))
      (ht : L.turn J.model J.computeInfo s.kill h.length = some (.return ok longest)) :
      Step J s { s with routines := s.routines.set i (.returned ok longest) }
  | send {i : Nat} {ok : Bool} {longest : Longest}
      (hr : s.routines[i]? = some (.returned ok longest)) :
      Step J s { s with
        routines := s.routines.set i .sent
        longest := s.longest.set i (some longest)
        results := s.results ++ [ok] }
  | take {result : Bool} {rest : List Bool} (hm : s.main = .loop)
      (hr : s.results = result :: rest) : Step J s (s.take J result rest)
  | drain {result : Bool} {rest : List Bool} (hm : s.main = .drain)
      (hr : s.results = result :: rest) (hinfo : J.computeInfo = true)
      (hc : s.count < J.history.length) :
      Step J s { s with results := rest, count := s.count + 1 }
  | expire (ht : J.timeout = true) (hm : s.main = .loop) :
      Step J s { s with timedOut := true, kill := true, main := .drain }
  | finish (hm : s.main = .drain) (hc : J.computeInfo = true → J.history.length ≤ s.count) :
      Step J s { s with main := .returned s.result }

theorem Step.of_step {a : Tick} (h : s.step J a = some s') : Step J s s' := by
  cases a with
  | turn i =>
    rw [step, Parallel.turn] at h
    split at h
    · next hist L hi hr =>
      split at h
      · simp at h
      · next L' ht =>
        obtain rfl := Option.some_inj.mp h
        exact .next hi hr ht
      · next ok longest ht =>
        obtain rfl := Option.some_inj.mp h
        exact .return hi hr ht
    · simp at h
  | send i =>
    rw [step, Parallel.send] at h
    split at h
    · next ok longest hr =>
      split at h
      · obtain rfl := Option.some_inj.mp h
        exact .send hr
      · simp at h
    · simp at h
  | receive =>
    rw [step, Parallel.receive] at h
    split at h
    · simp at h
    · next result rest hr =>
      split at h
      · next hm =>
        obtain rfl := Option.some_inj.mp h
        exact .take hm hr
      · next hm =>
        split at h
        · next hc =>
          obtain rfl := Option.some_inj.mp h
          exact .drain hm hr hc.1 hc.2
        · simp at h
      · simp at h
  | timeout =>
    rw [step, Parallel.expire] at h
    split at h
    · next hc =>
      obtain rfl := Option.some_inj.mp h
      exact .expire hc.1 hc.2
    · simp at h
  | finish =>
    rw [step, Parallel.finish] at h
    split at h
    · next hc =>
      obtain rfl := Option.some_inj.mp h
      exact .finish hc.1 fun hinfo ↦ not_lt.mp fun hlt ↦ hc.2 ⟨hinfo, hlt⟩
    · simp at h

theorem result_eq_ok : s.result = .ok ↔ s.ok = true ∧ s.timedOut = false := by
  rw [result]
  cases s.ok <;> cases s.timedOut <;> simp

theorem result_eq_illegal : s.result = .illegal ↔ s.ok = false := by
  rw [result]
  cases s.ok <;> cases s.timedOut <;> simp

theorem result_eq_unknown : s.result = .unknown ↔ s.ok = true ∧ s.timedOut = true := by
  rw [result]
  cases s.ok <;> cases s.timedOut <;> simp

/-! ## What is known about a run -/

/-- A goroutine for a part with verdict `v` and partial orders `l`, while `kill` has this value. -/
def RoutineOk (J : Job S I O) (h : List (Entry I O)) (v : Bool) (l : Longest) (kill : Bool)
    (longest : Option (Option Longest)) : Routine S I O → Prop
  | .running L => ∃ k, L.run J.model J.computeInfo h.length k = some (v, l)
  | .returned ok l' => kill = false → ok = v ∧ l' = l
  | .sent => kill = false → longest = some (some l)

variable {h : List (Entry I O)} {v : Bool} {l : Longest} {kill : Bool} {L L' : Loop S I O}
  {longest : Option (Option Longest)} {r : Routine S I O}

/-- Telling a goroutine to stop leaves it in order. -/
theorem RoutineOk.stop (hr : RoutineOk J h v l kill longest r) :
    RoutineOk J h v l true longest r := by
  cases r with
  | running L => exact hr
  | returned ok l' => intro hk; simp at hk
  | sent => intro hk; simp at hk

/-- A turn after which the loop goes on. -/
theorem RoutineOk.next (hr : RoutineOk J h v l kill longest (.running L))
    (ht : L.turn J.model J.computeInfo kill h.length = some (.next L')) :
    kill = false ∧ ∃ k, L.run J.model J.computeInfo h.length (k + 1) = some (v, l) ∧
      L'.run J.model J.computeInfo h.length k = some (v, l) := by
  have hk : kill = false := by
    rw [← Bool.not_eq_true]
    rintro rfl
    rw [Loop.turn] at ht
    split at ht <;> simp at ht
  subst hk
  obtain ⟨k, hk⟩ := hr
  cases k with
  | zero => simp [Loop.run] at hk
  | succ k =>
    refine ⟨rfl, k, hk, ?_⟩
    rwa [Loop.run, ht] at hk

/-- The last turn. -/
theorem RoutineOk.return {ok : Bool} {l' : Longest}
    (hr : RoutineOk J h v l kill longest (.running L))
    (ht : L.turn J.model J.computeInfo kill h.length = some (.return ok l')) :
    kill = false → ok = v ∧ l' = l := by
  rintro rfl
  obtain ⟨k, hk⟩ := hr
  cases k with
  | zero => simp [Loop.run] at hk
  | succ k =>
    rw [Loop.run, ht, Option.some_inj, Prod.mk.injEq] at hk
    exact hk

/-- **No goroutine panics.** -/
theorem RoutineOk.turn_ne_none (hr : RoutineOk J h v l kill longest (.running L)) :
    L.turn J.model J.computeInfo kill h.length ≠ none := by
  intro ht
  cases kill with
  | true =>
    rw [Loop.turn] at ht
    split at ht <;> simp at ht
  | false =>
    obtain ⟨k, hk⟩ := hr
    cases k with
    | zero => simp [Loop.run] at hk
    | succ k => simp [Loop.run, ht] at hk

/-- What holds in every run, if the parts have the verdicts `v` and the partial orders `l`. -/
structure Inv (J : Job S I O) (v : ℕ → Bool) (l : ℕ → Longest) (s : Parallel S I O) : Prop where
  /-- There is one goroutine for each part. -/
  routines_length : s.routines.length = J.history.length
  /-- And a place for what it finds. -/
  longest_length : s.longest.length = J.history.length
  /-- The goroutines are in order. -/
  routine : ∀ i h r, J.history[i]? = some h → s.routines[i]? = some r →
    RoutineOk J h (v i) (l i) s.kill s.longest[i]? r
  /-- A negative verdict is true. -/
  wrong : s.ok = false → ∃ i < J.history.length, v i = false
  /-- The time is up only if there is a timeout. -/
  clock : s.timedOut = true → J.timeout = true
  /-- In its loop the main goroutine has stopped nobody and waits for a verdict. -/
  loop : s.main = .loop → s.kill = false ∧ s.timedOut = false ∧
    (J.history ≠ [] → s.count < J.history.length)
  /-- While partial orders are wanted, only the timeout stops goroutines. -/
  stopped : J.computeInfo = true → s.kill = true → s.timedOut = true
  /-- The verdicts in the order in which they were sent: those that were taken, and those that are
  in the channel. -/
  order : ∃ order : List ℕ, order.Nodup ∧ (∀ i, i ∈ order ↔ s.routines[i]? = some .sent) ∧
    order.length = s.count + s.results.length ∧
    (s.kill = false → (order.drop s.count).map v = s.results) ∧
    (s.ok = true → s.timedOut = false → ∀ i ∈ order.take s.count, v i = true)
  /-- It leaves the loop with all verdicts, or with a reason. -/
  left : s.main ≠ .loop → s.ok = true → s.timedOut = false → J.history.length ≤ s.count
  /-- Asked for partial orders, it waits for all goroutines. -/
  waited : J.computeInfo = true → ∀ r, s.main = .returned r → J.history.length ≤ s.count
  /-- What it returns. -/
  result_eq : ∀ r, s.main = .returned r → r = s.result

variable {v : ℕ → Bool} {l : ℕ → Longest}

theorem inv_start (hfin : ∀ i h, J.history[i]? = some h →
    Finishes J.model J.computeInfo h (.start J.model h) (v i) (l i)) : Inv J v l (start J) where
  routines_length := List.length_map ..
  longest_length := List.length_map ..
  routine i h r hi hr := by
    simp only [start, List.getElem?_map, hi, Option.map_some, Option.some_inj] at hr
    obtain rfl := hr
    obtain ⟨k, hk⟩ := (hfin i h hi).run
    exact ⟨k, hk k le_rfl⟩
  wrong h := by simp [start] at h
  clock h := by simp [start] at h
  loop _ := ⟨rfl, rfl, fun hne ↦ List.length_pos_iff.mpr hne⟩
  stopped _ h := by simp [start] at h
  order := by
    refine ⟨[], List.nodup_nil, fun i ↦ ?_, rfl, fun _ ↦ rfl, by simp⟩
    simp [start, List.getElem?_map]
  left h := absurd rfl h
  waited _ r h := by simp [start] at h
  result_eq r h := by simp [start] at h

/-- A goroutine moves on without sending. -/
theorem Inv.set_routine (hinv : Inv J v l s) {i : ℕ} {old new : Routine S I O}
    (hold : s.routines[i]? = some old) (hne : old ≠ .sent) (hne' : new ≠ .sent)
    (hnew : ∀ h, J.history[i]? = some h → RoutineOk J h (v i) (l i) s.kill s.longest[i]? new) :
    Inv J v l { s with routines := s.routines.set i new } where
  routines_length := by simp [hinv.routines_length]
  longest_length := hinv.longest_length
  routine j h r hj hr := by
    rcases eq_or_ne i j with rfl | hij
    · have hlt := (List.getElem?_eq_some_iff.mp hold).1
      obtain rfl : new = r := by simpa [hlt] using hr
      exact hnew h hj
    · rw [List.getElem?_set_ne hij] at hr
      exact hinv.routine j h r hj hr
  wrong := hinv.wrong
  clock := hinv.clock
  loop := hinv.loop
  stopped := hinv.stopped
  order := by
    obtain ⟨order, hnd, hmem, hrest⟩ := hinv.order
    refine ⟨order, hnd, fun j ↦ (hmem j).trans ?_, hrest⟩
    rcases eq_or_ne i j with rfl | hij
    · have hlt := (List.getElem?_eq_some_iff.mp hold).1
      rw [hold, List.getElem?_set_self hlt]
      simp [hne, hne']
    · rw [List.getElem?_set_ne hij]
  left := hinv.left
  waited := hinv.waited
  result_eq := hinv.result_eq

theorem Inv.send (hinv : Inv J v l s) {i : ℕ} {ok : Bool} {l' : Longest}
    (hr : s.routines[i]? = some (.returned ok l')) :
    Inv J v l { s with
      routines := s.routines.set i .sent
      longest := s.longest.set i (some l')
      results := s.results ++ [ok] } where
  routines_length := by simp [hinv.routines_length]
  longest_length := by simp [hinv.longest_length]
  routine j h r hj hr' := by
    rcases eq_or_ne i j with rfl | hij
    · have hlt := (List.getElem?_eq_some_iff.mp hr).1
      obtain rfl : .sent = r := by simpa [hlt] using hr'
      intro hk
      obtain ⟨-, rfl⟩ := hinv.routine i h _ hj hr hk
      rw [hinv.routines_length, ← hinv.longest_length] at hlt
      exact List.getElem?_set_self hlt
    · rw [List.getElem?_set_ne hij] at hr'
      rw [List.getElem?_set_ne hij]
      exact hinv.routine j h r hj hr'
  wrong := hinv.wrong
  clock := hinv.clock
  loop := hinv.loop
  stopped := hinv.stopped
  order := by
    obtain ⟨order, hnd, hmem, hlen, hres, htrue⟩ := hinv.order
    have hlt := (List.getElem?_eq_some_iff.mp hr).1
    have hle : s.count ≤ order.length := by omega
    have hi : i ∉ order := fun h ↦ by simp [(hmem i).mp h] at hr
    refine ⟨order ++ [i], ?_, fun j ↦ ?_, ?_, fun hk ↦ ?_, ?_⟩
    · exact List.nodup_append.mpr ⟨hnd, List.nodup_singleton i, by
        rintro a ha b hb rfl
        exact hi (List.mem_singleton.mp hb ▸ ha)⟩
    · rw [List.mem_append, List.mem_singleton]
      rcases eq_or_ne i j with rfl | hij
      · simp [hlt]
      · rw [List.getElem?_set_ne hij, ← hmem j]
        exact or_iff_left hij.symm
    · simp only [List.length_append, hlen, List.length_singleton]
      omega
    · obtain ⟨h, hh⟩ : ∃ h, J.history[i]? = some h :=
        ⟨_, List.getElem?_eq_getElem (hinv.routines_length ▸ hlt)⟩
      rw [List.drop_append_of_le_length hle, List.map_append, hres hk,
        (hinv.routine i h _ hh hr hk).1]
      rfl
    · rw [List.take_append_of_le_length hle]
      exact htrue
  left := hinv.left
  waited := hinv.waited
  result_eq := hinv.result_eq

/-- The main goroutine takes a verdict in its loop. -/
theorem Inv.take (hinv : Inv J v l s) {result : Bool} {rest : List Bool} (hm : s.main = .loop)
    (hr : s.results = result :: rest) : Inv J v l (s.take J result rest) := by
  obtain ⟨hkill, htime, -⟩ := hinv.loop hm
  obtain ⟨order, hnd, hmem, hlen, hres, htrue⟩ := hinv.order
  -- the verdict is that of the next goroutine in the order
  have hres := hres hkill
  rw [hr, List.map_eq_cons_iff] at hres
  obtain ⟨i, tail, hdrop, hv, htail⟩ := hres
  have hi : order[s.count]? = some i := by
    rw [← List.head?_drop, hdrop]
    rfl
  have hdrop' : order.drop (s.count + 1) = tail := by
    rw [← List.tail_drop, hdrop]
    rfl
  have hmem_i : i ∈ order := List.mem_of_getElem? hi
  have hlt : i < J.history.length := by
    rw [← hinv.routines_length]
    exact (List.getElem?_eq_some_iff.mp ((hmem i).mp hmem_i)).1
  have hwrong : (s.ok && result) = false → ∃ i < J.history.length, v i = false := by
    intro h
    rcases Bool.and_eq_false_iff.mp h with h | h
    · exact hinv.wrong h
    · exact ⟨i, hlt, hv.trans h⟩
  have horder : ∀ kill, ∃ order : List ℕ, order.Nodup ∧
      (∀ i, i ∈ order ↔ s.routines[i]? = some .sent) ∧
      order.length = s.count + 1 + rest.length ∧
      (kill = false → (order.drop (s.count + 1)).map v = rest) ∧
      ((s.ok && result) = true → s.timedOut = false →
        ∀ i ∈ order.take (s.count + 1), v i = true) := by
    intro kill
    refine ⟨order, hnd, hmem, ?_, fun _ ↦ by rw [hdrop', htail], fun hok ht j hj ↦ ?_⟩
    · rw [hlen, hr, List.length_cons]
      omega
    · rw [Bool.and_eq_true] at hok
      rw [List.take_add_one, hi] at hj
      rcases List.mem_append.mp hj with hj | hj
      · exact htrue hok.1 ht j hj
      · obtain rfl : j = i := by simpa using hj
        exact hv.trans hok.2
  rw [Parallel.take]
  dsimp only
  split
  · next hstop =>
    have hfalse : (s.ok && result) = false := by
      simp only [Bool.and_eq_true, Bool.not_eq_true'] at hstop
      exact hstop.1
    have hinfo : J.computeInfo = false := by
      simp only [Bool.and_eq_true, Bool.not_eq_true'] at hstop
      exact hstop.2
    exact ⟨hinv.routines_length, hinv.longest_length,
      fun i h r hi hr ↦ (hinv.routine i h r hi hr).stop, hwrong, hinv.clock, by simp,
      by simp [hinfo], horder true, fun _ hok ↦ by simp [hfalse] at hok, by simp, by simp⟩
  · split
    · next hall =>
      exact ⟨hinv.routines_length, hinv.longest_length, hinv.routine, hwrong, hinv.clock, by simp,
        hinv.stopped, horder s.kill, fun _ _ _ ↦ hall, by simp, by simp⟩
    · next hmore =>
      refine ⟨hinv.routines_length, hinv.longest_length, hinv.routine, hwrong, hinv.clock,
        fun _ ↦ ⟨hkill, htime, fun _ ↦ not_le.mp hmore⟩, hinv.stopped, horder s.kill,
        fun h ↦ absurd hm h, ?_, ?_⟩ <;> simp [hm]

theorem Inv.drain (hinv : Inv J v l s) {result : Bool} {rest : List Bool} (hm : s.main = .drain)
    (hr : s.results = result :: rest) (hc : s.count < J.history.length) :
    Inv J v l { s with results := rest, count := s.count + 1 } := by
  -- there is a reason to leave the loop, so nothing is claimed of the verdicts
  have hwhy : s.ok = true → s.timedOut = false → False := fun hok ht ↦
    absurd (hinv.left (by simp [hm]) hok ht) (not_le.mpr hc)
  refine ⟨hinv.routines_length, hinv.longest_length, hinv.routine, hinv.wrong, hinv.clock,
    by simp [hm], hinv.stopped, ?_, fun _ hok ht ↦ (hwhy hok ht).elim, by simp [hm], by simp [hm]⟩
  obtain ⟨order, hnd, hmem, hlen, hres, -⟩ := hinv.order
  refine ⟨order, hnd, hmem, ?_, fun hk ↦ ?_, fun hok ht ↦ (hwhy hok ht).elim⟩
  · rw [hlen, hr, List.length_cons]
    dsimp only
    omega
  · have hres := hres hk
    rw [hr] at hres
    rw [← List.tail_drop, List.map_tail, hres]
    rfl

theorem Inv.step (hinv : Inv J v l s) (h : Step J s s') : Inv J v l s' := by
  cases h with
  | next hi hr ht =>
    obtain ⟨hk, k, -, hrun⟩ := (hinv.routine _ _ _ hi hr).next ht
    refine hinv.set_routine hr (by simp) (by simp) fun h hi' ↦ ?_
    obtain rfl : _ = h := Option.some_inj.mp (hi.symm.trans hi')
    exact ⟨k, hrun⟩
  | «return» hi hr ht =>
    refine hinv.set_routine hr (by simp) (by simp) fun h hi' ↦ ?_
    obtain rfl : _ = h := Option.some_inj.mp (hi.symm.trans hi')
    exact (hinv.routine _ _ _ hi hr).return ht
  | send hr => exact hinv.send hr
  | take hm hr => exact hinv.take hm hr
  | drain hm hr _ hc => exact hinv.drain hm hr hc
  | expire ht hm =>
    obtain ⟨order, hnd, hmem, hlen, -, -⟩ := hinv.order
    exact ⟨hinv.routines_length, hinv.longest_length,
      fun i h r hi hr ↦ (hinv.routine i h r hi hr).stop, hinv.wrong, fun _ ↦ ht, by simp,
      by simp, ⟨order, hnd, hmem, hlen, by simp, by simp⟩, by simp, by simp, by simp⟩
  | finish hm hc =>
    refine ⟨hinv.routines_length, hinv.longest_length, hinv.routine, hinv.wrong, hinv.clock,
      by simp, hinv.stopped, hinv.order, fun _ ↦ hinv.left (by simp [hm]), fun hinfo _ _ ↦ hc hinfo,
      fun r hr ↦ ?_⟩
    exact (Main.returned.inj hr).symm

theorem inv_of_reach (hfin : ∀ i h, J.history[i]? = some h →
    Finishes J.model J.computeInfo h (.start J.model h) (v i) (l i))
    (hr : (machine J).Reach (fun _ _ _ ↦ True) s) : Inv J v l s :=
  hr.invariant (inv_start hfin) fun _ _ _ _ hinv hs _ ↦ hinv.step (.of_step hs)

/-! ## When all verdicts are in -/

/-- The goroutines that have sent their verdicts, once as many were taken as there are. -/
theorem Inv.all_sent (hinv : Inv J v l s) (hc : J.history.length ≤ s.count) {i : ℕ}
    (hi : i < J.history.length) :
    s.routines[i]? = some .sent ∧ (s.ok = true → s.timedOut = false → v i = true) := by
  obtain ⟨order, hnd, hmem, hlen, -, htrue⟩ := hinv.order
  have hlt : ∀ j ∈ order, j < J.history.length := fun j hj ↦
    hinv.routines_length ▸ (List.getElem?_eq_some_iff.mp ((hmem j).mp hj)).1
  have hperm : order.Perm (List.range J.history.length) :=
    (List.subperm_of_subset hnd fun j hj ↦ List.mem_range.mpr (hlt j hj)).perm_of_length_le
      (by rw [List.length_range]; omega)
  have hall : i ∈ order := hperm.mem_iff.mpr (List.mem_range.mpr hi)
  refine ⟨(hmem i).mp hall, fun hok ht ↦ htrue hok ht i ?_⟩
  have hle : order.length ≤ s.count := by
    rw [hperm.length_eq, List.length_range]
    exact hc
  rwa [List.take_of_length_le hle]

/-- Somebody has not sent a verdict yet. -/
theorem Inv.exists_not_sent (hinv : Inv J v l s)
    (hc : s.count + s.results.length < J.history.length) :
    ∃ i < J.history.length, s.routines[i]? ≠ some .sent := by
  obtain ⟨order, hnd, hmem, hlen, -, -⟩ := hinv.order
  by_contra hall
  push Not at hall
  have hsub : List.range J.history.length ⊆ order := fun i hi ↦
    (hmem i).mpr (hall i (List.mem_range.mp hi))
  have := (List.subperm_of_subset List.nodup_range hsub).length_le
  rw [List.length_range] at this
  omega

/-- The channel has room for the verdict of a goroutine that has not sent it. -/
theorem Inv.room (hinv : Inv J v l s) {i : ℕ} (hi : i < J.history.length)
    (hns : s.routines[i]? ≠ some .sent) : s.results.length < J.history.length := by
  obtain ⟨order, hnd, hmem, hlen, -, -⟩ := hinv.order
  have hcons : (i :: order).Nodup := List.nodup_cons.mpr ⟨fun hin ↦ hns ((hmem i).mp hin), hnd⟩
  have hsub : i :: order ⊆ List.range J.history.length := by
    intro j hj
    rw [List.mem_range]
    rcases List.mem_cons.mp hj with rfl | hj
    · exact hi
    · exact hinv.routines_length ▸ (List.getElem?_eq_some_iff.mp ((hmem j).mp hj)).1
  have hle := (List.subperm_of_subset hcons hsub).length_le
  rw [List.length_cons, List.length_range] at hle
  omega

/-- **A goroutine that has not sent its verdict can go on**: it neither panics nor blocks. -/
theorem Inv.routine_enabled (hinv : Inv J v l s) {i : ℕ} {r : Routine S I O}
    (hr : s.routines[i]? = some r) (hns : r ≠ .sent) :
    s.step J (.turn i) ≠ none ∨ s.step J (.send i) ≠ none := by
  have hi : i < J.history.length := hinv.routines_length ▸ (List.getElem?_eq_some_iff.mp hr).1
  have hh := List.getElem?_eq_getElem hi
  cases r with
  | running L =>
    refine Or.inl ?_
    have hne := (hinv.routine i _ _ hh hr).turn_ne_none
    rw [Parallel.step, Parallel.turn, hh, hr]
    dsimp only
    split <;> simp_all
  | returned ok l' =>
    refine Or.inr ?_
    have hroom := hinv.room hi (by simp [hr])
    rw [Parallel.step, Parallel.send, hr]
    dsimp only
    rw [if_pos hroom]
    simp
  | sent => exact absurd rfl hns

/-- Where nothing can happen any more, all goroutines have sent their verdicts. -/
theorem Inv.sent_of_stuck (hinv : Inv J v l s) (hstuck : ∀ a, s.step J a = none) :
    ∀ r ∈ s.routines, r = .sent := by
  intro r hr
  obtain ⟨i, hi⟩ := List.mem_iff_getElem?.mp hr
  by_contra hns
  rcases hinv.routine_enabled hi hns with hgo | hgo
  · exact hgo (hstuck _)
  · exact hgo (hstuck _)

/-- **No deadlock**: where nothing can happen any more, the main goroutine has returned, unless
there is nothing to wait for. -/
theorem Inv.returned_of_stuck (hinv : Inv J v l s) (hstuck : ∀ a, s.step J a = none)
    (hne : J.history ≠ [] ∨ J.timeout = true) : ∃ r, s.main = .returned r := by
  have hgo : ∀ {a}, s.step J a ≠ none → False := fun h ↦ h (hstuck _)
  -- with an empty channel and verdicts to come, a goroutine can go on
  have hwait : s.results = [] → s.count < J.history.length → False := by
    intro hres hc
    obtain ⟨i, hi, hns⟩ := hinv.exists_not_sent (by simpa [hres] using hc)
    have hr := List.getElem?_eq_getElem (hinv.routines_length ▸ hi : i < s.routines.length)
    exact hns (hr.trans (congrArg some (hinv.sent_of_stuck hstuck _ (List.mem_of_getElem? hr))))
  cases hmain : s.main with
  | returned r => exact ⟨r, rfl⟩
  | loop =>
    exfalso
    cases hres : s.results with
    | nil =>
      rcases hne with hne | ht
      · exact hwait hres ((hinv.loop hmain).2.2 hne)
      · exact hgo (a := .timeout) (by simp [Parallel.step, expire, ht, hmain])
    | cons r rest => exact hgo (a := .receive) (by simp [Parallel.step, receive, hres, hmain])
  | drain =>
    exfalso
    by_cases hc : J.computeInfo = true ∧ s.count < J.history.length
    · cases hres : s.results with
      | nil => exact hwait hres hc.2
      | cons r rest => exact hgo (a := .receive) (by simp [Parallel.step, receive, hres, hmain, hc])
    · refine hgo (a := .finish) ?_
      rw [Parallel.step, finish, if_pos ⟨hmain, hc⟩]
      simp

/-- With no parts and no timeout the main goroutine waits forever. -/
theorem Inv.main_of_nothing (hinv : Inv J v l s) (hnil : J.history = []) (h : Step J s s')
    (hm : s.main = .loop) (ht : J.timeout = false) : s'.main = .loop := by
  have hres : s.results = [] := by
    obtain ⟨order, -, hmem, hlen, -, -⟩ := hinv.order
    have hroutines : s.routines = [] :=
      List.eq_nil_of_length_eq_zero (by rw [hinv.routines_length, hnil]; rfl)
    have horder : order = [] := List.eq_nil_iff_forall_not_mem.mpr fun i hi ↦ by
      simpa [hroutines] using (hmem i).mp hi
    rw [horder, List.length_nil] at hlen
    exact List.eq_nil_of_length_eq_zero (by omega)
  cases h with
  | next => exact hm
  | «return» => exact hm
  | send => exact hm
  | take _ hr => simp [hres] at hr
  | drain hm' => simp [hm] at hm'
  | expire ht' => simp [ht] at ht'
  | finish hm' => simp [hm] at hm'

/-! ## Runs end -/

/-- How many steps a goroutine can take, the taking of its verdict included. -/
def RoutineRank (J : Job S I O) (h : List (Entry I O)) (k : ℕ) : Routine S I O → Prop
  | .running L => ∃ fuel p, k = fuel + 3 ∧ L.run J.model J.computeInfo h.length fuel = some p
  | .returned _ _ => k = 2
  | .sent => k = 0

/-- How many steps the main goroutine can take by itself. -/
def mainRank : Main → ℕ
  | .loop => 2
  | .drain => 1
  | .returned _ => 0

/-- How many steps are left. -/
def Rank (J : Job S I O) (v : ℕ → Bool) (l : ℕ → Longest) (s : Parallel S I O) (k : ℕ) : Prop :=
  Inv J v l s ∧ ∃ f : ℕ → ℕ,
    (∀ i h r, J.history[i]? = some h → s.routines[i]? = some r → RoutineRank J h (f i) r) ∧
    k = ∑ i ∈ Finset.range J.history.length, f i + s.results.length + mainRank s.main

theorem sum_update (f : ℕ → ℕ) {i n : ℕ} (hi : i < n) (c : ℕ) :
    ∑ j ∈ Finset.range n, Function.update f i c j + f i = ∑ j ∈ Finset.range n, f j + c := by
  have hmem := Finset.mem_range.mpr hi
  rw [Finset.sum_update_of_mem hmem, ← Finset.add_sum_erase _ f hmem,
    Finset.sdiff_singleton_eq_erase]
  omega

/-- One goroutine goes on. -/
theorem Rank.set_routine {f : ℕ → ℕ} {i c : ℕ} {new : Routine S I O}
    (hf : ∀ i h r, J.history[i]? = some h → s.routines[i]? = some r → RoutineRank J h (f i) r)
    (hnew : ∀ h, J.history[i]? = some h → RoutineRank J h c new) :
    ∀ j h r, J.history[j]? = some h → (s.routines.set i new)[j]? = some r →
      RoutineRank J h (Function.update f i c j) r := by
  intro j h r hj hr
  rcases eq_or_ne i j with rfl | hij
  · rw [Function.update_self]
    rw [List.getElem?_set] at hr
    split at hr
    · split at hr
      · obtain rfl := Option.some_inj.mp hr
        exact hnew h hj
      · simp at hr
    · next hne => exact absurd rfl hne
  · rw [Function.update_of_ne hij.symm]
    rw [List.getElem?_set_ne hij] at hr
    exact hf j h r hj hr

/-- **Every step brings the end closer.** -/
theorem Rank.step {k : ℕ} (hk : Rank J v l s k) (h : Step J s s') : ∃ k' < k, Rank J v l s' k' := by
  obtain ⟨hinv, f, hf, rfl⟩ := hk
  have hinv' := hinv.step h
  cases h with
  | @next i h L L' hi hr ht =>
    have hlt := (List.getElem?_eq_some_iff.mp hi).1
    obtain ⟨fuel, p, hfuel, hrun⟩ := hf i h _ hi hr
    obtain ⟨hkill, -, -⟩ := (hinv.routine i h _ hi hr).next ht
    rw [hkill] at ht
    cases fuel with
    | zero => simp [Loop.run] at hrun
    | succ fuel =>
      rw [Loop.run, ht] at hrun
      refine ⟨_, ?_, hinv', Function.update f i (fuel + 3), Rank.set_routine hf ?_, rfl⟩
      · have := sum_update f hlt (fuel + 3)
        dsimp only
        omega
      · intro h' hi'
        obtain rfl : h = h' := Option.some_inj.mp (hi.symm.trans hi')
        exact ⟨fuel, p, rfl, hrun⟩
  | @«return» i h L ok l' hi hr ht =>
    have hlt := (List.getElem?_eq_some_iff.mp hi).1
    obtain ⟨fuel, p, hfuel, -⟩ := hf i h _ hi hr
    refine ⟨_, ?_, hinv', Function.update f i 2, Rank.set_routine hf fun _ _ ↦ rfl, rfl⟩
    have := sum_update f hlt 2
    dsimp only
    omega
  | @send i ok l' hr =>
    have hlt : i < J.history.length :=
      hinv.routines_length ▸ (List.getElem?_eq_some_iff.mp hr).1
    have h2 : f i = 2 := hf i _ _ (List.getElem?_eq_getElem hlt) hr
    refine ⟨_, ?_, hinv', Function.update f i 0, Rank.set_routine hf fun _ _ ↦ rfl, rfl⟩
    have := sum_update f hlt 0
    simp only [List.length_append, List.length_singleton]
    omega
  | @take result rest hm hr =>
    refine ⟨_, ?_, hinv', f, fun i h r hi hr' ↦ hf i h r hi ?_, rfl⟩
    · rw [Parallel.take]
      dsimp only
      split
      · simp only [hm, hr, mainRank, List.length_cons]
        omega
      · split <;> simp only [hm, hr, mainRank, List.length_cons] <;> omega
    · rw [Parallel.take] at hr'
      dsimp only at hr'
      split at hr'
      · exact hr'
      · split at hr' <;> exact hr'
  | @drain result rest hm hr hinfo hc =>
    refine ⟨_, ?_, hinv', f, hf, rfl⟩
    simp only [hr, List.length_cons]
    omega
  | expire ht hm =>
    refine ⟨_, ?_, hinv', f, hf, rfl⟩
    simp only [hm, mainRank]
    omega
  | finish hm hc =>
    refine ⟨_, ?_, hinv', f, hf, rfl⟩
    simp only [hm, mainRank]
    omega

theorem exists_rank_start (hfin : ∀ i h, J.history[i]? = some h →
    Finishes J.model J.computeInfo h (.start J.model h) (v i) (l i)) :
    ∃ k, Rank J v l (start J) k := by
  have hfuel : ∀ i, ∃ fuel, ∀ h, J.history[i]? = some h →
      (Loop.start J.model h).run J.model J.computeInfo h.length fuel = some (v i, l i) := by
    intro i
    cases hi : J.history[i]? with
    | none => exact ⟨0, by simp⟩
    | some h =>
      obtain ⟨k, hk⟩ := (hfin i h hi).run
      exact ⟨k, fun h' hh' ↦ by obtain rfl := Option.some_inj.mp hh'; exact hk k le_rfl⟩
  choose fuel hfuel using hfuel
  refine ⟨_, inv_start hfin, fun i ↦ fuel i + 3, fun i h r hi hr ↦ ?_, rfl⟩
  simp only [start, List.getElem?_map, hi, Option.map_some, Option.some_inj] at hr
  obtain rfl := hr
  exact ⟨fuel i, _, rfl, hfuel i h hi⟩

end Parallel

/-! ## `checkParallel` -/

variable {S I O : Type} {J : Job S I O} {s : Parallel S I O}

/-- The parts of a job that can be checked have verdicts. -/
theorem Job.exists_verdicts (hm : ∀ h ∈ J.history, Matched h) (hc : J.model.Congruent) :
    ∃ (v : ℕ → Bool) (l : ℕ → Longest), ∀ i h, J.history[i]? = some h →
      Finishes J.model J.computeInfo h (.start J.model h) (v i) (l i) ∧
        Verdict J.model J.computeInfo h (v i) (l i) := by
  have hall : ∀ i : ℕ, ∃ (v : Bool) (l : Longest), ∀ h, J.history[i]? = some h →
      Finishes J.model J.computeInfo h (.start J.model h) v l ∧
        Verdict J.model J.computeInfo h v l := by
    intro i
    cases hi : J.history[i]? with
    | none => exact ⟨false, [], by simp⟩
    | some h =>
      obtain ⟨v, l, hfin, hver⟩ :=
        exists_verdict (hm h (List.mem_of_getElem? hi)) hc J.computeInfo
      exact ⟨v, l, fun h' hh' ↦ by obtain rfl := Option.some_inj.mp hh'; exact ⟨hfin, hver⟩⟩
  choose v l hall using hall
  exact ⟨v, l, hall⟩

section

variable (hm : ∀ h ∈ J.history, Matched h) (hc : J.model.Congruent)
  (hr : (Parallel.machine J).Reach (fun _ _ _ ↦ True) s)
include hm hc hr

/-- Ok is said only if every part has a linearization. -/
theorem exists_linearization_of_ok (hret : s.main = .returned .ok) :
    ∀ h ∈ J.history, ∃ seq, Linearization J.model h seq := by
  obtain ⟨v, l, hv⟩ := J.exists_verdicts hm hc
  have hinv := Parallel.inv_of_reach (fun i h hi ↦ (hv i h hi).1) hr
  obtain ⟨hok, htime⟩ := Parallel.result_eq_ok.mp (hinv.result_eq _ hret).symm
  intro h hh
  obtain ⟨i, hi, rfl⟩ := List.mem_iff_getElem.mp hh
  have hcount := hinv.left (by simp [hret]) hok htime
  exact ((hv i _ (List.getElem?_eq_getElem hi)).2.iff (hm _ hh)).mp
    ((hinv.all_sent hcount hi).2 hok htime)

/-- Illegal is said only if some part has none. -/
theorem exists_not_linearization_of_illegal (hret : s.main = .returned .illegal) :
    ∃ h ∈ J.history, ¬ ∃ seq, Linearization J.model h seq := by
  obtain ⟨v, l, hv⟩ := J.exists_verdicts hm hc
  have hinv := Parallel.inv_of_reach (fun i h hi ↦ (hv i h hi).1) hr
  obtain ⟨i, hi, hvi⟩ := hinv.wrong (Parallel.result_eq_illegal.mp (hinv.result_eq _ hret).symm)
  refine ⟨_, List.getElem_mem hi, fun hlin ↦ ?_⟩
  have htrue := ((hv i _ (List.getElem?_eq_getElem hi)).2.iff (hm _ (List.getElem_mem hi))).mpr hlin
  simp [htrue] at hvi

/-- Unknown is said only if there is a timeout. -/
theorem timeout_of_unknown (hret : s.main = .returned .unknown) : J.timeout = true := by
  obtain ⟨v, l, hv⟩ := J.exists_verdicts hm hc
  have hinv := Parallel.inv_of_reach (fun i h hi ↦ (hv i h hi).1) hr
  exact hinv.clock (Parallel.result_eq_unknown.mp (hinv.result_eq _ hret).symm).2

/-- Where nothing can happen any more, the main goroutine has returned, except if there is nothing
to check and no timeout. -/
theorem returned_iff_of_stuck (hstuck : ∀ a, s.step J a = none) :
    (∃ r, s.main = .returned r) ↔ J.history ≠ [] ∨ J.timeout = true := by
  obtain ⟨v, l, hv⟩ := J.exists_verdicts hm hc
  have hfin := fun i h hi ↦ (hv i h hi).1
  refine ⟨?_, (Parallel.inv_of_reach hfin hr).returned_of_stuck hstuck⟩
  rintro ⟨r, hret⟩
  by_contra hnone
  push Not at hnone
  obtain ⟨hnil, ht⟩ := hnone
  have hloop := hr.invariant (I := fun s ↦ s.main = .loop) rfl fun t a t' ht' hm' hs _ ↦
    (Parallel.inv_of_reach hfin ht').main_of_nothing hnil (.of_step hs) hm' (by simpa using ht)
  simp [hloop] at hret

end

/-- There is a bound on the number of steps. -/
theorem Job.exists_steps_le (hm : ∀ h ∈ J.history, Matched h) (hc : J.model.Congruent) :
    ∃ bound, ∀ as s, (Parallel.machine J).exec (fun _ _ _ ↦ True) (Parallel.start J) as = some s →
      as.length ≤ bound := by
  obtain ⟨v, l, hv⟩ := J.exists_verdicts hm hc
  obtain ⟨k, hk⟩ := Parallel.exists_rank_start fun i h hi ↦ (hv i h hi).1
  exact ⟨k, fun as s he ↦ Machine.length_le_of_rank
    (fun _ _ _ _ hk hs _ ↦ hk.step (.of_step hs)) hk he⟩

/-- **What `checkParallel` returns is right**, in every order of steps of its goroutines: it says Ok
only if every part has a linearization, Illegal only if some part has none, and Unknown only if
there is a timeout. -/
theorem checkParallel_sound (hm : ∀ h ∈ J.history, Matched h) (hc : J.model.Congruent)
    (hr : (Parallel.machine J).Reach (fun _ _ _ ↦ True) s) {r : CheckResult}
    (hret : s.main = .returned r) :
    (r = .ok → ∀ h ∈ J.history, ∃ seq, Linearization J.model h seq) ∧
      (r = .illegal → ∃ h ∈ J.history, ¬ ∃ seq, Linearization J.model h seq) ∧
      (r = .unknown → J.timeout = true) := by
  refine ⟨?_, ?_, ?_⟩
  · rintro rfl
    exact exists_linearization_of_ok hm hc hr hret
  · rintro rfl
    exact exists_not_linearization_of_illegal hm hc hr hret
  · rintro rfl
    exact timeout_of_unknown hm hc hr hret

/-- One part, in which a get does not see the put before it. -/
def staleJob (computeInfo : Bool) : Job Bytes KvInput KvOutput where
  model := kvModel
  history := [stale]
  computeInfo := computeInfo
  timeout := false

theorem staleJob_matched (computeInfo : Bool) :
    ∀ h ∈ (staleJob computeInfo).history, Matched h := by
  intro h hh
  obtain rfl := List.mem_singleton.mp hh
  decide

/-- The put is tried, the get fails, and the put is taken back. -/
def staleRun : List Tick := [.turn 0, .turn 0, .turn 0, .turn 0, .send 0, .receive, .finish]

theorem checkParallel_sound_stale :
    ∃ s, (Parallel.machine (staleJob false)).Reach (fun _ _ _ ↦ True) s ∧
      s.main = .returned .illegal ∧ ∃ h ∈ [stale], ¬ ∃ seq, Linearization kvModel h seq := by
  obtain ⟨s, hr, hret⟩ := Machine.exists_reach_of_exec (M := Parallel.machine (staleJob false))
    (P := fun _ _ _ ↦ True) (Q := fun s ↦ s.main = .returned .illegal) staleRun (by decide)
  exact ⟨s, hr, hret, (checkParallel_sound (staleJob_matched false) kvModel_congruent hr hret).2.1
    rfl⟩

/-- **`checkParallel` always ends.**  There is a bound on the number of steps of all its goroutines
together; a goroutine that has not sent its verdict can go on, so that none of them panics or blocks
for good; and when nothing can happen any more all of them have sent their verdicts, and the main
goroutine has returned, except if there is nothing to check and no timeout. -/
theorem checkParallel_returns (hm : ∀ h ∈ J.history, Matched h) (hc : J.model.Congruent) :
    (∃ bound, ∀ as s, (Parallel.machine J).exec (fun _ _ _ ↦ True) (Parallel.start J) as = some s →
      as.length ≤ bound) ∧
    ∀ s, (Parallel.machine J).Reach (fun _ _ _ ↦ True) s →
      (∀ (i : ℕ) r, s.routines[i]? = some r → r ≠ .sent →
        s.step J (.turn i) ≠ none ∨ s.step J (.send i) ≠ none) ∧
      ((∀ a, s.step J a = none) → (∀ r ∈ s.routines, r = .sent) ∧
        ((∃ r, s.main = .returned r) ↔ J.history ≠ [] ∨ J.timeout = true)) := by
  refine ⟨J.exists_steps_le hm hc, fun s hr ↦ ?_⟩
  obtain ⟨v, l, hv⟩ := J.exists_verdicts hm hc
  have hinv := Parallel.inv_of_reach (fun i h hi ↦ (hv i h hi).1) hr
  exact ⟨fun i r hi hns ↦ hinv.routine_enabled hi hns,
    fun hstuck ↦ ⟨hinv.sent_of_stuck hstuck, returned_iff_of_stuck hm hc hr hstuck⟩⟩

/-- Whether a goroutine has sent its verdict. -/
def Routine.isSent : Routine S I O → Bool
  | .sent => true
  | _ => false

theorem Routine.isSent_iff {r : Routine S I O} : r.isSent = true ↔ r = .sent := by
  cases r <;> simp [isSent]

/-- Nothing happens after the return, once all verdicts were sent. -/
theorem Parallel.stuck_of_returned {r : CheckResult} (hret : s.main = .returned r)
    (hsent : s.routines.all Routine.isSent = true) : ∀ a, s.step J a = none := by
  have hall (i : ℕ) (q : Routine S I O) (hq : s.routines[i]? = some q) : q = .sent :=
    Routine.isSent_iff.mp (List.all_eq_true.mp hsent q (List.mem_of_getElem? hq))
  intro a
  cases a with
  | turn i =>
    rw [Parallel.step, Parallel.turn]
    split
    · next hq => exact absurd (hall i _ hq) (by simp)
    · rfl
  | send i =>
    rw [Parallel.step, Parallel.send]
    split
    · next hq => exact absurd (hall i _ hq) (by simp)
    · rfl
  | receive =>
    rw [Parallel.step, Parallel.receive]
    split
    · rfl
    · simp [hret]
  | timeout => simp [Parallel.step, Parallel.expire, hret]
  | finish => simp [Parallel.step, Parallel.finish, hret]

theorem checkParallel_returns_stale :
    (∃ bound, ∀ as s, (Parallel.machine (staleJob true)).exec (fun _ _ _ ↦ True)
      (Parallel.start (staleJob true)) as = some s → as.length ≤ bound) ∧
    ∃ s, (Parallel.machine (staleJob true)).Reach (fun _ _ _ ↦ True) s ∧
      (∀ a, s.step (staleJob true) a = none) ∧ (∀ r ∈ s.routines, r = .sent) ∧
      ∃ r, s.main = .returned r := by
  obtain ⟨hbound, hends⟩ := checkParallel_returns (staleJob_matched true) kvModel_congruent
  obtain ⟨s, hr, hret, hsent⟩ := Machine.exists_reach_of_exec
    (M := Parallel.machine (staleJob true)) (P := fun _ _ _ ↦ True)
    (Q := fun s ↦ s.main = .returned .illegal ∧ s.routines.all Routine.isSent = true) staleRun
    (by decide)
  have hstuck := Parallel.stuck_of_returned (J := staleJob true) hret hsent
  obtain ⟨hall, hiff⟩ := (hends s hr).2 hstuck
  exact ⟨hbound, s, hr, hstuck, hall, hiff.mpr (Or.inl (by simp [staleJob]))⟩

/-- **The partial orders are complete.**  If `checkParallel` is asked for them and the time is not
up, then when it returns it has for every part and every operation the longest beginning of an
order, and no goroutine writes to them any more. -/
theorem checkParallel_info (hm : ∀ h ∈ J.history, Matched h) (hc : J.model.Congruent)
    (hinfo : J.computeInfo = true) (hr : (Parallel.machine J).Reach (fun _ _ _ ↦ True) s)
    {r : CheckResult} (hret : s.main = .returned r) (htime : s.timedOut = false) :
    ∀ (i : ℕ) h, J.history[i]? = some h → s.routines[i]? = some .sent ∧
      ∃ longest, s.longest[i]? = some (some longest) ∧ ∀ j < size h,
        longest[j]? = some none ∧ (∀ seq, PartialLinearization J.model h seq → j ∉ seq) ∨
        ∃ seq, longest[j]? = some (some (seq.map Int.ofNat)) ∧ IsLongest J.model h j seq := by
  obtain ⟨v, l, hv⟩ := J.exists_verdicts hm hc
  have hinv := Parallel.inv_of_reach (fun i h hi ↦ (hv i h hi).1) hr
  intro i h hi
  have hlt := (List.getElem?_eq_some_iff.mp hi).1
  obtain ⟨hsent, -⟩ := hinv.all_sent (hinv.waited hinfo r hret) hlt
  have hkill : s.kill = false := by
    rw [← Bool.not_eq_true]
    intro hk
    simp [hinv.stopped hinfo hk] at htime
  have hver := (hv i h hi).2
  rw [hinfo] at hver
  exact ⟨hsent, l i, hinv.routine i h _ hi hsent hkill, fun j hj ↦
    hver.longest_cases (hm h (List.mem_of_getElem? hi)) hj⟩

theorem checkParallel_info_stale :
    ∃ s, (Parallel.machine (staleJob true)).Reach (fun _ _ _ ↦ True) s ∧
      s.main = .returned .illegal ∧ s.timedOut = false ∧ s.routines[0]? = some .sent := by
  obtain ⟨s, hr, hret, ht⟩ := Machine.exists_reach_of_exec (M := Parallel.machine (staleJob true))
    (P := fun _ _ _ ↦ True) (Q := fun s ↦ s.main = .returned .illegal ∧ s.timedOut = false)
    staleRun (by decide)
  exact ⟨s, hr, hret, ht, (checkParallel_info (staleJob_matched true) kvModel_congruent rfl hr hret
    ht 0 stale rfl).1⟩

end DistLabs.Porcupine
