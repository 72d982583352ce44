import Mathlib.Logic.Function.Basic
import ZygiskAssistant.Atexit.Machine
import ZygiskAssistant.Lib.DetRun
import ZygiskAssistant.Lib.LabelledRun

/-!
# Exit handlers and threads

The two functions as threads run them. The table is touched under the mutex
only, and handlers run without it, so that a thread can register in the middle
of a finalization. With one thread there is nothing new: every run of the
machine with the control stack is one of that thread.
-/

namespace ZygiskAssistant.Atexit

open LabelledRun

/-- `register`, `restart`, `scan`, `resume` and `unlock` run with the mutex; a handler returns
to `await`, which waits for it. -/
inductive ThreadFrame
  | calls (c : Calls)
  | register (func : Calls) (arg : Nat)
  | restart
  | scan (total i : Nat)
  | await (total i : Nat)
  | resume (total i : Nat)
  | unlock
deriving DecidableEq

structure Threads where
  globals : Globals
  /-- The thread that holds `g_atexit_mutex`. -/
  mutex : Option Nat
  stack : Nat → List ThreadFrame
  /-- Something undefined was done. -/
  faulted : Bool

namespace Threads

def setStack (s : Threads) (t : Nat) (fs : List ThreadFrame) : Threads :=
  { s with stack := Function.update s.stack t fs }

/-- `atexit_lock()`, which waits while the mutex is held. -/
def lock (s : Threads) (t : Nat) (fs : List ThreadFrame) : Option Threads :=
  if s.mutex = none then some { s.setStack t fs with mutex := some t } else none

def act (s : Threads) (t : Nat) : Option (List ThreadFrame × Globals) → Threads
  | some (fs, g) => { s.setStack t fs with globals := g }
  | none => { s with faulted := true }

end Threads

/-- The end of the loop body, with the mutex. -/
def continueScan (total i : Nat) (fs : List ThreadFrame) (g : Globals) :
    Option (List ThreadFrame × Globals) :=
  if i = 0 then g.free.map fun g => (.unlock :: fs, g) else some (.scan total (i - 1) :: fs, g)

/-- What a frame does with the mutex. -/
def inside (g : Globals) (fs : List ThreadFrame) :
    ThreadFrame → Option (List ThreadFrame × Globals)
  | .register func arg => do
    let (_, g) ← cxaAtexit (some func) arg g
    return (.unlock :: fs, g)
  | .restart =>
    if g.count > 0 then some (.scan g.count (g.count - 1) :: fs, g) else some (.unlock :: fs, g)
  | .scan total i => do
    let (cell, g) ← g.read i
    match cell with
    | .uninitialized => none
    | .cleared => continueScan total i fs g
    | .handler fn arg =>
      let g ← g.write i .cleared
      return (.unlock :: .calls fn :: .await total i :: fs, g.log (.called i fn arg))
  | .resume total i =>
    if g.count ≠ total then some (.restart :: fs, g) else continueScan total i fs g
  | _ => none

def threadStep (s : Threads) (t : Nat) : Option Threads :=
  if s.faulted then none
  else
    match s.stack t with
    | [] => none
    | .calls .done :: fs => some (s.setStack t fs)
    | .calls (.atexit func arg rest) :: fs => s.lock t (.register func arg :: .calls rest :: fs)
    | .calls (.atexitNull _ rest) :: fs => some (s.setStack t (.calls rest :: fs))
    | .calls (.finalize rest) :: fs => s.lock t (.restart :: .calls rest :: fs)
    | .await total i :: fs => s.lock t (.resume total i :: fs)
    | .unlock :: fs => some { s.setStack t fs with mutex := none }
    | frame :: fs => some (s.act t (inside s.globals fs frame))

def threadsStart (programs : Nat → Calls) : Threads where
  globals := .initial
  mutex := none
  stack t := [.calls (programs t)]
  faulted := false

def onlyFirst (g : Globals) (mutex : Option Nat) (fs : List ThreadFrame) : Threads where
  globals := g
  mutex := mutex
  stack := Function.update (fun _ => []) 0 fs
  faulted := false

def ThreadFrame.ofFrame : Frame → ThreadFrame
  | .calls c => .calls c
  | .restart => .restart
  | .scan total i => .scan total i
  | .await total i => .await total i

def ThreadFrame.holds : ThreadFrame → Bool
  | .calls _ => false
  | .await _ _ => false
  | _ => true

def Holding : List ThreadFrame → Bool
  | [] => false
  | frame :: _ => frame.holds

/-- A configuration of the machine as the only thread. -/
def alone (c : Config) : Threads :=
  onlyFirst c.2 (if Holding (c.1.map .ofFrame) then some 0 else none) (c.1.map .ofFrame)

/-- The mutex is never needed below the top of the stack. -/
def Tidy (stack : List Frame) : Prop := ∀ f ∈ stack.tail, (ThreadFrame.ofFrame f).holds = false

theorem Tidy.holding {f : Frame} {stack : List Frame} (h : Tidy (f :: stack)) :
    Holding (stack.map .ofFrame) = false := by
  cases stack with
  | nil => rfl
  | cons f' stack => exact h f' List.mem_cons_self

theorem Tidy.tail {f : Frame} {stack : List Frame} (h : Tidy (f :: stack)) : Tidy stack :=
  fun f' hf' => h f' (List.mem_of_mem_tail hf')

theorem Tidy.push {f f' : Frame} {stack : List Frame} (h : Tidy (f :: stack)) :
    Tidy (f' :: stack) := h

theorem setStack_onlyFirst (g : Globals) (mutex : Option Nat) (fs fs' : List ThreadFrame) :
    (onlyFirst g mutex fs).setStack 0 fs' = onlyFirst g mutex fs' := by
  unfold onlyFirst Threads.setStack
  simp

/-- The frames whose step is `inside`. -/
def ThreadFrame.works : ThreadFrame → Bool
  | .unlock => false
  | frame => frame.holds

theorem threadStep_inside {g g' : Globals} (frame : ThreadFrame) {fs fs' : List ThreadFrame}
    (h : inside g fs frame = some (fs', g')) (hframe : frame.works = true) :
    threadStep (onlyFirst g (some 0) (frame :: fs)) 0 = some (onlyFirst g' (some 0) fs') := by
  have hact : (onlyFirst g (some 0) (frame :: fs)).act 0 (inside g fs frame) =
      onlyFirst g' (some 0) fs' := by
    rw [h, Threads.act, setStack_onlyFirst]
    rfl
  rw [← hact]
  cases frame with
  | calls c => cases hframe
  | await total i => cases hframe
  | unlock => cases hframe
  | _ => rfl

theorem threadStep_unlock (g : Globals) (fs : List ThreadFrame) :
    threadStep (onlyFirst g (some 0) (.unlock :: fs)) 0 = some (onlyFirst g none fs) := by
  have hpop := setStack_onlyFirst g (some 0) (.unlock :: fs) fs
  change some { (onlyFirst g (some 0) (.unlock :: fs)).setStack 0 fs with mutex := none } = _
  rw [hpop]
  rfl

theorem lock_onlyFirst (g : Globals) (fs fs' : List ThreadFrame) :
    (onlyFirst g none fs).lock 0 fs' = some (onlyFirst g (some 0) fs') := by
  rw [Threads.lock, if_pos (show (onlyFirst g none fs).mutex = none from rfl), setStack_onlyFirst]
  rfl

theorem alone_held {f : Frame} (hf : (ThreadFrame.ofFrame f).holds = true) (stack : List Frame)
    (g : Globals) : alone (f :: stack, g) =
      onlyFirst g (some 0) (.ofFrame f :: stack.map .ofFrame) := by
  unfold alone
  rw [if_pos (show Holding ((f :: stack).map .ofFrame) = true from hf)]
  rfl

theorem alone_free {stack : List Frame} (h : Holding (stack.map .ofFrame) = false) (g : Globals) :
    alone (stack, g) = onlyFirst g none (stack.map .ofFrame) := by
  unfold alone
  rw [if_neg (by simp [h])]

/-- The end of the loop body, in one step or with the release of the mutex. -/
theorem continueLoop_alone {total i : Nat} {stack : List Frame} {g : Globals} {c : Config}
    (frame : ThreadFrame) (hframe : frame.works = true) {start : Globals}
    (hinside : inside start (stack.map .ofFrame) frame =
      continueScan total i (stack.map .ofFrame) g)
    (h : continueLoop total i stack g = some c) (ht : Tidy (.restart :: stack)) :
    ∃ n, run threadStep (onlyFirst start (some 0) (frame :: stack.map .ofFrame))
      (List.replicate n 0) = some (alone c) ∧ Tidy c.1 := by
  unfold continueLoop at h
  split at h
  · rename_i hzero
    obtain ⟨g', hfree, rfl⟩ := Option.map_eq_some_iff.mp h
    have hscan : continueScan total i (stack.map .ofFrame) g =
        some (.unlock :: stack.map .ofFrame, g') := by
      rw [continueScan, if_pos hzero, hfree]
      rfl
    refine ⟨2, ?_, ht.tail⟩
    rw [alone_free ht.holding]
    change run threadStep _ [0, 0] = _
    rw [run_cons, threadStep_inside frame (hinside.trans hscan) hframe, Option.bind_some,
      run_cons, threadStep_unlock]
    rfl
  · rename_i hpos
    obtain rfl := Option.some.inj h
    refine ⟨1, ?_, ht⟩
    change run threadStep _ [0] = _
    rw [run_cons, threadStep_inside frame (hinside.trans (if_neg hpos)) hframe,
      alone_held rfl]
    rfl

theorem cxaAtexit_alone {func : Calls} {arg : Nat} {g g' : Globals} {ret : Int}
    (h : cxaAtexit (some func) arg g = some (ret, g')) (rest : Calls) (fs : List ThreadFrame) :
    run threadStep (onlyFirst g none (.calls (.atexit func arg rest) :: fs)) [0, 0, 0] =
      some (onlyFirst g' none (.calls rest :: fs)) := by
  have hlock : threadStep (onlyFirst g none (.calls (.atexit func arg rest) :: fs)) 0 =
      some (onlyFirst g (some 0) (.register func arg :: .calls rest :: fs)) := lock_onlyFirst _ _ _
  have hinside : inside g (.calls rest :: fs) (.register func arg) =
      some (.unlock :: .calls rest :: fs, g') := by
    rw [inside, h]
    rfl
  rw [run_cons, hlock, Option.bind_some, run_cons,
    threadStep_inside (.register func arg) hinside rfl, Option.bind_some, run_cons,
    threadStep_unlock]
  rfl

/-- Every step of the machine is a few steps of the one thread. -/
theorem step_alone {c c' : Config} (h : step c = some c') (ht : Tidy c.1) :
    ∃ n, run threadStep (alone c) (List.replicate n 0) = some (alone c') ∧ Tidy c'.1 := by
  obtain ⟨stack, g⟩ := c
  cases stack with
  | nil => cases h
  | cons f stack =>
    cases f with
    | calls code =>
      rw [@alone_free (.calls code :: stack) rfl g]
      cases code with
      | done =>
        obtain rfl := Option.some.inj h
        refine ⟨1, ?_, ht.tail⟩
        rw [alone_free ht.holding]
        exact congrArg some (setStack_onlyFirst _ _ _ _)
      | atexit func arg rest =>
        obtain ⟨⟨ret, g'⟩, hreg, hrest⟩ := Option.bind_eq_some_iff.mp h
        obtain rfl := Option.some.inj hrest
        exact ⟨3, cxaAtexit_alone hreg rest _, ht.push⟩
      | atexitNull arg rest =>
        obtain rfl := Option.some.inj h
        exact ⟨1, congrArg some (setStack_onlyFirst _ _ _ _), ht.push⟩
      | finalize rest =>
        obtain rfl := Option.some.inj h
        refine ⟨1, ?_, fun f hf => ?_⟩
        · rw [alone_held rfl]
          exact congrArg (fun o => o.bind fun t => run threadStep t []) (lock_onlyFirst _ _ _)
        · obtain rfl | hf := List.mem_cons.mp hf
          · rfl
          · exact ht f hf
    | restart =>
      rw [alone_held rfl]
      unfold step at h
      dsimp only at h
      split at h
      · rename_i hpos
        obtain rfl := Option.some.inj h
        refine ⟨1, ?_, ht.push⟩
        change run threadStep (onlyFirst g (some 0) (.restart :: stack.map .ofFrame)) [0] = _
        rw [run_cons, threadStep_inside .restart (if_pos hpos) rfl, alone_held rfl]
        rfl
      · rename_i hzero
        obtain rfl := Option.some.inj h
        refine ⟨2, ?_, ht.tail⟩
        rw [alone_free ht.holding]
        change run threadStep (onlyFirst g (some 0) (.restart :: stack.map .ofFrame)) [0, 0] = _
        rw [run_cons, threadStep_inside .restart (if_neg hzero) rfl, Option.bind_some, run_cons,
          threadStep_unlock]
        rfl
    | scan total i =>
      rw [alone_held rfl]
      obtain ⟨⟨cell, g'⟩, hread, hrest⟩ := Option.bind_eq_some_iff.mp h
      cases cell with
      | uninitialized => cases hrest
      | cleared =>
        refine continueLoop_alone (.scan total i) rfl ?_ hrest ht.push
        rw [inside, hread]
        rfl
      | handler fn arg =>
        obtain ⟨g'', hwrite, hlast⟩ := Option.bind_eq_some_iff.mp hrest
        obtain rfl := Option.some.inj hlast
        have hinside : inside g (stack.map .ofFrame) (.scan total i) =
            some (.unlock :: .calls fn :: .await total i :: stack.map .ofFrame,
              g''.log (.called i fn arg)) := by
          rw [inside, hread]
          simp only [Option.bind_eq_bind, Option.bind_some, hwrite, Option.pure_def]
        refine ⟨2, ?_, fun f hf => ?_⟩
        · rw [alone_free rfl]
          change run threadStep (onlyFirst g (some 0) (.scan total i :: stack.map .ofFrame))
            [0, 0] = _
          rw [run_cons, threadStep_inside (.scan total i) hinside rfl, Option.bind_some, run_cons,
            threadStep_unlock]
          rfl
        · obtain rfl | hf := List.mem_cons.mp hf
          · rfl
          · exact ht f hf
    | await total i =>
      rw [@alone_free (.await total i :: stack) rfl g]
      have hlock : threadStep (onlyFirst g none (.await total i :: stack.map .ofFrame)) 0 =
          some (onlyFirst g (some 0) (.resume total i :: stack.map .ofFrame)) :=
        lock_onlyFirst _ _ _
      have hfirst : ∀ {n t}, run threadStep
          (onlyFirst g (some 0) (.resume total i :: stack.map .ofFrame)) (List.replicate n 0) =
            some t →
          run threadStep (onlyFirst g none (.await total i :: stack.map .ofFrame))
            (List.replicate (n + 1) 0) = some t := by
        intro n t hrun
        rw [List.replicate_succ, run_cons, hlock]
        exact hrun
      unfold step at h
      dsimp only at h
      split at h
      · rename_i hmore
        obtain rfl := Option.some.inj h
        refine ⟨2, hfirst (n := 1) ?_, ht.push⟩
        change run threadStep _ [0] = _
        rw [run_cons, threadStep_inside (.resume total i) (if_pos hmore) rfl, alone_held rfl]
        rfl
      · rename_i hsame
        obtain ⟨n, hrun, htidy⟩ := continueLoop_alone (.resume total i) rfl
          (if_neg hsame) h ht.push
        exact ⟨n + 1, hfirst hrun, htidy⟩

/-- Every run of the machine is a run of the threads in which only the first one has a program. -/
theorem reaches_alone {c c' : Config} (h : DetRun.Reaches step c c') (ht : Tidy c.1) :
    ∃ n, run threadStep (alone c) (List.replicate n 0) = some (alone c') := by
  have hboth : (∃ n, run threadStep (alone c) (List.replicate n 0) = some (alone c')) ∧
      Tidy c'.1 := by
    induction h with
    | refl => exact ⟨⟨0, rfl⟩, ht⟩
    | tail _ hstep ih =>
      obtain ⟨⟨n, hn⟩, htidy⟩ := ih
      obtain ⟨m, hm, hlast⟩ := step_alone hstep htidy
      refine ⟨⟨n + m, ?_⟩, hlast⟩
      rw [List.replicate_add]
      exact run_append hn hm
  exact hboth.1

end ZygiskAssistant.Atexit
