import ZygiskAssistant.Companion.System

/-!
# What one step can do

The steps of the handler, of the callback and of the forked child, inverted once:
which move was made, from which state, and what it left behind. The invariants
are proved over these moves.
-/

namespace ZygiskAssistant.Companion

def AppPc.inPrivate : AppPc → Bool
  | .forked => false
  | .unshared => false
  | .failed => false
  | _ => true

def HandlerPc.beforeFork : HandlerPc → Bool
  | .listening => true
  | .received _ => true
  | _ => false

/-- The child has entered the namespace and is at work in it. -/
def ChildPc.acting : ChildPc → Bool
  | .entered => true
  | .unmounting _ => true
  | .unmounted => true
  | _ => false

/-- The child has not entered any other namespace yet. -/
def ChildPc.outside : ChildPc → Bool
  | .unborn => true
  | .started _ => true
  | .opened _ => true
  | _ => false

theorem System.umount2_eq (s : System) (n : Nat) (path : Str) (ok : Bool) :
    ∃ table, s.umount2 n path ok = { s with table := table } := by
  cases ok
  · exact ⟨s.table, rfl⟩
  · exact ⟨_, rfl⟩

inductive HandlerMove (x : Session) : HandlerAct → Session → Prop
  | read {p : Int} : x.handler = .listening → x.request = some p →
      HandlerMove x (.read true) { x with handler := .received p, request := none }
  | fork {p : Int} : x.handler = .received p →
      HandlerMove x (.fork true)
        { x with handler := .waiting, child := { x.child with pc := .started p } }
  | collect {status : BitVec 32} : x.handler = .waiting →
      terminationStatus x.child.pc = some status →
      HandlerMove x (.waitpid true) { x with handler := .collected status }
  | lose {act : HandlerAct} : act = .fork false ∨ act = .waitpid false →
      HandlerMove x act { x with handler := .collected noStatus }
  | answer {status : BitVec 32} : x.handler = .collected status →
      HandlerMove x (.write true) { x with handler := .done, answer := some (wifexited status) }
  | stop {act : HandlerAct} : act = .read false ∨ act = .write false ∨ act = .die →
      HandlerMove x act { x with handler := .done }

theorem handlerStep_cases {x y : Session} {act : HandlerAct} (hstep : handlerStep x act = some y) :
    HandlerMove x act y := by
  unfold handlerStep at hstep
  split at hstep
  · obtain ⟨p, hp, rfl⟩ := Option.map_eq_some_iff.mp hstep
    exact .read ‹_› hp
  · obtain rfl := Option.some.inj hstep
    exact .stop (by simp)
  · obtain rfl := Option.some.inj hstep
    exact .fork ‹_›
  · obtain rfl := Option.some.inj hstep
    exact .lose (by simp)
  · obtain ⟨status, hstatus, rfl⟩ := Option.map_eq_some_iff.mp hstep
    exact .collect ‹_› hstatus
  · obtain rfl := Option.some.inj hstep
    exact .lose (by simp)
  · obtain rfl := Option.some.inj hstep
    exact .answer ‹_›
  · obtain rfl := Option.some.inj hstep
    exact .stop (by simp)
  · obtain rfl := Option.some.inj hstep
    exact .stop (by simp)
  · cases hstep

/-- `work` is every move towards or within the fallback. -/
inductive AppMove (s : System) (i : Nat) : System → Prop
  | unshare : (s.session i).app.pc = .forked → AppMove s i ((s.unshare i).setApp i
      { (s.session i).app with pc := .unshared, created := some s.namespaces })
  | mountSlave : (s.session i).app.pc = .unshared →
      AppMove s i ((s.mountSlave (s.task i).ns).setPc i .isolated)
  | fail : (s.session i).app.pc = .forked ∨ (s.session i).app.pc = .unshared →
      AppMove s i (s.setPc i .failed)
  | write : (s.session i).app.pc = .isolated → AppMove s i (s.setSession i
      { s.session i with
        app := { (s.session i).app with pc := .requested }, request := some (s.task i).pid })
  | read {result : Bool} : (s.session i).app.pc = .requested →
      (s.session i).answer = some result → AppMove s i (s.setSession i
        { s.session i with
          app := { (s.session i).app with pc := .answered result }, answer := none })
  | work {pc : AppPc} (table : Nat → List Parsers.MountinfoEntry) :
      (s.session i).app.pc.inPrivate = true →
      pc = .answered false ∨ (∃ rest, pc = .unmounting rest) →
      AppMove s i ({ s with table := table }.setPc i pc)
  | succeed : (s.session i).app.pc = .answered true → AppMove s i (s.setPc i .returned)
  | fallBack : (s.session i).app.pc = .unmounting [] →
      AppMove s i (s.setApp i { (s.session i).app with pc := .returned, unmounted := true })

theorem appStep_cases {s t : System} {i : Nat} {act : AppAct} (hstep : appStep s i act = some t) :
    AppMove s i t := by
  cases act with
  | unshare ok =>
    simp only [appStep] at hstep
    split at hstep
    · rename_i hpc
      split at hstep
      · obtain rfl := Option.some.inj hstep
        exact .unshare hpc
      · obtain rfl := Option.some.inj hstep
        exact .fail (Or.inl hpc)
    · cases hstep
  | mountSlave ok =>
    simp only [appStep] at hstep
    split at hstep
    · rename_i hpc
      split at hstep
      · obtain rfl := Option.some.inj hstep
        exact .mountSlave hpc
      · obtain rfl := Option.some.inj hstep
        exact .fail (Or.inr hpc)
    · cases hstep
  | noCompanion =>
    simp only [appStep] at hstep
    split at hstep
    · rename_i hpc
      obtain rfl := Option.some.inj hstep
      exact .work s.table (by rw [hpc]; rfl) (Or.inl rfl)
    · cases hstep
  | write ok =>
    simp only [appStep] at hstep
    split at hstep
    · rename_i hpc
      split at hstep
      · obtain rfl := Option.some.inj hstep
        exact .write hpc
      · obtain rfl := Option.some.inj hstep
        exact .work s.table (by rw [hpc]; rfl) (Or.inl rfl)
    · cases hstep
  | read ok =>
    simp only [appStep] at hstep
    split at hstep
    · rename_i hpc
      split at hstep
      · obtain ⟨result, hresult, rfl⟩ := Option.map_eq_some_iff.mp hstep
        exact .read hpc hresult
      · obtain rfl := Option.some.inj hstep
        exact .work s.table (by rw [hpc]; rfl) (Or.inl rfl)
    · cases hstep
  | parse ok =>
    simp only [appStep] at hstep
    split at hstep
    · rename_i hpc
      obtain rfl := Option.some.inj hstep
      exact .work s.table (by rw [hpc]; rfl) (Or.inr ⟨_, rfl⟩)
    · cases hstep
  | umount2 ok =>
    simp only [appStep] at hstep
    split at hstep
    · rename_i path rest hpc
      obtain rfl := Option.some.inj hstep
      obtain ⟨table, he⟩ := s.umount2_eq (s.task i).ns path ok
      rw [he]
      exact .work table (by rw [hpc]; rfl) (Or.inr ⟨rest, rfl⟩)
    · cases hstep
  | finish =>
    simp only [appStep] at hstep
    split at hstep
    · obtain rfl := Option.some.inj hstep
      exact .succeed ‹_›
    · obtain rfl := Option.some.inj hstep
      exact .fallBack ‹_›
    · cases hstep

/-- `work` is every move within the entered namespace. -/
inductive ChildMove (s : System) (i : Nat) : System → Prop
  | openNs {pid : Int} {q : Nat} : (s.session i).child.pc = .started pid →
      (s.task q).alive = true → (s.task q).pid = pid → ChildMove s i (s.setChild i
        { (s.session i).child with pc := .opened (s.task q).ns, holder := some q })
  | setns {n : Nat} : (s.session i).child.pc = .opened n → ChildMove s i (s.setChild i
      { (s.session i).child with pc := .entered, ns := n, entered := true })
  | fail : (∃ pid, (s.session i).child.pc = .started pid) ∨
        (∃ n, (s.session i).child.pc = .opened n) →
      ChildMove s i (s.setChild i { (s.session i).child with pc := .exited 1#32 })
  | work {rest : List Str} (table : Nat → List Parsers.MountinfoEntry) :
      (s.session i).child.pc.acting = true → ChildMove s i
        ({ s with table := table }.setChild i { (s.session i).child with pc := .unmounting rest })
  | complete : (s.session i).child.pc = .unmounting [] → ChildMove s i (s.setChild i
      { (s.session i).child with pc := .unmounted, completed := true })
  | exit : (s.session i).child.pc = .unmounted →
      ChildMove s i (s.setChild i { (s.session i).child with pc := .exited 0#32 })
  | kill {signal : BitVec 32} : (s.session i).child.pc.running = true →
      wifexited signal = false →
      ChildMove s i (s.setChild i { (s.session i).child with pc := .killed signal })

theorem childStep_cases {s t : System} {i : Nat} {act : ChildAct}
    (hstep : childStep s i act = some t) : ChildMove s i t := by
  cases act with
  | openNs holder =>
    cases holder with
    | none =>
      simp only [childStep] at hstep
      split at hstep
      · obtain rfl := Option.some.inj hstep
        exact .fail (Or.inl ⟨_, ‹_›⟩)
      · cases hstep
    | some q =>
      simp only [childStep] at hstep
      split at hstep
      · rename_i pid hpc
        split at hstep
        · rename_i hq
          obtain rfl := Option.some.inj hstep
          rw [Bool.and_eq_true, beq_iff_eq] at hq
          exact .openNs hpc hq.1 hq.2
        · cases hstep
      · cases hstep
  | setns ok =>
    simp only [childStep] at hstep
    split at hstep
    · rename_i n hpc
      split at hstep
      · obtain rfl := Option.some.inj hstep
        exact .setns hpc
      · obtain rfl := Option.some.inj hstep
        exact .fail (Or.inr ⟨n, hpc⟩)
    · cases hstep
  | parse ok =>
    simp only [childStep] at hstep
    split at hstep
    · rename_i hpc
      obtain rfl := Option.some.inj hstep
      exact .work s.table (by rw [hpc]; rfl)
    · cases hstep
  | umount2 ok =>
    simp only [childStep] at hstep
    split at hstep
    · rename_i path rest hpc
      obtain rfl := Option.some.inj hstep
      obtain ⟨table, he⟩ := s.umount2_eq (s.session i).child.ns path ok
      rw [he]
      exact .work table (by rw [hpc]; rfl)
    · cases hstep
  | finish =>
    simp only [childStep] at hstep
    split at hstep
    · obtain rfl := Option.some.inj hstep
      exact .complete ‹_›
    · obtain rfl := Option.some.inj hstep
      exact .exit ‹_›
    · cases hstep
  | kill signal =>
    simp only [childStep] at hstep
    split at hstep
    · rename_i hk
      obtain rfl := Option.some.inj hstep
      rw [Bool.and_eq_true, Bool.not_eq_true'] at hk
      exact .kill hk.1 hk.2
    · cases hstep

end ZygiskAssistant.Companion
