import ZygiskAssistant.Companion.Invariants

/-!
# Every step of the callback and of the child

The moves of `Companion.Moves` merge all that the invariants treat alike. Here
each step is told apart with its label and with the state it leaves, for what
depends on how far a party has come: how long a session lasts, and what the
two unmount loops do to the tables.
-/

namespace ZygiskAssistant.Companion

open Parsers

inductive AppRule (s : System) (i : Nat) : AppAct → System → Prop
  | unshare : (s.session i).app.pc = .forked →
      AppRule s i (.unshare true) ((s.unshare i).setApp i
        { (s.session i).app with pc := .unshared, created := some s.namespaces })
  | mountSlave : (s.session i).app.pc = .unshared →
      AppRule s i (.mountSlave true) ((s.mountSlave (s.task i).ns).setPc i .isolated)
  | fail {act : AppAct} : (s.session i).app.pc = .forked ∧ act = .unshare false ∨
        (s.session i).app.pc = .unshared ∧ act = .mountSlave false →
      AppRule s i act (s.setPc i .failed)
  | write : (s.session i).app.pc = .isolated → AppRule s i (.write true) (s.setSession i
      { s.session i with
        app := { (s.session i).app with pc := .requested }, request := some (s.task i).pid })
  | giveUp {act : AppAct} :
      (s.session i).app.pc = .isolated ∧ (act = .noCompanion ∨ act = .write false) ∨
        (s.session i).app.pc = .requested ∧ act = .read false →
      AppRule s i act (s.setPc i (.answered false))
  | read {result : Bool} : (s.session i).app.pc = .requested →
      (s.session i).answer = some result → AppRule s i (.read true) (s.setSession i
        { s.session i with
          app := { (s.session i).app with pc := .answered result }, answer := none })
  | parse {ok : Bool} : (s.session i).app.pc = .answered false →
      AppRule s i (.parse ok) (s.setPc i (.unmounting (s.unmountPlan (s.task i).ns ok)))
  | umount2 {ok : Bool} {path : Str} {rest : List Str} :
      (s.session i).app.pc = .unmounting (path :: rest) →
      AppRule s i (.umount2 ok) ((s.umount2 (s.task i).ns path ok).setPc i (.unmounting rest))
  | succeed : (s.session i).app.pc = .answered true → AppRule s i .finish (s.setPc i .returned)
  | fallBack : (s.session i).app.pc = .unmounting [] → AppRule s i .finish
      (s.setApp i { (s.session i).app with pc := .returned, unmounted := true })

theorem appStep_rule {s t : System} {i : Nat} {act : AppAct} (hstep : appStep s i act = some t) :
    AppRule s i act t := by
  cases act with
  | unshare ok =>
    simp only [appStep] at hstep
    split at hstep
    · rename_i hpc
      cases ok with
      | true =>
        obtain rfl := Option.some.inj hstep
        exact .unshare hpc
      | false =>
        obtain rfl := Option.some.inj hstep
        exact .fail (Or.inl ⟨hpc, rfl⟩)
    · cases hstep
  | mountSlave ok =>
    simp only [appStep] at hstep
    split at hstep
    · rename_i hpc
      cases ok with
      | true =>
        obtain rfl := Option.some.inj hstep
        exact .mountSlave hpc
      | false =>
        obtain rfl := Option.some.inj hstep
        exact .fail (Or.inr ⟨hpc, rfl⟩)
    · cases hstep
  | noCompanion =>
    simp only [appStep] at hstep
    split at hstep
    · rename_i hpc
      obtain rfl := Option.some.inj hstep
      exact .giveUp (Or.inl ⟨hpc, Or.inl rfl⟩)
    · cases hstep
  | write ok =>
    simp only [appStep] at hstep
    split at hstep
    · rename_i hpc
      cases ok with
      | true =>
        obtain rfl := Option.some.inj hstep
        exact .write hpc
      | false =>
        obtain rfl := Option.some.inj hstep
        exact .giveUp (Or.inl ⟨hpc, Or.inr rfl⟩)
    · cases hstep
  | read ok =>
    simp only [appStep] at hstep
    split at hstep
    · rename_i hpc
      cases ok with
      | true =>
        obtain ⟨result, hresult, rfl⟩ := Option.map_eq_some_iff.mp hstep
        exact .read hpc hresult
      | false =>
        obtain rfl := Option.some.inj hstep
        exact .giveUp (Or.inr ⟨hpc, rfl⟩)
    · cases hstep
  | parse ok =>
    simp only [appStep] at hstep
    split at hstep
    · obtain rfl := Option.some.inj hstep
      exact .parse ‹_›
    · cases hstep
  | umount2 ok =>
    simp only [appStep] at hstep
    split at hstep
    · obtain rfl := Option.some.inj hstep
      exact .umount2 ‹_›
    · cases hstep
  | finish =>
    simp only [appStep] at hstep
    split at hstep
    · obtain rfl := Option.some.inj hstep
      exact .succeed ‹_›
    · obtain rfl := Option.some.inj hstep
      exact .fallBack ‹_›
    · cases hstep

inductive ChildRule (s : System) (i : Nat) : ChildAct → System → Prop
  | openNs {pid : Int} {q : Nat} : (s.session i).child.pc = .started pid →
      (s.task q).alive = true → (s.task q).pid = pid →
      ChildRule s i (.openNs (some q)) (s.setChild i
        { (s.session i).child with pc := .opened (s.task q).ns, holder := some q })
  | setns {n : Nat} : (s.session i).child.pc = .opened n →
      ChildRule s i (.setns true) (s.setChild i
        { (s.session i).child with pc := .entered, ns := n, entered := true })
  | fail {act : ChildAct} :
      (∃ pid, (s.session i).child.pc = .started pid) ∧ act = .openNs none ∨
        (∃ n, (s.session i).child.pc = .opened n) ∧ act = .setns false →
      ChildRule s i act (s.setChild i { (s.session i).child with pc := .exited 1#32 })
  | parse {ok : Bool} : (s.session i).child.pc = .entered →
      ChildRule s i (.parse ok) (s.setChild i { (s.session i).child with
        pc := .unmounting (s.unmountPlan (s.session i).child.ns ok) })
  | umount2 {ok : Bool} {path : Str} {rest : List Str} :
      (s.session i).child.pc = .unmounting (path :: rest) →
      ChildRule s i (.umount2 ok) ((s.umount2 (s.session i).child.ns path ok).setChild i
        { (s.session i).child with pc := .unmounting rest })
  | complete : (s.session i).child.pc = .unmounting [] → ChildRule s i .finish (s.setChild i
      { (s.session i).child with pc := .unmounted, completed := true })
  | exit : (s.session i).child.pc = .unmounted → ChildRule s i .finish (s.setChild i
      { (s.session i).child with pc := .exited 0#32 })
  | kill {signal : BitVec 32} : (s.session i).child.pc.running = true →
      wifexited signal = false → ChildRule s i (.kill signal) (s.setChild i
        { (s.session i).child with pc := .killed signal })

theorem childStep_rule {s t : System} {i : Nat} {act : ChildAct}
    (hstep : childStep s i act = some t) : ChildRule s i act t := by
  cases act with
  | openNs holder =>
    cases holder with
    | none =>
      simp only [childStep] at hstep
      split at hstep
      · obtain rfl := Option.some.inj hstep
        exact .fail (Or.inl ⟨⟨_, ‹_›⟩, rfl⟩)
      · cases hstep
    | some q =>
      simp only [childStep] at hstep
      split at hstep
      · rename_i pid hpc
        split at hstep
        · rename_i hq
          obtain rfl := Option.some.inj hstep
          rw [Bool.and_eq_true, beq_iff_eq] at hq
          exact .openNs hpc hq.1 hq.2
        · cases hstep
      · cases hstep
  | setns ok =>
    simp only [childStep] at hstep
    split at hstep
    · rename_i n hpc
      cases ok with
      | true =>
        obtain rfl := Option.some.inj hstep
        exact .setns hpc
      | false =>
        obtain rfl := Option.some.inj hstep
        exact .fail (Or.inr ⟨⟨n, hpc⟩, rfl⟩)
    · cases hstep
  | parse ok =>
    simp only [childStep] at hstep
    split at hstep
    · obtain rfl := Option.some.inj hstep
      exact .parse ‹_›
    · cases hstep
  | umount2 ok =>
    simp only [childStep] at hstep
    split at hstep
    · obtain rfl := Option.some.inj hstep
      exact .umount2 ‹_›
    · cases hstep
  | finish =>
    simp only [childStep] at hstep
    split at hstep
    · obtain rfl := Option.some.inj hstep
      exact .complete ‹_›
    · obtain rfl := Option.some.inj hstep
      exact .exit ‹_›
    · cases hstep
  | kill signal =>
    simp only [childStep] at hstep
    split at hstep
    · rename_i hk
      obtain rfl := Option.some.inj hstep
      rw [Bool.and_eq_true, Bool.not_eq_true'] at hk
      exact .kill hk.1 hk.2
    · cases hstep

/-- What holds after every step of every party holds after a step. -/
theorem step_rule {P : System → Prop} {s t : System} {l : Label} (hstep : step s l = some t)
    (hfork : ∀ parent pid, P (s.fork parent pid)) (hdie : ∀ i, P (s.die i))
    (happ : ∀ i act, (s.task i).zygoteChild = true → appStep s i act = some t → P t)
    (hhandler : ∀ i act y, handlerStep (s.session i) act = some y → P (s.setSession i y))
    (hchild : ∀ i act, childStep s i act = some t → P t) : P t := by
  cases l with
  | fork parent pid =>
    simp only [step] at hstep
    split at hstep
    · obtain rfl := Option.some.inj hstep
      exact hfork parent pid
    · cases hstep
  | die i =>
    obtain rfl := Option.some.inj hstep
    exact hdie i
  | app i act =>
    simp only [step] at hstep
    split at hstep
    · rename_i hc
      rw [Bool.and_eq_true] at hc
      exact happ i act hc.2 hstep
    · cases hstep
  | handler i act =>
    simp only [step] at hstep
    split at hstep
    · obtain ⟨y, hy, rfl⟩ := Option.map_eq_some_iff.mp hstep
      exact hhandler i act y hy
    · cases hstep
  | child i act => exact hchild i act hstep

end ZygiskAssistant.Companion
