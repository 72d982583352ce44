import ZygiskAssistant.Companion.Atomic
import ZygiskAssistant.Companion.Liveness

/-!
# A session in which nothing fails

If no call of a session fails and none of its processes is killed, the answer
is positive, the callback unmounts nothing itself, and when it returns its
namespace is what `doUnmount` makes of Zygote's; and it can always return.
-/

namespace ZygiskAssistant.Companion

open Parsers Modules MountTree

/-- No call of session `i` fails. Of the other sessions only this is asked, that the requester
lives when its namespace file is opened: the file of a dead one may be Zygote's. -/
def Flawless (i : Nat) (s : System) (l : Label) : Prop :=
  RequesterAlive s l ∧ (l.session = some i → l.succeeds = true)

theorem Flawless.loopsSucceed {i : Nat} {s : System} {l : Label} (h : Flawless i s l) :
    LoopsSucceed i s l := by
  refine ⟨h.1, ?_⟩
  rintro ok (rfl | rfl | rfl | rfl)
  · exact h.2 rfl
  · exact h.2 rfl
  · exact h.2 rfl
  · exact h.2 rfl

/-- The child, the handler and the callback of a session without failures. -/
structure Served (x : Session) : Prop where
  not_failed : x.app.pc ≠ .failed
  unsent : x.app.pc.unsent = true → x.handler = .listening
  unmounted : x.child.pc = .unmounted → x.child.completed = true
  terminated : ∀ status, terminationStatus x.child.pc = some status →
    status = 0#32 ∧ x.child.completed = true
  collected : ∀ status, x.handler = .collected status → status = 0#32 ∧ x.child.completed = true
  done : x.handler = .done → x.answer = some true ∨ x.app.pc = .answered true ∨
    x.app.pc = .returned
  answer : ∀ result, x.answer = some result → result = true ∧ x.child.completed = true
  answered : ∀ result, x.app.pc = .answered result → result = true ∧ x.child.completed = true
  returned : x.app.pc = .returned → x.child.completed = true
  fellBack : x.app.fellBack = false

namespace Served

variable {x y : Session}

theorem fresh : Served .fresh where
  not_failed h := nomatch h
  unsent _ := rfl
  unmounted h := nomatch h
  terminated _ h := nomatch h
  collected _ h := nomatch h
  done h := nomatch h
  answer _ h := nomatch h
  answered _ h := nomatch h
  returned h := nomatch h
  fellBack := rfl

theorem handlerStep (h : Served x) (htold : Told x) {act : HandlerAct}
    (hact : act.succeeds = true) (hstep : Companion.handlerStep x act = some y) : Served y := by
  have hsent : x.handler ≠ .listening → x.app.pc.unsent ≠ true := fun hl hu => hl (h.unsent hu)
  cases handlerStep_cases hstep with
  | read _ hp => exact { h with
      unsent := fun hu => by
        rw [htold.unsent hu] at hp
        cases hp
      collected := fun _ hs => nomatch hs
      done := fun hd => nomatch hd }
  | fork hx => exact { h with
      unsent := fun hu => absurd hu (hsent (by simp [hx]))
      unmounted := fun hu => nomatch hu
      terminated := fun _ ht => nomatch ht
      collected := fun _ hs => nomatch hs
      done := fun hd => nomatch hd }
  | collect hx hstatus => exact { h with
      unsent := fun hu => absurd hu (hsent (by simp [hx]))
      collected := fun status hs => by
        obtain rfl := HandlerPc.collected.inj hs
        exact h.terminated _ hstatus
      done := fun hd => nomatch hd }
  | lose hlost =>
    obtain rfl | rfl := hlost <;> cases hact
  | @answer status hx =>
    obtain ⟨rfl, hc⟩ := h.collected status hx
    exact { h with
      unsent := fun hu => absurd hu (hsent (by simp [hx]))
      collected := fun _ hs => nomatch hs
      done := fun _ => Or.inl rfl
      answer := fun result hr => ⟨(Option.some.inj hr).symm, hc⟩ }
  | stop hstopped =>
    obtain rfl | rfl | rfl := hstopped <;> cases hact

theorem setChild (h : Served x) {c : Child}
    (hcompleted : x.child.completed = true → c.completed = true)
    (hunmounted : c.pc = .unmounted → c.completed = true)
    (hterminated : ∀ status, terminationStatus c.pc = some status →
      status = 0#32 ∧ c.completed = true) : Served { x with child := c } where
  not_failed := h.not_failed
  unsent := h.unsent
  unmounted := hunmounted
  terminated := hterminated
  collected status hs := (h.collected status hs).imp_right hcompleted
  done := h.done
  answer result hr := (h.answer result hr).imp_right hcompleted
  answered result hr := (h.answered result hr).imp_right hcompleted
  returned hr := hcompleted (h.returned hr)
  fellBack := h.fellBack

/-- Before the request the callback can have been told nothing. -/
theorem setApp (h : Served x) (hu : x.app.pc.unsent = true) {app : App}
    (hfailed : app.pc ≠ .failed) (hanswered : ∀ result, app.pc ≠ .answered result)
    (hreturned : app.pc ≠ .returned) (hf : app.fellBack = false) :
    Served { x with app := app } :=
  { h with
    not_failed := hfailed
    unsent := fun _ => h.unsent hu
    done := fun hd => nomatch (h.unsent hu).symm.trans hd
    answered := fun result hr => absurd hr (hanswered result)
    returned := fun hr => absurd hr hreturned
    fellBack := hf }

end Served

variable {s t : System} {i : Nat}

theorem appStep_served (h : Served (s.session i)) (hsteady : Steady (s.session i)) {act : AppAct}
    (hact : act.succeeds = true) (hstep : appStep s i act = some t) : Served (t.session i) := by
  have hu : (s.session i).app.pc ≠ .returned → (s.session i).app.unmounted = false :=
    hsteady.not_unmounted
  cases appStep_rule hstep with
  | unshare hpc =>
    have hunsent : (s.session i).app.pc.unsent = true := by rw [hpc]; rfl
    rw [System.setApp, session_setSession_self]
    exact h.setApp hunsent (by simp) (by simp) (by simp) (hu (by simp [hpc]))
  | mountSlave hpc =>
    have hunsent : (s.session i).app.pc.unsent = true := by rw [hpc]; rfl
    rw [System.setPc, System.setApp, session_setSession_self]
    exact h.setApp hunsent (by simp) (by simp) (by simp) (hu (by simp [hpc]))
  | fail hfail =>
    obtain ⟨_, rfl⟩ | ⟨_, rfl⟩ := hfail <;> cases hact
  | write hpc =>
    have hunsent : (s.session i).app.pc.unsent = true := by rw [hpc]; rfl
    have hsent : Served { s.session i with app := { (s.session i).app with pc := .requested } } :=
      h.setApp hunsent (by simp) (by simp) (by simp) (hu (by simp [hpc]))
    rw [session_setSession_self]
    exact { hsent with }
  | giveUp hgive =>
    obtain ⟨_, rfl | rfl⟩ | ⟨_, rfl⟩ := hgive <;> cases hact
  | @read result hpc hresult =>
    obtain ⟨rfl, hc⟩ := h.answer result hresult
    rw [session_setSession_self]
    exact { h with
      not_failed := fun hn => by cases hn
      unsent := fun hn => by cases hn
      done := fun _ => Or.inr (Or.inl rfl)
      answer := fun _ hr => by cases hr
      answered := fun _ hr => ⟨(AppPc.answered.inj hr).symm, hc⟩
      returned := fun hr => by cases hr
      fellBack := hu (by simp [hpc]) }
  | parse hpc => exact absurd (h.answered false hpc).1 Bool.false_ne_true
  | umount2 hpc =>
    have hf := h.fellBack
    rw [App.fellBack, hpc] at hf
    cases hf
  | succeed hpc =>
    rw [System.setPc, System.setApp, session_setSession_self]
    exact { h with
      not_failed := fun hn => by cases hn
      unsent := fun hn => by cases hn
      done := fun _ => Or.inr (Or.inr rfl)
      answered := fun _ hr => by cases hr
      returned := fun _ => (h.answered true hpc).2
      fellBack := hu (by simp [hpc]) }
  | fallBack hpc =>
    have hf := h.fellBack
    rw [App.fellBack, hpc] at hf
    cases hf

theorem childStep_served (h : Served (s.session i)) {act : ChildAct} (hact : act.succeeds = true)
    (hstep : childStep s i act = some t) : Served (t.session i) := by
  cases childStep_rule hstep with
  | openNs _ _ _ =>
    rw [System.setChild, session_setSession_self]
    exact h.setChild id (fun hn => by cases hn) fun _ hn => by cases hn
  | setns _ =>
    rw [System.setChild, session_setSession_self]
    exact h.setChild id (fun hn => by cases hn) fun _ hn => by cases hn
  | fail hfail =>
    obtain ⟨_, rfl⟩ | ⟨_, rfl⟩ := hfail <;> cases hact
  | parse _ =>
    rw [System.setChild, session_setSession_self]
    exact h.setChild id (fun hn => by cases hn) fun _ hn => by cases hn
  | umount2 _ =>
    rw [System.setChild, session_setSession_self, System.umount2_session]
    exact h.setChild id (fun hn => by cases hn) fun _ hn => by cases hn
  | complete _ =>
    rw [System.setChild, session_setSession_self]
    exact h.setChild (fun _ => rfl) (fun _ => rfl) fun _ hn => by cases hn
  | exit hpc =>
    have hc := h.unmounted hpc
    rw [System.setChild, session_setSession_self]
    exact h.setChild id (fun _ => hc) fun _ hs => ⟨(Option.some.inj hs).symm, hc⟩
  | kill _ _ => cases hact

theorem step_served {l : Label} (h : Served (s.session i)) (htold : Told (s.session i))
    (hsteady : Steady (s.session i)) (hl : l.session = some i → l.succeeds = true)
    (hstep : step s l = some t) : Served (t.session i) := by
  by_cases hs : l.session = some i
  · have hsucceeds := hl hs
    cases l with
    | fork parent pid => cases hs
    | die j => cases hs
    | app j act =>
      obtain rfl : j = i := Option.some.inj hs
      simp only [step] at hstep
      split at hstep
      · exact appStep_served h hsteady hsucceeds hstep
      · cases hstep
    | handler j act =>
      obtain rfl : j = i := Option.some.inj hs
      simp only [step] at hstep
      split at hstep
      · obtain ⟨y, hy, rfl⟩ := Option.map_eq_some_iff.mp hstep
        rw [session_setSession_self]
        exact h.handlerStep htold hsucceeds hy
      · cases hstep
    | child j act =>
      obtain rfl : j = i := Option.some.inj hs
      exact childStep_served h hsucceeds hstep
  · rwa [step_session hs hstep]

structure FlawlessSoFar (boot : Boot) (i : Nat) (s : System) : Prop where
  undisturbed : Undisturbed boot i s
  told : AllTold s
  bounded : Bounded boot.tableBound s
  served : Served (s.session i)

namespace FlawlessSoFar

variable {boot : Boot} {l : Label}

theorem initial (boot : Boot) (i : Nat) : FlawlessSoFar boot i boot.initial where
  undisturbed := Carried.initial boot _ i
  told _ := .fresh
  bounded := .initial boot
  served := .fresh

theorem step (h : FlawlessSoFar boot i s) (hl : Flawless i s l)
    (hstep : Companion.step s l = some t) : FlawlessSoFar boot i t where
  undisturbed := Undisturbed.step h.undisturbed hl.loopsSucceed hstep
  told := h.told.step h.undisturbed.wellformed hstep
  bounded := h.bounded.step h.undisturbed.wellformed hstep
  served := step_served h.served (h.told i) (h.undisturbed.steady i) hl.2 hstep

/-- The connection is never closed without an answer, so going on is flawless. -/
theorem goesOn (h : FlawlessSoFar boot i s) (halive : (s.task i).alive = true)
    (hl : GoesOn i s l) : Flawless i s l := by
  obtain ⟨hworks, hgoes⟩ := hl
  have hsucceeds : l.succeeds = true := by
    obtain hs | ⟨_, hpc, hdone, hanswer⟩ := hgoes
    · exact hs
    · obtain ha | ha | ha := h.served.done hdone
      · rw [hanswer] at ha
        cases ha
      · rw [hpc] at ha
        cases ha
      · rw [hpc] at ha
        cases ha
  refine ⟨?_, fun _ => hsucceeds⟩
  rintro j q rfl
  obtain rfl : j = i := eq_of_beq hworks
  exact halive

theorem live (h : FlawlessSoFar boot i s) (halive : (s.task i).alive = true)
    (hz : (s.task i).zygoteChild = true) : Live boot.tableBound i s :=
  ⟨h.undisturbed.wellformed, h.told, h.bounded, halive, hz, h.served.not_failed⟩

end FlawlessSoFar

/-- The app's table is what `doUnmount` makes of Zygote's, exactly without the selected mounts
where Zygote's tree lists the covered first and is clear. -/
structure Hidden (T X : List MountinfoEntry) : Prop where
  atomic : X = doUnmount Modules.umount2 T T
  exact : mountLayout.IsTree T → mountLayout.CoveredFirst T →
    (∀ m, mountLayout.Outermost (selected T) T m → mountLayout.Clear (selected T) T m) →
    mountLayout.Exact (selected T) T X

theorem Hidden.of_eq {T X : List MountinfoEntry} (h : X = doUnmount Modules.umount2 T T) :
    Hidden T X where
  atomic := h
  exact hT hord hclear := by
    rw [h, doUnmount_eq_unmountSelected]
    exact Layout.exact_of_clear hT hord hclear

theorem FlawlessSoFar.hidden {boot : Boot} (h : FlawlessSoFar boot i s)
    (hpc : (s.session i).app.pc = .returned) :
    Hidden (boot.table zygoteNs) (s.table (s.task i).ns) := by
  have hlinear := h.undisturbed.kept (Or.inr (by rw [hpc]; rfl))
  exact .of_eq (hlinear.served h.served.fellBack (h.served.returned hpc)).finish

/-- In every run in which no call of session `i` fails and every requester lives when its
namespace file is opened: when the callback has returned, its namespace is hidden; and as long
as the app lives, its session can go on to there without a failing call. -/
theorem flawless_hidden {boot : Boot} {ls : List Label} {s : System} {i : Nat}
    (hr : LabelledRun.run step boot.initial ls = some s)
    (hm : LabelledRun.Meets step (Flawless i) boot.initial ls) :
    ((s.session i).app.pc = .returned →
      Hidden (boot.table zygoteNs) (s.table (s.task i).ns)) ∧
    ((s.task i).alive = true → (s.task i).zygoteChild = true → ∃ ms t,
      LabelledRun.run step s ms = some t ∧ LabelledRun.Meets step (Flawless i) s ms ∧
        (t.session i).app.pc = .returned ∧
        Hidden (boot.table zygoteNs) (t.table (t.task i).ns)) := by
  have h := LabelledRun.run_meets_invariant (fun _ _ _ h hl hst => FlawlessSoFar.step h hl hst)
    (FlawlessSoFar.initial boot i) hm hr
  refine ⟨h.hidden, ?_⟩
  intro halive hz
  obtain ⟨ms, t, hrun, hgoes, hpc⟩ := (h.live halive hz).returns
  have hstep : ∀ (s : System) (l : Label) (t : System),
      FlawlessSoFar boot i s ∧ (s.task i).alive = true → GoesOn i s l → step s l = some t →
      FlawlessSoFar boot i t ∧ (t.task i).alive = true := by
    rintro s l t ⟨h, halive⟩ hl hst
    exact ⟨h.step (h.goesOn halive hl) hst, ((step_task hl.1 hst i).1).trans halive⟩
  have hmeets : LabelledRun.Meets step (Flawless i) s ms :=
    hgoes.mono hstep (fun _ _ hs hl => hs.1.goesOn hs.2 hl) ⟨h, halive⟩
  obtain ⟨hend, _⟩ := LabelledRun.run_meets_invariant hstep ⟨h, halive⟩ hgoes hrun
  exact ⟨ms, t, hrun, hmeets, hpc, hend.hidden hpc⟩

theorem flawless_hidden_answered : ∃ s,
    LabelledRun.run step sampleBoot.initial answeredRun = some s ∧
    Hidden (sampleBoot.table zygoteNs) (s.table (s.task 2).ns) := by
  have hrun : (LabelledRun.run step sampleBoot.initial answeredRun).map
      (fun s => (s.session 2).app.pc) = some .returned := by decide
  obtain ⟨s, hs, hpc⟩ := Option.map_eq_some_iff.mp hrun
  have hok : ∀ l ∈ answeredRun, l.session = some 2 → l.succeeds = true := by decide
  have hm := requesterAlive_answeredRun.and
    (LabelledRun.meets_of_forall (fun l hl _ => hok l hl) sampleBoot.initial)
  exact ⟨s, hs, (flawless_hidden hs hm).1 hpc⟩

end ZygiskAssistant.Companion
