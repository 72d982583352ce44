import ZygiskAssistant.Companion.Progress

/-!
# The callback can always come to its end

From every state of a run, as long as the app lives and could unshare, the
steps of its own session lead to the return of the callback, and none of them
is a failing call. The one exception is the read on a connection that the
handler has closed without an answer, which cannot succeed.
-/

namespace ZygiskAssistant.Companion

def AppAct.succeeds : AppAct → Bool
  | .unshare ok => ok
  | .mountSlave ok => ok
  | .noCompanion => false
  | .write ok => ok
  | .read ok => ok
  | .parse ok => ok
  | .umount2 ok => ok
  | .finish => true

def HandlerAct.succeeds : HandlerAct → Bool
  | .read ok => ok
  | .fork ok => ok
  | .waitpid ok => ok
  | .write ok => ok
  | .die => false

def ChildAct.succeeds : ChildAct → Bool
  | .openNs holder => holder.isSome
  | .setns ok => ok
  | .parse ok => ok
  | .umount2 ok => ok
  | .finish => true
  | .kill _ => false

def Label.succeeds : Label → Bool
  | .app _ act => act.succeeds
  | .handler _ act => act.succeeds
  | .child _ act => act.succeeds
  | _ => true

/-- The callback waits for an answer that nobody will send. -/
def Closed (x : Session) : Prop :=
  x.app.pc = .requested ∧ x.handler = .done ∧ x.answer = none

/-- A step of session `i` that does not fail, or the read on a closed connection. -/
def GoesOn (i : Nat) (s : System) (l : Label) : Prop :=
  l.worksFor i = true ∧
    (l.succeeds = true ∨ l = .app i (.read false) ∧ Closed (s.session i))

section Enabled

variable {s : System} {i : Nat}

theorem app_enabled (halive : (s.task i).alive = true) (hz : (s.task i).zygoteChild = true)
    (act : AppAct) (hact : act.succeeds = true) (hstep : (appStep s i act).isSome = true) :
    ∃ l t, GoesOn i s l ∧ step s l = some t := by
  obtain ⟨t, ht⟩ := Option.isSome_iff_exists.mp hstep
  refine ⟨.app i act, t, ⟨by simp [Label.worksFor], Or.inl hact⟩, ?_⟩
  simp [step, halive, hz, ht]

theorem handler_enabled (hi : i < s.born) (act : HandlerAct) (hact : act.succeeds = true)
    (hstep : (handlerStep (s.session i) act).isSome = true) :
    ∃ l t, GoesOn i s l ∧ step s l = some t := by
  obtain ⟨y, hy⟩ := Option.isSome_iff_exists.mp hstep
  have hne : act ≠ .die := by
    rintro rfl
    cases hact
  refine ⟨.handler i act, s.setSession i y, ⟨by simp [Label.worksFor, hne], Or.inl hact⟩, ?_⟩
  simp [step, hi, hy]

theorem child_enabled (act : ChildAct) (hact : act.succeeds = true)
    (hstep : (childStep s i act).isSome = true) : ∃ l t, GoesOn i s l ∧ step s l = some t := by
  obtain ⟨t, ht⟩ := Option.isSome_iff_exists.mp hstep
  exact ⟨.child i act, t, ⟨by simp [Label.worksFor], Or.inl hact⟩, ht⟩

theorem running_enabled (hw : Wellformed s) (halive : (s.task i).alive = true)
    (hborn : (s.session i).child.pc ≠ .unborn)
    (hrunning : terminationStatus (s.session i).child.pc = none) :
    ∃ l t, GoesOn i s l ∧ step s l = some t := by
  cases hpc : (s.session i).child.pc with
  | unborn => exact absurd hpc hborn
  | started pid =>
    obtain ⟨hpid, _⟩ := (hw.linked i).started pid hpc
    apply child_enabled (.openNs (some i)) rfl
    simp [childStep, hpc, halive, hpid]
  | opened n =>
    apply child_enabled (.setns true) rfl
    simp [childStep, hpc]
  | entered =>
    apply child_enabled (.parse true) rfl
    simp [childStep, hpc]
  | unmounting rest =>
    cases rest with
    | nil =>
      apply child_enabled .finish rfl
      simp [childStep, hpc]
    | cons path rest =>
      apply child_enabled (.umount2 true) rfl
      simp [childStep, hpc]
  | unmounted =>
    apply child_enabled .finish rfl
    simp [childStep, hpc]
  | exited code =>
    rw [hpc] at hrunning
    cases hrunning
  | killed signal =>
    rw [hpc] at hrunning
    cases hrunning

theorem requested_enabled (hw : Wellformed s) (htold : Told (s.session i))
    (halive : (s.task i).alive = true) (hz : (s.task i).zygoteChild = true)
    (hpc : (s.session i).app.pc = .requested) : ∃ l t, GoesOn i s l ∧ step s l = some t := by
  have hi := hw.born_of_alive halive
  cases hh : (s.session i).handler with
  | listening =>
    apply handler_enabled hi (.read true) rfl
    simpa [handlerStep, hh] using htold.request hpc hh
  | received pid =>
    apply handler_enabled hi (.fork true) rfl
    simp [handlerStep, hh]
  | waiting =>
    cases hs : terminationStatus (s.session i).child.pc with
    | none => exact running_enabled hw halive (htold.waiting hh) hs
    | some status =>
      apply handler_enabled hi (.waitpid true) rfl
      simp [handlerStep, hh, hs]
  | collected status =>
    apply handler_enabled hi (.write true) rfl
    simp [handlerStep, hh]
  | done =>
    cases ha : (s.session i).answer with
    | some result =>
      apply app_enabled halive hz (.read true) rfl
      simp [appStep, hpc, ha]
    | none =>
      have hclosed : Closed (s.session i) := ⟨hpc, hh, ha⟩
      refine ⟨.app i (.read false), s.setPc i (.answered false),
        ⟨by simp [Label.worksFor], Or.inr ⟨rfl, hclosed⟩⟩, ?_⟩
      simp [step, halive, hz, appStep, hpc]

theorem session_enabled (hw : Wellformed s) (htold : Told (s.session i))
    (halive : (s.task i).alive = true) (hz : (s.task i).zygoteChild = true)
    (hfailed : (s.session i).app.pc ≠ .failed) (hreturned : (s.session i).app.pc ≠ .returned) :
    ∃ l t, GoesOn i s l ∧ step s l = some t := by
  cases hpc : (s.session i).app.pc with
  | forked =>
    apply app_enabled halive hz (.unshare true) rfl
    simp [appStep, hpc]
  | unshared =>
    apply app_enabled halive hz (.mountSlave true) rfl
    simp [appStep, hpc]
  | isolated =>
    apply app_enabled halive hz (.write true) rfl
    simp [appStep, hpc]
  | requested => exact requested_enabled hw htold halive hz hpc
  | answered result =>
    cases result with
    | true =>
      apply app_enabled halive hz .finish rfl
      simp [appStep, hpc]
    | false =>
      apply app_enabled halive hz (.parse true) rfl
      simp [appStep, hpc]
  | unmounting rest =>
    cases rest with
    | nil =>
      apply app_enabled halive hz .finish rfl
      simp [appStep, hpc]
    | cons path rest =>
      apply app_enabled halive hz (.umount2 true) rfl
      simp [appStep, hpc]
  | returned => exact absurd hpc hreturned
  | failed => exact absurd hpc hfailed

end Enabled

structure Live (bound : Nat) (i : Nat) (s : System) : Prop where
  wellformed : Wellformed s
  told : AllTold s
  bounded : Bounded bound s
  alive : (s.task i).alive = true
  zygoteChild : (s.task i).zygoteChild = true
  not_failed : (s.session i).app.pc ≠ .failed

theorem step_task {s t : System} {l : Label} {i : Nat} (hl : l.worksFor i = true)
    (hstep : step s l = some t) (j : Nat) : (t.task j).alive = (s.task j).alive ∧
      (t.task j).zygoteChild = (s.task j).zygoteChild := by
  cases l with
  | fork parent pid => cases hl
  | die j => cases hl
  | app k act =>
    simp only [step] at hstep
    split at hstep
    · cases appStep_rule hstep with
      | unshare _ =>
        change ((s.unshared k).task j).alive = _ ∧ ((s.unshared k).task j).zygoteChild = _
        rw [s.task_unshared]
        split
        · rename_i hj
          subst hj
          exact ⟨rfl, rfl⟩
        · exact ⟨rfl, rfl⟩
      | @umount2 ok path _ _ =>
        change ((s.umount2 _ path ok).task j).alive = _ ∧
          ((s.umount2 _ path ok).task j).zygoteChild = _
        rw [s.umount2_task]
        exact ⟨rfl, rfl⟩
      | _ => exact ⟨rfl, rfl⟩
    · cases hstep
  | handler k act =>
    simp only [step] at hstep
    split at hstep
    · obtain ⟨y, _, rfl⟩ := Option.map_eq_some_iff.mp hstep
      exact ⟨rfl, rfl⟩
    · cases hstep
  | child k act =>
    cases childStep_rule hstep with
    | @umount2 ok path _ _ =>
      change ((s.umount2 _ path ok).task j).alive = _ ∧
        ((s.umount2 _ path ok).task j).zygoteChild = _
      rw [s.umount2_task]
      exact ⟨rfl, rfl⟩
    | _ => exact ⟨rfl, rfl⟩

theorem step_not_failed {s t : System} {l : Label} {i : Nat} (hl : GoesOn i s l)
    (hstep : step s l = some t) (hfailed : (s.session i).app.pc ≠ .failed) :
    (t.session i).app.pc ≠ .failed := by
  by_cases happ : ∃ act, l = .app i act
  · obtain ⟨act, rfl⟩ := happ
    simp only [step] at hstep
    split at hstep
    · cases appStep_rule hstep with
      | fail hact =>
        obtain ⟨_, hs | ⟨he, _⟩⟩ := hl
        · obtain ⟨_, rfl⟩ | ⟨_, rfl⟩ := hact <;> cases hs
        · obtain ⟨_, rfl⟩ | ⟨_, rfl⟩ := hact <;> cases he
      | _ =>
        intro hf
        simp [System.setPc, System.setApp, session_setSession_self] at hf
    · cases hstep
  · rwa [step_app (fun act he => happ ⟨act, he⟩) hstep]

theorem Live.step {bound i : Nat} {s t : System} {l : Label} (h : Live bound i s)
    (hl : GoesOn i s l) (hstep : Companion.step s l = some t) : Live bound i t where
  wellformed := h.wellformed.step hstep
  told := h.told.step h.wellformed hstep
  bounded := h.bounded.step h.wellformed hstep
  alive := (step_task hl.1 hstep i).1.trans h.alive
  zygoteChild := (step_task hl.1 hstep i).2.trans h.zygoteChild
  not_failed := step_not_failed hl hstep h.not_failed

/-- Each step that goes on lowers the rank, so they come to an end. -/
theorem Live.returns {bound i : Nat} {s : System} (h : Live bound i s) : ∃ ls t,
    LabelledRun.run Companion.step s ls = some t ∧
      LabelledRun.Meets Companion.step (GoesOn i) s ls ∧ (t.session i).app.pc = .returned := by
  induction hn : (s.session i).rank bound using Nat.strong_induction_on generalizing s with
  | _ n ih =>
    by_cases hreturned : (s.session i).app.pc = .returned
    · exact ⟨[], s, rfl, trivial, hreturned⟩
    · obtain ⟨l, t, hl, hstep⟩ :=
        session_enabled h.wellformed (h.told i) h.alive h.zygoteChild h.not_failed hreturned
      have hrank := step_rank h.bounded h.wellformed hstep (i := i)
      rw [hl.1, if_pos rfl] at hrank
      obtain ⟨ls, u, hrun, hmeets, hpc⟩ := ih _ (by omega) (h.step hl hstep) rfl
      refine ⟨l :: ls, u, ?_, ⟨hl, ?_⟩, hpc⟩
      · rw [LabelledRun.run_cons, hstep]
        exact hrun
      · intro v hv
        obtain rfl := Option.some.inj (hstep.symm.trans hv)
        exact hmeets

/-- From every reachable state in which the app lives and its `new_mount_ns` has not failed, the
steps of its own session alone lead to the return of the callback, with no failing call but the
read on a connection that the handler has closed. -/
theorem callback_returns {boot : Boot} {ls : List Label} {s : System}
    (hr : LabelledRun.run step boot.initial ls = some s) {i : Nat}
    (halive : (s.task i).alive = true) (hz : (s.task i).zygoteChild = true)
    (hfailed : (s.session i).app.pc ≠ .failed) : ∃ ms t,
      LabelledRun.run step s ms = some t ∧ LabelledRun.Meets step (GoesOn i) s ms ∧
        (t.session i).app.pc = .returned := by
  have hbounded : ∀ (s : System) (l : Label) (t : System),
      Wellformed s ∧ Bounded boot.tableBound s → step s l = some t →
      Wellformed t ∧ Bounded boot.tableBound t := by
    rintro s l t ⟨hw, h⟩ hst
    exact ⟨hw.step hst, h.step hw hst⟩
  obtain ⟨hw, hb⟩ := LabelledRun.run_invariant hbounded
    ⟨Wellformed.initial boot, .initial boot⟩ hr
  exact Live.returns ⟨hw, AllTold.run hr, hb, halive, hz, hfailed⟩

theorem callback_returns_closed : ∃ s,
    LabelledRun.run step sampleBoot.initial (requestRun ++ [.handler 2 .die]) = some s ∧
    ∃ ms t, LabelledRun.run step s ms = some t ∧ LabelledRun.Meets step (GoesOn 2) s ms ∧
      (t.session 2).app.pc = .returned := by
  have hrun : (LabelledRun.run step sampleBoot.initial (requestRun ++ [.handler 2 .die])).map
      (fun s => ((s.task 2).alive, (s.task 2).zygoteChild, (s.session 2).app.pc)) =
        some (true, true, .requested) := by decide
  obtain ⟨s, hs, he⟩ := Option.map_eq_some_iff.mp hrun
  obtain ⟨halive, hrest⟩ := Prod.mk.inj he
  obtain ⟨hz, hpc⟩ := Prod.mk.inj hrest
  exact ⟨s, hs, callback_returns hs halive hz (by simp [hpc])⟩

end ZygiskAssistant.Companion
