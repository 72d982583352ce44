import ZygiskAssistant.Companion.Handshake
import ZygiskAssistant.Companion.Rules

/-!
# The messages of a session

What is in flight and what it says, in every state and however the calls end. A
request stays until the handler reads it, no message is sent or read twice, and
a positive answer tells that the child has exited by itself, whatever its code.
-/

namespace ZygiskAssistant.Companion

def AppPc.unsent : AppPc → Bool
  | .forked => true
  | .unshared => true
  | .isolated => true
  | _ => false

def ChildPc.hasExited : ChildPc → Bool
  | .exited _ => true
  | _ => false

/-- What the parties of one session have told each other. -/
structure Told (x : Session) : Prop where
  unsent : x.app.pc.unsent = true → x.request = none
  request : x.app.pc = .requested → x.handler = .listening → x.request.isSome = true
  unanswered : x.handler ≠ .done → x.answer = none
  waiting : x.handler = .waiting → x.child.pc ≠ .unborn
  killed : ∀ signal, x.child.pc = .killed signal → wifexited signal = false
  collected : ∀ status, x.handler = .collected status → wifexited status = true →
    x.child.pc.hasExited = true
  answer : x.answer = some true → x.child.pc.hasExited = true
  answered : x.app.pc = .answered true → x.child.pc.hasExited = true

theorem handlerStep_done {x y : Session} {act : HandlerAct} (hstep : handlerStep x act = some y)
    (hdone : x.handler = .done) : y.handler = .done := by
  unfold handlerStep at hstep
  rw [hdone] at hstep
  cases act with
  | die =>
    obtain rfl := Option.some.inj hstep
    rfl
  | _ => cases hstep

namespace Told

variable {x y : Session}

theorem fresh : Told .fresh where
  unsent _ := rfl
  request h := nomatch h
  unanswered _ := rfl
  waiting h := nomatch h
  killed _ h := nomatch h
  collected _ h := nomatch h
  answer h := nomatch h
  answered h := nomatch h

/-- A step of the callback that neither sends nor takes a message. -/
theorem setApp (h : Told x) {app : App} (hunsent : app.pc.unsent = true → x.app.pc.unsent = true)
    (hrequest : app.pc ≠ .requested) (hanswered : app.pc ≠ .answered true) :
    Told { x with app := app } :=
  { h with
    unsent := fun hu => h.unsent (hunsent hu)
    request := fun hr => absurd hr hrequest
    answered := fun ha => absurd ha hanswered }

theorem setHandler (h : Told x) {pc : HandlerPc} (hlistening : pc ≠ .listening)
    (hwaiting : pc ≠ .waiting) (hdone : x.handler = .done → pc = .done)
    (hcollected : ∀ status, pc = .collected status → wifexited status = true →
      x.child.pc.hasExited = true) : Told { x with handler := pc } :=
  { h with
    request := fun _ hl => absurd hl hlistening
    unanswered := fun hd => h.unanswered fun he => hd (hdone he)
    waiting := fun hw => absurd hw hwaiting
    collected := hcollected }

/-- Only a child that has not terminated moves, so nobody has told of its exit. -/
theorem setChild (h : Told x) {c : Child} (hrunning : x.child.pc.hasExited = false)
    (hborn : c.pc ≠ .unborn) (hkilled : ∀ signal, c.pc = .killed signal → wifexited signal = false) :
    Told { x with child := c } := by
  have hno : x.child.pc.hasExited ≠ true := by simp [hrunning]
  exact { h with
    waiting := fun _ => hborn
    killed := hkilled
    collected := fun status hs hw => absurd (h.collected status hs hw) hno
    answer := fun ha => absurd (h.answer ha) hno
    answered := fun ha => absurd (h.answered ha) hno }

theorem terminated (h : Told x) {status : BitVec 32}
    (hstatus : terminationStatus x.child.pc = some status) (hw : wifexited status = true) :
    x.child.pc.hasExited = true := by
  cases hpc : x.child.pc with
  | exited code => rfl
  | killed signal =>
    rw [hpc] at hstatus
    obtain rfl := Option.some.inj hstatus
    rw [h.killed signal hpc] at hw
    cases hw
  | _ => cases hpc ▸ hstatus

theorem handlerStep (h : Told x) (hunborn : x.handler.beforeFork = true →
    x.child = Session.fresh.child) {act : HandlerAct}
    (hstep : Companion.handlerStep x act = some y) : Told y := by
  have hdone := handlerStep_done hstep
  cases handlerStep_cases hstep with
  | @read pid hx _ =>
    have hread : Told { x with handler := .received pid } := h.setHandler (by simp) (by simp)
      (fun hd => absurd (hx.symm.trans hd) (by simp)) (fun _ hs => nomatch hs)
    exact { hread with
      unsent := fun _ => rfl
      request := fun _ hl => nomatch hl }
  | @fork pid hx =>
    have hc := hunborn (by rw [hx]; rfl)
    have hborn : Told { x with child := { x.child with pc := .started pid } } :=
      h.setChild (by rw [hc]; rfl) (by simp) (by simp)
    exact { hborn with
      request := fun _ hl => nomatch hl
      unanswered := fun _ => h.unanswered (by simp [hx])
      waiting := fun _ hu => nomatch hu
      collected := fun _ hs => nomatch hs }
  | collect _ hstatus =>
    refine h.setHandler (by simp) (by simp) hdone ?_
    rintro _ ⟨⟩ hw
    exact h.terminated hstatus hw
  | lose _ =>
    refine h.setHandler (by simp) (by simp) hdone ?_
    rintro _ ⟨⟩ hw
    exact absurd hw (by decide)
  | @answer status hx =>
    have hsent : Told { x with handler := .done } := h.setHandler (by simp) (by simp)
      (fun _ => rfl) (fun _ hs => nomatch hs)
    exact { hsent with
      unanswered := fun hd => absurd rfl hd
      answer := fun ha => h.collected status hx (Option.some.inj ha) }
  | stop _ => exact h.setHandler (by simp) (by simp) (fun _ => rfl) (fun _ hs => nomatch hs)

end Told

theorem forall_setSession {P : Nat → Session → Prop} {s : System} {i : Nat} {x : Session}
    (h : ∀ j, P j (s.session j)) (hx : P i x) : ∀ j, P j ((s.setSession i x).session j) := by
  intro j
  rw [s.session_setSession]
  split
  · rename_i hj
    exact hj ▸ hx
  · exact h j

def AllTold (s : System) : Prop := ∀ i, Told (s.session i)

namespace AllTold

variable {s t : System} {i : Nat}

theorem setApp (h : AllTold s) {app : App}
    (hunsent : app.pc.unsent = true → (s.session i).app.pc.unsent = true)
    (hrequest : app.pc ≠ .requested) (hanswered : app.pc ≠ .answered true) :
    AllTold (s.setApp i app) :=
  forall_setSession h ((h i).setApp hunsent hrequest hanswered)

theorem setChild (h : AllTold s) {c : Child} (hrunning : (s.session i).child.pc.hasExited = false)
    (hborn : c.pc ≠ .unborn)
    (hkilled : ∀ signal, c.pc = .killed signal → wifexited signal = false) :
    AllTold (s.setChild i c) :=
  forall_setSession h ((h i).setChild hrunning hborn hkilled)

theorem appStep (h : AllTold s) {act : AppAct} (hstep : appStep s i act = some t) : AllTold t := by
  cases appStep_cases hstep with
  | unshare hpc =>
    have hforked : (s.session i).app.pc.unsent = true := by rw [hpc]; rfl
    exact h.setApp (s := s.unshare i) (fun _ => hforked) (by simp) (by simp)
  | mountSlave hpc =>
    have hunshared : (s.session i).app.pc.unsent = true := by rw [hpc]; rfl
    exact h.setApp (s := s.mountSlave (s.task i).ns) (fun _ => hunshared) (by simp) (by simp)
  | fail _ => exact h.setApp (fun hu => nomatch hu) (by simp) (by simp)
  | write _ =>
    exact forall_setSession h { h i with
      unsent := fun hu => nomatch hu
      request := fun _ _ => rfl
      answered := fun ha => nomatch ha }
  | @read result hpc hresult =>
    exact forall_setSession h { h i with
      unsent := fun hu => nomatch hu
      request := fun hr => nomatch hr
      unanswered := fun _ => rfl
      answer := fun ha => nomatch ha
      answered := fun ha => (h i).answer (hresult.trans (congrArg some (AppPc.answered.inj ha))) }
  | work table _ hnew =>
    obtain rfl | ⟨rest, rfl⟩ := hnew
    · exact h.setApp (s := { s with table := table }) (fun hu => nomatch hu) (by simp) (by simp)
    · exact h.setApp (s := { s with table := table }) (fun hu => nomatch hu) (by simp) (by simp)
  | succeed _ => exact h.setApp (fun hu => nomatch hu) (by simp) (by simp)
  | fallBack _ => exact h.setApp (fun hu => nomatch hu) (by simp) (by simp)

theorem childStep (h : AllTold s) {act : ChildAct} (hstep : childStep s i act = some t) :
    AllTold t := by
  cases childStep_cases hstep with
  | openNs hpc _ _ => exact h.setChild (by rw [hpc]; rfl) (by simp) (by simp)
  | setns hpc => exact h.setChild (by rw [hpc]; rfl) (by simp) (by simp)
  | fail hpc =>
    obtain ⟨_, hpc⟩ | ⟨_, hpc⟩ := hpc
    · exact h.setChild (by rw [hpc]; rfl) (by simp) (by simp)
    · exact h.setChild (by rw [hpc]; rfl) (by simp) (by simp)
  | work table ha =>
    have hrunning : (s.session i).child.pc.hasExited = false := by
      cases hpc : (s.session i).child.pc with
      | exited code => cases hpc ▸ ha
      | _ => rfl
    exact h.setChild (s := { s with table := table }) hrunning (by simp) (by simp)
  | complete hpc => exact h.setChild (by rw [hpc]; rfl) (by simp) (by simp)
  | exit hpc => exact h.setChild (by rw [hpc]; rfl) (by simp) (by simp)
  | kill hr hsignal =>
    have hrunning : (s.session i).child.pc.hasExited = false := by
      cases hpc : (s.session i).child.pc with
      | exited code => cases hpc ▸ hr
      | _ => rfl
    refine h.setChild hrunning (by simp) ?_
    rintro _ ⟨⟩
    exact hsignal

theorem step (h : AllTold s) (hw : Wellformed s) {l : Label}
    (hstep : Companion.step s l = some t) : AllTold t := by
  apply step_rule hstep
  · exact fun _ _ => h
  · exact fun _ => h
  · exact fun i act _ ha => h.appStep ha
  · exact fun i act y hy => forall_setSession h ((h i).handlerStep (hw.linked i).unborn hy)
  · exact fun i act hc => h.childStep hc

theorem run {boot : Boot} {ls : List Label}
    (hr : LabelledRun.run Companion.step boot.initial ls = some s) : AllTold s := by
  have hstep : ∀ (s : System) (l : Label) (t : System), Wellformed s ∧ AllTold s →
      Companion.step s l = some t → Wellformed t ∧ AllTold t := by
    rintro s l t ⟨hw, h⟩ hst
    exact ⟨hw.step hst, h.step hw hst⟩
  exact (LabelledRun.run_invariant hstep ⟨Wellformed.initial boot, fun _ => .fresh⟩ hr).2

end AllTold

def inFlight {α : Type} (message : Option α) : Nat := if message.isSome then 1 else 0

theorem session_setSession_self (s : System) (i : Nat) (x : Session) :
    (s.setSession i x).session i = x := by
  rw [s.session_setSession, if_pos rfl]

/-- Setting the state of the callback leaves the messages. -/
theorem setApp_messages (s : System) (i : Nat) (app : App) :
    ((s.setApp i app).session i).request = (s.session i).request ∧
      ((s.setApp i app).session i).answer = (s.session i).answer := by
  rw [System.setApp, session_setSession_self]
  exact ⟨rfl, rfl⟩

/-- Only `write` sends, and only `read` takes. -/
theorem appStep_silent {s t : System} {i : Nat} {act : AppAct} (hwrite : ∀ ok, act ≠ .write ok)
    (hread : ∀ ok, act ≠ .read ok) (hstep : appStep s i act = some t) :
    (t.session i).request = (s.session i).request ∧
      (t.session i).answer = (s.session i).answer := by
  cases act with
  | write ok => exact absurd rfl (hwrite ok)
  | read ok => exact absurd rfl (hread ok)
  | umount2 ok =>
    simp only [appStep] at hstep
    split at hstep
    · rename_i path rest _
      obtain rfl := Option.some.inj hstep
      obtain ⟨table, he⟩ := s.umount2_eq (s.task i).ns path ok
      rw [he]
      exact setApp_messages _ _ _
    · cases hstep
  | _ =>
    simp only [appStep] at hstep
    repeat' split at hstep
    all_goals first
      | obtain rfl := Option.some.inj hstep
        exact setApp_messages _ _ _
      | cases hstep

theorem appStep_write {s t : System} {i : Nat} {ok : Bool}
    (hstep : appStep s i (.write ok) = some t) : (s.session i).app.pc = .isolated ∧
      (t.session i).request = (if ok then some (s.task i).pid else (s.session i).request) ∧
      (t.session i).answer = (s.session i).answer ∧ (t.session i).app.pc.unsent = false := by
  simp only [appStep] at hstep
  split at hstep
  · rename_i hpc
    split at hstep
    · rename_i hok
      obtain rfl := Option.some.inj hstep
      rw [session_setSession_self, hok]
      exact ⟨hpc, rfl, rfl, rfl⟩
    · rename_i hok
      obtain rfl := Option.some.inj hstep
      rw [System.setPc, System.setApp, session_setSession_self, if_neg hok]
      exact ⟨hpc, rfl, rfl, rfl⟩
  · cases hstep

theorem appStep_read {s t : System} {i : Nat} {ok : Bool}
    (hstep : appStep s i (.read ok) = some t) :
    (t.session i).request = (s.session i).request ∧
      (ok = true → (s.session i).answer.isSome = true) ∧
      (t.session i).answer = (if ok then none else (s.session i).answer) := by
  simp only [appStep] at hstep
  split at hstep
  · split at hstep
    · rename_i hok
      obtain ⟨result, hresult, rfl⟩ := Option.map_eq_some_iff.mp hstep
      rw [session_setSession_self, hok]
      exact ⟨rfl, fun _ => by rw [hresult]; rfl, rfl⟩
    · rename_i hok
      obtain rfl := Option.some.inj hstep
      rw [System.setPc, System.setApp, session_setSession_self, if_neg hok]
      exact ⟨rfl, fun hok' => absurd hok' hok, rfl⟩
  · cases hstep

theorem childStep_messages {s t : System} {i : Nat} {act : ChildAct}
    (hstep : childStep s i act = some t) : (t.session i).request = (s.session i).request ∧
      (t.session i).answer = (s.session i).answer := by
  cases childStep_cases hstep <;>
    (rw [System.setChild, session_setSession_self]; exact ⟨rfl, rfl⟩)

/-- The session that a label belongs to. -/
def Label.session : Label → Option Nat
  | .app i _ => some i
  | .handler i _ => some i
  | .child i _ => some i
  | _ => none

theorem session_setSession_ne (s : System) {i j : Nat} (hne : i ≠ j) (x : Session) :
    (s.setSession i x).session j = s.session j := by
  rw [s.session_setSession, if_neg (Ne.symm hne)]

/-- A step changes one session. -/
theorem step_session {s t : System} {l : Label} {j : Nat} (hl : l.session ≠ some j)
    (hstep : step s l = some t) : t.session j = s.session j := by
  cases l with
  | fork parent pid =>
    simp only [step] at hstep
    split at hstep
    · obtain rfl := Option.some.inj hstep
      rfl
    · cases hstep
  | die i =>
    obtain rfl := Option.some.inj hstep
    rfl
  | app i act =>
    have hne : i ≠ j := fun he => hl (congrArg some he)
    simp only [step] at hstep
    split at hstep
    · cases appStep_cases hstep <;> exact session_setSession_ne _ hne _
    · cases hstep
  | handler i act =>
    have hne : i ≠ j := fun he => hl (congrArg some he)
    simp only [step] at hstep
    split at hstep
    · obtain ⟨y, _, rfl⟩ := Option.map_eq_some_iff.mp hstep
      exact session_setSession_ne _ hne _
    · cases hstep
  | child i act =>
    have hne : i ≠ j := fun he => hl (congrArg some he)
    cases childStep_cases hstep <;> exact session_setSession_ne _ hne _

theorem appStep_ledger {s t : System} {i : Nat} (h : Told (s.session i)) {act : AppAct}
    (hstep : appStep s i act = some t) :
    inFlight (t.session i).request =
        inFlight (s.session i).request + (if act = .write true then 1 else 0) ∧
      inFlight (t.session i).answer + (if act = .read true then 1 else 0) =
        inFlight (s.session i).answer := by
  cases act with
  | write ok =>
    obtain ⟨hpc, hrequest, hanswer, _⟩ := appStep_write hstep
    have hnone := h.unsent (by rw [hpc]; rfl)
    rw [hrequest, hanswer, hnone]
    cases ok <;> simp [inFlight]
  | read ok =>
    obtain ⟨hrequest, hsome, hanswer⟩ := appStep_read hstep
    rw [hrequest, hanswer]
    cases ok with
    | false => simp
    | true => simp [inFlight, hsome rfl]
  | _ =>
    obtain ⟨hrequest, hanswer⟩ := appStep_silent (by simp) (by simp) hstep
    rw [hrequest, hanswer]
    simp

theorem handlerStep_ledger {x y : Session} (h : Told x) {act : HandlerAct}
    (hstep : handlerStep x act = some y) :
    inFlight y.request + (if act = .read true then 1 else 0) = inFlight x.request ∧
      inFlight y.answer = inFlight x.answer + (if act = .write true then 1 else 0) := by
  cases handlerStep_cases hstep with
  | read _ hp => simp [inFlight, hp]
  | fork _ => simp
  | collect _ _ => simp
  | lose hact => obtain rfl | rfl := hact <;> simp
  | answer hx =>
    have hnone := h.unanswered (by simp [hx])
    simp [inFlight, hnone]
  | stop hact => obtain rfl | rfl | rfl := hact <;> simp

/-- One entry of the ledger: what is sent is in flight until it is taken. -/
theorem step_ledger {s t : System} (h : AllTold s) {l : Label} (hstep : step s l = some t)
    (i : Nat) :
    inFlight (t.session i).request + (if l == .handler i (.read true) then 1 else 0) =
        inFlight (s.session i).request + (if l == .app i (.write true) then 1 else 0) ∧
      inFlight (t.session i).answer + (if l == .app i (.read true) then 1 else 0) =
        inFlight (s.session i).answer + (if l == .handler i (.write true) then 1 else 0) := by
  by_cases hl : l.session = some i
  · cases l with
    | fork parent pid => cases hl
    | die j => cases hl
    | app j act =>
      obtain rfl := Option.some.inj hl
      simp only [step] at hstep
      split at hstep
      · obtain ⟨hrequest, hanswer⟩ := appStep_ledger (h j) hstep
        simp [hrequest, ← hanswer]
      · cases hstep
    | handler j act =>
      obtain rfl := Option.some.inj hl
      simp only [step] at hstep
      split at hstep
      · obtain ⟨y, hy, rfl⟩ := Option.map_eq_some_iff.mp hstep
        obtain ⟨hrequest, hanswer⟩ := handlerStep_ledger (h j) hy
        rw [session_setSession_self]
        simp [← hrequest, hanswer]
      · cases hstep
    | child j act =>
      obtain rfl := Option.some.inj hl
      obtain ⟨hrequest, hanswer⟩ := childStep_messages hstep
      rw [hrequest, hanswer]
      simp
  · have hne : ∀ m : Label, m.session = some i → (l == m) = false := by
      rintro m hm
      rw [beq_eq_false_iff_ne]
      rintro rfl
      exact hl hm
    rw [step_session hl hstep, hne _ rfl, hne _ rfl, hne _ rfl, hne _ rfl]
    exact ⟨rfl, rfl⟩

theorem appStep_unsent {s t : System} {i : Nat} {act : AppAct} (hstep : appStep s i act = some t)
    (ht : (t.session i).app.pc.unsent = true) :
    (s.session i).app.pc.unsent = true ∧ act ≠ .write true := by
  constructor
  · cases appStep_cases hstep with
    | unshare hpc => rw [hpc]; rfl
    | mountSlave hpc => rw [hpc]; rfl
    | work table _ hnew =>
      rw [System.setPc, System.setApp, session_setSession_self] at ht
      obtain rfl | ⟨rest, rfl⟩ := hnew <;> cases ht
    | fail _ => rw [System.setPc, System.setApp, session_setSession_self] at ht; cases ht
    | write _ => rw [session_setSession_self] at ht; cases ht
    | read _ _ => rw [session_setSession_self] at ht; cases ht
    | succeed _ => rw [System.setPc, System.setApp, session_setSession_self] at ht; cases ht
    | fallBack _ => rw [System.setApp, session_setSession_self] at ht; cases ht
  · rintro rfl
    obtain ⟨_, _, _, hsent⟩ := appStep_write hstep
    rw [hsent] at ht
    cases ht

/-- The callback's own steps are the only ones that move it. -/
theorem step_app {s t : System} {l : Label} {i : Nat} (hl : ∀ act, l ≠ .app i act)
    (hstep : step s l = some t) : (t.session i).app = (s.session i).app := by
  by_cases hs : l.session = some i
  · cases l with
    | fork parent pid => cases hs
    | die j => cases hs
    | app j act =>
      obtain rfl := Option.some.inj hs
      exact absurd rfl (hl act)
    | handler j act =>
      obtain rfl := Option.some.inj hs
      simp only [step] at hstep
      split at hstep
      · obtain ⟨y, hy, rfl⟩ := Option.map_eq_some_iff.mp hstep
        rw [session_setSession_self, handlerStep_app hy]
      · cases hstep
    | child j act =>
      obtain rfl := Option.some.inj hs
      cases childStep_cases hstep <;> rw [System.setChild, session_setSession_self]
  · rw [step_session hs hstep]

theorem step_handler {s t : System} {l : Label} {i : Nat} (hl : ∀ act, l ≠ .handler i act)
    (hstep : step s l = some t) : (t.session i).handler = (s.session i).handler := by
  by_cases hs : l.session = some i
  · cases l with
    | fork parent pid => cases hs
    | die j => cases hs
    | app j act =>
      obtain rfl := Option.some.inj hs
      simp only [step] at hstep
      split at hstep
      · cases appStep_cases hstep <;>
          simp only [System.setPc, System.setApp, session_setSession_self] <;> rfl
      · cases hstep
    | handler j act =>
      obtain rfl := Option.some.inj hs
      exact absurd rfl (hl act)
    | child j act =>
      obtain rfl := Option.some.inj hs
      cases childStep_cases hstep <;> rw [System.setChild, session_setSession_self]
  · rw [step_session hs hstep]

/-- The state from which a request can still be sent is left by sending it. -/
theorem step_sends {s t : System} {l : Label} (hstep : step s l = some t) (i : Nat) :
    (if (t.session i).app.pc.unsent then 1 else 0) + (if l == .app i (.write true) then 1 else 0) ≤
      if (s.session i).app.pc.unsent then 1 else 0 := by
  by_cases hl : ∃ act, l = .app i act
  · obtain ⟨act, rfl⟩ := hl
    simp only [step] at hstep
    split at hstep
    · cases ht : (t.session i).app.pc.unsent with
      | true =>
        obtain ⟨hs, hact⟩ := appStep_unsent hstep ht
        simp [hs, hact]
      | false =>
        by_cases hact : act = .write true
        · subst hact
          obtain ⟨hpc, _, _, _⟩ := appStep_write hstep
          simp [hpc, AppPc.unsent]
        · simp [hact]
    · cases hstep
  · have happ := step_app (fun act he => hl ⟨act, he⟩) hstep
    have hne : (l == .app i (.write true)) = false := by
      rw [beq_eq_false_iff_ne]
      rintro rfl
      exact hl ⟨_, rfl⟩
    rw [happ, hne]
    exact le_refl _

def answering (x : Session) : Nat := if x.handler = .done then 0 else 1

theorem handlerStep_answers {x y : Session} {act : HandlerAct} (hstep : handlerStep x act = some y) :
    answering y + (if act = .write true then 1 else 0) ≤ answering x := by
  have hdone := handlerStep_done hstep
  unfold answering
  by_cases hx : x.handler = .done
  · cases handlerStep_cases hstep with
    | answer hc => rw [hx] at hc; cases hc
    | stop hact => obtain rfl | rfl | rfl := hact <;> simp
    | _ => cases hdone hx
  · rw [if_neg hx]
    cases handlerStep_cases hstep with
    | answer _ => simp
    | lose hact => obtain rfl | rfl := hact <;> simp
    | stop hact => obtain rfl | rfl | rfl := hact <;> simp
    | _ => simp

theorem step_answers {s t : System} {l : Label} (hstep : step s l = some t) (i : Nat) :
    answering (t.session i) + (if l == .handler i (.write true) then 1 else 0) ≤
      answering (s.session i) := by
  by_cases hl : ∃ act, l = .handler i act
  · obtain ⟨act, rfl⟩ := hl
    simp only [step] at hstep
    split at hstep
    · obtain ⟨y, hy, rfl⟩ := Option.map_eq_some_iff.mp hstep
      rw [session_setSession_self]
      simpa using handlerStep_answers hy
    · cases hstep
  · have hsame := step_handler (fun act he => hl ⟨act, he⟩) hstep
    have hne : (l == .handler i (.write true)) = false := by
      rw [beq_eq_false_iff_ne]
      rintro rfl
      exact hl ⟨_, rfl⟩
    rw [answering, hsame, hne]
    exact le_refl _

/-- In every run each session sends its request and its answer at most once, and whatever was
sent has been taken once or is in flight. -/
theorem messages_conserved {boot : Boot} {ls : List Label} {s : System}
    (hr : LabelledRun.run step boot.initial ls = some s) (i : Nat) :
    (ls.count (.handler i (.read true)) + inFlight (s.session i).request =
        ls.count (.app i (.write true)) ∧ ls.count (.app i (.write true)) ≤ 1) ∧
      ls.count (.app i (.read true)) + inFlight (s.session i).answer =
        ls.count (.handler i (.write true)) ∧ ls.count (.handler i (.write true)) ≤ 1 := by
  have hkeep : ∀ (s : System) (l : Label) (t : System), Wellformed s ∧ AllTold s →
      step s l = some t → Wellformed t ∧ AllTold t := by
    rintro s l t ⟨hw, h⟩ hst
    exact ⟨hw.step hst, h.step hw hst⟩
  have hinit : Wellformed boot.initial ∧ AllTold boot.initial :=
    ⟨Wellformed.initial boot, fun _ => .fresh⟩
  have hrequest := LabelledRun.run_balance (f := fun s => inFlight (s.session i).request)
    (fun s l t hs hst => ⟨hkeep s l t hs hst, (step_ledger hs.2 hst i).1⟩) hinit hr
  have hanswer := LabelledRun.run_balance (f := fun s => inFlight (s.session i).answer)
    (fun s l t hs hst => ⟨hkeep s l t hs hst, (step_ledger hs.2 hst i).2⟩) hinit hr
  have hsends := LabelledRun.run_variant (P := fun _ => True)
    (f := fun s => if (s.session i).app.pc.unsent then 1 else 0)
    (fun s l t _ hst => ⟨trivial, step_sends hst i⟩) trivial hr
  have hanswers := LabelledRun.run_variant (P := fun _ => True)
    (f := fun s => answering (s.session i))
    (fun s l t _ hst => ⟨trivial, step_answers hst i⟩) trivial hr
  have hempty : inFlight (boot.initial.session i).request = 0 ∧
      inFlight (boot.initial.session i).answer = 0 := ⟨rfl, rfl⟩
  change inFlight (s.session i).request + ls.count _ =
    inFlight (boot.initial.session i).request + ls.count _ at hrequest
  change inFlight (s.session i).answer + ls.count _ =
    inFlight (boot.initial.session i).answer + ls.count _ at hanswer
  change (if (s.session i).app.pc.unsent then 1 else 0) + ls.count _ ≤ 1 at hsends
  change answering (s.session i) + ls.count _ ≤ 1 at hanswers
  rw [hempty.1] at hrequest
  rw [hempty.2] at hanswer
  constructor
  · constructor
    · omega
    · omega
  · constructor
    · omega
    · omega

theorem messages_conserved_answered : ∃ s,
    LabelledRun.run step sampleBoot.initial answeredRun = some s ∧
    (answeredRun.count (.handler 2 (.read true)) + inFlight (s.session 2).request =
        answeredRun.count (.app 2 (.write true)) ∧
      answeredRun.count (.app 2 (.write true)) ≤ 1) ∧
    answeredRun.count (.app 2 (.read true)) + inFlight (s.session 2).answer =
        answeredRun.count (.handler 2 (.write true)) ∧
      answeredRun.count (.handler 2 (.write true)) ≤ 1 := by
  obtain ⟨s, hs⟩ := Option.isSome_iff_exists.mp
    (show (LabelledRun.run step sampleBoot.initial answeredRun).isSome = true by decide)
  exact ⟨s, hs, messages_conserved hs 2⟩

/-- In every run, a positive answer that is in flight or has been read tells that the child has
exited by itself; it was not killed, and it is not at work any more. -/
theorem positive_answer_exited {boot : Boot} {ls : List Label} {s : System}
    (hr : LabelledRun.run step boot.initial ls = some s) (i : Nat)
    (h : (s.session i).answer = some true ∨ (s.session i).app.pc = .answered true) :
    ∃ code, (s.session i).child.pc = .exited code := by
  have htold := AllTold.run hr i
  have hexited : (s.session i).child.pc.hasExited = true := by
    obtain h | h := h
    · exact htold.answer h
    · exact htold.answered h
  cases hpc : (s.session i).child.pc with
  | exited code => exact ⟨code, rfl⟩
  | _ =>
    rw [hpc] at hexited
    cases hexited

/-- In the run of a child that could not open the namespace file the answer is positive too. -/
theorem positive_answer_exited_failed : ∃ s,
    LabelledRun.run step sampleBoot.initial failedRun = some s ∧
    ∃ code, (s.session 2).child.pc = .exited code := by
  have hrun : (LabelledRun.run step sampleBoot.initial failedRun).map
      (fun s => (s.session 2).app.pc) = some (.answered true) := by decide
  obtain ⟨s, hs, hpc⟩ := Option.map_eq_some_iff.mp hrun
  exact ⟨s, hs, positive_answer_exited hs 2 (Or.inr hpc)⟩

end ZygiskAssistant.Companion
