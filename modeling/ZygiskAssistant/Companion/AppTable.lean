import ZygiskAssistant.Companion.Ownership

/-!
# What holds of the app's table

From its `unshare` on the app is in a namespace of its own, and there only its
own session changes the table. So what a session keeps between its state and
that table, move by move, holds in every run, whatever the others do.
-/

namespace ZygiskAssistant.Companion

open Parsers Modules

variable {s t : System} {l : Label} {i : Nat}

/-- The callback has begun its own `doUnmount`. -/
def App.fellBack (app : App) : Bool :=
  match app.pc with
  | .unmounting _ => true
  | _ => app.unmounted

def ChildPc.beforeEnd : ChildPc → Bool
  | .unmounted => false
  | .exited _ => false
  | .killed _ => false
  | _ => true

structure Steady (x : Session) : Prop where
  working : x.child.pc.beforeEnd = true → x.child.completed = false
  entered : x.child.completed = true → x.child.entered = true
  unmounted : x.app.unmounted = true → x.app.pc = .returned

namespace Steady

variable {x y : Session}

theorem fresh : Steady .fresh where
  working _ := rfl
  entered h := nomatch h
  unmounted h := nomatch h

theorem setApp (h : Steady x) {app : App} (hu : app.unmounted = true → app.pc = .returned) :
    Steady { x with app := app } := { h with unmounted := hu }

theorem setChild (h : Steady x) {c : Child} (hworking : c.pc.beforeEnd = true → c.completed = false)
    (hentered : c.completed = true → c.entered = true) : Steady { x with child := c } where
  working := hworking
  entered := hentered
  unmounted := h.unmounted

theorem handlerStep (h : Steady x) (hunborn : x.handler.beforeFork = true →
    x.child = Session.fresh.child) {act : HandlerAct}
    (hstep : Companion.handlerStep x act = some y) : Steady y := by
  cases handlerStep_cases hstep with
  | fork hx =>
    have hc := hunborn (by rw [hx]; rfl)
    exact { h with working := fun _ => by rw [hc]; rfl }
  | _ => exact { h with }

theorem not_unmounted (h : Steady x) (hpc : x.app.pc ≠ .returned) : x.app.unmounted = false := by
  rw [← Bool.not_eq_true]
  exact fun hu => hpc (h.unmounted hu)

end Steady

def AllSteady (s : System) : Prop := ∀ i, Steady (s.session i)

namespace AllSteady

theorem appStep (h : AllSteady s) {act : AppAct} (hstep : appStep s i act = some t) :
    AllSteady t := by
  have hno : ∀ {u : System} {app : App}, u.session = s.session →
      (s.session i).app.pc ≠ .returned → app.unmounted = (s.session i).app.unmounted →
      AllSteady (u.setApp i app) := by
    intro u app hu hpc hunmounted
    have hu' : AllSteady u := fun j => hu ▸ h j
    refine forall_setSession hu' ((hu' i).setApp ?_)
    rw [hunmounted, (h i).not_unmounted hpc]
    exact fun hc => nomatch hc
  cases appStep_rule hstep with
  | unshare hpc => exact hno rfl (by simp [hpc]) rfl
  | mountSlave hpc => exact hno rfl (by simp [hpc]) rfl
  | fail hpc =>
    refine hno rfl ?_ rfl
    obtain ⟨hpc, _⟩ | ⟨hpc, _⟩ := hpc <;> simp [hpc]
  | write hpc =>
    have hu := (h i).not_unmounted (by simp [hpc])
    exact forall_setSession h { h i with
      unmounted := fun hc => by
        rw [hu] at hc
        cases hc }
  | giveUp hpc =>
    refine hno rfl ?_ rfl
    obtain ⟨hpc, _⟩ | ⟨hpc, _⟩ := hpc <;> simp [hpc]
  | read hpc _ =>
    have hu := (h i).not_unmounted (by simp [hpc])
    exact forall_setSession h { h i with
      unmounted := fun hc => by
        rw [hu] at hc
        cases hc }
  | parse hpc => exact hno rfl (by simp [hpc]) rfl
  | umount2 hpc => exact hno (by simp) (by simp [hpc]) (by simp)
  | succeed hpc => exact hno rfl (by simp [hpc]) rfl
  | fallBack _ => exact forall_setSession h ((h i).setApp fun _ => rfl)

theorem childStep (h : AllSteady s) (hw : Wellformed s) {act : ChildAct}
    (hstep : childStep s i act = some t) : AllSteady t := by
  have hkeep := (h i).entered
  cases childStep_rule hstep with
  | openNs hpc _ _ =>
    have hc := (h i).working (by rw [hpc]; rfl)
    exact forall_setSession h ((h i).setChild (fun _ => hc) hkeep)
  | setns hpc =>
    have hc := (h i).working (by rw [hpc]; rfl)
    exact forall_setSession h ((h i).setChild (fun _ => hc) fun _ => rfl)
  | fail _ => exact forall_setSession h ((h i).setChild (fun hb => nomatch hb) hkeep)
  | parse hpc =>
    have hc := (h i).working (by rw [hpc]; rfl)
    exact forall_setSession h ((h i).setChild (fun _ => hc) hkeep)
  | @umount2 ok path rest hpc =>
    have hc := (h i).working (by rw [hpc]; rfl)
    have hu : AllSteady (s.umount2 (s.session i).child.ns path ok) := by
      intro j
      rw [System.umount2_session]
      exact h j
    exact forall_setSession hu ((hu i).setChild (fun _ => hc) hkeep)
  | complete hpc =>
    have hentered := (hw.linked i).acting (by rw [hpc]; rfl)
    exact forall_setSession h ((h i).setChild (fun hb => nomatch hb) fun _ => hentered)
  | exit _ => exact forall_setSession h ((h i).setChild (fun hb => nomatch hb) hkeep)
  | kill _ _ => exact forall_setSession h ((h i).setChild (fun hb => nomatch hb) hkeep)

theorem step (h : AllSteady s) (hw : Wellformed s) (hstep : step s l = some t) : AllSteady t := by
  apply step_rule hstep
  · exact fun _ _ => h
  · exact fun _ => h
  · exact fun i act _ ha => h.appStep ha
  · exact fun i act y hy => forall_setSession h ((h i).handlerStep (hw.linked i).unborn hy)
  · exact fun i act hc => h.childStep hw hc

end AllSteady

theorem step_ns (hi : i < s.born) (hl : l.session ≠ some i) (hstep : step s l = some t) :
    (t.task i).ns = (s.task i).ns := by
  cases l with
  | fork parent pid =>
    simp only [step] at hstep
    split at hstep
    · obtain rfl := Option.some.inj hstep
      rw [s.task_fork, if_neg (by omega)]
    · cases hstep
  | die j =>
    obtain rfl := Option.some.inj hstep
    exact (s.task_die_frame j i).2.1
  | app j act =>
    have hne : i ≠ j := by
      rintro rfl
      exact hl rfl
    simp only [step] at hstep
    split at hstep
    · cases appStep_rule hstep with
      | unshare _ =>
        change ((s.unshared j).task i).ns = _
        rw [s.task_unshared, if_neg hne]
      | umount2 _ => exact congrArg (fun f => (f i).ns) (s.umount2_task _ _ _)
      | _ => rfl
    · cases hstep
  | handler j act =>
    simp only [step] at hstep
    split at hstep
    · obtain ⟨y, _, rfl⟩ := Option.map_eq_some_iff.mp hstep
      rfl
    · cases hstep
  | child j act =>
    cases childStep_rule hstep with
    | umount2 _ => exact congrArg (fun f => (f i).ns) (s.umount2_task _ _ _)
    | _ => rfl

theorem System.umount2_table_self (s : System) (n : Nat) (path : Str) (ok : Bool) :
    (s.umount2 n path ok).table n =
      if ok then Modules.umount2 (s.table n) path else s.table n := by
  cases ok with
  | true => exact if_pos (Or.inl rfl)
  | false => rfl

/-- The other sessions leave the session, its namespace and the table there. -/
theorem step_private (hw : Wellformed s) (hown : OpensOwn s) (hl : l.session ≠ some i)
    (hpc : (s.session i).app.pc = .unshared ∨ (s.session i).app.pc.inPrivate = true)
    (hstep : step s l = some t) : t.session i = s.session i ∧
      t.table (t.task i).ns = s.table (s.task i).ns := by
  have hmade : (s.task i).ns ∈ (s.session i).app.created := (hw.linked i).made hpc
  have hborn : i < s.born := by
    rw [← not_le]
    intro hle
    rw [(hw.unborn i hle).1] at hpc
    obtain hpc | hpc := hpc <;> cases hpc
  refine ⟨step_session hl hstep, ?_⟩
  rw [step_ns hborn hl hstep, step_table hown hw hstep (hw.task_ns i) fun j hj hjmade => ?_]
  obtain rfl := hw.created_unique j i _ hjmade hmade
  exact hl hj

/-- What a session keeps, move by move, between its state and the app's table, which is `T` to
begin with; `A` and `C` are the conditions on the acts of the callback and of the child. -/
structure KeptBySession (T : List MountinfoEntry) (A : Session → AppAct → Prop)
    (C : Session → ChildAct → Prop) (J : Session → List MountinfoEntry → Prop) : Prop where
  start {x : Session} {app : App} : (∀ rest, x.child.pc ≠ .unmounting rest) →
    x.child.completed = false → app.fellBack = false → J { x with app := app } T
  tell {x : Session} {X : List MountinfoEntry} : J x X → ∀ pc request answer,
    J { x with handler := pc, request := request, answer := answer } X
  goOn {x : Session} {X : List MountinfoEntry} {app : App} : J x X → x.app.fellBack = false →
    app.fellBack = false → J { x with app := app } X
  fallBack {x : Session} {X : List MountinfoEntry} {ok : Bool} : J x X → A x (.parse ok) →
    x.app.pc = .answered false → x.app.unmounted = false →
    J { x with app := { x.app with pc := .unmounting (if ok then umountPaths X else []) } } X
  fallOn {x : Session} {X : List MountinfoEntry} {ok : Bool} {path : Str} {rest : List Str} :
    J x X → A x (.umount2 ok) → x.app.pc = .unmounting (path :: rest) →
    x.app.unmounted = false → J { x with app := { x.app with pc := .unmounting rest } }
      (if ok then Modules.umount2 X path else X)
  fallThrough {x : Session} {X : List MountinfoEntry} : J x X → x.app.pc = .unmounting [] →
    J { x with app := { x.app with pc := .returned, unmounted := true } } X
  idle {x : Session} {X : List MountinfoEntry} {c : Child} : J x X →
    c.entered = x.child.entered → c.completed = x.child.completed → c.pc ≠ .entered →
    (∀ rest, c.pc ≠ .unmounting rest) → J { x with child := c } X
  enter {x : Session} {X : List MountinfoEntry} {n : Nat} : J x X → x.child.pc = .opened n →
    x.child.entered = false → x.child.completed = false →
    J { x with child := { x.child with pc := .entered, ns := n, entered := true } } X
  serve {x : Session} {X : List MountinfoEntry} {ok : Bool} : J x X → C x (.parse ok) →
    x.child.pc = .entered → x.child.entered = true → x.child.completed = false →
    J { x with child := { x.child with
      pc := .unmounting (if ok then umountPaths X else []) } } X
  serveOn {x : Session} {X : List MountinfoEntry} {ok : Bool} {path : Str} {rest : List Str} :
    J x X → C x (.umount2 ok) → x.child.pc = .unmounting (path :: rest) →
    x.child.entered = true → x.child.completed = false →
    J { x with child := { x.child with pc := .unmounting rest } }
      (if ok then Modules.umount2 X path else X)
  complete {x : Session} {X : List MountinfoEntry} : J x X → x.child.pc = .unmounting [] →
    x.child.entered = true →
    J { x with child := { x.child with pc := .unmounted, completed := true } } X

/-- It holds between session `i` and its app's own table, from `unshare` on. -/
def Private (J : Session → List MountinfoEntry → Prop) (i : Nat) (s : System) : Prop :=
  (s.session i).app.pc = .unshared ∨ (s.session i).app.pc.inPrivate = true →
    J (s.session i) (s.table (s.task i).ns)

namespace KeptBySession

variable {T : List MountinfoEntry} {A : Session → AppAct → Prop} {C : Session → ChildAct → Prop}
variable {J : Session → List MountinfoEntry → Prop} (hJ : KeptBySession T A C J)

include hJ

theorem setApp (h : Private J i s) (hpc : (s.session i).app.pc = .unshared ∨
    (s.session i).app.pc.inPrivate = true) (hf : (s.session i).app.fellBack = false)
    {app : App} (hf' : app.fellBack = false) : Private J i (s.setApp i app) := by
  intro _
  rw [System.setApp, session_setSession_self]
  exact hJ.goOn (h hpc) hf hf'

theorem unshare (hw : Wellformed s) (hsteady : Steady (s.session i)) (hin : Inherits s)
    (htable : s.table zygoteNs = T) (hz : (s.task i).zygoteChild = true)
    (hpc : (s.session i).app.pc = .forked) : Private J i (s.unshared i) := by
  intro _
  have hns : ((s.unshared i).task i).ns = s.namespaces := by
    rw [s.task_unshared, if_pos rfl]
  have hcopy : (s.unshared i).table s.namespaces = T := by
    rw [← htable, ← hin.forked i hz hpc]
    exact Function.update_self _ _ _
  have hlink := hw.linked i
  have hno : (s.session i).child.entered ≠ true := by
    intro he
    obtain ⟨q, hq, _⟩ := hlink.entered he
    have hprivate := (hlink.holder q hq).1
    rw [hpc] at hprivate
    cases hprivate
  rw [hns, hcopy, s.session_unshared, if_pos rfl]
  refine hJ.start ?_ ?_ ?_
  · intro rest hr
    exact hno (hlink.acting (by rw [hr]; rfl))
  · rw [← Bool.not_eq_true]
    exact fun hc => hno (hsteady.entered hc)
  · exact hsteady.not_unmounted (by simp [hpc])

theorem appStep (h : Private J i s) (hw : Wellformed s) (hsteady : Steady (s.session i))
    (hin : Inherits s) (htable : s.table zygoteNs = T) (hz : (s.task i).zygoteChild = true)
    {act : AppAct} (hact : A (s.session i) act) (hstep : appStep s i act = some t) :
    Private J i t := by
  have hu : (s.session i).app.pc ≠ .returned → (s.session i).app.unmounted = false :=
    hsteady.not_unmounted
  cases appStep_rule hstep with
  | unshare hpc => exact hJ.unshare hw hsteady hin htable hz hpc
  | mountSlave hpc =>
    have hslave : Private J i (s.mountSlave (s.task i).ns) := h
    have hu := hu (by simp [hpc])
    have hf : (s.session i).app.fellBack = false := by simp [App.fellBack, hpc, hu]
    exact hJ.setApp hslave (Or.inl hpc) hf hu
  | fail _ =>
    intro hc
    rw [System.setPc, System.setApp, session_setSession_self] at hc
    obtain hc | hc := hc <;> cases hc
  | write hpc =>
    have hu := hu (by simp [hpc])
    have hsent := hJ.goOn (h (Or.inr (by rw [hpc]; rfl))) (by simp [App.fellBack, hpc, hu])
      (show App.fellBack { (s.session i).app with pc := .requested } = false from hu)
    intro _
    rw [session_setSession_self]
    exact hJ.tell hsent (s.session i).handler (some (s.task i).pid) (s.session i).answer
  | giveUp hpc =>
    have hprivate : (s.session i).app.pc.inPrivate = true ∧
        (s.session i).app.fellBack = false := by
      obtain ⟨hpc, _⟩ | ⟨hpc, _⟩ := hpc
      · simp [App.fellBack, AppPc.inPrivate, hpc, hu]
      · simp [App.fellBack, AppPc.inPrivate, hpc, hu]
    refine hJ.setApp h (Or.inr hprivate.1) hprivate.2 (hu ?_)
    obtain ⟨hpc, _⟩ | ⟨hpc, _⟩ := hpc <;> simp [hpc]
  | @read result hpc _ =>
    have hu := hu (by simp [hpc])
    have hread := hJ.goOn (h (Or.inr (by rw [hpc]; rfl))) (by simp [App.fellBack, hpc, hu])
      (show App.fellBack { (s.session i).app with pc := .answered result } = false from hu)
    intro _
    rw [session_setSession_self]
    exact hJ.tell hread (s.session i).handler (s.session i).request none
  | @parse ok hpc =>
    intro _
    rw [System.setPc, System.setApp, session_setSession_self]
    exact hJ.fallBack (h (Or.inr (by rw [hpc]; rfl))) hact hpc (hu (by simp [hpc]))
  | @umount2 ok path rest hpc =>
    have hfell := hJ.fallOn (h (Or.inr (by rw [hpc]; rfl))) hact hpc (hu (by simp [hpc]))
    intro _
    rw [System.setPc, System.setApp, session_setSession_self, System.umount2_session]
    change J _ ((s.umount2 (s.task i).ns path ok).table
      ((s.umount2 (s.task i).ns path ok).task i).ns)
    rw [System.umount2_task, s.umount2_table_self]
    exact hfell
  | succeed hpc =>
    have hu := hu (by simp [hpc])
    exact hJ.setApp h (Or.inr (by rw [hpc]; rfl)) (by simp [App.fellBack, hpc, hu]) hu
  | fallBack hpc =>
    intro _
    rw [System.setApp, session_setSession_self]
    exact hJ.fallThrough (h (Or.inr (by rw [hpc]; rfl))) hpc

theorem handlerStep (h : Private J i s) {act : HandlerAct} {y : Session}
    (hstep : handlerStep (s.session i) act = some y) : Private J i (s.setSession i y) := by
  intro hpc
  rw [session_setSession_self, handlerStep_app hstep] at hpc
  rw [session_setSession_self]
  have hx := h hpc
  cases handlerStep_cases hstep with
  | @fork pid _ =>
    have hborn := hJ.idle (c := { (s.session i).child with pc := .started pid }) hx rfl rfl
      (by simp) (by simp)
    exact hJ.tell hborn .waiting (s.session i).request (s.session i).answer
  | _ => exact hJ.tell hx _ _ _

/-- The child moves in the table of the requester. -/
theorem childStep (h : Private J i s) (hw : Wellformed s) (hown : OpensOwn s)
    (hsteady : Steady (s.session i)) {act : ChildAct} (hact : C (s.session i) act)
    (hstep : childStep s i act = some t) : Private J i t := by
  have hlink := hw.linked i
  have hidle : ∀ {c : Child}, c.entered = (s.session i).child.entered →
      c.completed = (s.session i).child.completed → c.pc ≠ .entered →
      (∀ rest, c.pc ≠ .unmounting rest) → Private J i (s.setChild i c) := by
    intro c hentered hcompleted hpc hloop happ
    rw [System.setChild, session_setSession_self] at happ ⊢
    exact hJ.idle (h happ) hentered hcompleted hpc hloop
  cases childStep_rule hstep with
  | openNs _ _ _ => exact hidle rfl rfl (by simp) (by simp)
  | setns hpc =>
    intro happ
    rw [System.setChild, session_setSession_self] at happ ⊢
    exact hJ.enter (h happ) hpc (hlink.outside (by rw [hpc]; rfl))
      (hsteady.working (by rw [hpc]; rfl))
  | fail _ => exact hidle rfl rfl (by simp) (by simp)
  | @parse ok hpc =>
    obtain ⟨hns, _⟩ := hown.acting hw (i := i) (by rw [hpc]; rfl)
    intro happ
    rw [System.setChild, session_setSession_self] at happ ⊢
    have hserve := hJ.serve (h happ) hact hpc (hlink.acting (by rw [hpc]; rfl))
      (hsteady.working (by rw [hpc]; rfl))
    rw [System.unmountPlan, hns]
    exact hserve
  | @umount2 ok path rest hpc =>
    obtain ⟨hns, _⟩ := hown.acting hw (i := i) (by rw [hpc]; rfl)
    intro happ
    rw [System.setChild, session_setSession_self, System.umount2_session] at happ ⊢
    have hserve := hJ.serveOn (h happ) hact hpc (hlink.acting (by rw [hpc]; rfl))
      (hsteady.working (by rw [hpc]; rfl))
    change J _ ((s.umount2 (s.session i).child.ns path ok).table
      ((s.umount2 (s.session i).child.ns path ok).task i).ns)
    rw [System.umount2_task, hns, s.umount2_table_self]
    exact hserve
  | complete hpc =>
    intro happ
    rw [System.setChild, session_setSession_self] at happ ⊢
    exact hJ.complete (h happ) hpc (hlink.acting (by rw [hpc]; rfl))
  | exit _ => exact hidle rfl rfl (by simp) (by simp)
  | kill _ _ => exact hidle rfl rfl (by simp) (by simp)

theorem step (h : Private J i s) (hw : Wellformed s) (hown : OpensOwn s) (hin : Inherits s)
    (hsteady : AllSteady s) (htable : s.table zygoteNs = T)
    (happ : ∀ act, l = .app i act → A (s.session i) act)
    (hchild : ∀ act, l = .child i act → C (s.session i) act)
    (hstep : step s l = some t) : Private J i t := by
  by_cases hs : l.session = some i
  · cases l with
    | fork parent pid => cases hs
    | die j => cases hs
    | app j act =>
      obtain rfl : j = i := Option.some.inj hs
      simp only [Companion.step] at hstep
      split at hstep
      · rename_i hc
        rw [Bool.and_eq_true] at hc
        exact hJ.appStep h hw (hsteady j) hin htable hc.2 (happ act rfl) hstep
      · cases hstep
    | handler j act =>
      obtain rfl : j = i := Option.some.inj hs
      simp only [Companion.step] at hstep
      split at hstep
      · obtain ⟨y, hy, rfl⟩ := Option.map_eq_some_iff.mp hstep
        exact hJ.handlerStep h hy
      · cases hstep
    | child j act =>
      obtain rfl : j = i := Option.some.inj hs
      exact hJ.childStep h hw hown (hsteady j) (hchild act rfl) hstep
  · intro hpc
    rw [step_session hs hstep] at hpc
    obtain ⟨hsame, htab⟩ := step_private hw hown hs hpc hstep
    rw [hsame, htab]
    exact h hpc

end KeptBySession

/-- What holds in every run in which the requesters live until their namespace file is opened,
and what the session keeps. -/
structure Carried (boot : Boot) (J : Session → List MountinfoEntry → Prop) (i : Nat)
    (s : System) : Prop where
  wellformed : Wellformed s
  opensOwn : OpensOwn s
  inherits : Inherits s
  steady : AllSteady s
  zygote : s.table zygoteNs = boot.table zygoteNs
  kept : Private J i s

theorem Carried.initial (boot : Boot) (J : Session → List MountinfoEntry → Prop) (i : Nat) :
    Carried boot J i boot.initial where
  wellformed := .initial boot
  opensOwn _ _ hq := nomatch hq
  inherits := .initial boot
  steady _ := .fresh
  zygote := rfl
  kept hpc := by
    obtain hpc | hpc := hpc <;> cases hpc

theorem Carried.step {boot : Boot} {A : Session → AppAct → Prop} {C : Session → ChildAct → Prop}
    {J : Session → List MountinfoEntry → Prop} (h : Carried boot J i s)
    (hJ : KeptBySession (boot.table zygoteNs) A C J) (hl : RequesterAlive s l)
    (happ : ∀ act, l = .app i act → A (s.session i) act)
    (hchild : ∀ act, l = .child i act → C (s.session i) act) (hstep : step s l = some t) :
    Carried boot J i t where
  wellformed := h.wellformed.step hstep
  opensOwn := h.opensOwn.step h.wellformed hl hstep
  inherits := h.inherits.step hstep
  steady := h.steady.step h.wellformed hstep
  zygote := (step_boot_table h.opensOwn h.wellformed hstep Nat.two_pos).trans h.zygote
  kept := hJ.step h.kept h.wellformed h.opensOwn h.inherits h.steady h.zygote happ hchild hstep

end ZygiskAssistant.Companion
