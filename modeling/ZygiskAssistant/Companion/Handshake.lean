import ZygiskAssistant.Companion.Isolation

/-!
# What a positive answer means

The handler answers whether its child exited, not how. As long as it answers for
no child that exited with a code other than zero, a positive answer means that
the child's `doUnmount` has run to the end in the namespace of the requester.
A child that failed to enter it breaks this, and the fallback is skipped.
-/

namespace ZygiskAssistant.Companion

/-- Where the handler answers for a child that exited by itself, the exit code was zero. -/
def AnswersExitZero (s : System) (l : Label) : Prop :=
  ∀ i, l = .handler i (.write true) → ∀ status, (s.session i).handler = .collected status →
    wifexited status = true → status = 0#32

/-- `switchMountNS` led the child into the namespace `ns`, and its `doUnmount` ran to the end. -/
structure Completed (ns : Nat) (c : Child) : Prop where
  entered : c.entered = true
  completed : c.completed = true
  current : c.ns = ns

/-- What the state of the child, the status word and the answer say of the child's work. -/
structure Honest (i : Nat) (x : Session) : Prop where
  entered : x.child.completed = true → x.child.entered = true
  outside : x.child.pc.outside = true → x.child.completed = false
  unmounted : x.child.pc = .unmounted → x.child.completed = true
  terminated : terminationStatus x.child.pc = some 0#32 → x.child.completed = true
  collected : x.handler = .collected 0#32 → x.child.completed = true
  answer : x.answer = some true → x.child.completed = true
  answered : x.app.pc = .answered true → x.child.completed = true ∧ x.child.holder = some i
  returned : x.app.pc = .returned →
    (x.child.completed = true ∧ x.child.holder = some i) ∨ x.app.unmounted = true

namespace Honest

variable {i : Nat} {x y : Session}

theorem fresh (i : Nat) : Honest i .fresh where
  entered h := nomatch h
  outside _ := rfl
  unmounted h := nomatch h
  terminated h := nomatch h
  collected h := nomatch h
  answer h := nomatch h
  answered h := nomatch h
  returned h := nomatch h

theorem setHandler (h : Honest i x) {pc : HandlerPc}
    (hpc : pc = .collected 0#32 → x.child.completed = true) :
    Honest i { x with handler := pc } := { h with collected := hpc }

/-- Nothing is forgotten, and whoever completed keeps the namespace it opened. -/
theorem setChild (h : Honest i x) {c : Child}
    (hholder : x.child.completed = true → c.holder = x.child.holder)
    (hcompleted : x.child.completed = true → c.completed = true)
    (hentered : c.completed = true → c.entered = true)
    (houtside : c.pc.outside = true → c.completed = false)
    (hunmounted : c.pc = .unmounted → c.completed = true)
    (hterminated : terminationStatus c.pc = some 0#32 → c.completed = true) :
    Honest i { x with child := c } := by
  have hkeep : x.child.completed = true ∧ x.child.holder = some i →
      c.completed = true ∧ c.holder = some i := by
    rintro ⟨hc, hq⟩
    exact ⟨hcompleted hc, (hholder hc).trans hq⟩
  refine ⟨hentered, houtside, hunmounted, hterminated, ?_, ?_, ?_, ?_⟩
  · intro hs
    exact hcompleted (h.collected hs)
  · intro ha
    exact hcompleted (h.answer ha)
  · intro ha
    exact hkeep (h.answered ha)
  · intro hr
    exact (h.returned hr).imp hkeep id

theorem moveChild (h : Honest i x) {pc : ChildPc} {completed : Bool}
    (hcompleted : x.child.completed = true → completed = true)
    (hentered : completed = true → x.child.entered = true) (houtside : pc.outside = false)
    (hunmounted : pc = .unmounted → completed = true)
    (hterminated : terminationStatus pc = some 0#32 → completed = true) :
    Honest i { x with child := { x.child with pc := pc, completed := completed } } := by
  refine h.setChild (fun _ => rfl) hcompleted hentered ?_ hunmounted hterminated
  intro ho
  rw [houtside] at ho
  cases ho

theorem handlerStep (h : Honest i x) (hchild : x.handler.beforeFork = true →
      x.child = Session.fresh.child) {act : HandlerAct}
    (hzero : act = .write true → ∀ status, x.handler = .collected status →
      wifexited status = true → status = 0#32)
    (hstep : Companion.handlerStep x act = some y) : Honest i y := by
  cases handlerStep_cases hstep with
  | read _ _ => exact { h with collected := fun hs => nomatch hs }
  | @fork pid hx =>
    have hc : x.child.completed = false := by
      rw [hchild (by rw [hx]; rfl)]
      rfl
    have hforked : Honest i { x with child := { x.child with pc := .started pid } } :=
      h.setChild (fun _ => rfl) id h.entered (fun _ => hc) (fun hu => nomatch hu)
        (fun ht => nomatch ht)
    exact hforked.setHandler fun hs => nomatch hs
  | collect _ hstatus =>
    refine h.setHandler fun hs => ?_
    obtain rfl := HandlerPc.collected.inj hs
    exact h.terminated hstatus
  | lose _ => exact h.setHandler fun hs => absurd (HandlerPc.collected.inj hs) (by decide)
  | @answer status hx =>
    have hanswer : wifexited status = true → x.child.completed = true := by
      intro hw
      obtain rfl := hzero rfl status hx hw
      exact h.collected hx
    exact { h with
      collected := fun hs => nomatch hs
      answer := fun ha => hanswer (Option.some.inj ha) }
  | stop _ => exact h.setHandler fun hs => nomatch hs

/-- Before `read` takes a positive answer the callback has been told nothing. -/
theorem setApp (h : Honest i x) {app : App} (hanswered : app.pc ≠ .answered true)
    (hreturned : app.pc = .returned → app.unmounted = true) : Honest i { x with app := app } :=
  { h with
    answered := fun ha => absurd ha hanswered
    returned := fun hr => Or.inr (hreturned hr) }

end Honest

def AllHonest (s : System) : Prop := ∀ i, Honest i (s.session i)

namespace AllHonest

variable {s t : System} {i : Nat}

theorem setSession (h : AllHonest s) {x : Session} (hx : Honest i x) :
    AllHonest (s.setSession i x) := by
  intro j
  rw [s.session_setSession]
  split
  · rename_i hj
    exact hj ▸ hx
  · exact h j

theorem setPc (h : AllHonest s) {pc : AppPc} (hanswered : pc ≠ .answered true)
    (hreturned : pc ≠ .returned) : AllHonest (s.setPc i pc) :=
  h.setSession ((h i).setApp hanswered fun hr => absurd hr hreturned)

theorem withTable (h : AllHonest s) (table : Nat → List Parsers.MountinfoEntry) :
    AllHonest { s with table := table } := h

/-- A live requester reads the answer about a child that opened its own namespace. -/
theorem read (h : AllHonest s) (hw : Wellformed s) (ha : (s.task i).alive = true) {result : Bool}
    (hresult : (s.session i).answer = some result) : AllHonest (s.setSession i
      { s.session i with
        app := { (s.session i).app with pc := .answered result }, answer := none }) := by
  refine h.setSession { h i with
    answer := fun hn => nomatch hn
    answered := fun hp => ?_
    returned := fun hp => nomatch hp }
  obtain rfl := AppPc.answered.inj hp
  have hc := (h i).answer hresult
  obtain ⟨q, hq, _⟩ := (hw.linked i).entered ((h i).entered hc)
  have hqi := ((hw.linked i).holder q hq).2 ha
  exact ⟨hc, hqi ▸ hq⟩

theorem appStep (h : AllHonest s) (hw : Wellformed s) (ha : (s.task i).alive = true)
    {act : AppAct} (hstep : appStep s i act = some t) : AllHonest t := by
  cases appStep_cases hstep with
  | unshare _ => exact h.setSession ((h i).setApp (by simp) (by simp))
  | mountSlave _ => exact h.setSession ((h i).setApp (by simp) (by simp))
  | fail _ => exact h.setPc (by simp) (by simp)
  | write _ => exact h.setSession { h i with
      answered := by simp
      returned := by simp }
  | read _ hresult => exact h.read hw ha hresult
  | work table _ hnew =>
    obtain rfl | ⟨rest, rfl⟩ := hnew
    · exact (h.withTable table).setPc (by simp) (by simp)
    · exact (h.withTable table).setPc (by simp) (by simp)
  | succeed hpc => exact h.setSession { h i with
      answered := by simp
      returned := fun _ => Or.inl ((h i).answered hpc) }
  | fallBack _ => exact h.setSession ((h i).setApp (by simp) fun _ => rfl)

theorem childStep (h : AllHonest s) (hw : Wellformed s) {act : ChildAct}
    (hstep : childStep s i act = some t) : AllHonest t := by
  cases childStep_cases hstep with
  | openNs hpc _ _ =>
    have hc : (s.session i).child.completed = false := (h i).outside (by rw [hpc]; rfl)
    refine h.setSession ((h i).setChild ?_ id (h i).entered (fun _ => hc) (by simp)
      (by simp [terminationStatus]))
    intro hd
    rw [hc] at hd
    cases hd
  | setns _ => exact h.setSession ((h i).setChild (fun _ => rfl) id (fun _ => rfl)
      (by simp [ChildPc.outside]) (by simp) (by simp [terminationStatus]))
  | fail _ => exact h.setSession ((h i).moveChild id (h i).entered rfl (by simp)
      fun ht => absurd (Option.some.inj ht) (by decide))
  | work table _ => exact (h.withTable table).setSession ((h i).moveChild id (h i).entered rfl
      (by simp) (by simp [terminationStatus]))
  | complete hpc =>
    have hentered := (hw.linked i).acting (by rw [hpc]; rfl)
    exact h.setSession ((h i).moveChild (fun _ => rfl) (fun _ => hentered) rfl (fun _ => rfl)
      (by simp [terminationStatus]))
  | exit hpc =>
    have hc := (h i).unmounted hpc
    exact h.setSession ((h i).moveChild id (h i).entered rfl (by simp) fun _ => hc)
  | kill _ hsignal =>
    refine h.setSession ((h i).moveChild id (h i).entered rfl (by simp) ?_)
    intro ht
    obtain rfl := Option.some.inj ht
    exact absurd hsignal (by decide)

theorem step (h : AllHonest s) (hw : Wellformed s) {l : Label} (hzero : AnswersExitZero s l)
    (hstep : step s l = some t) : AllHonest t := by
  cases l with
  | fork parent pid =>
    simp only [Companion.step] at hstep
    split at hstep
    · obtain rfl := Option.some.inj hstep
      exact h
    · cases hstep
  | die i =>
    obtain rfl := Option.some.inj hstep
    exact h
  | app i act =>
    simp only [Companion.step] at hstep
    split at hstep
    · rename_i hc
      rw [Bool.and_eq_true] at hc
      exact h.appStep hw hc.1 hstep
    · cases hstep
  | handler i act =>
    simp only [Companion.step] at hstep
    split at hstep
    · obtain ⟨y, hy, rfl⟩ := Option.map_eq_some_iff.mp hstep
      refine h.setSession ((h i).handlerStep (hw.linked i).unborn ?_ hy)
      rintro rfl
      exact hzero i rfl
    · cases hstep
  | child i act => exact h.childStep hw hstep

theorem run {boot : Boot} {ls : List Label}
    (hr : LabelledRun.run Companion.step boot.initial ls = some s)
    (hm : LabelledRun.Meets Companion.step AnswersExitZero boot.initial ls) : AllHonest s := by
  have hstep : ∀ (s : System) (l : Label) (t : System), Wellformed s ∧ AllHonest s →
      AnswersExitZero s l → Companion.step s l = some t → Wellformed t ∧ AllHonest t := by
    rintro s l t ⟨hw, h⟩ hzero hst
    exact ⟨hw.step hst, h.step hw hzero hst⟩
  exact (LabelledRun.run_meets_invariant hstep ⟨Wellformed.initial boot, fun i => .fresh i⟩
    hm hr).2

end AllHonest

/-- In every run in which the handler answers for no child that exited with a code other than
zero: what the callback reads as true, the child has completed in the namespace of the
requester, and when the callback returns, either that or its own `doUnmount` is complete. -/
theorem handshake_sound {boot : Boot} {ls : List Label} {s : System}
    (hr : LabelledRun.run step boot.initial ls = some s)
    (hm : LabelledRun.Meets step AnswersExitZero boot.initial ls) (i : Nat) :
    ((s.session i).app.pc = .answered true → Completed (s.task i).ns (s.session i).child) ∧
    ((s.session i).app.pc = .returned → Completed (s.task i).ns (s.session i).child ∨
      (s.session i).app.unmounted = true) := by
  have hw := Wellformed.run hr
  have h := AllHonest.run hr hm
  have hcurrent : (s.session i).child.completed = true ∧ (s.session i).child.holder = some i →
      Completed (s.task i).ns (s.session i).child := by
    rintro ⟨hc, hq⟩
    have hentered := (h i).entered hc
    obtain ⟨q, hholder, hns⟩ := (hw.linked i).entered hentered
    exact ⟨hentered, hc, hns (Option.some.inj (hholder.symm.trans hq))⟩
  exact ⟨fun ha => hcurrent ((h i).answered ha), fun hp => ((h i).returned hp).imp hcurrent id⟩

def collectedRun : List Label :=
  servedRun ++ [.child 2 (.umount2 true), .child 2 .finish, .child 2 .finish,
    .handler 2 (.waitpid true)]

def answeredRun : List Label :=
  collectedRun ++ .handler 2 (.write true) :: [.app 2 (.read true), .app 2 .finish]

theorem answersExitZero_of_ne {s : System} {l : Label} (hl : ∀ i, l ≠ .handler i (.write true)) :
    AnswersExitZero s l := fun i he => absurd he (hl i)

theorem meets_answeredRun :
    LabelledRun.Meets step AnswersExitZero sampleBoot.initial answeredRun := by
  have hsilent : ∀ l ∈ collectedRun, ∀ s, AnswersExitZero s l := by
    intro l hl s
    apply answersExitZero_of_ne
    rintro i rfl
    simp [collectedRun, servedRun, requestRun] at hl
  refine LabelledRun.meets_append (LabelledRun.meets_of_forall hsilent _) ?_
  intro s hs
  have hrun : (LabelledRun.run step sampleBoot.initial collectedRun).map
      (fun s => (s.session 2).handler) = some (.collected 0#32) := by decide
  rw [hs] at hrun
  have hcollected : (s.session 2).handler = .collected 0#32 := Option.some.inj hrun
  refine ⟨?_, fun t _ => LabelledRun.meets_of_forall ?_ t⟩
  · intro i hi status hstatus _
    obtain ⟨rfl, _⟩ := Label.handler.inj hi
    exact HandlerPc.collected.inj (hstatus.symm.trans hcollected)
  · intro l hl s
    apply answersExitZero_of_ne
    rintro i rfl
    simp at hl

theorem handshake_sound_answered : ∃ s,
    LabelledRun.run step sampleBoot.initial answeredRun = some s ∧
    (s.session 2).app.pc = .returned ∧
    (Completed (s.task 2).ns (s.session 2).child ∨ (s.session 2).app.unmounted = true) := by
  have hrun : (LabelledRun.run step sampleBoot.initial answeredRun).map
      (fun s => (s.session 2).app.pc) = some .returned := by decide
  obtain ⟨s, hs, hpc⟩ := Option.map_eq_some_iff.mp hrun
  exact ⟨s, hs, hpc, (handshake_sound hs meets_answeredRun 2).2 hpc⟩

/-- The child cannot open the namespace file, exits with one and is reported as a success. -/
def failedRun : List Label :=
  requestRun ++ [.child 2 (.openNs none), .handler 2 (.waitpid true), .handler 2 (.write true),
    .app 2 (.read true)]

/-- The callback reads true and returns, and nobody has unmounted anything. -/
theorem handshake_unsound :
    (LabelledRun.run step sampleBoot.initial failedRun).map (fun s =>
        ((s.session 2).app.pc, (s.session 2).child.entered, (s.session 2).child.completed)) =
      some (.answered true, false, false) ∧
    (LabelledRun.run step sampleBoot.initial (failedRun ++ [.app 2 .finish])).map (fun s =>
        ((s.session 2).app.pc, (s.session 2).app.unmounted, (s.session 2).child.completed)) =
      some (.returned, false, false) := by
  decide

end ZygiskAssistant.Companion
