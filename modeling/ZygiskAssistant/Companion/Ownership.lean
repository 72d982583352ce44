import ZygiskAssistant.Companion.Progress

/-!
# Who changes which table

Where every requester lives until its child has opened the namespace file, a
session unmounts in the namespace that its own app has made and nowhere else.
So the tables that Zygote and the companion had at boot stay as they are.
-/

namespace ZygiskAssistant.Companion

open Modules

/-- A namespace file is opened only while the process that asked for it is alive. -/
def RequesterAlive (s : System) (l : Label) : Prop :=
  ∀ i q, l = .child i (.openNs (some q)) → (s.task i).alive = true

/-- No child has opened the namespace of another process. -/
def OpensOwn (s : System) : Prop := ∀ i, ∀ q ∈ (s.session i).child.holder, q = i

variable {s t : System} {l : Label} {i : Nat}

theorem childStep_holder {act : ChildAct} (hact : ∀ q, act ≠ .openNs (some q))
    (hstep : childStep s i act = some t) :
    (t.session i).child.holder = (s.session i).child.holder := by
  cases childStep_rule hstep with
  | openNs _ _ _ => exact absurd rfl (hact _)
  | _ =>
    rw [System.setChild, session_setSession_self]

theorem step_holder (hl : ∀ q, l ≠ .child i (.openNs (some q))) (hstep : step s l = some t) :
    (t.session i).child.holder = (s.session i).child.holder := by
  by_cases hs : l.session = some i
  · cases l with
    | fork parent pid => cases hs
    | die j => cases hs
    | app j act =>
      obtain rfl : j = i := Option.some.inj hs
      simp only [step] at hstep
      split at hstep
      · cases appStep_rule hstep with
        | umount2 _ =>
          rw [System.setPc, System.setApp, session_setSession_self, System.umount2_session]
        | _ => exact congrArg (fun x => x.child.holder) (session_setSession_self _ _ _)
      · cases hstep
    | handler j act =>
      obtain rfl : j = i := Option.some.inj hs
      simp only [step] at hstep
      split at hstep
      · obtain ⟨y, hy, rfl⟩ := Option.map_eq_some_iff.mp hstep
        rw [session_setSession_self]
        cases handlerStep_cases hy <;> rfl
      · cases hstep
    | child j act =>
      obtain rfl : j = i := Option.some.inj hs
      exact childStep_holder (fun q he => hl q (congrArg _ he)) hstep
  · rw [step_session hs hstep]

theorem OpensOwn.step (h : OpensOwn s) (hw : Wellformed s) (halive : RequesterAlive s l)
    (hstep : step s l = some t) : OpensOwn t := by
  intro i q hq
  by_cases hl : ∃ p, l = .child i (.openNs (some p))
  · obtain ⟨p, rfl⟩ := hl
    obtain ⟨_, hi⟩ := ((hw.step hstep).linked i).holder q hq
    have hstays : (t.task i).alive = (s.task i).alive := by
      have hopen : childStep s i (.openNs (some p)) = some t := hstep
      cases childStep_rule hopen with
      | openNs _ _ _ => rfl
      | fail hact =>
        obtain ⟨_, he⟩ | ⟨_, he⟩ := hact <;> cases he
    apply hi
    rw [hstays]
    exact halive i p rfl
  · rw [step_holder (fun p he => hl ⟨p, he⟩) hstep] at hq
    exact h i q hq

/-- The child at work is in the private namespace of its own requester. -/
theorem OpensOwn.acting (h : OpensOwn s) (hw : Wellformed s)
    (ha : (s.session i).child.pc.acting = true) :
    (s.session i).child.ns = (s.task i).ns ∧ PrivateNs s i (s.task i).ns := by
  have hlink := hw.linked i
  obtain ⟨q, hq, hns⟩ := hlink.entered (hlink.acting ha)
  exact ⟨hns (h i q hq), hw.privateNs (hlink.holder q hq).1⟩

theorem step_table (h : OpensOwn s) (hw : Wellformed s) (hstep : step s l = some t) {n : Nat}
    (hn : n < s.namespaces) (hforeign : ∀ i ∈ l.session, n ∉ (s.session i).app.created) :
    t.table n = s.table n := by
  cases l with
  | fork parent pid =>
    simp only [step] at hstep
    split at hstep
    · obtain rfl := Option.some.inj hstep
      rfl
    · cases hstep
  | die i =>
    obtain rfl := Option.some.inj hstep
    rfl
  | app i act =>
    have hcreated := hforeign i rfl
    simp only [step] at hstep
    split at hstep
    · cases appStep_rule hstep with
      | unshare _ => exact Function.update_of_ne (Nat.ne_of_lt hn) _ _
      | umount2 hpc =>
        have hprivate := hw.privateNs (i := i) (by rw [hpc]; rfl)
        apply umount2_onlyTable hprivate.slaved
        rintro rfl
        exact hcreated hprivate.created
      | _ => rfl
    · cases hstep
  | handler i act =>
    simp only [step] at hstep
    split at hstep
    · obtain ⟨y, _, rfl⟩ := Option.map_eq_some_iff.mp hstep
      rfl
    · cases hstep
  | child i act =>
    have hcreated := hforeign i rfl
    cases childStep_rule hstep with
    | umount2 hpc =>
      obtain ⟨hns, hprivate⟩ := h.acting hw (i := i) (by rw [hpc]; rfl)
      rw [hns]
      apply umount2_onlyTable hprivate.slaved
      rintro rfl
      exact hcreated hprivate.created
    | _ => rfl

theorem step_boot_table (h : OpensOwn s) (hw : Wellformed s) (hstep : step s l = some t) {n : Nat}
    (hn : n < 2) : t.table n = s.table n := by
  have hle := hw.namespaces_le
  refine step_table h hw hstep (by omega) fun i _ hmade => ?_
  obtain ⟨hlo, _⟩ := hw.created_range i n hmade
  omega

/-- In every run in which the requesters live until their namespace file is opened, the tables
of Zygote and of the companion stay as they were at boot. -/
theorem tables_stable {boot : Boot} {ls : List Label} {s : System}
    (hr : LabelledRun.run step boot.initial ls = some s)
    (hm : LabelledRun.Meets step RequesterAlive boot.initial ls) :
    s.table zygoteNs = boot.table zygoteNs ∧ s.table companionNs = boot.table companionNs := by
  have hstep : ∀ (s : System) (l : Label) (t : System),
      (Wellformed s ∧ OpensOwn s ∧ ∀ n < 2, s.table n = boot.table n) → RequesterAlive s l →
      step s l = some t → Wellformed t ∧ OpensOwn t ∧ ∀ n < 2, t.table n = boot.table n := by
    rintro s l t ⟨hw, h, htable⟩ halive hst
    refine ⟨hw.step hst, h.step hw halive hst, ?_⟩
    intro n hn
    rw [step_boot_table h hw hst hn, htable n hn]
  have hinit : OpensOwn boot.initial := fun _ _ hq => nomatch hq
  obtain ⟨_, _, htable⟩ := LabelledRun.run_meets_invariant hstep
    ⟨Wellformed.initial boot, hinit, fun _ _ => rfl⟩ hm hr
  exact ⟨htable zygoteNs Nat.two_pos, htable companionNs Nat.one_lt_two⟩

theorem requesterAlive_of_ne {s : System} {l : Label} (hl : ∀ i q, l ≠ .child i (.openNs (some q))) :
    RequesterAlive s l := fun i q he => absurd he (hl i q)

theorem requesterAlive_answeredRun :
    LabelledRun.Meets step RequesterAlive sampleBoot.initial answeredRun := by
  have hbefore : ∀ l ∈ requestRun, ∀ s, RequesterAlive s l := by
    intro l hl s
    apply requesterAlive_of_ne
    rintro i q rfl
    simp [requestRun] at hl
  rw [show answeredRun = requestRun ++ .child 2 (.openNs (some 2)) :: answeredRun.drop 7 from rfl]
  refine LabelledRun.meets_append (LabelledRun.meets_of_forall hbefore _) ?_
  intro s hs
  have hrun : (LabelledRun.run step sampleBoot.initial requestRun).map
      (fun s => (s.task 2).alive) = some true := by decide
  rw [hs] at hrun
  refine ⟨?_, fun t _ => LabelledRun.meets_of_forall ?_ t⟩
  · intro i q he
    obtain ⟨rfl, _⟩ := Label.child.inj he
    exact Option.some.inj hrun
  · intro l hl s
    apply requesterAlive_of_ne
    rintro i q rfl
    simp [answeredRun, collectedRun, servedRun, requestRun] at hl

theorem tables_stable_answered : ∃ s,
    LabelledRun.run step sampleBoot.initial answeredRun = some s ∧
    s.table zygoteNs = sampleBoot.table zygoteNs ∧
    s.table companionNs = sampleBoot.table companionNs := by
  obtain ⟨s, hs⟩ := Option.isSome_iff_exists.mp
    (show (LabelledRun.run step sampleBoot.initial answeredRun).isSome = true by decide)
  exact ⟨s, hs, tables_stable hs requesterAlive_answeredRun⟩

/-- A forked app has Zygote's namespace, which Zygote never leaves. -/
structure Inherits (s : System) : Prop where
  born : 0 < s.born
  zygote_ns : (s.task 0).ns = zygoteNs
  zygote : (s.task 0).zygoteChild = false
  forked : ∀ i, (s.task i).zygoteChild = true → (s.session i).app.pc = .forked →
    (s.task i).ns = zygoteNs

theorem Inherits.fork (h : Inherits s) (parent : Nat) (pid : Int) : Inherits (s.fork parent pid) := by
  have hne : (0 : Nat) ≠ s.born := by
    have := h.born
    omega
  refine ⟨Nat.succ_pos _, ?_, ?_, ?_⟩
  · rw [s.task_fork, if_neg hne]
    exact h.zygote_ns
  · rw [s.task_fork, if_neg hne]
    exact h.zygote
  · intro j hz hpc
    rw [s.task_fork] at hz ⊢
    split at hz
    · rename_i hj
      obtain rfl := eq_of_beq hz
      rw [if_pos hj]
      exact h.zygote_ns
    · rename_i hj
      rw [if_neg hj]
      exact h.forked j hz hpc

theorem Inherits.setSession (h : Inherits s) {x : Session}
    (hx : x.app.pc = .forked → (s.session i).app.pc = .forked) : Inherits (s.setSession i x) := by
  refine ⟨h.born, h.zygote_ns, h.zygote, ?_⟩
  intro j hz hpc
  rw [s.session_setSession] at hpc
  split at hpc
  · rename_i hj
    subst hj
    exact h.forked j hz (hx hpc)
  · exact h.forked j hz hpc

theorem Inherits.umount2 (h : Inherits s) (n : Nat) (path : Str) (ok : Bool) :
    Inherits (s.umount2 n path ok) := by
  obtain ⟨table, he⟩ := s.umount2_eq n path ok
  rw [he]
  exact ⟨h.born, h.zygote_ns, h.zygote, h.forked⟩

theorem Inherits.appStep (h : Inherits s) (hz : (s.task i).zygoteChild = true) {act : AppAct}
    (hstep : appStep s i act = some t) : Inherits t := by
  have hi : (0 : Nat) ≠ i := by
    rintro rfl
    rw [h.zygote] at hz
    cases hz
  cases appStep_rule hstep with
  | unshare _ =>
    refine ⟨h.born, ?_, ?_, ?_⟩
    · change ((s.unshared i).task 0).ns = zygoteNs
      rw [s.task_unshared, if_neg hi]
      exact h.zygote_ns
    · change ((s.unshared i).task 0).zygoteChild = false
      rw [s.task_unshared, if_neg hi]
      exact h.zygote
    · intro j hj hpc
      change ((s.unshared i).task j).zygoteChild = true at hj
      change ((s.unshared i).session j).app.pc = .forked at hpc
      change ((s.unshared i).task j).ns = zygoteNs
      rw [s.session_unshared] at hpc
      rw [s.task_unshared] at hj ⊢
      by_cases hji : j = i
      · rw [if_pos hji] at hpc
        cases hpc
      · rw [if_neg hji] at hpc hj ⊢
        exact h.forked j hj hpc
  | mountSlave _ =>
    have hslave : Inherits (s.mountSlave (s.task i).ns) := ⟨h.born, h.zygote_ns, h.zygote, h.forked⟩
    exact hslave.setSession fun hf => nomatch hf
  | umount2 _ => exact (h.umount2 _ _ _).setSession fun hf => nomatch hf
  | _ => exact h.setSession fun hf => nomatch hf

theorem Inherits.die (h : Inherits s) (i : Nat) : Inherits (s.die i) := by
  have hkept : ∀ j, ((s.die i).task j).ns = (s.task j).ns ∧
      ((s.die i).task j).zygoteChild = (s.task j).zygoteChild := by
    intro j
    rw [s.task_die]
    split
    · rename_i hj
      rw [hj]
      exact ⟨rfl, rfl⟩
    · exact ⟨rfl, rfl⟩
  refine ⟨h.born, (hkept 0).1.trans h.zygote_ns, (hkept 0).2.trans h.zygote, ?_⟩
  intro j hz hpc
  rw [(hkept j).2] at hz
  exact (hkept j).1.trans (h.forked j hz hpc)

theorem Inherits.childStep (h : Inherits s) {act : ChildAct} (hstep : childStep s i act = some t) :
    Inherits t := by
  cases childStep_rule hstep with
  | umount2 _ =>
    apply (h.umount2 _ _ _).setSession
    rw [System.umount2_session]
    exact id
  | _ => exact h.setSession id

theorem Inherits.step (h : Inherits s) (hstep : step s l = some t) : Inherits t := by
  apply step_rule hstep
  · exact h.fork
  · exact h.die
  · exact fun i act hz ha => h.appStep hz ha
  · intro i act y hy
    apply h.setSession
    rw [handlerStep_app hy]
    exact id
  · exact fun i act hc => h.childStep hc

theorem Inherits.initial (boot : Boot) : Inherits boot.initial where
  born := Nat.two_pos
  zygote_ns := rfl
  zygote := rfl
  forked i hz := by
    have hno : (boot.initial.task i).zygoteChild = false := by
      unfold Boot.initial
      dsimp only
      split
      · rfl
      · split <;> rfl
    rw [hno] at hz
    cases hz

end ZygiskAssistant.Companion
