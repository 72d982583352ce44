import ZygiskAssistant.Companion.Messages
import ZygiskAssistant.Lib.MountMissed

/-!
# How long a session lasts, and that it ends

Every step of a session brings one of its parties closer to its end, so that a
session takes a bounded number of steps, whatever else happens. And until the
callback has returned, one of its parties can go on without a failing call,
unless the callback waits for an answer on a connection that is closed.
-/

namespace ZygiskAssistant.Companion

open Parsers

theorem umount2_length_le (T : List MountinfoEntry) (path : Str) :
    (Modules.umount2 T path).length ≤ T.length :=
  (MountTree.Layout.umount_sublist T _).length_le

namespace System

variable (s : System) (n : Nat) (path : Str) (ok : Bool)

@[simp]
theorem umount2_session : (s.umount2 n path ok).session = s.session := by
  cases ok <;> rfl

@[simp]
theorem umount2_task : (s.umount2 n path ok).task = s.task := by
  cases ok <;> rfl

@[simp]
theorem umount2_namespaces : (s.umount2 n path ok).namespaces = s.namespaces := by
  cases ok <;> rfl

theorem umount2_table_length_le (k : Nat) :
    ((s.umount2 n path ok).table k).length ≤ (s.table k).length := by
  cases ok with
  | false => exact le_refl _
  | true =>
    change (if k = n ∨ s.shared n = true then Modules.umount2 (s.table k) path
      else s.table k).length ≤ _
    split
    · exact umount2_length_le _ _
    · exact le_refl _

theorem unmountPlan_length_le : (s.unmountPlan n ok).length ≤ (s.table n).length := by
  cases ok with
  | false => exact Nat.zero_le _
  | true =>
    change ((Modules.selectedEntries (s.table n)).reverse.map _).length ≤ _
    rw [List.length_map, List.length_reverse]
    exact List.length_filter_le _ _

end System

/-- The tables of the namespaces in use, and that the children use no others. -/
structure Bounded (bound : Nat) (s : System) : Prop where
  tables : ∀ n < s.namespaces, (s.table n).length ≤ bound
  child_ns : ∀ i, (s.session i).child.ns < s.namespaces
  opened : ∀ i n, (s.session i).child.pc = .opened n → n < s.namespaces

namespace Bounded

variable {bound : Nat} {s t : System} {i : Nat}

theorem setSession (h : Bounded bound s) {x : Session} (hns : x.child.ns < s.namespaces)
    (hopened : ∀ n, x.child.pc = .opened n → n < s.namespaces) :
    Bounded bound (s.setSession i x) where
  tables := h.tables
  child_ns := forall_setSession (P := fun _ y => y.child.ns < s.namespaces) h.child_ns hns
  opened := forall_setSession (P := fun _ y => ∀ n, y.child.pc = .opened n → n < s.namespaces)
    h.opened hopened

theorem setApp (h : Bounded bound s) (app : App) : Bounded bound (s.setApp i app) :=
  h.setSession (h.child_ns i) (h.opened i)

theorem moveChild (h : Bounded bound s) {pc : ChildPc} {completed : Bool}
    (hpc : ∀ n, pc ≠ .opened n) : Bounded bound
      (s.setChild i { (s.session i).child with pc := pc, completed := completed }) :=
  h.setSession (h.child_ns i) fun n hn => absurd hn (hpc n)

theorem unshare (h : Bounded bound s) (hw : Wellformed s) : Bounded bound (s.unshare i) where
  tables n hn := by
    have hn' : n < s.namespaces + 1 := hn
    change (Function.update s.table s.namespaces (s.table (s.task i).ns) n).length ≤ bound
    rw [Function.update_apply]
    split
    · exact h.tables _ (hw.task_ns i)
    · exact h.tables n (by omega)
  child_ns j := Nat.lt_succ_of_lt (h.child_ns j)
  opened j n hn := Nat.lt_succ_of_lt (h.opened j n hn)

theorem umount2 (h : Bounded bound s) (n : Nat) (path : Str) (ok : Bool) :
    Bounded bound (s.umount2 n path ok) := by
  refine ⟨?_, ?_, ?_⟩
  · intro k hk
    rw [System.umount2_namespaces] at hk
    exact (s.umount2_table_length_le n path ok k).trans (h.tables k hk)
  · simpa using h.child_ns
  · simpa using h.opened

theorem appStep (h : Bounded bound s) (hw : Wellformed s) {act : AppAct}
    (hstep : appStep s i act = some t) : Bounded bound t := by
  cases appStep_rule hstep with
  | unshare _ => exact (h.unshare hw).setApp _
  | mountSlave _ =>
    have hslave : Bounded bound (s.mountSlave (s.task i).ns) := ⟨h.tables, h.child_ns, h.opened⟩
    exact hslave.setApp _
  | umount2 _ => exact (h.umount2 _ _ _).setApp _
  | write _ => exact h.setSession (h.child_ns i) (h.opened i)
  | read _ _ => exact h.setSession (h.child_ns i) (h.opened i)
  | _ => exact h.setApp _

theorem handlerStep (h : Bounded bound s) {act : HandlerAct} {y : Session}
    (hstep : handlerStep (s.session i) act = some y) : Bounded bound (s.setSession i y) := by
  cases handlerStep_cases hstep with
  | fork _ => exact h.setSession (h.child_ns i) fun n hn => nomatch hn
  | _ => exact h.setSession (h.child_ns i) (h.opened i)

theorem childStep (h : Bounded bound s) (hw : Wellformed s) {act : ChildAct}
    (hstep : childStep s i act = some t) : Bounded bound t := by
  cases childStep_rule hstep with
  | @openNs pid q _ _ _ =>
    refine h.setSession (h.child_ns i) ?_
    rintro n hn
    obtain rfl := ChildPc.opened.inj hn
    exact hw.task_ns q
  | setns hpc => exact h.setSession (h.opened i _ hpc) fun n hn => nomatch hn
  | @umount2 ok path rest _ =>
    have hns := h.child_ns i
    exact (h.umount2 (s.session i).child.ns path ok).setSession (by simpa using hns) (by simp)
  | complete _ => exact h.moveChild (by simp)
  | _ => exact h.moveChild (by simp)

theorem step (h : Bounded bound s) (hw : Wellformed s) {l : Label}
    (hstep : step s l = some t) : Bounded bound t := by
  apply step_rule hstep
  · exact fun _ _ => ⟨h.tables, h.child_ns, h.opened⟩
  · exact fun _ => ⟨h.tables, h.child_ns, h.opened⟩
  · exact fun i act _ ha => h.appStep hw ha
  · exact fun i act y hy => h.handlerStep hy
  · exact fun i act hc => h.childStep hw hc

end Bounded

/-- The longer table of the two namespaces that there are before the first app. -/
def Boot.tableBound (boot : Boot) : Nat :=
  max (boot.table zygoteNs).length (boot.table companionNs).length

theorem Bounded.initial (boot : Boot) : Bounded boot.tableBound boot.initial where
  tables n hn := by
    have hn' : n < 2 := hn
    obtain rfl | rfl : n = zygoteNs ∨ n = companionNs := by
      unfold zygoteNs companionNs
      omega
    · exact le_max_left _ _
    · exact le_max_right _ _
  child_ns _ := Nat.one_lt_two
  opened _ _ h := nomatch h

def AppPc.rank (bound : Nat) : AppPc → Nat
  | .forked => bound + 6
  | .unshared => bound + 5
  | .isolated => bound + 4
  | .requested => bound + 3
  | .answered _ => bound + 2
  | .unmounting rest => rest.length + 1
  | .returned => 0
  | .failed => 0

def HandlerPc.rank : HandlerPc → Nat
  | .listening => 4
  | .received _ => 3
  | .waiting => 2
  | .collected _ => 1
  | .done => 0

def ChildPc.rank (bound : Nat) : ChildPc → Nat
  | .unborn => bound + 5
  | .started _ => bound + 5
  | .opened _ => bound + 4
  | .entered => bound + 3
  | .unmounting rest => rest.length + 2
  | .unmounted => 1
  | .exited _ => 0
  | .killed _ => 0

def Session.rank (bound : Nat) (x : Session) : Nat :=
  x.app.pc.rank bound + x.handler.rank + x.child.pc.rank bound

/-- A step of one of the three parties of the session; only the death of the handler is not. -/
def Label.worksFor (i : Nat) : Label → Bool
  | .app j _ => j == i
  | .handler j act => j == i && act != .die
  | .child j _ => j == i
  | _ => false

variable {bound : Nat} {s t : System} {i : Nat}

theorem appStep_rank (h : Bounded bound s) (hw : Wellformed s) {act : AppAct}
    (hstep : appStep s i act = some t) :
    (t.session i).rank bound + 1 ≤ (s.session i).rank bound := by
  have hplan : ∀ ok, (s.unmountPlan (s.task i).ns ok).length ≤ bound := fun ok =>
    (s.unmountPlan_length_le _ ok).trans (h.tables _ (hw.task_ns i))
  have hlower : ∀ {u : System} {x : Session},
      x.app.pc.rank bound + 1 ≤ (s.session i).app.pc.rank bound →
      x.handler = (s.session i).handler → x.child = (s.session i).child →
      ((u.setSession i x).session i).rank bound + 1 ≤ (s.session i).rank bound := by
    intro u x happ hhandler hchild
    rw [session_setSession_self, Session.rank, Session.rank, hhandler, hchild]
    omega
  cases appStep_rule hstep with
  | unshare hpc => exact hlower (by rw [hpc]; exact le_refl _) rfl rfl
  | mountSlave hpc => exact hlower (by rw [hpc]; exact le_refl _) rfl rfl
  | fail hpc =>
    obtain ⟨hpc, _⟩ | ⟨hpc, _⟩ := hpc
    · exact hlower (by rw [hpc]; exact Nat.le_add_left _ _) rfl rfl
    · exact hlower (by rw [hpc]; exact Nat.le_add_left _ _) rfl rfl
  | write hpc => exact hlower (by rw [hpc]; exact le_refl _) rfl rfl
  | giveUp hpc =>
    obtain ⟨hpc, _⟩ | ⟨hpc, _⟩ := hpc
    · exact hlower (by rw [hpc]; exact Nat.le_succ _) rfl rfl
    · exact hlower (by rw [hpc]; exact le_refl _) rfl rfl
  | read hpc _ => exact hlower (by rw [hpc]; exact le_refl _) rfl rfl
  | @parse ok hpc =>
    have := hplan ok
    exact hlower (by rw [hpc]; change _ + 1 + 1 ≤ bound + 2; omega) rfl rfl
  | umount2 hpc =>
    exact hlower (by rw [hpc]; exact le_refl _) (by simp) (by simp)
  | succeed hpc => exact hlower (by rw [hpc]; exact Nat.le_add_left _ _) rfl rfl
  | fallBack hpc => exact hlower (by rw [hpc]; exact le_refl _) rfl rfl

theorem handlerStep_rank {x y : Session} (hunborn : x.handler.beforeFork = true →
    x.child = Session.fresh.child) {act : HandlerAct} (hstep : handlerStep x act = some y) :
    y.rank bound + (if act != .die then 1 else 0) ≤ x.rank bound := by
  have hlower : y.app = x.app → y.child = x.child →
      y.handler.rank + (if act != .die then 1 else 0) ≤ x.handler.rank →
      y.rank bound + (if act != .die then 1 else 0) ≤ x.rank bound := by
    intro happ hchild hrank
    rw [Session.rank, Session.rank, happ, hchild]
    omega
  unfold handlerStep at hstep
  split at hstep
  · rename_i hx
    obtain ⟨pid, _, rfl⟩ := Option.map_eq_some_iff.mp hstep
    exact hlower rfl rfl (by simp [hx, HandlerPc.rank])
  · rename_i hx
    obtain rfl := Option.some.inj hstep
    exact hlower rfl rfl (by simp [hx, HandlerPc.rank])
  · rename_i pid hx
    obtain rfl := Option.some.inj hstep
    have hchild : x.child.pc = .unborn := by
      rw [hunborn (by rw [hx]; rfl)]
      rfl
    simp only [Session.rank, hx, hchild, HandlerPc.rank, ChildPc.rank]
    change _ + 2 + (bound + 5) + 1 ≤ _ + 3 + (bound + 5)
    omega
  · rename_i hx
    obtain rfl := Option.some.inj hstep
    exact hlower rfl rfl (by simp [hx, HandlerPc.rank])
  · rename_i hx
    obtain ⟨status, _, rfl⟩ := Option.map_eq_some_iff.mp hstep
    exact hlower rfl rfl (by simp [hx, HandlerPc.rank])
  · rename_i hx
    obtain rfl := Option.some.inj hstep
    exact hlower rfl rfl (by simp [hx, HandlerPc.rank])
  · rename_i hx
    obtain rfl := Option.some.inj hstep
    exact hlower rfl rfl (by simp [hx, HandlerPc.rank])
  · rename_i hx
    obtain rfl := Option.some.inj hstep
    exact hlower rfl rfl (by simp [hx, HandlerPc.rank])
  · obtain rfl := Option.some.inj hstep
    exact hlower rfl rfl (Nat.zero_le _)
  · cases hstep

theorem childStep_rank (h : Bounded bound s) {act : ChildAct}
    (hstep : childStep s i act = some t) :
    (t.session i).rank bound + 1 ≤ (s.session i).rank bound := by
  have hlower : ∀ {u : System} {x : Session},
      x.child.pc.rank bound + 1 ≤ (s.session i).child.pc.rank bound →
      x.handler = (s.session i).handler → x.app = (s.session i).app →
      ((u.setSession i x).session i).rank bound + 1 ≤ (s.session i).rank bound := by
    intro u x hchild hhandler happ
    rw [session_setSession_self, Session.rank, Session.rank, hhandler, happ]
    omega
  cases childStep_rule hstep with
  | openNs hpc _ _ => exact hlower (by rw [hpc]; exact le_refl _) rfl rfl
  | setns hpc => exact hlower (by rw [hpc]; exact le_refl _) rfl rfl
  | fail hpc =>
    obtain ⟨⟨_, hpc⟩, _⟩ | ⟨⟨_, hpc⟩, _⟩ := hpc
    · exact hlower (by rw [hpc]; exact Nat.le_add_left _ _) rfl rfl
    · exact hlower (by rw [hpc]; exact Nat.le_add_left _ _) rfl rfl
  | @parse ok hpc =>
    have hplan := (s.unmountPlan_length_le (s.session i).child.ns ok).trans
      (h.tables _ (h.child_ns i))
    exact hlower (by rw [hpc]; change _ + 2 + 1 ≤ bound + 3; omega) rfl rfl
  | umount2 hpc =>
    exact hlower (by rw [hpc]; exact le_refl _) (by simp) (by simp)
  | complete hpc => exact hlower (by rw [hpc]; exact le_refl _) rfl rfl
  | exit hpc => exact hlower (by rw [hpc]; exact le_refl _) rfl rfl
  | kill hrunning _ =>
    refine hlower ?_ rfl rfl
    cases hpc : (s.session i).child.pc with
    | unborn => rw [hpc] at hrunning; cases hrunning
    | exited code => rw [hpc] at hrunning; cases hrunning
    | killed signal => rw [hpc] at hrunning; cases hrunning
    | unmounted => exact le_refl _
    | _ => exact Nat.le_add_left _ _

theorem step_rank (h : Bounded bound s) (hw : Wellformed s) {l : Label}
    (hstep : step s l = some t) : (t.session i).rank bound + (if l.worksFor i then 1 else 0) ≤
      (s.session i).rank bound := by
  by_cases hl : l.session = some i
  · cases l with
    | fork parent pid => cases hl
    | die j => cases hl
    | app j act =>
      obtain rfl : j = i := Option.some.inj hl
      simp only [step] at hstep
      split at hstep
      · have hrank := appStep_rank h hw hstep
        simpa [Label.worksFor] using hrank
      · cases hstep
    | handler j act =>
      obtain rfl : j = i := Option.some.inj hl
      simp only [step] at hstep
      split at hstep
      · obtain ⟨y, hy, rfl⟩ := Option.map_eq_some_iff.mp hstep
        have hrank := @handlerStep_rank bound _ _ (hw.linked j).unborn _ hy
        rw [session_setSession_self]
        simpa [Label.worksFor] using hrank
      · cases hstep
    | child j act =>
      obtain rfl : j = i := Option.some.inj hl
      have hrank := childStep_rank h hstep
      simpa [Label.worksFor] using hrank
  · have hidle : l.worksFor i = false := by
      cases l with
      | fork parent pid => rfl
      | die j => rfl
      | app j act => exact beq_eq_false_iff_ne.mpr fun he => hl (congrArg some he)
      | handler j act =>
        have hne : (j == i) = false := beq_eq_false_iff_ne.mpr fun he => hl (congrArg some he)
        simp [Label.worksFor, hne]
      | child j act => exact beq_eq_false_iff_ne.mpr fun he => hl (congrArg some he)
    rw [step_session hl hstep, hidle]
    exact le_refl _

/-- In every run the parties of a session take at most fifteen steps and two for each mount
of the longer of Zygote's and the companion's tables. -/
theorem session_bounded {boot : Boot} {ls : List Label} {s : System}
    (hr : LabelledRun.run step boot.initial ls = some s) (i : Nat) :
    ls.countP (Label.worksFor i) ≤ 15 + 2 * boot.tableBound := by
  have hkeep : ∀ (s : System) (l : Label) (t : System),
      Wellformed s ∧ Bounded boot.tableBound s → step s l = some t →
      (Wellformed t ∧ Bounded boot.tableBound t) ∧
        (t.session i).rank boot.tableBound + (if l.worksFor i then 1 else 0) ≤
          (s.session i).rank boot.tableBound := by
    rintro s l t ⟨hw, h⟩ hst
    exact ⟨⟨hw.step hst, h.step hw hst⟩, step_rank h hw hst⟩
  have hrun := LabelledRun.run_variant hkeep ⟨Wellformed.initial boot, .initial boot⟩ hr
  have hstart : (boot.initial.session i).rank boot.tableBound = 15 + 2 * boot.tableBound := by
    change boot.tableBound + 6 + 4 + (boot.tableBound + 5) = _
    omega
  omega

theorem session_bounded_answered :
    answeredRun.countP (Label.worksFor 2) ≤ 15 + 2 * sampleBoot.tableBound := by
  obtain ⟨s, hs⟩ := Option.isSome_iff_exists.mp
    (show (LabelledRun.run step sampleBoot.initial answeredRun).isSome = true by decide)
  exact session_bounded hs 2

end ZygiskAssistant.Companion
