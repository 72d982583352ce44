import ZygiskAssistant.Companion.Moves

/-!
# What every reachable state keeps

Two invariants: what ties one session to its process (which pid travels, whose
namespace the child opens), and what ties the sessions to each other (distinct
pids of live processes, distinct namespaces). Each step keeps both.
-/

namespace ZygiskAssistant.Companion

/-- What ties a session to process `i`, whose namespace is shared or not. -/
structure Linked (i : Nat) (task : Task) (shared : Bool) (x : Session) : Prop where
  made : x.app.pc = .unshared ∨ x.app.pc.inPrivate = true → x.app.created = some task.ns
  slaved : x.app.pc.inPrivate = true → shared = false
  request : ∀ p ∈ x.request, p = task.pid ∧ x.app.pc.inPrivate = true
  received : ∀ p, x.handler = .received p → p = task.pid ∧ x.app.pc.inPrivate = true
  started : ∀ p, x.child.pc = .started p → p = task.pid ∧ x.app.pc.inPrivate = true
  unborn : x.handler.beforeFork = true → x.child = Session.fresh.child
  holder : ∀ h ∈ x.child.holder, x.app.pc.inPrivate = true ∧ (task.alive = true → h = i)
  opened : ∀ n, x.child.pc = .opened n → ∃ h ∈ x.child.holder, h = i → n = task.ns
  entered : x.child.entered = true → ∃ h ∈ x.child.holder, h = i → x.child.ns = task.ns
  outside : x.child.pc.outside = true → x.child.entered = false
  acting : x.child.pc.acting = true → x.child.entered = true

namespace Linked

variable {i : Nat} {task : Task} {shared : Bool} {x y : Session}

theorem fresh (i : Nat) (task : Task) (shared : Bool) : Linked i task shared .fresh where
  made h := by rcases h with h | h <;> cases h
  slaved h := by cases h
  request p h := by cases h
  received p h := by cases h
  started p h := by cases h
  unborn _ := rfl
  holder p h := by cases h
  opened p h := by cases h
  entered h := by cases h
  outside _ := rfl
  acting h := by cases h

/-- Death, and steps of other processes, leave the link. -/
theorem frame (h : Linked i task shared x) {task' : Task} {shared' : Bool}
    (hpid : task'.pid = task.pid) (hns : task'.ns = task.ns)
    (halive : task'.alive = true → task.alive = true)
    (hshared : shared = false → shared' = false) : Linked i task' shared' x where
  made hp := hns ▸ h.made hp
  slaved hp := hshared (h.slaved hp)
  request p hp := hpid ▸ h.request p hp
  received p hp := hpid ▸ h.received p hp
  started p hp := hpid ▸ h.started p hp
  unborn := h.unborn
  holder p hp := ⟨(h.holder p hp).1, fun ha => (h.holder p hp).2 (halive ha)⟩
  opened n hn := hns ▸ h.opened n hn
  entered he := hns ▸ h.entered he
  outside := h.outside
  acting := h.acting

/-- Before `new_mount_ns` has succeeded nobody has been told anything. -/
theorem reset (h : Linked i task shared x) (hpc : x.app.pc.inPrivate = false) {task' : Task}
    {shared' : Bool} {app : App}
    (made : app.pc = .unshared ∨ app.pc.inPrivate = true → app.created = some task'.ns)
    (slaved : app.pc.inPrivate = true → shared' = false) :
    Linked i task' shared' { x with app := app } := by
  have hno : x.app.pc.inPrivate ≠ true := by simp [hpc]
  have hholder : ∀ q, q ∉ x.child.holder := fun q hq => hno (h.holder q hq).1
  exact {
    made := made
    slaved := slaved
    request := fun p hp => absurd (h.request p hp).2 hno
    received := fun p hp => absurd (h.received p hp).2 hno
    started := fun p hp => absurd (h.started p hp).2 hno
    unborn := h.unborn
    holder := fun q hq => absurd hq (hholder q)
    opened := fun n hn => by
      obtain ⟨q, hq, _⟩ := h.opened n hn
      exact absurd hq (hholder q)
    entered := fun he => by
      obtain ⟨q, hq, _⟩ := h.entered he
      exact absurd hq (hholder q)
    outside := h.outside
    acting := h.acting }

theorem advance (h : Linked i task shared x) (hpc : x.app.pc.inPrivate = true) {app : App}
    (hpc' : app.pc.inPrivate = true) (hcreated : app.created = x.app.created) :
    Linked i task shared { x with app := app } where
  made _ := hcreated.trans (h.made (Or.inr hpc))
  slaved _ := h.slaved hpc
  request p hp := ⟨(h.request p hp).1, hpc'⟩
  received p hp := ⟨(h.received p hp).1, hpc'⟩
  started p hp := ⟨(h.started p hp).1, hpc'⟩
  unborn := h.unborn
  holder q hq := ⟨hpc', (h.holder q hq).2⟩
  opened := h.opened
  entered := h.entered
  outside := h.outside
  acting := h.acting

theorem setRequest (h : Linked i task shared x) {r : Option Int}
    (hr : ∀ p ∈ r, p = task.pid ∧ x.app.pc.inPrivate = true) :
    Linked i task shared { x with request := r } := { h with request := hr }

theorem setAnswer (h : Linked i task shared x) (r : Option Bool) :
    Linked i task shared { x with answer := r } := { h with }

theorem setHandler (h : Linked i task shared x) {pc : HandlerPc}
    (hpc : pc.beforeFork = false) : Linked i task shared { x with handler := pc } :=
  { h with
    received := fun p hp => by
      subst hp
      cases hpc
    unborn := fun hb => by
      rw [hpc] at hb
      cases hb }

/-- The child goes on without a new namespace. -/
theorem setChild (h : Linked i task shared x) {c : Child} (hfork : x.handler.beforeFork = false)
    (hns : c.ns = x.child.ns) (hholder : c.holder = x.child.holder)
    (hentered : c.entered = x.child.entered) (hstarted : ∀ p, c.pc ≠ .started p)
    (hopened : ∀ n, c.pc ≠ .opened n) (houtside : c.pc.outside = false)
    (hacting : c.pc.acting = true → c.entered = true) :
    Linked i task shared { x with child := c } :=
  { h with
    started := fun p hp => absurd hp (hstarted p)
    unborn := fun hb => by
      rw [hfork] at hb
      cases hb
    holder := fun q hq => h.holder q (hholder ▸ hq)
    opened := fun n hn => absurd hn (hopened n)
    entered := fun he => by
      obtain ⟨q, hq, hn⟩ := h.entered (hentered ▸ he)
      exact ⟨q, hholder.symm ▸ hq, fun hqi => hns.trans (hn hqi)⟩
    outside := fun ho => by
      rw [houtside] at ho
      cases ho
    acting := hacting }

theorem handlerStep (h : Linked i task shared x) {act : HandlerAct}
    (hstep : Companion.handlerStep x act = some y) : Linked i task shared y := by
  cases handlerStep_cases hstep with
  | read hx hp =>
    have hpid := h.request _ hp
    exact { h with
      request := fun q hq => nomatch hq
      received := fun q hq => HandlerPc.received.inj hq ▸ hpid
      unborn := fun _ => h.unborn (by rw [hx]; rfl) }
  | fork hx =>
    have hpid := h.received _ hx
    have hc := h.unborn (by rw [hx]; rfl)
    exact { h with
      received := fun q hq => nomatch hq
      started := fun q hq => ChildPc.started.inj hq ▸ hpid
      unborn := fun hb => nomatch hb
      opened := fun n hn => nomatch hn
      outside := fun _ => by rw [hc]; rfl
      acting := fun ha => nomatch ha }
  | collect _ _ => exact h.setHandler rfl
  | lose _ => exact h.setHandler rfl
  | answer _ => exact { h.setHandler (show HandlerPc.done.beforeFork = false from rfl) with }
  | stop _ => exact h.setHandler rfl

/-- The child opens the namespace of a live process that holds the pid it was given. -/
theorem openNs (h : Linked i task shared x) {p : Int} (hpc : x.child.pc = .started p) {q n : Nat}
    (halive : task.alive = true → q = i) (hns : q = i → n = task.ns) :
    Linked i task shared
      { x with child := { x.child with pc := .opened n, holder := some q } } := by
  have hprivate := (h.started p hpc).2
  have hfork : x.handler.beforeFork ≠ true := by
    intro hb
    rw [h.unborn hb] at hpc
    cases hpc
  have hentered : x.child.entered = false := h.outside (by rw [hpc]; rfl)
  exact { h with
    started := fun r hr => nomatch hr
    unborn := fun hb => absurd hb hfork
    holder := fun r hr => by
      obtain rfl : q = r := Option.some.inj hr
      exact ⟨hprivate, halive⟩
    opened := fun m hm => by
      obtain rfl : n = m := ChildPc.opened.inj hm
      exact ⟨q, rfl, hns⟩
    entered := fun he => by
      rw [hentered] at he
      cases he
    outside := fun _ => hentered
    acting := fun ha => nomatch ha }

theorem setns (h : Linked i task shared x) {n : Nat} (hpc : x.child.pc = .opened n) :
    Linked i task shared
      { x with child := { x.child with pc := .entered, ns := n, entered := true } } := by
  have hfork : x.handler.beforeFork ≠ true := by
    intro hb
    rw [h.unborn hb] at hpc
    cases hpc
  exact { h with
    started := fun r hr => nomatch hr
    unborn := fun hb => absurd hb hfork
    opened := fun m hm => nomatch hm
    entered := fun _ => h.opened n hpc
    outside := fun ho => nomatch ho
    acting := fun _ => rfl }

theorem forked (h : Linked i task shared x) (hc : x.child.pc ≠ .unborn) :
    x.handler.beforeFork = false := by
  rw [← Bool.not_eq_true]
  intro hb
  exact hc (by rw [h.unborn hb]; rfl)

end Linked

theorem handlerStep_app {x y : Session} {act : HandlerAct} (hstep : handlerStep x act = some y) :
    y.app = x.app := by
  cases handlerStep_cases hstep <;> rfl

structure Wellformed (s : System) : Prop where
  linked : ∀ i, Linked i (s.task i) (s.shared (s.task i).ns) (s.session i)
  unborn : ∀ i, s.born ≤ i → s.session i = .fresh ∧ (s.task i).alive = false
  pids : ∀ a b, (s.task a).alive = true → (s.task b).alive = true →
    (s.task a).pid = (s.task b).pid → a = b
  task_ns : ∀ i, (s.task i).ns < s.namespaces
  created_range : ∀ i, ∀ n ∈ (s.session i).app.created, 2 ≤ n ∧ n < s.namespaces
  created_unique : ∀ i j, ∀ n ∈ (s.session i).app.created, n ∈ (s.session j).app.created → i = j
  namespaces_le : 2 ≤ s.namespaces

namespace System

variable (s : System) (i : Nat)

theorem session_setSession (j : Nat) (x : Session) :
    (s.setSession i x).session j = if j = i then x else s.session j :=
  Function.update_apply s.session i x j

theorem task_die (j : Nat) :
    (s.die i).task j = if j = i then { s.task i with alive := false } else s.task j :=
  Function.update_apply _ _ _ j

theorem task_die_frame (j : Nat) : ((s.die i).task j).pid = (s.task j).pid ∧
    ((s.die i).task j).ns = (s.task j).ns ∧
      (((s.die i).task j).alive = true → (s.task j).alive = true) := by
  rw [task_die]
  split
  · rename_i hj
    subst hj
    exact ⟨rfl, rfl, fun ha => nomatch ha⟩
  · exact ⟨rfl, rfl, fun ha => ha⟩

theorem task_fork (parent : Nat) (pid : Int) (j : Nat) : (s.fork parent pid).task j =
    if j = s.born then ⟨pid, (s.task parent).ns, true, parent == 0⟩ else s.task j :=
  Function.update_apply _ _ _ j

/-- The state after the callback's own `unshare`. -/
def unshared : System :=
  (s.unshare i).setApp i { (s.session i).app with pc := .unshared, created := some s.namespaces }

theorem task_unshared (j : Nat) : (s.unshared i).task j =
    if j = i then { s.task i with ns := s.namespaces } else s.task j :=
  Function.update_apply _ _ _ j

theorem task_unshared_frame (j : Nat) : ((s.unshared i).task j).pid = (s.task j).pid ∧
    ((s.unshared i).task j).alive = (s.task j).alive := by
  rw [task_unshared]
  split
  · rename_i hj
    subst hj
    exact ⟨rfl, rfl⟩
  · exact ⟨rfl, rfl⟩

theorem shared_unshared {n : Nat} (hn : n < s.namespaces) :
    (s.unshared i).shared n = s.shared n :=
  (Function.update_apply _ _ _ _).trans (if_neg (by omega))

theorem session_unshared (j : Nat) : (s.unshared i).session j =
    if j = i then { s.session i with
      app := { (s.session i).app with pc := .unshared, created := some s.namespaces } }
    else s.session j := (s.unshare i).session_setSession i j _

theorem created_unshared {j n : Nat} (hn : n ∈ ((s.unshared i).session j).app.created) :
    (j = i ∧ n = s.namespaces) ∨ (j ≠ i ∧ n ∈ (s.session j).app.created) := by
  rw [session_unshared] at hn
  split at hn
  · rename_i hj
    exact Or.inl ⟨hj, (Option.some.inj hn).symm⟩
  · rename_i hj
    exact Or.inr ⟨hj, hn⟩

end System

namespace Wellformed

variable {s t : System} {i : Nat}

theorem born_of_alive (h : Wellformed s) (ha : (s.task i).alive = true) : i < s.born := by
  rw [← not_le]
  intro hle
  rw [(h.unborn i hle).2] at ha
  cases ha

theorem born_of_child (h : Wellformed s) (hc : (s.session i).child.pc ≠ .unborn) :
    i < s.born := by
  rw [← not_le]
  intro hle
  exact hc (by rw [(h.unborn i hle).1]; rfl)

theorem setSession (h : Wellformed s) (hi : i < s.born) {x : Session}
    (hx : Linked i (s.task i) (s.shared (s.task i).ns) x)
    (hcreated : x.app.created = (s.session i).app.created) : Wellformed (s.setSession i x) := by
  have hmade : ∀ j, ((s.setSession i x).session j).app.created = (s.session j).app.created := by
    intro j
    rw [s.session_setSession]
    split
    · rename_i hj
      rw [hj, hcreated]
    · rfl
  refine ⟨?_, ?_, h.pids, h.task_ns, ?_, ?_, h.namespaces_le⟩
  · intro j
    rw [s.session_setSession]
    split
    · rename_i hj
      exact hj ▸ hx
    · exact h.linked j
  · intro j hj
    have hle : s.born ≤ j := hj
    rw [s.session_setSession, if_neg (by omega)]
    exact h.unborn j hle
  · intro j n hn
    exact h.created_range j n (hmade j ▸ hn)
  · intro j k n hj hk
    exact h.created_unique j k n (hmade j ▸ hj) (hmade k ▸ hk)

theorem withTable (h : Wellformed s) (table : Nat → List Parsers.MountinfoEntry) :
    Wellformed { s with table := table } :=
  ⟨h.linked, h.unborn, h.pids, h.task_ns, h.created_range, h.created_unique, h.namespaces_le⟩

theorem umount2 (h : Wellformed s) (n : Nat) (path : Str) (ok : Bool) :
    Wellformed (s.umount2 n path ok) := by
  obtain ⟨table, he⟩ := s.umount2_eq n path ok
  rw [he]
  exact h.withTable table

theorem mountSlave (h : Wellformed s) (n : Nat) : Wellformed (s.mountSlave n) := by
  refine ⟨?_, h.unborn, h.pids, h.task_ns, h.created_range, h.created_unique, h.namespaces_le⟩
  intro j
  refine (h.linked j).frame rfl rfl (fun ha => ha) ?_
  intro hs
  show Function.update s.shared n false (s.task j).ns = false
  rw [Function.update_apply]
  split
  · rfl
  · exact hs

theorem die (h : Wellformed s) (i : Nat) : Wellformed (s.die i) := by
  have htask := s.task_die_frame i
  refine ⟨?_, ?_, ?_, ?_, h.created_range, h.created_unique, h.namespaces_le⟩
  · intro j
    obtain ⟨hpid, hns, halive⟩ := htask j
    exact (h.linked j).frame hpid hns halive fun hs => by rw [hns]; exact hs
  · intro j hj
    refine ⟨(h.unborn j hj).1, ?_⟩
    rw [← Bool.not_eq_true]
    intro ha
    have hlive := (htask j).2.2 ha
    rw [(h.unborn j hj).2] at hlive
    cases hlive
  · intro a b ha hb hp
    rw [(htask a).1, (htask b).1] at hp
    exact h.pids a b ((htask a).2.2 ha) ((htask b).2.2 hb) hp
  · intro j
    rw [(htask j).2.1]
    exact h.task_ns j

/-- No live process holds the new pid. -/
theorem pids_fork (h : Wellformed s) {parent : Nat} {pid : Int} (hp : s.pidFree pid = true)
    {a b : Nat} (ha : ((s.fork parent pid).task a).alive = true)
    (hb : ((s.fork parent pid).task b).alive = true)
    (hpid : ((s.fork parent pid).task a).pid = ((s.fork parent pid).task b).pid) : a = b := by
  have hfree : ∀ j, (s.task j).alive = true → (s.task j).pid ≠ pid := by
    intro j ha he
    have hno := List.all_eq_true.mp hp j (List.mem_range.mpr (h.born_of_alive ha))
    simp [ha, he] at hno
  rw [s.task_fork] at ha hpid
  rw [s.task_fork] at hb hpid
  split at ha
  · rename_i haj
    rw [if_pos haj] at hpid
    split at hb
    · rename_i hbj
      rw [haj, hbj]
    · rename_i hbj
      rw [if_neg hbj] at hpid
      exact absurd hpid.symm (hfree b hb)
  · rename_i haj
    rw [if_neg haj] at hpid
    split at hb
    · rename_i hbj
      rw [if_pos hbj] at hpid
      exact absurd hpid (hfree a ha)
    · rename_i hbj
      rw [if_neg hbj] at hpid
      exact h.pids a b ha hb hpid

theorem fork (h : Wellformed s) {parent : Nat} {pid : Int} (hp : s.pidFree pid = true) :
    Wellformed (s.fork parent pid) := by
  refine ⟨?_, ?_, fun _ _ => h.pids_fork hp, ?_, h.created_range, h.created_unique,
    h.namespaces_le⟩
  · intro j
    rw [s.task_fork]
    split
    · rename_i hj
      show Linked j _ _ (s.session j)
      rw [(h.unborn j (by omega)).1]
      exact .fresh j _ _
    · exact h.linked j
  · intro j hj
    have hlt : s.born < j := hj
    rw [s.task_fork, if_neg (by omega)]
    exact h.unborn j (by omega)
  · intro j
    rw [s.task_fork]
    split
    · exact h.task_ns parent
    · exact h.task_ns j

theorem created_unshared_unique (h : Wellformed s) {j k n : Nat}
    (hj : n ∈ ((s.unshared i).session j).app.created)
    (hk : n ∈ ((s.unshared i).session k).app.created) : j = k := by
  rcases s.created_unshared i hj with ⟨rfl, rfl⟩ | ⟨_, hj'⟩
  · rcases s.created_unshared j hk with ⟨rfl, _⟩ | ⟨_, hk'⟩
    · rfl
    · exact absurd (h.created_range k _ hk').2 (lt_irrefl _)
  · rcases s.created_unshared i hk with ⟨_, rfl⟩ | ⟨_, hk'⟩
    · exact absurd (h.created_range j _ hj').2 (lt_irrefl _)
    · exact h.created_unique j k n hj' hk'

theorem unshared (h : Wellformed s) (hi : i < s.born) (hpc : (s.session i).app.pc = .forked) :
    Wellformed (s.unshared i) := by
  have hsame := s.task_unshared_frame i
  refine ⟨?_, ?_, ?_, ?_, ?_, fun _ _ _ => h.created_unshared_unique,
    Nat.le_succ_of_le h.namespaces_le⟩
  · intro j
    rw [s.session_unshared, s.task_unshared]
    split
    · rename_i hj
      subst hj
      exact (h.linked j).reset (by rw [hpc]; rfl) (fun _ => rfl) (fun hp => nomatch hp)
    · rw [s.shared_unshared i (h.task_ns j)]
      exact h.linked j
  · intro j hj
    have hle : s.born ≤ j := hj
    rw [s.session_unshared, s.task_unshared, if_neg (by omega), if_neg (by omega)]
    exact h.unborn j hle
  · intro a b ha hb hp
    rw [(hsame a).2] at ha
    rw [(hsame b).2] at hb
    rw [(hsame a).1, (hsame b).1] at hp
    exact h.pids a b ha hb hp
  · intro j
    show _ < s.namespaces + 1
    rw [s.task_unshared]
    split
    · exact Nat.lt_succ_self _
    · exact Nat.lt_succ_of_lt (h.task_ns j)
  · intro j n hn
    show 2 ≤ n ∧ n < s.namespaces + 1
    rcases s.created_unshared i hn with ⟨_, rfl⟩ | ⟨_, hn⟩
    · exact ⟨h.namespaces_le, Nat.lt_succ_self _⟩
    · obtain ⟨hlo, hhi⟩ := h.created_range j n hn
      exact ⟨hlo, Nat.lt_succ_of_lt hhi⟩

theorem setPc (h : Wellformed s) (hi : i < s.born) {pc : AppPc}
    (hx : Linked i (s.task i) (s.shared (s.task i).ns)
      { s.session i with app := { (s.session i).app with pc := pc } }) :
    Wellformed (s.setPc i pc) := h.setSession hi hx rfl

theorem advance (h : Wellformed s) (hi : i < s.born) {pc pc' : AppPc}
    (hpc : (s.session i).app.pc = pc) (hold : pc.inPrivate = true) (hnew : pc'.inPrivate = true) :
    Wellformed (s.setPc i pc') :=
  h.setPc hi ((h.linked i).advance (hpc ▸ hold) hnew rfl)

theorem fail (h : Wellformed s) (hi : i < s.born) {pc : AppPc}
    (hpc : (s.session i).app.pc = pc) (hold : pc.inPrivate = false) :
    Wellformed (s.setPc i .failed) :=
  h.setPc hi ((h.linked i).reset (hpc ▸ hold) (fun hp => by rcases hp with hp | hp <;> cases hp)
    (fun hp => nomatch hp))

theorem appStep (h : Wellformed s) (ha : (s.task i).alive = true) {act : AppAct}
    (hstep : appStep s i act = some t) : Wellformed t := by
  have hi := h.born_of_alive ha
  have hlink := h.linked i
  cases appStep_cases hstep with
  | unshare hpc => exact h.unshared hi hpc
  | mountSlave hpc =>
    refine (h.mountSlave (s.task i).ns).setPc hi ?_
    have hmade := hlink.made (Or.inl hpc)
    exact hlink.reset (by rw [hpc]; rfl) (fun _ => hmade) fun _ => Function.update_self _ _ _
  | fail hpc =>
    obtain hpc | hpc := hpc
    · exact h.fail hi hpc rfl
    · exact h.fail hi hpc rfl
  | write hpc =>
    have hsent : Linked i (s.task i) (s.shared (s.task i).ns)
        { s.session i with app := { (s.session i).app with pc := .requested } } :=
      hlink.advance (by rw [hpc]; rfl) rfl rfl
    refine h.setSession hi (hsent.setRequest ?_) rfl
    intro p hp
    exact ⟨(Option.some.inj hp).symm, rfl⟩
  | @read result hpc _ =>
    have hread : Linked i (s.task i) (s.shared (s.task i).ns)
        { s.session i with app := { (s.session i).app with pc := .answered result } } :=
      hlink.advance (by rw [hpc]; rfl) rfl rfl
    exact h.setSession hi (hread.setAnswer none) rfl
  | work table hold hnew =>
    obtain rfl | ⟨rest, rfl⟩ := hnew
    · exact (h.withTable table).advance hi rfl hold rfl
    · exact (h.withTable table).advance hi rfl hold rfl
  | succeed hpc => exact h.advance hi hpc rfl rfl
  | fallBack hpc => exact h.setSession hi (hlink.advance (by rw [hpc]; rfl) rfl rfl) rfl

theorem handlerStep (h : Wellformed s) (hi : i < s.born) {act : HandlerAct} {y : Session}
    (hstep : handlerStep (s.session i) act = some y) : Wellformed (s.setSession i y) :=
  h.setSession hi ((h.linked i).handlerStep hstep) (by rw [handlerStep_app hstep])

theorem setChild (h : Wellformed s) (hi : i < s.born) {c : Child}
    (hc : Linked i (s.task i) (s.shared (s.task i).ns) { s.session i with child := c }) :
    Wellformed (s.setChild i c) := h.setSession hi hc rfl

theorem moveChild (h : Wellformed s) {pc pc' : ChildPc} (hpc : (s.session i).child.pc = pc)
    (hborn : pc ≠ .unborn) (hstarted : ∀ p, pc' ≠ .started p) (hopened : ∀ n, pc' ≠ .opened n)
    (houtside : pc'.outside = false) (hacting : pc'.acting = true → pc.acting = true)
    (completed : Bool) : Wellformed (s.setChild i
      { (s.session i).child with pc := pc', completed := completed }) := by
  subst hpc
  have hlink := h.linked i
  exact h.setChild (h.born_of_child hborn) (hlink.setChild (hlink.forked hborn) rfl rfl rfl
    hstarted hopened houtside fun ha => hlink.acting (hacting ha))

theorem childStep (h : Wellformed s) {act : ChildAct} (hstep : childStep s i act = some t) :
    Wellformed t := by
  have hlink := h.linked i
  cases childStep_cases hstep with
  | openNs hpc hq hpid =>
    refine h.setChild (h.born_of_child (by rw [hpc]; simp)) (hlink.openNs hpc ?_ ?_)
    · intro ha
      exact h.pids _ i hq ha (hpid.trans (hlink.started _ hpc).1)
    · intro he
      rw [he]
  | setns hpc => exact h.setChild (h.born_of_child (by rw [hpc]; simp)) (hlink.setns hpc)
  | fail hpc =>
    obtain ⟨_, hpc⟩ | ⟨_, hpc⟩ := hpc
    · exact h.moveChild hpc (by simp) (by simp) (by simp) rfl (by intro ha; cases ha) _
    · exact h.moveChild hpc (by simp) (by simp) (by simp) rfl (by intro ha; cases ha) _
  | work table ha =>
    have hborn : (s.session i).child.pc ≠ .unborn := by
      intro hu
      rw [hu] at ha
      cases ha
    exact (h.withTable table).moveChild rfl hborn (by simp) (by simp) rfl (fun _ => ha) _
  | complete hpc => exact h.moveChild hpc (by simp) (by simp) (by simp) rfl (fun _ => rfl) _
  | exit hpc => exact h.moveChild hpc (by simp) (by simp) (by simp) rfl (by intro ha; cases ha) _
  | kill hr _ =>
    have hborn : (s.session i).child.pc ≠ .unborn := by
      intro hu
      rw [hu] at hr
      cases hr
    exact h.moveChild rfl hborn (by simp) (by simp) rfl (by intro ha; cases ha) _

theorem step (h : Wellformed s) {l : Label} (hstep : step s l = some t) : Wellformed t := by
  cases l with
  | fork parent pid =>
    simp only [Companion.step] at hstep
    split at hstep
    · rename_i hc
      obtain rfl := Option.some.inj hstep
      rw [Bool.and_eq_true] at hc
      exact h.fork hc.2
    · cases hstep
  | die i =>
    obtain rfl := Option.some.inj hstep
    exact h.die i
  | app i act =>
    simp only [Companion.step] at hstep
    split at hstep
    · rename_i hc
      rw [Bool.and_eq_true] at hc
      exact h.appStep hc.1 hstep
    · cases hstep
  | handler i act =>
    simp only [Companion.step] at hstep
    split at hstep
    · rename_i hi
      obtain ⟨y, hy, rfl⟩ := Option.map_eq_some_iff.mp hstep
      exact h.handlerStep hi hy
    · cases hstep
  | child i act => exact h.childStep hstep

theorem initial (boot : Boot) : Wellformed boot.initial := by
  have hlive : ∀ i, (boot.initial.task i).alive = true →
      (i = 0 ∧ (boot.initial.task i).pid = boot.zygotePid) ∨
        (i = 1 ∧ (boot.initial.task i).pid = boot.companionPid) := by
    intro i
    unfold Boot.initial
    dsimp only
    split
    · exact fun _ => Or.inl ⟨‹_›, rfl⟩
    · split
      · exact fun _ => Or.inr ⟨‹_›, rfl⟩
      · exact fun ha => nomatch ha
  refine ⟨fun i => .fresh i _ _, ?_, ?_, ?_, (fun i n hn => nomatch hn),
    (fun i j n hn => nomatch hn), le_refl 2⟩
  · intro i hi
    refine ⟨rfl, ?_⟩
    rw [← Bool.not_eq_true]
    intro ha
    have hle : 2 ≤ i := hi
    rcases hlive i ha with ⟨he, _⟩ | ⟨he, _⟩
    · omega
    · omega
  · intro a b ha hb hp
    rcases hlive a ha with ⟨rfl, hpa⟩ | ⟨rfl, hpa⟩
    · rcases hlive b hb with ⟨rfl, _⟩ | ⟨rfl, hpb⟩
      · rfl
      · exact absurd (hpa.symm.trans (hp.trans hpb)) boot.distinct
    · rcases hlive b hb with ⟨rfl, hpb⟩ | ⟨rfl, _⟩
      · exact absurd (hpb.symm.trans (hp.symm.trans hpa)) boot.distinct
      · rfl
  · intro i
    show (boot.initial.task i).ns < 2
    unfold Boot.initial zygoteNs companionNs
    dsimp only
    split
    · exact Nat.two_pos
    · split
      · exact Nat.one_lt_two
      · exact Nat.two_pos

theorem run {boot : Boot} {ls : List Label}
    (hr : LabelledRun.run Companion.step boot.initial ls = some s) : Wellformed s :=
  LabelledRun.run_invariant (fun _ _ _ h hstep => h.step hstep) (initial boot) hr

end Wellformed

end ZygiskAssistant.Companion
