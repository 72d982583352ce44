import ZygiskAssistant.Companion.Invariants

/-!
# Where an unmount takes effect

The local fallback acts in the private namespace of its own process. The
companion's child acts in the namespace of the process that held the pid when
it opened the namespace file: the requester, as long as that one is alive.
-/

namespace ZygiskAssistant.Companion

open Modules

/-- The namespace that process `i` has made with `new_mount_ns`: it is a slave, it is
neither Zygote's nor the companion's, and no other process has made it. -/
structure PrivateNs (s : System) (i n : Nat) : Prop where
  created : n ∈ (s.session i).app.created
  current : (s.task i).ns = n
  slaved : s.shared n = false
  not_zygote : n ≠ zygoteNs
  not_companion : n ≠ companionNs
  unique : ∀ j, n ∈ (s.session j).app.created → j = i

def OnlyTable (n : Nat) (s t : System) : Prop := ∀ k, k ≠ n → t.table k = s.table k

theorem Wellformed.privateNs {s : System} {i : Nat} (h : Wellformed s)
    (hpc : (s.session i).app.pc.inPrivate = true) : PrivateNs s i (s.task i).ns := by
  have hmade : (s.task i).ns ∈ (s.session i).app.created := (h.linked i).made (Or.inr hpc)
  obtain ⟨hlo, _⟩ := h.created_range i _ hmade
  refine ⟨hmade, rfl, (h.linked i).slaved hpc, ?_, ?_, ?_⟩
  · unfold zygoteNs
    omega
  · unfold companionNs
    omega
  · intro j hj
    exact h.created_unique j i _ hj hmade

theorem umount2_onlyTable {s : System} {n : Nat} (hn : s.shared n = false) (path : Str)
    (ok : Bool) : OnlyTable n s (s.umount2 n path ok) := by
  intro k hk
  cases ok with
  | false => rfl
  | true =>
    have hno : ¬ (k = n ∨ s.shared n = true) := by
      rintro (he | hs)
      · exact hk he
      · rw [hn] at hs
        cases hs
    exact if_neg hno

theorem app_umount2_cases {s t : System} {i : Nat} {ok : Bool}
    (hstep : step s (.app i (.umount2 ok)) = some t) : ∃ path rest,
      (s.session i).app.pc = .unmounting (path :: rest) ∧
      t.table = (s.umount2 (s.task i).ns path ok).table := by
  simp only [step] at hstep
  split at hstep
  · simp only [appStep] at hstep
    split at hstep
    · rename_i path rest hpc
      obtain rfl := Option.some.inj hstep
      exact ⟨path, rest, hpc, rfl⟩
    · cases hstep
  · cases hstep

theorem child_umount2_cases {s t : System} {i : Nat} {ok : Bool}
    (hstep : step s (.child i (.umount2 ok)) = some t) : ∃ path rest,
      (s.session i).child.pc = .unmounting (path :: rest) ∧
      t.table = (s.umount2 (s.session i).child.ns path ok).table := by
  simp only [step, childStep] at hstep
  split at hstep
  · rename_i path rest hpc
    obtain rfl := Option.some.inj hstep
    exact ⟨path, rest, hpc, rfl⟩
  · cases hstep

theorem child_openNs_cases {s t : System} {i q : Nat}
    (hstep : step s (.child i (.openNs (some q))) = some t) :
    (s.session i).child.pc = .started (s.task q).pid ∧ (s.task q).alive = true ∧
      (t.session i).child.holder = some q ∧
      (t.session i).child.pc = .opened (s.task q).ns := by
  simp only [step, childStep] at hstep
  split at hstep
  · rename_i pid hpc
    split at hstep
    · rename_i hq
      obtain rfl := Option.some.inj hstep
      rw [Bool.and_eq_true, beq_iff_eq] at hq
      refine ⟨hq.2 ▸ hpc, hq.1, ?_, ?_⟩
      · simp [System.setChild, System.setSession]
      · simp [System.setChild, System.setSession]
    · cases hstep
  · cases hstep

/-- In every reachable state: the fallback's `umount2` changes the table of the requester's
private namespace only; the child opens the namespace of a process with the requested pid,
of the requester while it lives; and if it was the requester's, the child's `umount2` too
changes that table only. -/
theorem umount2_isolated {boot : Boot} {ls : List Label} {s : System}
    (hr : LabelledRun.run step boot.initial ls = some s) :
    (∀ i ok t, step s (.app i (.umount2 ok)) = some t →
      ∃ n, PrivateNs s i n ∧ OnlyTable n s t) ∧
    (∀ i q t, step s (.child i (.openNs (some q))) = some t →
      (s.task q).pid = (s.task i).pid ∧ ((s.task i).alive = true → q = i) ∧
        (t.session i).child.holder = some q ∧
        (t.session i).child.pc = .opened (s.task q).ns) ∧
    ∀ i ok t, step s (.child i (.umount2 ok)) = some t →
      ∃ q ∈ (s.session i).child.holder, ((s.task i).alive = true → q = i) ∧
        (q = i → ∃ n, PrivateNs s i n ∧ OnlyTable n s t) := by
  have h := Wellformed.run hr
  refine ⟨?_, ?_, ?_⟩
  · intro i ok t hstep
    obtain ⟨path, rest, hpc, htable⟩ := app_umount2_cases hstep
    have hprivate := h.privateNs (i := i) (by rw [hpc]; rfl)
    refine ⟨_, hprivate, ?_⟩
    intro k hk
    rw [htable]
    exact umount2_onlyTable hprivate.slaved path ok k hk
  · intro i q t hstep
    obtain ⟨hpc, halive, hholder, hopened⟩ := child_openNs_cases hstep
    have hpid := ((h.linked i).started _ hpc).1
    exact ⟨hpid, fun ha => h.pids q i halive ha hpid, hholder, hopened⟩
  · intro i ok t hstep
    obtain ⟨path, rest, hpc, htable⟩ := child_umount2_cases hstep
    obtain ⟨q, hq, hns⟩ := (h.linked i).entered ((h.linked i).acting (by rw [hpc]; rfl))
    obtain ⟨hp, halive⟩ := (h.linked i).holder q hq
    refine ⟨q, hq, halive, fun hqi => ?_⟩
    have hprivate := h.privateNs hp
    refine ⟨_, hprivate, ?_⟩
    intro k hk
    rw [htable, hns hqi]
    exact umount2_onlyTable hprivate.slaved path ok k hk

def sampleBoot : Boot := ⟨50, 60, fun _ => [rootEntry, moduleOverlay], by decide⟩

/-- Zygote forks app 2 with pid 100; its request reaches the handler, which forks a child. -/
def requestRun : List Label :=
  [.fork 0 100, .app 2 (.unshare true), .app 2 (.mountSlave true), .app 2 (.write true),
    .handler 2 (.read true), .handler 2 (.fork true)]

def servedRun : List Label :=
  requestRun ++ [.child 2 (.openNs (some 2)), .child 2 (.setns true), .child 2 (.parse true)]

/-- The requester dies before, and a new process in Zygote's namespace gets its pid. -/
def reusedPidRun : List Label :=
  requestRun ++ [.die 2, .fork 0 100, .child 2 (.openNs (some 3)), .child 2 (.setns true),
    .child 2 (.parse true)]

theorem umount2_isolated_served : ∃ s,
    LabelledRun.run step sampleBoot.initial servedRun = some s ∧
    (∀ i ok t, step s (.app i (.umount2 ok)) = some t →
      ∃ n, PrivateNs s i n ∧ OnlyTable n s t) ∧
    (∀ i q t, step s (.child i (.openNs (some q))) = some t →
      (s.task q).pid = (s.task i).pid ∧ ((s.task i).alive = true → q = i) ∧
        (t.session i).child.holder = some q ∧
        (t.session i).child.pc = .opened (s.task q).ns) ∧
    ∀ i ok t, step s (.child i (.umount2 ok)) = some t →
      ∃ q ∈ (s.session i).child.holder, ((s.task i).alive = true → q = i) ∧
        (q = i → ∃ n, PrivateNs s i n ∧ OnlyTable n s t) := by
  obtain ⟨s, hs⟩ := Option.isSome_iff_exists.mp
    (show (LabelledRun.run step sampleBoot.initial servedRun).isSome = true by decide)
  exact ⟨s, hs, umount2_isolated hs⟩

/-- After the pid has been given to a process in Zygote's namespace, the unmount that the dead
app requested takes the overlay from Zygote's own table. -/
theorem umount2_reaches_zygote :
    (LabelledRun.run step sampleBoot.initial reusedPidRun).map (fun s => s.table zygoteNs) =
        some [rootEntry, moduleOverlay] ∧
      (LabelledRun.run step sampleBoot.initial (reusedPidRun ++ [.child 2 (.umount2 true)])).map
        (fun s => s.table zygoteNs) = some [rootEntry] := by
  decide

end ZygiskAssistant.Companion
