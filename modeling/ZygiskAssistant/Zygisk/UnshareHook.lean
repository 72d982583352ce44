import ZygiskAssistant.Zygisk.CallbackOnce

/-!
# What the unshare hook reports

The hook drops `CLONE_NEWNS` and answers 0 when nothing else was asked for,
counting on the callback to have made the namespace. The callback is missing
when the second hook could not be installed, and its own `unshare` may fail;
in these two cases, and in no other, the answer is false.
-/

namespace ZygiskAssistant.Zygisk

/-- In every run, an answer 0 of the hook to `CLONE_NEWNS` finds the process outside the
namespace of Zygote. -/
def NoFalseReport (app : AppEnv) (env : CallbackEnv) : Prop :=
  ∀ calls flags ok rets p p', appRun app env calls = some (rets, p) →
    runtimeSlot app.maps unshareSymbol p = .newUnshare →
    newUnshare env flags ok p = some (0, p') → flags &&& cloneNewns ≠ 0#32 → p'.mountNs ≠ 0

structure UnshareHooked (app : AppEnv) : Prop where
  accepted : skipsProcess app = false
  found : (findLibrary app.maps libandroidRuntime).isSome = true
  unshareCommit : app.unshareCommit = true

theorem UnshareHooked.installed {app : AppEnv} (h : UnshareHooked app)
    (hc : app.setresuidCommit = true) : Installed app :=
  ⟨h.accepted, h.found, h.unshareCommit, hc⟩

structure Unhooked (maps : List MapEntry) (p : Process) : Prop where
  unshareSlot : runtimeSlot maps unshareSymbol p = .original unshareSymbol
  setresuidSlot : runtimeSlot maps setresuidSymbol p = .original setresuidSymbol

theorem Unhooked.of_slot {maps : List MapEntry} {p : Process}
    (h : p.slot = Process.forked.slot) : Unhooked maps p := by
  constructor <;> unfold runtimeSlot <;> rw [h] <;> cases findLibrary maps libandroidRuntime <;> rfl

theorem Unhooked.of_missing {maps : List MapEntry} (p : Process)
    (h : findLibrary maps libandroidRuntime = none) : Unhooked maps p := by
  constructor <;> unfold runtimeSlot <;> rw [h]

theorem Unhooked.congr {maps : List MapEntry} {p q : Process} (h : Unhooked maps p)
    (hs : q.slot = p.slot) : Unhooked maps q := by
  obtain ⟨hu, hr⟩ := h
  unfold runtimeSlot at hu hr
  constructor <;> unfold runtimeSlot <;> rw [hs] <;> assumption

theorem zygoteCleanup_slot (app : AppEnv) (p : Process) : (zygoteCleanup app p).slot = p.slot := by
  unfold zygoteCleanup
  split
  · split <;> rfl
  · rfl

theorem specialized_unhooked {app : AppEnv} (h : ¬ UnshareHooked app) :
    Unhooked app.maps (specialized app) := by
  have hclean := zygoteCleanup_slot app (preAppSpecialize app .forked)
  cases hmap : findLibrary app.maps libandroidRuntime with
  | none => exact .of_missing _ hmap
  | some map =>
    apply Unhooked.of_slot
    rw [specialized, hclean, preAppSpecialize]
    cases hskip : skipsProcess app with
    | true => rfl
    | false =>
      have hc : app.unshareCommit = false := by
        rw [← Bool.not_eq_true]
        intro hc
        exact h ⟨hskip, by simp [hmap], hc⟩
      rw [hc, hookPLTByName_found hmap]
      rfl

theorem callStep_unhooked {maps : List MapEntry} {env : CallbackEnv} (s : List Int × Process)
    (c : Call) (t : List Int × Process) (h : Unhooked maps s.2)
    (hstep : callStep maps env s c = some t) : Unhooked maps t.2 := by
  unfold callStep at hstep
  cases c with
  | unshare flags ok =>
    rw [runtimeCall, h.unshareSlot] at hstep
    obtain rfl := Option.some.inj hstep
    exact h.congr rfl
  | setresuid ruid euid suid ok =>
    rw [runtimeCall, h.setresuidSlot] at hstep
    obtain rfl := Option.some.inj hstep
    exact h.congr rfl

theorem appRun_unhooked {app : AppEnv} {env : CallbackEnv} (h : ¬ UnshareHooked app)
    {calls : List Call} {s : List Int × Process} (hr : appRun app env calls = some s) :
    Unhooked app.maps s.2 :=
  LabelledRun.run_invariant (P := fun s => Unhooked app.maps s.2) callStep_unhooked
    (specialized_unhooked h) hr

theorem specialized_unshareOnly {app : AppEnv} (h : UnshareHooked app)
    (hc : app.setresuidCommit = false) :
    runtimeSlot app.maps unshareSymbol (specialized app) = .newUnshare ∧
      (specialized app).callbackFunction = .idle ∧ (specialized app).mountNs = 0 := by
  obtain ⟨map, hmap⟩ := Option.isSome_iff_exists.mp h.found
  have hspec : specialized app =
      (install optionSet (unshareHook map)).pltHookRegister (setresuidHook map) := by
    rw [specialized, preAppSpecialize_unshareOnly h.accepted h.unshareCommit hc hmap]
    rfl
  rw [hspec]
  refine ⟨?_, rfl, rfl⟩
  simp only [runtimeSlot, hmap, Process.pltHookRegister, install, Process.applyHook,
    Process.setSlot, unshareHook, and_self, if_true]

theorem newUnshare_newns {env : CallbackEnv} {p q : Process} (hcb : invokeCallback env p = some q)
    (ok : Bool) : newUnshare env cloneNewns ok p = some (0, q) := by
  have hz : (cloneNewns &&& ~~~cloneNewns == 0#32) = true := by decide
  simp only [newUnshare, hcb, Option.bind_eq_bind, Option.bind_some, hz, if_true, Option.pure_def]

/-- A hooked process that has left Zygote's namespace, or will with its callback. -/
theorem newUnshare_mountNs {maps : List MapEntry} {env : CallbackEnv} {p p' : Process}
    {flags : BitVec 32} {ok : Bool} {ret : Int} {q : Process} (h : Hooked maps p)
    (hcb : invokeCallback env p = some q) (hu : q.oldUnshare = p.oldUnshare)
    (hr : q.oldSetresuid = p.oldSetresuid) (hn : newUnshare env flags ok p = some (ret, p')) :
    p'.mountNs = q.mountNs := by
  have hcall : newUnshare env flags ok p =
      some (answer (.unshare flags ok), q.log (forwarded (.unshare flags ok))) := by
    rw [← runtimeCall_hooked h hcb hu hr (.unshare flags ok), runtimeCall, h.unshareSlot]
  obtain ⟨_, rfl⟩ := Prod.mk.inj (Option.some.inj (hn.symm.trans hcall))
  rfl

theorem noFalseReport_of_namespace {app : AppEnv} {env : CallbackEnv} (h : Installed app)
    (hns : env.unshareOk = true) : NoFalseReport app env := by
  intro calls flags ok rets p p' hrun _ hn _
  obtain ⟨q, hq, hh, _, hmount, hcb⟩ := appRun_installed h env calls
  obtain ⟨_, rfl⟩ := Prod.mk.inj (Option.some.inj (hrun.symm.trans hq))
  by_cases hne : calls = []
  · rw [if_pos hne] at hcb
    rw [newUnshare_mountNs hh (invokeCallback_hide hcb hh.oldUnshare) rfl rfl hn]
    simp [spend, hns]
  · rw [if_neg hne] at hcb
    rw [newUnshare_mountNs hh (invokeCallback_idle hcb) rfl rfl hn, hmount, if_pos ⟨hne, hns⟩]
    exact one_ne_zero

/-- The hook never reports a missing namespace exactly when, once it is installed, the
second hook is installed too and the callback's own `unshare` succeeds. -/
theorem noFalseReport_iff (app : AppEnv) (env : CallbackEnv) :
    NoFalseReport app env ↔
      (UnshareHooked app → app.setresuidCommit = true ∧ env.unshareOk = true) := by
  have hflag : cloneNewns &&& cloneNewns ≠ 0#32 := by decide
  constructor
  · intro hno h
    have hc : app.setresuidCommit = true := by
      rw [← Bool.not_eq_false]
      intro hc
      obtain ⟨hslot, hcb, hns⟩ := specialized_unshareOnly h hc
      exact hno [] cloneNewns true [] _ _ rfl hslot
        (newUnshare_newns (invokeCallback_idle hcb) true) hflag hns
    refine ⟨hc, ?_⟩
    rw [← Bool.not_eq_false]
    intro hns
    obtain ⟨hh, hcb, _, hzero⟩ := specialized_installed (h.installed hc)
    have hstay : (spend env app.connectCompanion (specialized app)).mountNs = 0 := by
      simp [spend, hns, hzero]
    exact hno [] cloneNewns true [] _ _ rfl hh.unshareSlot
      (newUnshare_newns (invokeCallback_hide hcb hh.oldUnshare) true) hflag hstay
  · intro h
    by_cases hu : UnshareHooked app
    · obtain ⟨hc, hns⟩ := h hu
      exact noFalseReport_of_namespace (hu.installed hc) hns
    · intro calls flags ok rets p p' hrun hslot
      have hun := (appRun_unhooked hu hrun).unshareSlot
      rw [hun] at hslot
      cases hslot

/-- Without the second hook, and with a failing `unshare`, the hook answers 0 in Zygote's
namespace. -/
theorem unshare_reports_missing_namespace :
    ¬ NoFalseReport { sampleApp with setresuidCommit := false } sampleEnv ∧
      ¬ NoFalseReport sampleApp { sampleEnv with unshareOk := false } := by
  constructor
  · intro h
    exact h [] cloneNewns true [] _ _ rfl (by decide) rfl (by decide) rfl
  · intro h
    exact h [] cloneNewns true [] _ _ rfl (by decide) rfl (by decide) rfl

end ZygiskAssistant.Zygisk
