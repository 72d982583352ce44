import ZygiskAssistant.Parsers.Maps
import ZygiskAssistant.Zygisk.CallbackOnce

/-!
# Restoring the PLT slots

`postAppSpecialize`, and the lookups of both specialization hooks through the
cache of `parseSelfMaps`. What the installation leaves behind is one of three
states of the slots, the pending registrations and the `old_*` pointers; calls
of the runtime keep that state, and from each of the three the restoring commits
lead back to the original slots.
-/

namespace ZygiskAssistant.Zygisk

open Parsers

/-- What the opening of `/proc/self/maps` gives at each lookup, and what the commits of
`postAppSpecialize` answer. -/
structure PltEnv where
  abi : Abi
  preUnshareMaps : Option Str
  preSetresuidMaps : Option Str
  postUnshareMaps : Option Str
  postSetresuidMaps : Option Str
  postUnshareCommit : Bool
  postSetresuidCommit : Bool

/-- `hookPLTByName` with the cache that `parseSelfMaps` keeps. -/
def cachedHookPLTByName (abi : Abi) (file : Option Str) (commitOk : Bool) (libName symbolName : Str)
    (hookFunction : FuncPtr) (originalFunction : Option OldFunc) (s : List MapEntry × Process) :
    Bool × List MapEntry × Process :=
  let maps := parseSelfMaps abi true file s.1
  let (hooked, p) := hookPLTByName maps commitOk libName symbolName hookFunction originalFunction s.2
  (hooked, maps, p)

def cachedPreAppSpecialize (plt : PltEnv) (env : AppEnv) (s : List MapEntry × Process) :
    List MapEntry × Process :=
  let s := (s.1, { s.2 with dlcloseModuleLibrary := true })
  if skipsProcess env then s
  else
    let (hooked, s) := cachedHookPLTByName plt.abi plt.preUnshareMaps env.unshareCommit
      libandroidRuntime unshareSymbol .newUnshare (some .oldUnshare) s
    if !hooked then s
    else
      let (hooked, s) := cachedHookPLTByName plt.abi plt.preSetresuidMaps env.setresuidCommit
        libandroidRuntime setresuidSymbol .newSetresuid (some .oldSetresuid) s
      if !hooked then s
      else (s.1, { s.2 with callbackFunction := .hide env.connectCompanion })

def postAppSpecialize (plt : PltEnv) (s : List MapEntry × Process) : List MapEntry × Process :=
  let s :=
    match s.2.oldUnshare with
    | some oldUnshare => (cachedHookPLTByName plt.abi plt.postUnshareMaps plt.postUnshareCommit
        libandroidRuntime unshareSymbol oldUnshare none s).2
    | none => s
  match s.2.oldSetresuid with
  | some oldSetresuid => (cachedHookPLTByName plt.abi plt.postSetresuidMaps plt.postSetresuidCommit
      libandroidRuntime setresuidSymbol oldSetresuid none s).2
  | none => s

/-- An app process from its fork to its `postAppSpecialize`. -/
def specialization (plt : PltEnv) (env : AppEnv) (cb : CallbackEnv) (calls : List Call) :
    Option Process := do
  let (maps, p) := cachedPreAppSpecialize plt env ([], .forked)
  let (_, p) ← LabelledRun.run (callStep maps cb) ([], zygoteCleanup env p) calls
  return (postAppSpecialize plt (maps, p)).2

theorem parseSelfMaps_cached (abi : Abi) (file : Option Str) {cache : List MapEntry}
    (h : cache ≠ []) : parseSelfMaps abi true file cache = cache := by
  simp [parseSelfMaps, h]

theorem findLibrary_ne_nil {maps : List MapEntry} {libName : Str} {map : MapEntry}
    (h : findLibrary maps libName = some map) : maps ≠ [] := by
  rintro rfl
  cases h

theorem cachedHookPLTByName_found {maps : List MapEntry} {libName : Str} {map : MapEntry}
    (h : findLibrary maps libName = some map) (abi : Abi) (file : Option Str) (commitOk : Bool)
    (symbolName : Str) (hookFunction : FuncPtr) (originalFunction : Option OldFunc) (p : Process) :
    cachedHookPLTByName abi file commitOk libName symbolName hookFunction originalFunction (maps, p) =
      (commitOk, maps, ((p.pltHookRegister ⟨map.device, map.inode, symbolName, hookFunction,
        originalFunction⟩).pltHookCommit commitOk).2) := by
  rw [cachedHookPLTByName, parseSelfMaps_cached abi file (findLibrary_ne_nil h)]
  simp only [hookPLTByName_found h]
  cases commitOk <;> rfl

/-- The second lookup finds what the first one read, so one reading of the maps decides. -/
theorem cachedPreAppSpecialize_eq (plt : PltEnv) (env : AppEnv) (cache : List MapEntry) (p : Process)
    (h : skipsProcess env = false) : cachedPreAppSpecialize plt env (cache, p) =
      (parseSelfMaps plt.abi true plt.preUnshareMaps cache,
        preAppSpecialize { env with maps := parseSelfMaps plt.abi true plt.preUnshareMaps cache } p) := by
  have hskip : skipsProcess
      { env with maps := parseSelfMaps plt.abi true plt.preUnshareMaps cache } = false := h
  simp only [cachedPreAppSpecialize, preAppSpecialize, cachedHookPLTByName, h, hskip,
    Bool.false_eq_true, if_false]
  cases hmap : findLibrary (parseSelfMaps plt.abi true plt.preUnshareMaps cache)
      libandroidRuntime with
  | none => simp [hookPLTByName, Utils.hookPLTByName, hmap]
  | some map =>
    simp only [parseSelfMaps_cached _ _ (findLibrary_ne_nil hmap)]
    split
    · rfl
    · split <;> rfl

/-- Nothing hooked; the first hook alone, with the registration of the second pending; or
both. -/
inductive HookState (maps : List MapEntry) (p : Process) : Prop
  | none (slot : p.slot = Process.forked.slot) (oldUnshare : p.oldUnshare = none)
      (oldSetresuid : p.oldSetresuid = none)
  | unshareOnly (map : MapEntry) (found : findLibrary maps libandroidRuntime = some map)
      (slot : p.slot = (install optionSet (unshareHook map)).slot)
      (oldUnshare : p.oldUnshare = some (.original unshareSymbol))
      (oldSetresuid : p.oldSetresuid = Option.none) (pending : p.pending = [setresuidHook map])
  | both (map : MapEntry) (found : findLibrary maps libandroidRuntime = some map)
      (slot : p.slot = (bothHooked map).slot)
      (oldUnshare : p.oldUnshare = some (.original unshareSymbol))
      (oldSetresuid : p.oldSetresuid = some (.original setresuidSymbol)) (pending : p.pending = [])

/-- The same slots, pending registrations and pointers, and the same option. -/
structure SameHooks (p q : Process) : Prop where
  slot : q.slot = p.slot
  pending : q.pending = p.pending
  oldUnshare : q.oldUnshare = p.oldUnshare
  oldSetresuid : q.oldSetresuid = p.oldSetresuid
  dlclose : q.dlcloseModuleLibrary = p.dlcloseModuleLibrary

theorem SameHooks.refl (p : Process) : SameHooks p p := ⟨rfl, rfl, rfl, rfl, rfl⟩

theorem SameHooks.trans {p q r : Process} (h : SameHooks p q) (h' : SameHooks q r) : SameHooks p r :=
  ⟨h'.slot.trans h.slot, h'.pending.trans h.pending, h'.oldUnshare.trans h.oldUnshare,
    h'.oldSetresuid.trans h.oldSetresuid, h'.dlclose.trans h.dlclose⟩

theorem HookState.congr {maps : List MapEntry} {p q : Process} (h : HookState maps p)
    (hs : SameHooks p q) : HookState maps q := by
  cases h with
  | none slot oldUnshare oldSetresuid =>
    exact .none (hs.slot.trans slot) (hs.oldUnshare.trans oldUnshare)
      (hs.oldSetresuid.trans oldSetresuid)
  | unshareOnly map found slot oldUnshare oldSetresuid pending =>
    exact .unshareOnly map found (hs.slot.trans slot) (hs.oldUnshare.trans oldUnshare)
      (hs.oldSetresuid.trans oldSetresuid) (hs.pending.trans pending)
  | both map found slot oldUnshare oldSetresuid pending =>
    exact .both map found (hs.slot.trans slot) (hs.oldUnshare.trans oldUnshare)
      (hs.oldSetresuid.trans oldSetresuid) (hs.pending.trans pending)

theorem preAppSpecialize_hookState (app : AppEnv) :
    HookState app.maps (preAppSpecialize app .forked) ∧
      (preAppSpecialize app .forked).dlcloseModuleLibrary = true := by
  cases hskip : skipsProcess app with
  | true =>
    rw [preAppSpecialize, hskip]
    exact ⟨.none rfl rfl rfl, rfl⟩
  | false =>
    cases hmap : findLibrary app.maps libandroidRuntime with
    | none =>
      rw [preAppSpecialize, hskip]
      simp only [hookPLTByName, Utils.hookPLTByName, hmap]
      exact ⟨.none rfl rfl rfl, rfl⟩
    | some map =>
      have hfound : (findLibrary app.maps libandroidRuntime).isSome = true := by rw [hmap]; rfl
      cases hu : app.unshareCommit with
      | false =>
        rw [preAppSpecialize, hskip, hu, hookPLTByName_found hmap]
        exact ⟨.none rfl rfl rfl, rfl⟩
      | true =>
        cases hr : app.setresuidCommit with
        | false =>
          rw [preAppSpecialize_unshareOnly hskip hu hr hmap]
          exact ⟨.unshareOnly map hmap rfl rfl rfl rfl, rfl⟩
        | true =>
          rw [preAppSpecialize_installed ⟨hskip, hfound, hu, hr⟩ hmap]
          exact ⟨.both map hmap rfl rfl (bothHooked_hooked hmap).oldSetresuid rfl, rfl⟩

/-- Every hook that a slot leads into has the pointers that it calls. -/
structure Callable (maps : List MapEntry) (p : Process) : Prop where
  unshare : runtimeSlot maps unshareSymbol p = .original unshareSymbol ∨
    (runtimeSlot maps unshareSymbol p = .newUnshare ∧ p.oldUnshare = some (.original unshareSymbol))
  setresuid : runtimeSlot maps setresuidSymbol p = .original setresuidSymbol ∨ Hooked maps p

theorem HookState.callable {maps : List MapEntry} {p : Process} (h : HookState maps p) :
    Callable maps p := by
  cases h with
  | none slot oldUnshare oldSetresuid =>
    have hslot : ∀ symbol, runtimeSlot maps symbol p = .original symbol := by
      intro symbol
      unfold runtimeSlot
      rw [slot]
      cases findLibrary maps libandroidRuntime <;> rfl
    exact ⟨Or.inl (hslot _), Or.inl (hslot _)⟩
  | unshareOnly map found slot oldUnshare oldSetresuid pending =>
    refine ⟨Or.inr ⟨?_, oldUnshare⟩, Or.inl ?_⟩
    · simp [runtimeSlot, found, slot, install, Process.applyHook, Process.setSlot, unshareHook]
    · simp only [runtimeSlot, found, slot, install, Process.applyHook, Process.setSlot, unshareHook,
        symbols_ne.symm, and_false, if_false]
      rfl
  | both map found slot oldUnshare oldSetresuid pending =>
    have hh := (bothHooked_hooked found).congr slot
      (oldUnshare.trans (bothHooked_hooked found).oldUnshare.symm)
      (oldSetresuid.trans (bothHooked_hooked found).oldSetresuid.symm)
    exact ⟨Or.inr ⟨hh.unshareSlot, oldUnshare⟩, Or.inr hh⟩

theorem Callable.congr {maps : List MapEntry} {p q : Process} (h : Callable maps p)
    (hs : SameHooks p q) : Callable maps q := by
  have hslot : ∀ symbol, runtimeSlot maps symbol q = runtimeSlot maps symbol p := by
    intro symbol
    unfold runtimeSlot
    rw [hs.slot]
  obtain ⟨hu, hr⟩ := h
  refine ⟨?_, hr.imp (hslot _).trans fun hh => hh.congr hs.slot hs.oldUnshare hs.oldSetresuid⟩
  rw [hslot, hs.oldUnshare]
  exact hu

theorem invokeCallback_keeps (env : CallbackEnv) {p : Process} {symbol : Str}
    (h : p.oldUnshare = some (.original symbol)) :
    ∃ q, invokeCallback env p = some q ∧ SameHooks p q := by
  cases hcb : p.callbackFunction with
  | idle => exact ⟨p, invokeCallback_idle hcb, .refl p⟩
  | hide fd => exact ⟨spend env fd p, invokeCallback_hide hcb h, ⟨rfl, rfl, rfl, rfl, rfl⟩⟩

theorem runtimeCall_keeps {maps : List MapEntry} {p : Process} (h : Callable maps p)
    (env : CallbackEnv) (c : Call) :
    ∃ ret q, runtimeCall maps env p c = some (ret, q) ∧ SameHooks p q := by
  cases c with
  | unshare flags ok =>
    rcases h.unshare with hslot | ⟨hslot, hold⟩
    · simp only [runtimeCall, hslot]
      exact ⟨_, _, rfl, ⟨rfl, rfl, rfl, rfl, rfl⟩⟩
    · obtain ⟨q, hq, hsame⟩ := invokeCallback_keeps env hold
      simp only [runtimeCall, hslot, newUnshare, hq, Option.bind_eq_bind, Option.bind_some]
      split
      · exact ⟨0, q, rfl, hsame⟩
      · simp only [callOldUnshare, hsame.oldUnshare, hold]
        exact ⟨_, _, rfl, hsame.trans ⟨rfl, rfl, rfl, rfl, rfl⟩⟩
  | setresuid ruid euid suid ok =>
    rcases h.setresuid with hslot | hh
    · simp only [runtimeCall, hslot]
      exact ⟨_, _, rfl, ⟨rfl, rfl, rfl, rfl, rfl⟩⟩
    · obtain ⟨q, hq, hsame⟩ := invokeCallback_keeps env hh.oldUnshare
      simp only [runtimeCall, hh.setresuidSlot, newSetresuid, hq, Option.bind_eq_bind,
        Option.bind_some, callOldSetresuid, hsame.oldSetresuid, hh.oldSetresuid]
      exact ⟨_, _, rfl, hsame.trans ⟨rfl, rfl, rfl, rfl, rfl⟩⟩

theorem run_keeps {maps : List MapEntry} (env : CallbackEnv) (calls : List Call)
    {s : List Int × Process} (h : Callable maps s.2) :
    ∃ t, LabelledRun.run (callStep maps env) s calls = some t ∧ SameHooks s.2 t.2 := by
  induction calls generalizing s with
  | nil => exact ⟨s, rfl, .refl s.2⟩
  | cons c cs ih =>
    obtain ⟨ret, q, hcall, hsame⟩ := runtimeCall_keeps h env c
    obtain ⟨t, ht, hlast⟩ := ih (s := (s.1 ++ [ret], q)) (h.congr hsame)
    refine ⟨t, ?_, hsame.trans hlast⟩
    rw [LabelledRun.run_cons, callStep, hcall]
    exact ht

theorem zygoteCleanup_keeps (app : AppEnv) (p : Process) : SameHooks p (zygoteCleanup app p) := by
  unfold zygoteCleanup
  split
  · split <;> exact ⟨rfl, rfl, rfl, rfl, rfl⟩
  · exact .refl p

def restoreHook (map : MapEntry) (symbol : Str) : PltHook :=
  ⟨map.device, map.inode, symbol, .original symbol, none⟩

theorem cachedHookPLTByName_restore {maps : List MapEntry} {map : MapEntry}
    (found : findLibrary maps libandroidRuntime = some map) (abi : Abi) (file : Option Str)
    (symbol : Str) (p : Process) :
    (cachedHookPLTByName abi file true libandroidRuntime symbol (.original symbol) none (maps, p)).2 =
      (maps, install (p.pending.foldl Process.applyHook p) (restoreHook map symbol)) := by
  rw [cachedHookPLTByName_found found, pltHookCommit_registered]
  rfl

theorem applyHook_slot (p : Process) (h : PltHook) (dev : DevT) (inode : Nat) (symbol : Str) :
    (p.applyHook h).slot dev inode symbol =
      if dev = h.dev ∧ inode = h.inode ∧ symbol = h.symbol then h.newFunc
      else p.slot dev inode symbol := by
  obtain ⟨_, _, _, _, oldFunc⟩ := h
  rcases oldFunc with _ | _ | _ <;> rfl

/-- Whatever the two slots held, restoring them leaves no hooked slot if there is no third. -/
theorem slot_restored {map : MapEntry} {p : Process}
    (h : ∀ dev inode symbol, ¬ (dev = map.device ∧ inode = map.inode ∧ symbol = unshareSymbol) →
      ¬ (dev = map.device ∧ inode = map.inode ∧ symbol = setresuidSymbol) →
      p.slot dev inode symbol = .original symbol) :
    (install (install p (restoreHook map unshareSymbol)) (restoreHook map setresuidSymbol)).slot =
      Process.forked.slot := by
  funext dev inode symbol
  simp only [install, applyHook_slot, restoreHook]
  split
  · rename_i hr
    rw [hr.2.2]
    rfl
  · split
    · rename_i hu
      rw [hu.2.2]
      rfl
    · rename_i hr hu
      exact h dev inode symbol hu hr

/-- From each of the three states, restoring what the `old_*` pointers say is restoring
everything; a registration left pending is applied by the first of the two commits, which
also sets the pointer that the second one needs. -/
theorem postAppSpecialize_restores {plt : PltEnv} (hu : plt.postUnshareCommit = true)
    (hr : plt.postSetresuidCommit = true) {maps : List MapEntry} {p : Process}
    (h : HookState maps p) : (postAppSpecialize plt (maps, p)).2.slot = Process.forked.slot ∧
      (postAppSpecialize plt (maps, p)).2.dlcloseModuleLibrary = p.dlcloseModuleLibrary := by
  cases h with
  | none slot oldUnshare oldSetresuid =>
    simp only [postAppSpecialize, oldUnshare, oldSetresuid]
    exact ⟨slot, trivial⟩
  | unshareOnly map found slot oldUnshare oldSetresuid pending =>
    have hold : (p.applyHook (setresuidHook map)).oldSetresuid =
        some (.original setresuidSymbol) := by
      have hslot : p.slot map.device map.inode setresuidSymbol = .original setresuidSymbol := by
        simp only [slot, install, applyHook_slot, unshareHook, symbols_ne.symm, and_false, if_false]
        rfl
      exact congrArg some hslot
    have hpost : postAppSpecialize plt (maps, p) = (maps,
        install (install (p.applyHook (setresuidHook map)) (restoreHook map unshareSymbol))
          (restoreHook map setresuidSymbol)) := by
      simp only [postAppSpecialize, oldUnshare, hu, hr, cachedHookPLTByName_restore found, pending,
        List.foldl_cons, List.foldl_nil]
      rw [show (install (p.applyHook (setresuidHook map))
        (restoreHook map unshareSymbol)).oldSetresuid = _ from hold]
      exact cachedHookPLTByName_restore found _ _ _ _
    rw [hpost]
    refine ⟨slot_restored ?_, rfl⟩
    intro dev inode symbol hnu hnr
    simp only [applyHook_slot, setresuidHook, hnr, if_false, slot, install, unshareHook, hnu]
    rfl
  | both map found slot oldUnshare oldSetresuid pending =>
    have hpost : postAppSpecialize plt (maps, p) = (maps,
        install (install p (restoreHook map unshareSymbol)) (restoreHook map setresuidSymbol)) := by
      simp only [postAppSpecialize, oldUnshare, hu, hr, cachedHookPLTByName_restore found, pending,
        List.foldl_nil]
      rw [show (install p (restoreHook map unshareSymbol)).oldSetresuid = _ from oldSetresuid]
      exact cachedHookPLTByName_restore found _ _ _ _
    rw [hpost]
    refine ⟨slot_restored ?_, rfl⟩
    intro dev inode symbol hnu hnr
    simp only [slot, bothHooked, install, applyHook_slot, unshareHook, setresuidHook, hnu, hnr,
      if_false]
    rfl

theorem cachedPreAppSpecialize_hookState (plt : PltEnv) (env : AppEnv) :
    ∃ maps p, cachedPreAppSpecialize plt env ([], .forked) = (maps, p) ∧ HookState maps p ∧
      p.dlcloseModuleLibrary = true := by
  cases hskip : skipsProcess env with
  | true =>
    refine ⟨[], optionSet, ?_, .none rfl rfl rfl, rfl⟩
    rw [cachedPreAppSpecialize, hskip]
    rfl
  | false =>
    obtain ⟨hstate, hopt⟩ := preAppSpecialize_hookState
      { env with maps := parseSelfMaps plt.abi true plt.preUnshareMaps [] }
    exact ⟨_, _, cachedPreAppSpecialize_eq plt env [] .forked hskip, hstate, hopt⟩

/-- For all maps, all lookups and commits of `preAppSpecialize` and all calls of the runtime, if
the commits of `postAppSpecialize` succeed, it ends with no slot that leads into the module. -/
theorem specialization_restores {plt : PltEnv} (hu : plt.postUnshareCommit = true)
    (hr : plt.postSetresuidCommit = true) (env : AppEnv) (cb : CallbackEnv) (calls : List Call) :
    ∃ p, specialization plt env cb calls = some p ∧ p.dlcloseModuleLibrary = true ∧
      ∀ dev inode symbol, p.slot dev inode symbol = .original symbol := by
  obtain ⟨maps, p, hpre, hstate, hopt⟩ := cachedPreAppSpecialize_hookState plt env
  have hclean := zygoteCleanup_keeps env p
  have hstart := hstate.congr hclean
  obtain ⟨t, hrun, hkeep⟩ := run_keeps cb calls (s := ([], zygoteCleanup env p)) hstart.callable
  obtain ⟨hslot, hdl⟩ := postAppSpecialize_restores hu hr (hstart.congr hkeep)
  refine ⟨(postAppSpecialize plt (maps, t.2)).2, ?_, ?_, ?_⟩
  · simp only [specialization, hpre, hrun, Option.bind_eq_bind, Option.bind_some, Option.pure_def]
  · rw [hdl, hkeep.dlclose, hclean.dlclose, hopt]
  · intro dev inode symbol
    rw [hslot]
    rfl

def samplePlt : PltEnv where
  abi := .arm64V8a
  preUnshareMaps :=
    some "7a00000000-7a00010000 r--p 00000000 fd:00 1234    /system/lib64/libandroid_runtime.so\n".toList
  preSetresuidMaps := none
  postUnshareMaps := none
  postSetresuidMaps := none
  postUnshareCommit := true
  postSetresuidCommit := true

/-- The second commit fails, and its registration is applied by the first restoring one. -/
theorem specialization_restores_pending :
    ∃ p, specialization samplePlt { sampleApp with setresuidCommit := false } sampleEnv
        [.unshare cloneNewns true] = some p ∧ p.dlcloseModuleLibrary = true ∧
      ∀ dev inode symbol, p.slot dev inode symbol = .original symbol :=
  specialization_restores rfl rfl { sampleApp with setresuidCommit := false } sampleEnv
    [.unshare cloneNewns true]

end ZygiskAssistant.Zygisk
