import Mathlib.Data.List.Count
import ZygiskAssistant.Zygisk.Module

/-!
# The hiding callback runs once, and first

One equation for each party: what the callback body does, what a call does
while the callback is armed, and what it does once the callback is spent. The
trace of a whole run is then the trace of the body followed by the forwarded
calls.
-/

namespace ZygiskAssistant.Zygisk

/-- `preAppSpecialize` accepts the process and both hooks are installed. -/
structure Installed (app : AppEnv) : Prop where
  accepted : skipsProcess app = false
  found : (findLibrary app.maps libandroidRuntime).isSome = true
  unshareCommit : app.unshareCommit = true
  setresuidCommit : app.setresuidCommit = true

instance (app : AppEnv) : Decidable (Installed app) :=
  decidable_of_iff (skipsProcess app = false ∧
      (findLibrary app.maps libandroidRuntime).isSome = true ∧
      app.unshareCommit = true ∧ app.setresuidCommit = true)
    ⟨fun ⟨h₁, h₂, h₃, h₄⟩ => ⟨h₁, h₂, h₃, h₄⟩,
      fun h => ⟨h.accepted, h.found, h.unshareCommit, h.setresuidCommit⟩⟩

/-- Both slots lead into the module, and both `old_*` pointers lead out of it. -/
structure Hooked (maps : List MapEntry) (p : Process) : Prop where
  unshareSlot : runtimeSlot maps unshareSymbol p = .newUnshare
  setresuidSlot : runtimeSlot maps setresuidSymbol p = .newSetresuid
  oldUnshare : p.oldUnshare = some (.original unshareSymbol)
  oldSetresuid : p.oldSetresuid = some (.original setresuidSymbol)

theorem Hooked.congr {maps : List MapEntry} {p q : Process} (h : Hooked maps p)
    (hs : q.slot = p.slot) (hu : q.oldUnshare = p.oldUnshare)
    (hr : q.oldSetresuid = p.oldSetresuid) : Hooked maps q := by
  have hslot : ∀ symbol, runtimeSlot maps symbol q = runtimeSlot maps symbol p := by
    intro symbol
    unfold runtimeSlot
    rw [hs]
  exact ⟨(hslot _).trans h.unshareSlot, (hslot _).trans h.setresuidSlot, hu.trans h.oldUnshare,
    hr.trans h.oldSetresuid⟩

theorem Hooked.log {maps : List MapEntry} {p : Process} (h : Hooked maps p) (es : List Event) :
    Hooked maps (p.log es) := h.congr rfl rfl rfl

def install (p : Process) (h : PltHook) : Process := { p.applyHook h with pending := [] }

theorem applyHook_withPending (p : Process) (pending : List PltHook) (h : PltHook) :
    ({ p with pending := pending } : Process).applyHook h =
      { p.applyHook h with pending := pending } := by
  obtain ⟨dev, inode, symbol, newFunc, oldFunc⟩ := h
  rcases oldFunc with _ | _ | _ <;> rfl

theorem foldl_applyHook_withPending (p : Process) (pending hooks : List PltHook) :
    hooks.foldl Process.applyHook { p with pending := pending } =
      { hooks.foldl Process.applyHook p with pending := pending } := by
  induction hooks generalizing p with
  | nil => rfl
  | cons h hs ih => rw [List.foldl_cons, applyHook_withPending, ih, List.foldl_cons]

/-- A commit right after a registration applies what was pending, and then the new hook. -/
theorem pltHookCommit_registered (p : Process) (h : PltHook) :
    (p.pltHookRegister h).pltHookCommit true =
      (true, install (p.pending.foldl Process.applyHook p) h) := by
  simp only [Process.pltHookCommit, Process.pltHookRegister, if_true, foldl_applyHook_withPending,
    List.foldl_append, List.foldl_cons, List.foldl_nil, applyHook_withPending, install]

theorem pltHookCommit_register {p : Process} (hp : p.pending = []) (h : PltHook) :
    (p.pltHookRegister h).pltHookCommit true = (true, install p h) := by
  rw [pltHookCommit_registered, hp, List.foldl_nil]

theorem hookPLTByName_found {maps : List MapEntry} {libName : Str} {map : MapEntry}
    (hmap : findLibrary maps libName = some map) (commitOk : Bool) (symbolName : Str)
    (hookFunction : FuncPtr) (originalFunction : Option OldFunc) (p : Process) :
    hookPLTByName maps commitOk libName symbolName hookFunction originalFunction p =
      (p.pltHookRegister ⟨map.device, map.inode, symbolName, hookFunction,
        originalFunction⟩).pltHookCommit commitOk := by
  simp [hookPLTByName, Utils.hookPLTByName, hmap]

def unshareHook (map : MapEntry) : PltHook :=
  ⟨map.device, map.inode, unshareSymbol, .newUnshare, some .oldUnshare⟩

def setresuidHook (map : MapEntry) : PltHook :=
  ⟨map.device, map.inode, setresuidSymbol, .newSetresuid, some .oldSetresuid⟩

def optionSet : Process := { Process.forked with dlcloseModuleLibrary := true }

def bothHooked (map : MapEntry) : Process :=
  install (install optionSet (unshareHook map)) (setresuidHook map)

theorem hookPLTByName_install {maps : List MapEntry} {libName : Str} {map : MapEntry}
    (hmap : findLibrary maps libName = some map) {p : Process} (hp : p.pending = [])
    (symbolName : Str) (hookFunction : FuncPtr) (originalFunction : Option OldFunc) :
    hookPLTByName maps true libName symbolName hookFunction originalFunction p =
      (true, install p ⟨map.device, map.inode, symbolName, hookFunction, originalFunction⟩) := by
  rw [hookPLTByName_found hmap]
  exact pltHookCommit_register hp _

theorem preAppSpecialize_unshared {app : AppEnv} (haccepted : skipsProcess app = false)
    (hcommit : app.unshareCommit = true) {map : MapEntry}
    (hmap : findLibrary app.maps libandroidRuntime = some map) :
    preAppSpecialize app .forked =
      let (hooked, p) := hookPLTByName app.maps app.setresuidCommit libandroidRuntime
        setresuidSymbol .newSetresuid (some .oldSetresuid) (install optionSet (unshareHook map))
      if !hooked then p else { p with callbackFunction := .hide app.connectCompanion } := by
  have hfirst : hookPLTByName app.maps true libandroidRuntime unshareSymbol .newUnshare
      (some .oldUnshare) optionSet = (true, install optionSet (unshareHook map)) :=
    hookPLTByName_install hmap rfl _ _ _
  rw [preAppSpecialize, haccepted, hcommit,
    show ({ Process.forked with dlcloseModuleLibrary := true } : Process) = optionSet from rfl, hfirst]
  rfl

theorem preAppSpecialize_unshareOnly {app : AppEnv} (haccepted : skipsProcess app = false)
    (hcommit : app.unshareCommit = true) (hfail : app.setresuidCommit = false) {map : MapEntry}
    (hmap : findLibrary app.maps libandroidRuntime = some map) :
    preAppSpecialize app .forked =
      (install optionSet (unshareHook map)).pltHookRegister (setresuidHook map) := by
  rw [preAppSpecialize_unshared haccepted hcommit hmap, hfail, hookPLTByName_found hmap]
  rfl

theorem preAppSpecialize_installed {app : AppEnv} (h : Installed app) {map : MapEntry}
    (hmap : findLibrary app.maps libandroidRuntime = some map) :
    preAppSpecialize app .forked =
      { bothHooked map with callbackFunction := .hide app.connectCompanion } := by
  rw [preAppSpecialize_unshared h.accepted h.unshareCommit hmap, h.setresuidCommit,
    hookPLTByName_install hmap rfl]
  rfl

theorem symbols_ne : unshareSymbol ≠ setresuidSymbol := by decide

theorem bothHooked_hooked {maps : List MapEntry} {map : MapEntry}
    (hmap : findLibrary maps libandroidRuntime = some map) : Hooked maps (bothHooked map) where
  unshareSlot := by
    simp only [runtimeSlot, hmap, bothHooked, install, Process.applyHook, Process.setSlot,
      Process.setOld, unshareHook, setresuidHook, symbols_ne, and_false, and_self, if_true, if_false]
  setresuidSlot := by
    simp only [runtimeSlot, hmap, bothHooked, install, Process.applyHook, Process.setSlot,
      setresuidHook, and_self, if_true]
  oldUnshare := rfl
  oldSetresuid := by
    simp only [bothHooked, install, Process.applyHook, Process.setSlot, Process.setOld, unshareHook,
      setresuidHook, symbols_ne.symm, and_false, if_false]
    rfl

def cleanupEvents (app : AppEnv) : List Event :=
  if app.connectCompanion != -1 && closedEarly app then [.zygoteClose app.connectCompanion] else []

theorem zygoteCleanup_hide {app : AppEnv} {p : Process}
    (h : p.callbackFunction = .hide app.connectCompanion) :
    zygoteCleanup app p = p.log (cleanupEvents app) := by
  simp only [zygoteCleanup, h, cleanupEvents]
  split <;> simp

theorem specialized_installed {app : AppEnv} (h : Installed app) :
    Hooked app.maps (specialized app) ∧
      (specialized app).callbackFunction = .hide app.connectCompanion ∧
      (specialized app).trace = cleanupEvents app ∧ (specialized app).mountNs = 0 := by
  obtain ⟨map, hmap⟩ := Option.isSome_iff_exists.mp h.found
  have heq : specialized app =
      ({ bothHooked map with callbackFunction := .hide app.connectCompanion } : Process).log
        (cleanupEvents app) := by
    rw [specialized, preAppSpecialize_installed h hmap]
    exact zygoteCleanup_hide rfl
  rw [heq]
  exact ⟨(bothHooked_hooked hmap).congr rfl rfl rfl, rfl, rfl, rfl⟩

def newMountNsOk (env : CallbackEnv) : Bool := env.unshareOk && env.slaveOk

def hidingEvents (env : CallbackEnv) (fd : Int) : List Event :=
  (companionExchange env fd).2 ++ (if (companionExchange env fd).1 then [] else [.doUnmount]) ++
    [.doHideZygisk]

def newMountNsEvents (env : CallbackEnv) : List Event :=
  .unshare cloneNewns (retOf env.unshareOk) ::
    if env.unshareOk then [.mountSlave (retOf env.slaveOk)] else []

def bodyEvents (env : CallbackEnv) (fd : Int) : List Event :=
  .callbackBody :: newMountNsEvents env ++
    (if newMountNsOk env then hidingEvents env fd else []) ++
    (scopedRegularReopener env.openFds).map Event.reopen

def spend (env : CallbackEnv) (fd : Int) (p : Process) : Process :=
  { p.log (bodyEvents env fd) with
    callbackFunction := .idle
    mountNs := if env.unshareOk then p.mountNs + 1 else p.mountNs }

theorem retOf_ne (ok : Bool) : (retOf ok != -1) = ok := by cases ok <;> rfl

theorem newMountNs_eq (env : CallbackEnv) {p : Process} {symbol : Str}
    (h : p.oldUnshare = some (.original symbol)) :
    newMountNs env p = some (newMountNsOk env, { p.log (newMountNsEvents env) with
      mountNs := if env.unshareOk then p.mountNs + 1 else p.mountNs }) := by
  have hflag : (cloneNewns &&& cloneNewns != 0#32) = true := by decide
  simp only [newMountNs, callOldUnshare, h, sysUnshare, Option.bind_eq_bind, Option.bind_some,
    retOf_ne, hflag, Bool.and_true]
  unfold newMountNsOk newMountNsEvents
  cases env.unshareOk <;> cases env.slaveOk <;> simp [Process.log]

theorem callbackBody_eq (env : CallbackEnv) (fd : Int) {p : Process} {symbol : Str}
    (h : p.oldUnshare = some (.original symbol)) :
    callbackBody env fd p = some (spend env fd p) := by
  have hns := newMountNs_eq env (p := { p.log [.callbackBody] with callbackFunction := .idle }) h
  simp only [callbackBody, hns, Option.bind_eq_bind, Option.bind_some]
  unfold spend bodyEvents hidingEvents
  cases newMountNsOk env with
  | false => simp [Process.log]
  | true => cases (companionExchange env fd).1 <;> simp [Process.log]

/-- What a call makes of itself, apart from the callback. -/
def forwarded : Call → List Event
  | .unshare flags ok =>
    if flags &&& ~~~cloneNewns == 0#32 then [] else [.unshare (flags &&& ~~~cloneNewns) (retOf ok)]
  | .setresuid ruid euid suid ok => [.setresuid ruid euid suid (retOf ok)]

def answer : Call → Int
  | .unshare flags ok => if flags &&& ~~~cloneNewns == 0#32 then 0 else retOf ok
  | .setresuid _ _ _ ok => retOf ok

theorem stripped_newns (flags : BitVec 32) :
    (flags &&& ~~~cloneNewns &&& cloneNewns != 0#32) = false := by
  have h : flags &&& ~~~cloneNewns &&& cloneNewns = 0#32 := by
    rw [BitVec.and_assoc]
    simp
  rw [h]
  rfl

theorem runtimeCall_hooked {maps : List MapEntry} {env : CallbackEnv} {p q : Process}
    (h : Hooked maps p) (hcb : invokeCallback env p = some q)
    (hu : q.oldUnshare = p.oldUnshare) (hr : q.oldSetresuid = p.oldSetresuid) (c : Call) :
    runtimeCall maps env p c = some (answer c, q.log (forwarded c)) := by
  cases c with
  | unshare flags ok =>
    simp only [runtimeCall, h.unshareSlot, newUnshare, hcb, Option.bind_eq_bind, Option.bind_some]
    unfold answer forwarded
    split
    · rename_i hz
      simp only [hz, if_true, Process.log_nil, Option.pure_def]
    · rename_i hz
      simp only [hz, callOldUnshare, hu, h.oldUnshare, sysUnshare, stripped_newns,
        Bool.and_false]
      rfl
  | setresuid ruid euid suid ok =>
    simp only [runtimeCall, h.setresuidSlot, newSetresuid, hcb, Option.bind_eq_bind,
      Option.bind_some, callOldSetresuid, hr, h.oldSetresuid, sysSetresuid, answer, forwarded]

theorem invokeCallback_idle {env : CallbackEnv} {p : Process} (h : p.callbackFunction = .idle) :
    invokeCallback env p = some p := by
  simp [invokeCallback, h]

theorem invokeCallback_hide {env : CallbackEnv} {p : Process} {fd : Int} {symbol : Str}
    (h : p.callbackFunction = .hide fd) (ho : p.oldUnshare = some (.original symbol)) :
    invokeCallback env p = some (spend env fd p) := by
  simp [invokeCallback, h, callbackBody_eq env fd ho]

theorem run_spent {maps : List MapEntry} {env : CallbackEnv} {p : Process} (h : Hooked maps p)
    (hcb : p.callbackFunction = .idle) (calls : List Call) (rets : List Int) :
    LabelledRun.run (callStep maps env) (rets, p) calls =
      some (rets ++ calls.map answer, p.log (calls.flatMap forwarded)) := by
  induction calls generalizing rets p with
  | nil => simp
  | cons c cs ih =>
    have hstep : callStep maps env (rets, p) c = some (rets ++ [answer c], p.log (forwarded c)) := by
      simp only [callStep, runtimeCall_hooked h (invokeCallback_idle hcb) rfl rfl c,
        Option.bind_eq_bind, Option.bind_some, Option.pure_def]
    rw [LabelledRun.run_cons, hstep, Option.bind_some, ih (h.log _) hcb]
    simp

theorem run_armed {maps : List MapEntry} {env : CallbackEnv} {p : Process} {fd : Int}
    (h : Hooked maps p) (hcb : p.callbackFunction = .hide fd) {calls : List Call} (hne : calls ≠ []) :
    LabelledRun.run (callStep maps env) ([], p) calls =
      some (calls.map answer, (spend env fd p).log (calls.flatMap forwarded)) := by
  obtain ⟨c, cs, rfl⟩ := List.exists_cons_of_ne_nil hne
  have hh : Hooked maps ((spend env fd p).log (forwarded c)) := h.congr rfl rfl rfl
  have hstep : callStep maps env ([], p) c =
      some ([answer c], (spend env fd p).log (forwarded c)) := by
    simp only [callStep, runtimeCall_hooked h (invokeCallback_hide hcb h.oldUnshare) rfl rfl c,
      Option.bind_eq_bind, Option.bind_some, Option.pure_def, List.nil_append]
  rw [LabelledRun.run_cons, hstep, Option.bind_some, run_spent hh rfl]
  simp

def runEvents (app : AppEnv) (env : CallbackEnv) (calls : List Call) : List Event :=
  (if calls = [] then [] else bodyEvents env app.connectCompanion) ++ calls.flatMap forwarded

theorem appRun_installed {app : AppEnv} (h : Installed app) (env : CallbackEnv)
    (calls : List Call) : ∃ p, appRun app env calls = some (calls.map answer, p) ∧
      Hooked app.maps p ∧ p.trace = cleanupEvents app ++ runEvents app env calls ∧
      p.mountNs = (if calls ≠ [] ∧ env.unshareOk = true then 1 else 0) ∧
      p.callbackFunction = (if calls = [] then .hide app.connectCompanion else .idle) := by
  obtain ⟨hh, hcb, ht, hns⟩ := specialized_installed h
  unfold appRun runEvents
  by_cases hne : calls = []
  · subst hne
    exact ⟨specialized app, rfl, hh, by simp [ht], by simp [hns], by simp [hcb]⟩
  · refine ⟨_, run_armed hh hcb hne, hh.congr rfl rfl rfl, ?_, ?_, ?_⟩
    · simp [spend, Process.log, ht, hne]
    · simp [spend, Process.log, hns, hne]
    · simp [spend, Process.log, hne]

def Event.isKernelCall : Event → Bool
  | .unshare _ _ => true
  | .setresuid _ _ _ _ => true
  | _ => false

def Event.isNewns : Event → Bool
  | .unshare flags _ => flags &&& cloneNewns != 0#32
  | _ => false

theorem cleanupEvents_none {app : AppEnv} {e : Event} (he : e ∈ cleanupEvents app) :
    ∃ fd, e = .zygoteClose fd := by
  unfold cleanupEvents at he
  split at he
  · exact ⟨_, List.mem_singleton.mp he⟩
  · cases he

theorem companionExchange_cases {env : CallbackEnv} {fd : Int} {e : Event}
    (he : e ∈ (companionExchange env fd).2) :
    (∃ ret, e = .write (env.readFd .write fd) ret) ∨
      (∃ ret, e = .read (env.readFd .read fd) ret) ∨ e = .close (env.readFd .close fd) := by
  unfold companionExchange at he
  split at he
  · split at he
    · simp only [List.mem_cons, List.not_mem_nil, or_false] at he
      rcases he with rfl | rfl | rfl
      · exact Or.inl ⟨_, rfl⟩
      · exact Or.inr (Or.inl ⟨_, rfl⟩)
      · exact Or.inr (Or.inr rfl)
    · simp only [List.mem_cons, List.not_mem_nil, or_false] at he
      rcases he with rfl | rfl
      · exact Or.inl ⟨_, rfl⟩
      · exact Or.inr (Or.inr rfl)
  · cases he

theorem hidingEvents_cases {env : CallbackEnv} {fd : Int} {e : Event}
    (he : e ∈ hidingEvents env fd) :
    (∃ ret, e = .write (env.readFd .write fd) ret) ∨
      (∃ ret, e = .read (env.readFd .read fd) ret) ∨ e = .close (env.readFd .close fd) ∨
      e = .doUnmount ∨ e = .doHideZygisk := by
  unfold hidingEvents at he
  rcases List.mem_append.mp he with he | he
  · rcases List.mem_append.mp he with he | he
    · rcases companionExchange_cases he with h | h | h
      · exact Or.inl h
      · exact Or.inr (Or.inl h)
      · exact Or.inr (Or.inr (Or.inl h))
    · split at he
      · cases he
      · exact Or.inr (Or.inr (Or.inr (Or.inl (List.mem_singleton.mp he))))
  · exact Or.inr (Or.inr (Or.inr (Or.inr (List.mem_singleton.mp he))))

theorem forwarded_cases {calls : List Call} {e : Event} (he : e ∈ calls.flatMap forwarded) :
    (∃ flags ret, e = .unshare (flags &&& ~~~cloneNewns) ret) ∨
      ∃ ruid euid suid ret, e = .setresuid ruid euid suid ret := by
  obtain ⟨c, _, hc⟩ := List.mem_flatMap.mp he
  cases c with
  | unshare flags ok =>
    simp only [forwarded] at hc
    split at hc
    · cases hc
    · exact Or.inl ⟨flags, _, List.mem_singleton.mp hc⟩
  | setresuid ruid euid suid ok =>
    simp only [forwarded] at hc
    exact Or.inr ⟨ruid, euid, suid, _, List.mem_singleton.mp hc⟩

/-- The body after its first event: its one `unshare`, then events that are no kernel calls. -/
theorem bodyEvents_eq (env : CallbackEnv) (fd : Int) : ∃ rest,
    bodyEvents env fd = .callbackBody :: .unshare cloneNewns (retOf env.unshareOk) :: rest ∧
      ∀ e ∈ rest, e.isKernelCall = false ∧ e ≠ .callbackBody := by
  refine ⟨(if env.unshareOk then [.mountSlave (retOf env.slaveOk)] else []) ++
      (if newMountNsOk env then hidingEvents env fd else []) ++
      (scopedRegularReopener env.openFds).map Event.reopen, rfl, ?_⟩
  intro e he
  rcases List.mem_append.mp he with he | he
  · rcases List.mem_append.mp he with he | he
    · split at he
      · obtain rfl := List.mem_singleton.mp he
        exact ⟨rfl, by simp⟩
      · cases he
    · split at he
      · rcases hidingEvents_cases he with ⟨_, rfl⟩ | ⟨_, rfl⟩ | rfl | rfl | rfl <;>
          exact ⟨rfl, by simp⟩
      · cases he
  · obtain ⟨_, _, rfl⟩ := List.mem_map.mp he
    exact ⟨rfl, by simp⟩

/-- An element without the property stands before every element that has it, if none
before it does. -/
theorem mem_before {α : Type} {P : α → Prop} {l r before after : List α} {x e : α}
    (h : l ++ x :: r = before ++ e :: after) (hl : ∀ y ∈ l, ¬ P y) (hx : ¬ P x) (he : P e) :
    x ∈ before := by
  rcases List.append_eq_append_iff.mp h with ⟨mid, rfl, hm⟩ | ⟨mid, rfl, hm⟩
  · cases mid with
    | nil =>
      obtain ⟨rfl, _⟩ := List.cons.inj hm
      exact absurd he hx
    | cons y mid =>
      obtain ⟨rfl, _⟩ := List.cons.inj hm
      simp
  · cases mid with
    | nil =>
      obtain ⟨rfl, _⟩ := List.cons.inj hm
      exact absurd he hx
    | cons y mid =>
      obtain ⟨rfl, _⟩ := List.cons.inj hm
      exact absurd he (hl e (by simp))

theorem callbackBody_first {app : AppEnv} {env : CallbackEnv} {calls : List Call}
    {before after : List Event} {e : Event}
    (h : cleanupEvents app ++ runEvents app env calls = before ++ e :: after)
    (he : e.isKernelCall = true) : .callbackBody ∈ before := by
  have hclean : ∀ f ∈ cleanupEvents app, ¬ f.isKernelCall = true := by
    intro f hf
    obtain ⟨fd, rfl⟩ := cleanupEvents_none hf
    simp [Event.isKernelCall]
  obtain ⟨rest, hbody, _⟩ := bodyEvents_eq env app.connectCompanion
  unfold runEvents at h
  by_cases hne : calls = []
  · subst hne
    simp only [if_true, List.flatMap_nil, List.append_nil] at h
    exact absurd he (hclean e (h ▸ by simp))
  · rw [if_neg hne, hbody, List.cons_append] at h
    exact mem_before h hclean (by simp [Event.isKernelCall]) he

theorem count_callbackBody (app : AppEnv) (env : CallbackEnv) (calls : List Call) :
    (cleanupEvents app ++ runEvents app env calls).count .callbackBody =
      if calls = [] then 0 else 1 := by
  have hclean : (cleanupEvents app).count .callbackBody = 0 := by
    rw [List.count_eq_zero]
    intro hm
    obtain ⟨fd, hfd⟩ := cleanupEvents_none hm
    cases hfd
  have hfwd : (calls.flatMap forwarded).count .callbackBody = 0 := by
    rw [List.count_eq_zero]
    intro hm
    rcases forwarded_cases hm with ⟨_, _, hc⟩ | ⟨_, _, _, _, hc⟩ <;> cases hc
  obtain ⟨rest, hbody, hrest⟩ := bodyEvents_eq env app.connectCompanion
  have hzero : rest.count .callbackBody = 0 :=
    List.count_eq_zero.mpr fun hm => (hrest _ hm).2 rfl
  unfold runEvents
  rw [List.count_append, List.count_append, hclean, hfwd, hbody]
  split <;> simp [hzero]

theorem filter_isNewns (app : AppEnv) (env : CallbackEnv) (calls : List Call) :
    (cleanupEvents app ++ runEvents app env calls).filter Event.isNewns =
      if calls = [] then [] else [.unshare cloneNewns (retOf env.unshareOk)] := by
  have hclean : (cleanupEvents app).filter Event.isNewns = [] := by
    rw [List.filter_eq_nil_iff]
    intro e he
    obtain ⟨fd, rfl⟩ := cleanupEvents_none he
    simp [Event.isNewns]
  have hfwd : (calls.flatMap forwarded).filter Event.isNewns = [] := by
    rw [List.filter_eq_nil_iff]
    intro e he
    rcases forwarded_cases he with ⟨flags, _, rfl⟩ | ⟨_, _, _, _, rfl⟩
    · simp only [Event.isNewns, stripped_newns, Bool.false_eq_true, not_false_eq_true]
    · simp [Event.isNewns]
  obtain ⟨rest, hbody, hrest⟩ := bodyEvents_eq env app.connectCompanion
  have hzero : rest.filter Event.isNewns = [] := by
    rw [List.filter_eq_nil_iff]
    intro e he
    have hk := (hrest e he).1
    cases e <;> simp_all [Event.isNewns, Event.isKernelCall]
  have hone : Event.isNewns (.unshare cloneNewns (retOf env.unshareOk)) = true := by
    simp only [Event.isNewns]
    decide
  unfold runEvents
  rw [List.filter_append, List.filter_append, hclean, hfwd, hbody]
  split
  · rfl
  · rw [List.filter_cons_of_neg (by simp [Event.isNewns]), List.filter_cons_of_pos hone, hzero]
    rfl

/-- In every run of an accepted and hooked process the body runs at most once and as soon
as there is a hooked call, before any kernel call; the kernel sees `CLONE_NEWNS` in the
body's `unshare` only; and the calls are forwarded and answered as `forwarded` and `answer` say. -/
theorem callback_runs_once {app : AppEnv} (h : Installed app) (env : CallbackEnv)
    (calls : List Call) : ∃ p, appRun app env calls = some (calls.map answer, p) ∧
      p.trace.count .callbackBody = (if calls = [] then 0 else 1) ∧
      (∀ before e after, p.trace = before ++ e :: after → e.isKernelCall = true →
        .callbackBody ∈ before) ∧
      p.trace.filter Event.isNewns =
        (if calls = [] then [] else [.unshare cloneNewns (retOf env.unshareOk)]) ∧
      p.trace = cleanupEvents app ++ (if calls = [] then [] else bodyEvents env app.connectCompanion) ++
        calls.flatMap forwarded := by
  obtain ⟨p, hrun, _, ht, _, _⟩ := appRun_installed h env calls
  refine ⟨p, hrun, ?_, ?_, ?_, ?_⟩
  · rw [ht, count_callbackBody]
  · intro before e after hb he
    rw [ht] at hb
    exact callbackBody_first hb he
  · rw [ht, filter_isNewns]
  · rw [ht, runEvents, List.append_assoc]

def sampleApp : AppEnv where
  flags := processOnDenylist
  uid := 10123
  maps := [⟨0x7000, 0x8000, 0, "r-xp".toList, "/system/lib64/libandroid_runtime.so".toList, 7, 42⟩]
  unshareCommit := true
  setresuidCommit := true
  connectCompanion := 9
  exemptFd := true
  closesFd := false

def sampleEnv : CallbackEnv where
  unshareOk := true
  slaveOk := true
  writeRet := 4
  readRet := 1
  readByte := true
  openFds := some [some ⟨5, false, "/dev/null".toList⟩]
  readFd _ fd := fd

theorem callback_runs_once_sample : ∃ p,
    appRun sampleApp sampleEnv [.unshare cloneNewns true, .setresuid 1 1 1 true] =
      some ([.unshare cloneNewns true, .setresuid 1 1 1 true].map answer, p) ∧
      p.trace.count .callbackBody = 1 ∧
      (∀ before e after, p.trace = before ++ e :: after → e.isKernelCall = true →
        .callbackBody ∈ before) ∧
      p.trace.filter Event.isNewns = [.unshare cloneNewns (retOf sampleEnv.unshareOk)] ∧
      p.trace = cleanupEvents sampleApp ++ bodyEvents sampleEnv sampleApp.connectCompanion ++
        [Call.unshare cloneNewns true, .setresuid 1 1 1 true].flatMap forwarded :=
  callback_runs_once (by decide) sampleEnv [.unshare cloneNewns true, .setresuid 1 1 1 true]

end ZygiskAssistant.Zygisk
