import ZygiskAssistant.Zygisk.PltRestore
import ZygiskAssistant.Zygisk.UnshareHook

/-!
# The whole life of an app process

`preAppSpecialize` decides between three ways: nothing is hooked, `unshare` is
hooked but `setresuid` is not, or both are. The kernel then sees the calls of the
runtime as they are, the calls without `CLONE_NEWNS`, or these behind the hiding
callback; and after `postAppSpecialize` it sees every call as it is.
-/

namespace ZygiskAssistant.Zygisk

open LabelledRun Parsers

/-- How the calls of the runtime are treated. -/
inductive Mode
  | transparent
  | stripping
  | hiding
deriving DecidableEq

def mode (app : AppEnv) : Mode :=
  if skipsProcess app || (findLibrary app.maps libandroidRuntime).isNone || !app.unshareCommit then
    .transparent
  else if app.setresuidCommit then .hiding
  else .stripping

/-- A call that is not hooked. -/
def verbatim : Call → List Event
  | .unshare flags ok => [.unshare flags (retOf ok)]
  | .setresuid ruid euid suid ok => [.setresuid ruid euid suid (retOf ok)]

def verdict : Call → Int
  | .unshare _ ok => retOf ok
  | .setresuid _ _ _ ok => retOf ok

def Mode.events : Mode → Call → List Event
  | .transparent => verbatim
  | .stripping => forwarded
  | .hiding => forwarded

def Mode.answer : Mode → Call → Int
  | .transparent => verdict
  | .stripping => Zygisk.answer
  | .hiding => Zygisk.answer

/-- What happens besides the calls of the runtime. -/
def ownEvents (app : AppEnv) (cb : CallbackEnv) (calls : List Call) : List Event :=
  match mode app with
  | .hiding => cleanupEvents app ++ if calls = [] then [] else bodyEvents cb app.connectCompanion
  | _ => []

/-- The app with the maps that its first lookup reads. -/
def AppEnv.reading (app : AppEnv) (plt : PltEnv) : AppEnv :=
  { app with maps := parseSelfMaps plt.abi true plt.preUnshareMaps [] }

/-- An app process from its fork to its end, with the calls before and after its
`postAppSpecialize`. -/
def lifecycle (plt : PltEnv) (app : AppEnv) (cb : CallbackEnv) (calls later : List Call) :
    Option (List Int × Process) := do
  let (maps, p) := cachedPreAppSpecialize plt app ([], .forked)
  let (rets, p) ← run (callStep maps cb) ([], zygoteCleanup app p) calls
  let (maps, p) := postAppSpecialize plt (maps, p)
  run (callStep maps cb) (rets, p) later

def Event.entersNs : Event → Bool
  | .unshare flags ret => ret == 0 && flags &&& cloneNewns != 0#32
  | _ => false

def Counted (p : Process) : Prop := p.mountNs = p.trace.countP Event.entersNs

theorem Counted.log {p : Process} (h : Counted p) {es : List Event}
    (hes : es.countP Event.entersNs = 0) : Counted (p.log es) := by
  unfold Counted
  rw [Process.log_trace, List.countP_append, hes]
  exact h

theorem sysUnshare_counted {p : Process} (h : Counted p) (flags : BitVec 32) (ok : Bool) :
    Counted (sysUnshare flags ok p).2 := by
  unfold Counted at h ⊢
  unfold sysUnshare
  dsimp only
  rw [Process.log_trace, List.countP_append, ← h, List.countP_singleton]
  cases ok with
  | false => rfl
  | true =>
    simp only [Bool.true_and, Event.entersNs, retOf]
    split <;> simp_all

theorem callOldUnshare_counted {p q : Process} (h : Counted p) {flags : BitVec 32} {ok : Bool}
    {ret : Int} (hq : callOldUnshare flags ok p = some (ret, q)) : Counted q := by
  unfold callOldUnshare at hq
  split at hq
  · have hc := sysUnshare_counted h flags ok
    rwa [Option.some.inj hq] at hc
  · cases hq

theorem newMountNs_counted {env : CallbackEnv} {p q : Process} (h : Counted p) {entered : Bool}
    (hq : newMountNs env p = some (entered, q)) : Counted q := by
  obtain ⟨⟨ret, r⟩, hr, hrest⟩ := Option.bind_eq_some_iff.mp hq
  have hc := callOldUnshare_counted h hr
  dsimp only at hrest
  split at hrest
  · split at hrest
    · obtain ⟨_, rfl⟩ := Prod.mk.inj (Option.some.inj hrest)
      exact hc.log rfl
    · obtain ⟨_, rfl⟩ := Prod.mk.inj (Option.some.inj hrest)
      exact hc.log rfl
  · obtain ⟨_, rfl⟩ := Prod.mk.inj (Option.some.inj hrest)
    exact hc

theorem companionExchange_enters (env : CallbackEnv) (fd : Int) :
    (companionExchange env fd).2.countP Event.entersNs = 0 := by
  rw [List.countP_eq_zero]
  intro e he
  obtain ⟨_, rfl⟩ | ⟨_, rfl⟩ | rfl := companionExchange_cases he
  · simp [Event.entersNs]
  · simp [Event.entersNs]
  · simp [Event.entersNs]

theorem callbackBody_counted {env : CallbackEnv} {fd : Int} {p q : Process} (h : Counted p)
    (hq : callbackBody env fd p = some q) : Counted q := by
  obtain ⟨⟨entered, r⟩, hr, hrest⟩ := Option.bind_eq_some_iff.mp hq
  have hbody : Counted { p.log [.callbackBody] with callbackFunction := .idle } :=
    @Counted.log p h [.callbackBody] rfl
  have hc := newMountNs_counted hbody hr
  have hreopen : ((scopedRegularReopener env.openFds).map Event.reopen).countP Event.entersNs = 0 := by
    rw [List.countP_eq_zero]
    intro e he
    obtain ⟨_, _, rfl⟩ := List.mem_map.mp he
    simp [Event.entersNs]
  dsimp only at hrest
  split at hrest
  · obtain rfl := Option.some.inj hrest
    exact hc.log hreopen
  · obtain rfl := Option.some.inj hrest
    have hexchange := hc.log (companionExchange_enters env fd)
    refine Counted.log (Counted.log ?_ rfl) hreopen
    split
    · exact hexchange
    · exact hexchange.log rfl

theorem invokeCallback_counted {env : CallbackEnv} {p q : Process} (h : Counted p)
    (hq : invokeCallback env p = some q) : Counted q := by
  unfold invokeCallback at hq
  split at hq
  · obtain rfl := Option.some.inj hq
    exact h
  · exact callbackBody_counted h hq

theorem runtimeCall_counted {maps : List MapEntry} {env : CallbackEnv} {p q : Process} {c : Call}
    {ret : Int} (h : Counted p) (hq : runtimeCall maps env p c = some (ret, q)) : Counted q := by
  cases c with
  | unshare flags ok =>
    unfold runtimeCall at hq
    dsimp only at hq
    split at hq
    · obtain ⟨r, hr, hrest⟩ := Option.bind_eq_some_iff.mp hq
      have hc := invokeCallback_counted h hr
      dsimp only at hrest
      split at hrest
      · obtain ⟨_, rfl⟩ := Prod.mk.inj (Option.some.inj hrest)
        exact hc
      · exact callOldUnshare_counted hc hrest
    · have hc := sysUnshare_counted h flags ok
      rwa [Option.some.inj hq] at hc
    · cases hq
  | setresuid ruid euid suid ok =>
    unfold runtimeCall at hq
    dsimp only at hq
    split at hq
    · obtain ⟨r, hr, hrest⟩ := Option.bind_eq_some_iff.mp hq
      have hc := invokeCallback_counted h hr
      unfold callOldSetresuid at hrest
      split at hrest
      · obtain ⟨_, rfl⟩ := Prod.mk.inj (Option.some.inj hrest)
        exact hc.log rfl
      · cases hrest
    · obtain ⟨_, rfl⟩ := Prod.mk.inj (Option.some.inj hq)
      exact h.log rfl
    · cases hq

theorem run_counted {maps : List MapEntry} {env : CallbackEnv} {s t : List Int × Process}
    {calls : List Call} (h : Counted s.2) (hrun : run (callStep maps env) s calls = some t) :
    Counted t.2 := by
  refine run_invariant (P := fun s => Counted s.2) (fun s c t hs hstep => ?_) h hrun
  obtain ⟨⟨ret, q⟩, hq, hrest⟩ := Option.bind_eq_some_iff.mp hstep
  obtain rfl := Option.some.inj hrest
  exact runtimeCall_counted hs hq

theorem foldl_applyHook_view (hooks : List PltHook) (p : Process) :
    (hooks.foldl Process.applyHook p).trace = p.trace ∧
      (hooks.foldl Process.applyHook p).mountNs = p.mountNs := by
  induction hooks generalizing p with
  | nil => exact ⟨rfl, rfl⟩
  | cons h hooks ih =>
    obtain ⟨htrace, hns⟩ := ih (p.applyHook h)
    have hone : (p.applyHook h).trace = p.trace ∧ (p.applyHook h).mountNs = p.mountNs := by
      obtain ⟨_, _, _, _, oldFunc⟩ := h
      rcases oldFunc with _ | _ | _ <;> exact ⟨rfl, rfl⟩
    exact ⟨htrace.trans hone.1, hns.trans hone.2⟩

theorem hookPLTByName_view (maps : List MapEntry) (commitOk : Bool) (libName symbolName : Str)
    (hookFunction : FuncPtr) (originalFunction : Option OldFunc) (p : Process) :
    (hookPLTByName maps commitOk libName symbolName hookFunction originalFunction p).2.trace =
        p.trace ∧
      (hookPLTByName maps commitOk libName symbolName hookFunction originalFunction p).2.mountNs =
        p.mountNs := by
  cases hmap : findLibrary maps libName with
  | none =>
    simp only [hookPLTByName, Utils.hookPLTByName, hmap]
    exact ⟨rfl, rfl⟩
  | some map =>
    rw [hookPLTByName_found hmap]
    cases commitOk with
    | false => exact ⟨rfl, rfl⟩
    | true => exact foldl_applyHook_view _ (p.pltHookRegister _)

theorem preAppSpecialize_view (app : AppEnv) : (preAppSpecialize app .forked).trace = [] ∧
    (preAppSpecialize app .forked).mountNs = 0 := by
  have hfirst := hookPLTByName_view app.maps app.unshareCommit libandroidRuntime unshareSymbol
    .newUnshare (some .oldUnshare) optionSet
  unfold preAppSpecialize
  split
  · exact ⟨rfl, rfl⟩
  · dsimp only
    split
    · exact hfirst
    · have hsecond := hookPLTByName_view app.maps app.setresuidCommit libandroidRuntime
        setresuidSymbol .newSetresuid (some .oldSetresuid)
        (hookPLTByName app.maps app.unshareCommit libandroidRuntime unshareSymbol .newUnshare
          (some .oldUnshare) optionSet).2
      split
      · exact ⟨hsecond.1.trans hfirst.1, hsecond.2.trans hfirst.2⟩
      · exact ⟨hsecond.1.trans hfirst.1, hsecond.2.trans hfirst.2⟩

/-- Only `unshare` is hooked, and no callback is waiting. -/
structure Stripping (maps : List MapEntry) (p : Process) : Prop where
  unshareSlot : runtimeSlot maps unshareSymbol p = .newUnshare
  setresuidSlot : runtimeSlot maps setresuidSymbol p = .original setresuidSymbol
  oldUnshare : p.oldUnshare = some (.original unshareSymbol)
  idle : p.callbackFunction = .idle

theorem run_logged {maps : List MapEntry} (env : CallbackEnv) {P : Process → Prop}
    {answer : Call → Int} {events : Call → List Event}
    (hcall : ∀ p c, P p → ∃ q, runtimeCall maps env p c = some (answer c, q) ∧ P q ∧
      q.trace = p.trace ++ events c) {p : Process} (hp : P p) (rets : List Int)
    (calls : List Call) : ∃ q, run (callStep maps env) (rets, p) calls =
      some (rets ++ calls.map answer, q) ∧ q.trace = p.trace ++ calls.flatMap events := by
  induction calls generalizing p rets with
  | nil => exact ⟨p, by simp, by simp⟩
  | cons c cs ih =>
    obtain ⟨q, hq, hPq, htrace⟩ := hcall p c hp
    obtain ⟨t, ht, hlast⟩ := ih hPq (rets ++ [answer c])
    refine ⟨t, ?_, ?_⟩
    · rw [run_cons, callStep, hq]
      simpa using ht
    · rw [hlast, htrace]
      simp

theorem runtimeCall_unhooked {maps : List MapEntry} {env : CallbackEnv} {p : Process}
    (h : Unhooked maps p) (c : Call) : ∃ q, runtimeCall maps env p c = some (verdict c, q) ∧
      Unhooked maps q ∧ q.trace = p.trace ++ verbatim c := by
  cases c with
  | unshare flags ok =>
    rw [runtimeCall, h.unshareSlot]
    exact ⟨_, rfl, h.congr rfl, rfl⟩
  | setresuid ruid euid suid ok =>
    rw [runtimeCall, h.setresuidSlot]
    exact ⟨_, rfl, h.congr rfl, rfl⟩

theorem Stripping.congr {maps : List MapEntry} {p q : Process} (h : Stripping maps p)
    (hs : q.slot = p.slot) (hu : q.oldUnshare = p.oldUnshare)
    (hc : q.callbackFunction = p.callbackFunction) : Stripping maps q := by
  have hslot : ∀ symbol, runtimeSlot maps symbol q = runtimeSlot maps symbol p := by
    intro symbol
    unfold runtimeSlot
    rw [hs]
  exact ⟨(hslot _).trans h.unshareSlot, (hslot _).trans h.setresuidSlot, hu.trans h.oldUnshare,
    hc.trans h.idle⟩

theorem runtimeCall_stripping {maps : List MapEntry} {env : CallbackEnv} {p : Process}
    (h : Stripping maps p) (c : Call) : ∃ q, runtimeCall maps env p c = some (answer c, q) ∧
      Stripping maps q ∧ q.trace = p.trace ++ forwarded c := by
  cases c with
  | unshare flags ok =>
    simp only [runtimeCall, h.unshareSlot, newUnshare, invokeCallback_idle h.idle,
      Option.bind_eq_bind, Option.bind_some]
    unfold answer forwarded
    split
    · rename_i hz
      simp only [hz, if_true, Option.pure_def, List.append_nil]
      exact ⟨p, rfl, h, rfl⟩
    · rename_i hz
      simp only [hz, callOldUnshare, h.oldUnshare]
      exact ⟨_, rfl, h.congr rfl rfl rfl, rfl⟩
  | setresuid ruid euid suid ok =>
    rw [runtimeCall, h.setresuidSlot]
    exact ⟨_, rfl, h.congr rfl rfl rfl, rfl⟩

theorem specialized_stripping {app : AppEnv} (h : UnshareHooked app)
    (hc : app.setresuidCommit = false) :
    Stripping app.maps (specialized app) ∧ (specialized app).trace = [] := by
  obtain ⟨hslot, hidle, _⟩ := specialized_unshareOnly h hc
  obtain ⟨map, hmap⟩ := Option.isSome_iff_exists.mp h.found
  have hspec : specialized app =
      (install optionSet (unshareHook map)).pltHookRegister (setresuidHook map) := by
    rw [specialized, preAppSpecialize_unshareOnly h.accepted h.unshareCommit hc hmap]
    rfl
  refine ⟨⟨hslot, ?_, ?_, hidle⟩, ?_⟩
  · rw [hspec]
    simp only [runtimeSlot, hmap, Process.pltHookRegister, install, applyHook_slot, unshareHook,
      symbols_ne.symm, and_false, if_false]
    rfl
  · rw [hspec]
    rfl
  · rw [hspec]
    rfl

theorem specialized_trace_unhooked {app : AppEnv} (h : ¬ UnshareHooked app) :
    (specialized app).trace = [] := by
  have hidle : (preAppSpecialize app .forked).callbackFunction = .idle := by
    unfold preAppSpecialize
    cases hskip : skipsProcess app with
    | true => rfl
    | false =>
      cases hmap : findLibrary app.maps libandroidRuntime with
      | none => simp [hookPLTByName, Utils.hookPLTByName, hmap, Process.forked]
      | some map =>
        have hc : app.unshareCommit = false := by
          rw [← Bool.not_eq_true]
          intro hc
          exact h ⟨hskip, by simp [hmap], hc⟩
        simp only [hc, hookPLTByName_found hmap]
        rfl
  unfold specialized zygoteCleanup
  rw [hidle]
  exact (preAppSpecialize_view app).1

theorem mode_cases (app : AppEnv) :
    (¬ UnshareHooked app ∧ mode app = .transparent) ∨
    (UnshareHooked app ∧ app.setresuidCommit = false ∧ mode app = .stripping) ∨
    (Installed app ∧ mode app = .hiding) := by
  by_cases h : UnshareHooked app
  · have hfirst : ¬ (skipsProcess app || (findLibrary app.maps libandroidRuntime).isNone ||
        !app.unshareCommit) = true := by
      simp [h.accepted, h.unshareCommit, Option.isSome_iff_ne_none.mp h.found]
    cases hc : app.setresuidCommit with
    | false =>
      refine Or.inr (Or.inl ⟨h, rfl, ?_⟩)
      rw [mode, if_neg hfirst, hc]
      rfl
    | true =>
      refine Or.inr (Or.inr ⟨h.installed hc, ?_⟩)
      rw [mode, if_neg hfirst, hc]
      rfl
  · refine Or.inl ⟨h, if_pos ?_⟩
    rw [← Bool.not_eq_false]
    intro hfirst
    simp only [Bool.or_eq_false_iff, Bool.not_eq_false', Option.isNone_eq_false_iff] at hfirst
    exact h ⟨hfirst.1.1, hfirst.1.2, hfirst.2⟩

/-- The calls of the runtime up to `postAppSpecialize`. -/
theorem appRun_mode (app : AppEnv) (cb : CallbackEnv) (calls : List Call) :
    ∃ p, appRun app cb calls = some (calls.map (mode app).answer, p) ∧
      p.trace = ownEvents app cb calls ++ calls.flatMap (mode app).events := by
  obtain ⟨h, hmode⟩ | ⟨h, hc, hmode⟩ | ⟨h, hmode⟩ := mode_cases app
  · obtain ⟨p, hrun, htrace⟩ := run_logged cb (fun _ c hp => runtimeCall_unhooked hp c)
      (specialized_unhooked h) [] calls
    refine ⟨p, ?_, ?_⟩
    · rw [hmode]
      exact hrun
    · rw [htrace, specialized_trace_unhooked h, ownEvents, hmode]
      rfl
  · obtain ⟨hstart, hnil⟩ := specialized_stripping h hc
    obtain ⟨p, hrun, htrace⟩ := run_logged cb (fun _ c hp => runtimeCall_stripping hp c)
      hstart [] calls
    refine ⟨p, ?_, ?_⟩
    · rw [hmode]
      exact hrun
    · rw [htrace, hnil, ownEvents, hmode]
      rfl
  · obtain ⟨p, hrun, _, htrace, _, _⟩ := appRun_installed h cb calls
    refine ⟨p, ?_, ?_⟩
    · rw [hmode]
      exact hrun
    · rw [htrace, ownEvents, hmode, runEvents, List.append_assoc]
      rfl

theorem postAppSpecialize_view (plt : PltEnv) (s : List MapEntry × Process) :
    (postAppSpecialize plt s).2.trace = s.2.trace ∧
      (postAppSpecialize plt s).2.mountNs = s.2.mountNs := by
  have hone : ∀ file ok symbol new (s : List MapEntry × Process),
      (cachedHookPLTByName plt.abi file ok libandroidRuntime symbol new none s).2.2.trace =
          s.2.trace ∧
        (cachedHookPLTByName plt.abi file ok libandroidRuntime symbol new none s).2.2.mountNs =
          s.2.mountNs := fun _ _ _ _ _ => hookPLTByName_view _ _ _ _ _ _ _
  unfold postAppSpecialize
  cases s.2.oldUnshare with
  | none =>
    dsimp only
    cases s.2.oldSetresuid with
    | none => exact ⟨rfl, rfl⟩
    | some old => exact hone _ _ _ _ s
  | some new =>
    obtain ⟨htrace, hns⟩ := hone plt.postUnshareMaps plt.postUnshareCommit unshareSymbol new s
    dsimp only
    split
    · obtain ⟨hlast, hlastNs⟩ := hone plt.postSetresuidMaps plt.postSetresuidCommit
        setresuidSymbol _ (cachedHookPLTByName plt.abi plt.postUnshareMaps plt.postUnshareCommit
          libandroidRuntime unshareSymbol new none s).2
      exact ⟨hlast.trans htrace, hlastNs.trans hns⟩
    · exact ⟨htrace, hns⟩

/-- The run up to `postAppSpecialize`, with the cached maps. -/
theorem run_mode (plt : PltEnv) (app : AppEnv) (cb : CallbackEnv) (calls : List Call) :
    ∃ maps p q, cachedPreAppSpecialize plt app ([], .forked) = (maps, p) ∧ HookState maps p ∧
      run (callStep maps cb) ([], zygoteCleanup app p) calls =
        some (calls.map (mode (app.reading plt)).answer, q) ∧
      q.trace = ownEvents (app.reading plt) cb calls ++
        calls.flatMap (mode (app.reading plt)).events := by
  cases hskip : skipsProcess app with
  | true =>
    have hmode : mode (app.reading plt) = .transparent :=
      if_pos (by simp [show skipsProcess (app.reading plt) = true from hskip])
    obtain ⟨q, hrun, hlog⟩ := run_logged cb (fun _ c hp => runtimeCall_unhooked hp c)
      (show Unhooked [] optionSet from .of_missing _ rfl) [] calls
    refine ⟨[], optionSet, q, ?_, .none rfl rfl rfl, ?_, ?_⟩
    · rw [cachedPreAppSpecialize, hskip]
      rfl
    · rw [hmode]
      exact hrun
    · rw [hlog, ownEvents, hmode]
      rfl
  | false =>
    obtain ⟨q, hrun, hlog⟩ := appRun_mode (app.reading plt) cb calls
    exact ⟨_, _, q, cachedPreAppSpecialize_eq plt app [] .forked hskip,
      (preAppSpecialize_hookState (app.reading plt)).1, hrun, hlog⟩

/-- What the kernel and the runtime see of a whole life. -/
theorem lifecycle_log {plt : PltEnv} (hu : plt.postUnshareCommit = true)
    (hr : plt.postSetresuidCommit = true) (app : AppEnv) (cb : CallbackEnv)
    (calls later : List Call) :
    ∃ p, lifecycle plt app cb calls later =
        some (calls.map (mode (app.reading plt)).answer ++ later.map verdict, p) ∧
      p.trace = ownEvents (app.reading plt) cb calls ++
        calls.flatMap (mode (app.reading plt)).events ++ later.flatMap verbatim := by
  obtain ⟨maps, p, q, hpre, hstate, hrun, hlog⟩ := run_mode plt app cb calls
  have hclean := zygoteCleanup_keeps app p
  have hstart := hstate.congr hclean
  obtain ⟨t, ht, hkeep⟩ := run_keeps cb calls (s := ([], zygoteCleanup app p)) hstart.callable
  obtain rfl := Option.some.inj (hrun.symm.trans ht)
  have hrestored := (postAppSpecialize_restores hu hr (hstart.congr hkeep)).1
  obtain ⟨hview, _⟩ := postAppSpecialize_view plt (maps, q)
  have hunhooked : Unhooked (postAppSpecialize plt (maps, q)).1
      (postAppSpecialize plt (maps, q)).2 := .of_slot hrestored
  obtain ⟨r, hlater, hlast⟩ := run_logged cb (fun _ c hp => runtimeCall_unhooked hp c) hunhooked
    (calls.map (mode (app.reading plt)).answer) later
  refine ⟨r, ?_, ?_⟩
  · simp only [lifecycle, hpre, hrun, Option.bind_eq_bind, Option.bind_some]
    exact hlater
  · rw [hlast, hview, hlog]

theorem cachedPreAppSpecialize_counted (plt : PltEnv) (app : AppEnv) :
    Counted (cachedPreAppSpecialize plt app ([], .forked)).2 := by
  cases hskip : skipsProcess app with
  | true =>
    rw [cachedPreAppSpecialize, hskip]
    rfl
  | false =>
    obtain ⟨htrace, hns⟩ := preAppSpecialize_view (app.reading plt)
    have heq : (cachedPreAppSpecialize plt app ([], .forked)).2 =
        preAppSpecialize (app.reading plt) .forked :=
      congrArg Prod.snd (cachedPreAppSpecialize_eq plt app [] .forked hskip)
    rw [heq, Counted, htrace, hns]
    rfl

theorem zygoteCleanup_counted {p : Process} (h : Counted p) (app : AppEnv) :
    Counted (zygoteCleanup app p) := by
  unfold zygoteCleanup
  split
  · split
    · exact h.log rfl
    · exact h
  · exact h

theorem postAppSpecialize_counted {s : List MapEntry × Process} (h : Counted s.2) (plt : PltEnv) :
    Counted (postAppSpecialize plt s).2 := by
  obtain ⟨hview, hns⟩ := postAppSpecialize_view plt s
  rw [Counted, hview, hns]
  exact h

theorem lifecycle_counted {plt : PltEnv} {app : AppEnv} {cb : CallbackEnv}
    {calls later : List Call} {s : List Int × Process}
    (h : lifecycle plt app cb calls later = some s) : Counted s.2 := by
  have hpre := cachedPreAppSpecialize_counted plt app
  unfold lifecycle at h
  cases hspec : cachedPreAppSpecialize plt app ([], .forked) with
  | mk maps p =>
    rw [hspec] at h hpre
    obtain ⟨⟨rets, q⟩, hcalls, hlater⟩ := Option.bind_eq_some_iff.mp h
    have hq := run_counted (zygoteCleanup_counted hpre app) hcalls
    exact run_counted (postAppSpecialize_counted (s := (maps, q)) hq plt) hlater

/-- For all maps, lookups and commits of `preAppSpecialize`, all answers to the callback and all
calls of the runtime, if the commits of `postAppSpecialize` succeed: no call is lost in a null
pointer, the kernel and the runtime see exactly what the mode says and later exactly the calls,
and the process is in as many new namespaces as its trace has entered. -/
theorem lifecycle_exact {plt : PltEnv} (hu : plt.postUnshareCommit = true)
    (hr : plt.postSetresuidCommit = true) (app : AppEnv) (cb : CallbackEnv)
    (calls later : List Call) :
    ∃ p, lifecycle plt app cb calls later =
        some (calls.map (mode (app.reading plt)).answer ++ later.map verdict, p) ∧
      p.trace = ownEvents (app.reading plt) cb calls ++
        calls.flatMap (mode (app.reading plt)).events ++ later.flatMap verbatim ∧
      p.mountNs = p.trace.countP Event.entersNs := by
  obtain ⟨p, hrun, htrace⟩ := lifecycle_log hu hr app cb calls later
  exact ⟨p, hrun, htrace, lifecycle_counted hrun⟩

theorem lifecycle_exact_pending :
    ∃ p, lifecycle samplePlt { sampleApp with setresuidCommit := false } sampleEnv
        [.unshare cloneNewns true, .setresuid 1 1 1 true] [.unshare cloneNewns true] =
        some ([0, 0, 0], p) ∧
      p.trace = [.setresuid 1 1 1 0, .unshare cloneNewns 0] ∧
      p.mountNs = p.trace.countP Event.entersNs := by
  have hmode : mode (AppEnv.reading { sampleApp with setresuidCommit := false } samplePlt) =
      .stripping := by decide
  obtain ⟨p, hrun, htrace, hns⟩ := @lifecycle_exact samplePlt rfl rfl
    { sampleApp with setresuidCommit := false } sampleEnv
    [.unshare cloneNewns true, .setresuid 1 1 1 true] [.unshare cloneNewns true]
  rw [ownEvents, hmode] at htrace
  rw [hmode] at hrun
  exact ⟨p, hrun, htrace, hns⟩

end ZygiskAssistant.Zygisk
