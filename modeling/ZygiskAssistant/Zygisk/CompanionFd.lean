import Mathlib.Data.List.Basic
import ZygiskAssistant.Zygisk.CallbackOnce

/-!
# The companion descriptor

What a run does with the descriptor of the companion: the hiding callback
closes what it reads for it at the end of the exchange, Zygote closes it when
it was not exempted, and the early return of the callback leaves it open.
-/

namespace ZygiskAssistant.Zygisk

def closes : Event → Option Int
  | .close fd => some fd
  | .zygoteClose fd => some fd
  | _ => none

def uses : Event → Option Int
  | .write fd _ => some fd
  | .read fd _ => some fd
  | _ => none

def closedFds (trace : List Event) : List Int := trace.filterMap closes

def NoUseAfterClose (trace : List Event) : Prop :=
  trace.Pairwise fun e f => ∀ fd ∈ closes e, uses f ≠ some fd

def touches (e : Event) : Bool := (closes e).isSome || (uses e).isSome

theorem closedFds_filter (trace : List Event) :
    closedFds (trace.filter touches) = closedFds trace := by
  unfold closedFds
  rw [List.filterMap_filter]
  congr 1
  funext e
  cases h : closes e <;> simp [touches, h]

theorem noUseAfterClose_filter (trace : List Event) :
    NoUseAfterClose (trace.filter touches) ↔ NoUseAfterClose trace := by
  unfold NoUseAfterClose
  rw [List.pairwise_filter]
  apply List.Pairwise.iff
  intro e f
  constructor
  · intro h fd hc hu
    exact h (by simp [touches, Option.mem_def.mp hc]) (by simp [touches, hu]) fd hc hu
  · intro h _ _
    exact h

theorem filter_touches_nil {l : List Event} (h : ∀ e ∈ l, touches e = false) :
    l.filter touches = [] := by
  rw [List.filter_eq_nil_iff]
  intro e he
  simp [h e he]

theorem companionExchange_touches (env : CallbackEnv) (fd : Int) :
    (companionExchange env fd).2.filter touches = (companionExchange env fd).2 := by
  rw [List.filter_eq_self]
  intro e he
  rcases companionExchange_cases he with ⟨_, rfl⟩ | ⟨_, rfl⟩ | rfl <;> rfl

theorem bodyEvents_touches (env : CallbackEnv) (fd : Int) :
    (bodyEvents env fd).filter touches =
      if newMountNsOk env then (companionExchange env fd).2 else [] := by
  have hns : (newMountNsEvents env).filter touches = [] := by
    unfold newMountNsEvents
    cases env.unshareOk <;> rfl
  have hopen : ((scopedRegularReopener env.openFds).map Event.reopen).filter touches = [] := by
    apply filter_touches_nil
    intro e he
    obtain ⟨_, _, rfl⟩ := List.mem_map.mp he
    rfl
  unfold bodyEvents hidingEvents
  rw [List.cons_append, List.cons_append, List.filter_cons_of_neg (by simp [touches, closes, uses]),
    List.filter_append, List.filter_append, hns, hopen]
  cases newMountNsOk env with
  | false => rfl
  | true =>
    rw [if_pos rfl, if_pos rfl, List.filter_append, List.filter_append, companionExchange_touches]
    cases (companionExchange env fd).1 <;> simp [touches, closes, uses]

theorem runEvents_touches (app : AppEnv) (env : CallbackEnv) {calls : List Call}
    (hne : calls ≠ []) : (runEvents app env calls).filter touches =
      (bodyEvents env app.connectCompanion).filter touches := by
  have hfwd : (calls.flatMap forwarded).filter touches = [] := by
    apply filter_touches_nil
    intro e he
    rcases forwarded_cases he with ⟨_, _, rfl⟩ | ⟨_, _, _, _, rfl⟩ <;> rfl
  unfold runEvents
  rw [if_neg hne, List.filter_append, hfwd, List.append_nil]

theorem cleanupEvents_touches (app : AppEnv) :
    (cleanupEvents app).filter touches = cleanupEvents app := by
  rw [List.filter_eq_self]
  intro e he
  obtain ⟨_, rfl⟩ := cleanupEvents_none he
  rfl

theorem cleanupEvents_eq {app : AppEnv} (hfd : 0 ≤ app.connectCompanion) :
    cleanupEvents app = if closedEarly app then [.zygoteClose app.connectCompanion] else [] := by
  have hne : app.connectCompanion ≠ -1 := by omega
  simp [cleanupEvents, hne]

/-- The callback gets to the exchange: it has its namespace and does not read -1 for `fd`. -/
def exchanges (env : CallbackEnv) (fd : Int) : Bool :=
  newMountNsOk env && env.readFd .test fd != -1

/-- The callback closes nothing, or closes at its end what it then reads for `fd`. -/
theorem bodyEvents_closes (env : CallbackEnv) (fd : Int) :
    (exchanges env fd = false ∧ (bodyEvents env fd).filter touches = []) ∨
      (exchanges env fd = true ∧
        closedFds ((bodyEvents env fd).filter touches) = [env.readFd .close fd] ∧
        NoUseAfterClose ((bodyEvents env fd).filter touches)) := by
  rw [bodyEvents_touches]
  unfold exchanges companionExchange
  cases newMountNsOk env with
  | false => exact Or.inl ⟨rfl, rfl⟩
  | true =>
    rw [if_pos rfl, Bool.true_and]
    cases env.readFd .test fd != -1 with
    | false => exact Or.inl ⟨rfl, rfl⟩
    | true =>
      right
      rw [if_pos rfl]
      cases env.writeRet == sizeofPid with
      | false => exact ⟨rfl, rfl, by simp [NoUseAfterClose, closes]⟩
      | true => exact ⟨rfl, rfl, by simp [NoUseAfterClose, closes]⟩

/-- What the callback reads for `fd` is still what it has captured. -/
def Intact (env : CallbackEnv) (fd : Int) : Prop := ∀ use, env.readFd use fd = fd

theorem Intact.exchanges_eq {env : CallbackEnv} {fd : Int} (h : Intact env fd) (hfd : 0 ≤ fd) :
    exchanges env fd = newMountNsOk env := by
  have hne : (fd != -1) = true := bne_iff_ne.mpr (by omega)
  rw [exchanges, h .test, hne, Bool.and_true]

/-- In every run with a hooked call the descriptor is closed exactly once, and not used
afterwards, exactly when either the callback's exchange closes it, from a closure that still
gives its number there, and Zygote has not, or there is no exchange and Zygote has. -/
theorem companionFd_closed_once_iff {app : AppEnv} (h : Installed app)
    (hfd : 0 ≤ app.connectCompanion) (env : CallbackEnv) {calls : List Call} (hne : calls ≠ []) :
    ∃ rets p, appRun app env calls = some (rets, p) ∧
      ((closedFds p.trace = [app.connectCompanion] ∧ NoUseAfterClose p.trace) ↔
        exchanges env app.connectCompanion = !closedEarly app ∧
          (exchanges env app.connectCompanion = true →
            env.readFd .close app.connectCompanion = app.connectCompanion)) := by
  obtain ⟨p, hrun, _, ht, _, _⟩ := appRun_installed h env calls
  refine ⟨_, p, hrun, ?_⟩
  rw [ht, ← closedFds_filter, ← noUseAfterClose_filter, List.filter_append,
    runEvents_touches app env hne, cleanupEvents_touches, cleanupEvents_eq hfd]
  obtain ⟨hno, hquiet⟩ | ⟨hyes, hclosed, huse⟩ := bodyEvents_closes env app.connectCompanion
  · rw [hno, hquiet, List.append_nil]
    cases closedEarly app with
    | false => simp [closedFds]
    | true => simp [closedFds, closes, NoUseAfterClose]
  · rw [hyes]
    cases closedEarly app with
    | false => simpa [hclosed] using fun _ => huse
    | true =>
      have htwice : closedFds ([.zygoteClose app.connectCompanion] ++
          (bodyEvents env app.connectCompanion).filter touches) =
            [app.connectCompanion, env.readFd .close app.connectCompanion] := by
        rw [closedFds, List.filterMap_append]
        exact congrArg ([app.connectCompanion] ++ ·) hclosed
      simp only [if_true, htwice]
      simp

theorem companionFd_closed_once_sample : ∃ rets p,
    appRun sampleApp sampleEnv [.setresuid 1 1 1 true] = some (rets, p) ∧
      closedFds p.trace = [9] ∧ NoUseAfterClose p.trace := by
  have hintact : Intact sampleEnv sampleApp.connectCompanion := fun _ => rfl
  have hnonneg : 0 ≤ sampleApp.connectCompanion := by decide
  obtain ⟨rets, p, hrun, hiff⟩ := @companionFd_closed_once_iff sampleApp (by decide) hnonneg
    sampleEnv [.setresuid 1 1 1 true] (by decide)
  refine ⟨rets, p, hrun, hiff.mpr ⟨?_, fun _ => hintact .close⟩⟩
  rw [hintact.exchanges_eq hnonneg]
  rfl

/-- When the namespace cannot be made, the callback returns with the descriptor open. -/
theorem companionFd_leaks : ∃ rets p,
    appRun sampleApp { sampleEnv with unshareOk := false } [.setresuid 1 1 1 true] =
        some (rets, p) ∧
      closedFds p.trace = [] ∧
      ¬ (closedFds p.trace = [sampleApp.connectCompanion] ∧ NoUseAfterClose p.trace) :=
  ⟨_, _, rfl, rfl, fun h => nomatch h.1⟩

/-- A closure that reads as zero once it is gone: descriptor 0 is closed, and 9 stays open. -/
example : (appRun sampleApp { sampleEnv with readFd := fun _ _ => 0 }
    [.setresuid 1 1 1 true]).map (fun s => closedFds s.2.trace) = some [0] := rfl

end ZygiskAssistant.Zygisk
