import ZygiskAssistant.Atexit.Finalize
import ZygiskAssistant.Atexit.Threads

/-!
# Registering threads and one finalization

Any number of threads register handlers while the first one finalizes. What a
thread can be doing is told by the code it runs and by what the finalizing
thread knows of the table, and every step of any thread keeps that.
-/

namespace ZygiskAssistant.Atexit

open LabelledRun

/-- Handlers that do not finalize, at most one finalization, and no other later. -/
def Calls.finalizesOnce : Calls → Bool
  | done => true
  | atexit func _ rest => func.finalizeFree && rest.finalizesOnce
  | atexitNull _ rest => rest.finalizesOnce
  | finalize rest => rest.finalizeFree

def registersNext : List ThreadFrame → Bool
  | .calls (.atexit _ _ _) :: _ => true
  | _ => false

/-- No registration gets the mutex after the table was freed. -/
def Timely (s : Threads) (t : Nat) : Prop :=
  registersNext (s.stack t) = true → s.globals.gArray ≠ .freed

instance (s : Threads) (t : Nat) : Decidable (Timely s t) :=
  inferInstanceAs (Decidable (registersNext (s.stack t) = true → s.globals.gArray ≠ .freed))

theorem mutex_update {mutex m : Option Nat} {stack : Nat → List ThreadFrame} {t : Nat}
    {fs : List ThreadFrame} (h : ∀ u, mutex = some u ↔ Holding (stack u) = true)
    (hm : (m = mutex ∧ Holding fs = Holding (stack t)) ∨
      (mutex = none ∧ m = some t ∧ Holding fs = true) ∨
      (mutex = some t ∧ m = none ∧ Holding fs = false)) (u : Nat) :
    m = some u ↔ Holding (Function.update stack t fs u) = true := by
  by_cases hu : u = t
  · subst hu
    rw [Function.update_self]
    obtain ⟨rfl, hsame⟩ | ⟨_, rfl, hheld⟩ | ⟨_, rfl, hfree⟩ := hm
    · rw [hsame]
      exact h u
    · simp [hheld]
    · simp [hfree]
  · rw [Function.update_of_ne hu]
    obtain ⟨rfl, _⟩ | ⟨hnone, rfl, _⟩ | ⟨hsome, rfl, _⟩ := hm
    · exact h u
    · rw [← h u, hnone]
      simp [Ne.symm hu]
    · rw [← h u, hsome]
      simp [Ne.symm hu]

inductive Code (ok : Calls → Bool) (below : List ThreadFrame) : List ThreadFrame → Prop
  | calls {c : Calls} : ok c = true → Code ok below (.calls c :: below)
  | register {func c : Calls} {arg : Nat} : func.finalizeFree = true → ok c = true →
      Code ok below (.register func arg :: .calls c :: below)
  | unlock {c : Calls} : ok c = true → Code ok below (.unlock :: .calls c :: below)
  | returned : Code ok below below

structure Ready (entries : List AtexitEntry) (g : Globals) : Prop where
  table : Table entries g
  clean : entries.all AtexitEntry.clean = true

/-- What the finalizing thread runs without the loop: its code before the finalization, a
handler that was called at the end of `pre`, and its code after the finalization. -/
inductive Stage
  | before
  | handler (c : Calls) (pre post : List AtexitEntry)
  | after

namespace Stage

def ok : Stage → Calls → Bool
  | before => Calls.finalizesOnce
  | _ => Calls.finalizeFree

def below : Stage → List ThreadFrame
  | handler c pre post => [.await (pre ++ .cleared :: post).length pre.length, .calls c]
  | _ => []

def Knows : Stage → Globals → Prop
  | before, g => ∃ entries, Ready entries g
  | handler c pre post, g => c.finalizeFree = true ∧ (∀ f ∈ post, f = .cleared) ∧
    ∃ late, Ready (pre ++ .cleared :: post ++ late) g
  | after, g => Released g ∨ ∃ entries, Ready entries g

end Stage

/-- The thread that finalizes, with what it knows of the table. -/
inductive Main : List ThreadFrame → Globals → Prop
  | code (stage : Stage) {fs : List ThreadFrame} {g : Globals} : Code stage.ok stage.below fs →
      stage.Knows g → Main fs g
  | restart {c : Calls} {entries : List AtexitEntry} {g : Globals} : c.finalizeFree = true →
      Ready entries g → Main [.restart, .calls c] g
  | scan {c : Calls} {pre post : List AtexitEntry} {e : AtexitEntry} {g : Globals} :
      c.finalizeFree = true → Ready (pre ++ e :: post) g → (∀ f ∈ post, f = .cleared) →
      Main [.scan (pre ++ e :: post).length pre.length, .calls c] g
  | resume {c : Calls} {pre post late : List AtexitEntry} {g : Globals} : c.finalizeFree = true →
      Ready (pre ++ .cleared :: post ++ late) g → (∀ f ∈ post, f = .cleared) →
      Main [.resume (pre ++ .cleared :: post).length pre.length, .calls c] g

def Place (t : Nat) (fs : List ThreadFrame) (g : Globals) : Prop :=
  if t = 0 then Main fs g else Code Calls.finalizeFree [] fs

structure Inv (s : Threads) : Prop where
  not_faulted : s.faulted = false
  mutex : ∀ t, s.mutex = some t ↔ Holding (s.stack t) = true
  place : ∀ t, Place t (s.stack t) s.globals
  unreleased : ∀ t func arg fs, s.stack t = .register func arg :: fs →
    s.globals.gArray ≠ .freed

theorem Table.not_freed {entries : List AtexitEntry} {g : Globals} (h : Table entries g) :
    g.gArray ≠ .freed := by
  obtain ⟨hnull, _⟩ | ⟨_, hcells⟩ := h.block
  · rw [hnull]
    exact nofun
  · rw [hcells]
    exact nofun

theorem Ready.atexit {entries : List AtexitEntry} {g : Globals} (h : Ready entries g)
    {func : Calls} (hfunc : func.finalizeFree = true) (arg : Nat) :
    ∃ g', cxaAtexit (some func) arg g = some (0, g') ∧
      Ready (entries ++ [.handler func arg]) g' := by
  obtain ⟨g', hg', htable⟩ := h.table.atexit func arg
  refine ⟨g', hg', htable, ?_⟩
  rw [List.all_append, h.clean]
  simp [AtexitEntry.clean, hfunc]

theorem Stage.atexit {stage : Stage} {g : Globals} (h : stage.Knows g) (hg : g.gArray ≠ .freed)
    {func : Calls} (hfunc : func.finalizeFree = true) (arg : Nat) :
    ∃ g', cxaAtexit (some func) arg g = some (0, g') ∧ stage.Knows g' ∧ g'.gArray ≠ .freed := by
  cases stage with
  | before =>
    obtain ⟨entries, hready⟩ := h
    obtain ⟨g', hg', hnext⟩ := hready.atexit hfunc arg
    exact ⟨g', hg', ⟨_, hnext⟩, hnext.table.not_freed⟩
  | handler c pre post =>
    obtain ⟨hc, hpost, late, hready⟩ := h
    obtain ⟨g', hg', hnext⟩ := hready.atexit hfunc arg
    rw [List.append_assoc _ late] at hnext
    exact ⟨g', hg', ⟨hc, hpost, _, hnext⟩, hnext.table.not_freed⟩
  | after =>
    obtain hreleased | ⟨entries, hready⟩ := h
    · exact absurd hreleased.freed hg
    · obtain ⟨g', hg', hnext⟩ := hready.atexit hfunc arg
      exact ⟨g', hg', Or.inr ⟨_, hnext⟩, hnext.table.not_freed⟩

theorem Main.atexit {fs : List ThreadFrame} {g : Globals} (h : Main fs g)
    (hfs : Holding fs = false) (hg : g.gArray ≠ .freed) {func : Calls}
    (hfunc : func.finalizeFree = true) (arg : Nat) :
    ∃ g', cxaAtexit (some func) arg g = some (0, g') ∧ Main fs g' ∧ g'.gArray ≠ .freed := by
  cases h with
  | code stage hcode hknows =>
    obtain ⟨g', hg', hnext, hopen⟩ := stage.atexit hknows hg hfunc arg
    exact ⟨g', hg', .code stage hcode hnext, hopen⟩
  | restart _ _ => cases hfs
  | scan _ _ _ => cases hfs
  | resume _ _ _ => cases hfs

structure Closed (ok : Calls → Bool) : Prop where
  atexit : ∀ func arg rest, ok (.atexit func arg rest) = true →
    func.finalizeFree = true ∧ ok rest = true
  atexitNull : ∀ arg rest, ok (.atexitNull arg rest) = true → ok rest = true

theorem closed_finalizeFree : Closed Calls.finalizeFree where
  atexit _ _ _ h := (Bool.and_eq_true _ _).mp h
  atexitNull _ _ h := h

theorem Stage.closed (stage : Stage) : Closed stage.ok := by
  cases stage with
  | before => exact ⟨fun _ _ _ h => (Bool.and_eq_true _ _).mp h, fun _ _ h => h⟩
  | handler _ _ _ => exact closed_finalizeFree
  | after => exact closed_finalizeFree

inductive CodeStep (ok : Calls → Bool) (below : List ThreadFrame) (s : Threads) (t : Nat) :
    Threads → Prop
  | go {fs : List ThreadFrame} : Code ok below fs → Holding (s.stack t) = false →
      Holding fs = false → CodeStep ok below s t (s.setStack t fs)
  | lock {func : Calls} {arg : Nat} {fs : List ThreadFrame} : s.mutex = none →
      s.globals.gArray ≠ .freed → Code ok below (.register func arg :: fs) →
      CodeStep ok below s t { s.setStack t (.register func arg :: fs) with mutex := some t }
  | register {func : Calls} {arg : Nat} {fs : List ThreadFrame} :
      s.stack t = .register func arg :: fs → func.finalizeFree = true →
      Code ok below (.unlock :: fs) →
      CodeStep ok below s t (s.act t (inside s.globals fs (.register func arg)))
  | unlock {fs : List ThreadFrame} : s.stack t = .unlock :: fs → Code ok below fs →
      Holding fs = false → CodeStep ok below s t { s.setStack t fs with mutex := none }
  | finalize {rest : Calls} : ok (.finalize rest) = true → s.mutex = none →
      CodeStep ok below s t
        { s.setStack t (.restart :: .calls rest :: below) with mutex := some t }

theorem Threads.lock_eq_some {s s' : Threads} {t : Nat} {fs : List ThreadFrame}
    (h : s.lock t fs = some s') :
    s.mutex = none ∧ s' = { s.setStack t fs with mutex := some t } := by
  unfold Threads.lock at h
  split at h
  · rename_i hfree
    exact ⟨hfree, (Option.some.inj h).symm⟩
  · cases h

theorem codeStep_of_step {ok : Calls → Bool} {below : List ThreadFrame} {s s' : Threads} {t : Nat}
    (hok : Closed ok) (hbelow : Holding below = false) (hs : s.faulted = false)
    (hcode : Code ok below (s.stack t)) (hne : s.stack t ≠ below) (htimely : Timely s t)
    (hstep : threadStep s t = some s') : CodeStep ok below s t s' := by
  rw [threadStep, hs] at hstep
  generalize hfs : s.stack t = fs at hcode hne hstep
  cases hcode with
  | returned => exact absurd rfl hne
  | @calls c hc =>
    have hfree : Holding (s.stack t) = false := by
      rw [hfs]
      rfl
    cases c with
    | done =>
      obtain rfl := Option.some.inj hstep
      exact .go .returned hfree hbelow
    | atexit func arg rest =>
      obtain ⟨hfunc, hrest⟩ := hok.atexit func arg rest hc
      obtain ⟨hmutex, rfl⟩ := Threads.lock_eq_some hstep
      exact .lock hmutex (htimely (by rw [hfs]; rfl)) (.register hfunc hrest)
    | atexitNull arg rest =>
      obtain rfl := Option.some.inj hstep
      exact .go (.calls (hok.atexitNull arg rest hc)) hfree rfl
    | finalize rest =>
      obtain ⟨hmutex, rfl⟩ := Threads.lock_eq_some hstep
      exact .finalize hc hmutex
  | register hfunc hc =>
    obtain rfl := Option.some.inj hstep
    exact .register hfs hfunc (.unlock hc)
  | unlock hc =>
    obtain rfl := Option.some.inj hstep
    exact .unlock hfs (.calls hc) rfl

section

variable {s s' : Threads} {t : Nat}

theorem Inv.holder {u : Nat} (h : Inv s) (ht : s.mutex = some t) (hu : u ≠ t) :
    Holding (s.stack u) = false := by
  rw [← Bool.not_eq_true, ← h.mutex u, ht]
  exact fun he => hu (Option.some.inj he).symm

theorem Inv.place_registered (h : Inv s) {u : Nat} (hu : Holding (s.stack u) = false)
    (hg : s.globals.gArray ≠ .freed) {func : Calls} (hfunc : func.finalizeFree = true) {arg : Nat}
    {g : Globals} (hreg : cxaAtexit (some func) arg s.globals = some (0, g)) :
    Place u (s.stack u) g := by
  have hplace := h.place u
  unfold Place at hplace ⊢
  split
  · rename_i hzero
    rw [if_pos hzero] at hplace
    obtain ⟨g', hg', hmain, _⟩ := hplace.atexit hu hg hfunc arg
    obtain ⟨_, rfl⟩ := Prod.mk.inj (Option.some.inj (hreg.symm.trans hg'))
    exact hmain
  · rename_i hother
    rwa [if_neg hother] at hplace

theorem Inv.setStack (h : Inv s) {m : Option Nat} {fs : List ThreadFrame}
    (hm : (m = s.mutex ∧ Holding fs = Holding (s.stack t)) ∨
      (s.mutex = none ∧ m = some t ∧ Holding fs = true) ∨
      (s.mutex = some t ∧ m = none ∧ Holding fs = false))
    (hplace : Place t fs s.globals)
    (hregister : ∀ func arg rest, fs = .register func arg :: rest → s.globals.gArray ≠ .freed) :
    Inv { s.setStack t fs with mutex := m } := by
  refine ⟨h.not_faulted, mutex_update h.mutex hm, ?_, ?_⟩
  · exact (Function.forall_update_iff s.stack fun u fs => Place u fs s.globals).mpr
      ⟨hplace, fun u _ => h.place u⟩
  · exact (Function.forall_update_iff s.stack fun _ fs => ∀ func arg rest,
      fs = .register func arg :: rest → s.globals.gArray ≠ .freed).mpr
      ⟨hregister, fun u _ => h.unreleased u⟩

theorem Inv.of_codeStep {ok : Calls → Bool} {below : List ThreadFrame} (h : Inv s)
    (hstep : CodeStep ok below s t s')
    (hput : ∀ fs, Code ok below fs → Place t fs s.globals)
    (hregister : ∀ func arg, func.finalizeFree = true → s.mutex = some t →
      s.globals.gArray ≠ .freed → ∃ g, cxaAtexit (some func) arg s.globals = some (0, g) ∧
        g.gArray ≠ .freed ∧ ∀ fs, Code ok below fs → Place t fs g)
    (hfinalize : ∀ rest, ok (.finalize rest) = true →
      Place t (.restart :: .calls rest :: below) s.globals) : Inv s' := by
  cases hstep with
  | @go fs hcode hfree hnext =>
    refine h.setStack (Or.inl ⟨rfl, hnext.trans hfree.symm⟩) (hput fs hcode) ?_
    rintro func arg rest rfl
    cases hnext
  | @lock func arg fs hmutex hopen hcode =>
    exact h.setStack (Or.inr (Or.inl ⟨hmutex, rfl, rfl⟩)) (hput _ hcode) fun _ _ _ _ => hopen
  | @register func arg fs hstack hfunc hcode =>
    have hheld : s.mutex = some t := by
      rw [h.mutex t, hstack]
      rfl
    have hopen := h.unreleased t func arg fs hstack
    obtain ⟨g, hg, hgopen, hplace⟩ := hregister func arg hfunc hheld hopen
    have hinside : inside s.globals fs (.register func arg) = some (.unlock :: fs, g) := by
      rw [inside, hg]
      rfl
    rw [hinside]
    refine ⟨h.not_faulted, mutex_update h.mutex (Or.inl ⟨rfl, ?_⟩), ?_, fun _ _ _ _ _ => hgopen⟩
    · rw [hstack]
      rfl
    · exact (Function.forall_update_iff s.stack fun u fs => Place u fs g).mpr
        ⟨hplace _ hcode, fun u hu => h.place_registered (h.holder hheld hu) hopen hfunc hg⟩
  | @unlock fs hstack hcode hnext =>
    have hheld : s.mutex = some t := by
      rw [h.mutex t, hstack]
      rfl
    refine h.setStack (Or.inr (Or.inr ⟨hheld, rfl, hnext⟩)) (hput fs hcode) ?_
    rintro func arg rest rfl
    cases hnext
  | @finalize rest hrest hmutex =>
    exact h.setStack (Or.inr (Or.inl ⟨hmutex, rfl, rfl⟩)) (hfinalize rest hrest)
      fun _ _ _ he _ => by cases he

theorem Inv.step_other (h : Inv s) (ht : t ≠ 0) (htimely : Timely s t)
    (hstep : threadStep s t = some s') : Inv s' := by
  have hput : ∀ g fs, Code Calls.finalizeFree [] fs → Place t fs g := by
    intro g fs hcode
    rw [Place, if_neg ht]
    exact hcode
  have hcode := h.place t
  rw [Place, if_neg ht] at hcode
  have hne : s.stack t ≠ [] := by
    intro hnil
    rw [threadStep, h.not_faulted, hnil] at hstep
    cases hstep
  refine h.of_codeStep
    (codeStep_of_step closed_finalizeFree rfl h.not_faulted hcode hne htimely hstep) (hput _) ?_ ?_
  · intro func arg hfunc hmutex hopen
    have hmain := h.place 0
    rw [Place, if_pos rfl] at hmain
    obtain ⟨g, hg, _, hgopen⟩ := hmain.atexit (h.holder hmutex ht.symm) hopen hfunc arg
    exact ⟨g, hg, hgopen, hput g⟩
  · intro rest hrest
    cases hrest

/-- The finalizing thread goes on in the loop, or leaves it, with the mutex. -/
theorem Inv.act_main (h : Inv s) (hheld : Holding (s.stack 0) = true) {fs : List ThreadFrame}
    {g : Globals} (hfs : Holding fs = true)
    (hregister : ∀ func arg rest, fs ≠ .register func arg :: rest) (hmain : Main fs g) :
    Inv (s.act 0 (some (fs, g))) := by
  have hmutex := (h.mutex 0).mpr hheld
  refine ⟨h.not_faulted, mutex_update h.mutex (Or.inl ⟨rfl, hfs.trans hheld.symm⟩), ?_, ?_⟩
  · refine (Function.forall_update_iff s.stack fun u fs => Place u fs g).mpr ⟨?_, fun u hu => ?_⟩
    · rw [Place, if_pos rfl]
      exact hmain
    · have hplace := h.place u
      rwa [Place, if_neg hu] at hplace ⊢
  · refine (Function.forall_update_iff s.stack fun _ fs => ∀ func arg rest,
      fs = .register func arg :: rest → g.gArray ≠ .freed).mpr ⟨?_, fun u hu => ?_⟩
    · exact fun func arg rest he => absurd he (hregister func arg rest)
    · intro func arg rest he
      have hfree := h.holder hmutex hu
      rw [he] at hfree
      cases hfree

/-- The end of the loop body, with a cleared rest of the table. -/
theorem continueScan_main {c : Calls} {pre post : List AtexitEntry} {g : Globals}
    (hc : c.finalizeFree = true) (h : Ready (pre ++ .cleared :: post) g)
    (hpost : ∀ f ∈ post, f = .cleared) : ∃ frame g',
      continueScan (pre ++ .cleared :: post).length pre.length [.calls c] g =
        some ([frame, .calls c], g') ∧
      frame.holds = true ∧ (∀ func arg, frame ≠ .register func arg) ∧
      Main [frame, .calls c] g' := by
  have hcleared : ∀ f ∈ .cleared :: post, f = AtexitEntry.cleared := by simpa using hpost
  by_cases hpre : pre = []
  · subst hpre
    obtain ⟨g', hfree, hreleased, _⟩ := h.table.free (by simp) hcleared
    refine ⟨.unlock, g', ?_, rfl, (fun _ _ he => by cases he),
      .code .after (.unlock hc) (Or.inl hreleased)⟩
    rw [continueScan, if_pos List.length_nil, hfree]
    rfl
  · obtain ⟨init, last, rfl⟩ := (List.eq_nil_or_concat' pre).resolve_left hpre
    have hlen : (init ++ [last]).length ≠ 0 := by simp
    have hsplit : init ++ [last] ++ .cleared :: post = init ++ last :: .cleared :: post := by
      rw [List.append_assoc]
      rfl
    have hindex : (init ++ [last]).length - 1 = init.length := by simp
    rw [hsplit] at h ⊢
    refine ⟨.scan (init ++ last :: .cleared :: post).length init.length, g, ?_, rfl,
      (fun _ _ he => by cases he), .scan hc h hcleared⟩
    rw [continueScan, if_neg hlen, hindex]

theorem Inv.inside_main (h : Inv s) {frame next : ThreadFrame} {c : Calls} {g : Globals}
    {fs : List ThreadFrame} (hstack : s.stack 0 = [frame, .calls c]) (hheld : frame.holds = true)
    (hinside : inside s.globals [.calls c] frame = some (next :: fs, g)) (hnext : next.holds = true)
    (hregister : ∀ func arg, next ≠ .register func arg) (hmain : Main (next :: fs) g) :
    Inv (s.act 0 (inside s.globals [.calls c] frame)) := by
  rw [hinside]
  refine h.act_main ?_ hnext (fun func arg rest he => ?_) hmain
  · rw [hstack]
    exact hheld
  · exact hregister func arg (List.cons.inj he).1

theorem Inv.step_main (h : Inv s) (htimely : Timely s 0) (hstep : threadStep s 0 = some s') :
    Inv s' := by
  have hmain := h.place 0
  rw [Place, if_pos rfl] at hmain
  have hput : ∀ {fs g}, Main fs g → Place 0 fs g := fun hm => (if_pos rfl).mpr hm
  generalize hfs : s.stack 0 = fs at hmain
  generalize hg : s.globals = g at hmain
  cases hmain with
  | code stage hcode hknows =>
    subst hg
    by_cases hne : fs = stage.below
    · rw [threadStep, h.not_faulted, hfs, hne] at hstep
      cases stage with
      | before => cases hstep
      | after => cases hstep
      | handler c pre post =>
        obtain ⟨hc, hpost, late, hready⟩ := hknows
        obtain ⟨hmutex, rfl⟩ := Threads.lock_eq_some hstep
        exact h.setStack (Or.inr (Or.inl ⟨hmutex, rfl, rfl⟩)) (hput (.resume hc hready hpost))
          fun _ _ _ he _ => by cases he
    · subst hfs
      have hbelow : Holding stage.below = false := by cases stage <;> rfl
      refine h.of_codeStep
        (codeStep_of_step stage.closed hbelow h.not_faulted hcode hne htimely hstep)
        (fun fs hcode => hput (.code stage hcode hknows)) ?_ ?_
      · intro func arg hfunc _ hopen
        obtain ⟨g, hg, hnext, hgopen⟩ := stage.atexit hknows hopen hfunc arg
        exact ⟨g, hg, hgopen, fun fs hcode => hput (.code stage hcode hnext)⟩
      · intro rest hrest
        cases stage with
        | before =>
          obtain ⟨entries, hready⟩ := hknows
          exact hput (.restart hrest hready)
        | handler _ _ _ => cases hrest
        | after => cases hrest
  | @restart c entries _ hc hready =>
    rw [threadStep, h.not_faulted, hfs] at hstep
    obtain rfl := Option.some.inj hstep
    subst hg
    by_cases hempty : entries = []
    · subst hempty
      have hcount : ¬ s.globals.count > 0 := by
        rw [hready.table.count]
        exact Nat.lt_irrefl 0
      exact h.inside_main hfs rfl (if_neg hcount) rfl (fun _ _ he => by cases he)
        (.code .after (.unlock hc) (Or.inr ⟨[], hready⟩))
    · obtain ⟨pre, e, rfl⟩ := (List.eq_nil_or_concat' entries).resolve_left hempty
      have hcount : s.globals.count = (pre ++ [e]).length := hready.table.count
      have hindex : (pre ++ [e]).length - 1 = pre.length := by simp
      have hpos : s.globals.count > 0 := by
        rw [hcount]
        simp
      have hinside : inside s.globals [.calls c] .restart =
          some ([.scan (pre ++ [e]).length pre.length, .calls c], s.globals) := by
        rw [inside, if_pos hpos, hcount, hindex]
      exact h.inside_main hfs rfl hinside rfl (fun _ _ he => by cases he)
        (.scan hc hready fun f hf => absurd hf List.not_mem_nil)
  | @scan c pre post e _ hc hready hpost =>
    rw [threadStep, h.not_faulted, hfs] at hstep
    obtain rfl := Option.some.inj hstep
    subst hg
    obtain ⟨g, hread, htable⟩ := hready.table.read
    cases e with
    | uninitialized => exact absurd rfl (hready.table.written .uninitialized (by simp))
    | cleared =>
      obtain ⟨frame, g', hscan, hframe, hregister, hnext⟩ :=
        continueScan_main hc ⟨htable, hready.clean⟩ hpost
      have hinside : inside s.globals [.calls c]
          (.scan (pre ++ .cleared :: post).length pre.length) = some ([frame, .calls c], g') := by
        rw [inside, hread]
        exact hscan
      exact h.inside_main hfs rfl hinside hframe hregister hnext
    | handler fn arg =>
      obtain ⟨g', hwrite, htable'⟩ := htable.call hpost
      have hclean := hready.clean
      rw [List.all_append, List.all_cons, Bool.and_eq_true, Bool.and_eq_true] at hclean
      have hready' :
          Ready (pre ++ .cleared :: post ++ []) (g'.log (.called pre.length fn arg)) := by
        rw [List.append_nil]
        refine ⟨htable', ?_⟩
        rw [List.all_append, List.all_cons, hclean.1, hclean.2.2]
        rfl
      have hlen : (pre ++ .handler fn arg :: post).length = (pre ++ .cleared :: post).length := by
        simp
      have hinside : inside s.globals [.calls c]
          (.scan (pre ++ .handler fn arg :: post).length pre.length) =
          some (.unlock :: .calls fn ::
            [.await (pre ++ .cleared :: post).length pre.length, .calls c],
            g'.log (.called pre.length fn arg)) := by
        rw [inside, hread, ← hlen]
        simp only [Option.bind_eq_bind, Option.bind_some, hwrite, Option.pure_def]
      exact h.inside_main hfs rfl hinside rfl (fun _ _ he => by cases he)
        (.code (.handler c pre post) (.unlock hclean.2.1) ⟨hc, hpost, [], hready'⟩)
  | @resume c pre post late _ hc hready hpost =>
    rw [threadStep, h.not_faulted, hfs] at hstep
    obtain rfl := Option.some.inj hstep
    subst hg
    have hcount := hready.table.count
    rw [List.length_append] at hcount
    cases late with
    | nil =>
      rw [List.append_nil] at hready
      obtain ⟨frame, g', hscan, hframe, hregister, hnext⟩ := continueScan_main hc hready hpost
      have hinside : inside s.globals [.calls c]
          (.resume (pre ++ .cleared :: post).length pre.length) = some ([frame, .calls c], g') := by
        rw [inside, if_neg (by simpa using hcount)]
        exact hscan
      exact h.inside_main hfs rfl hinside hframe hregister hnext
    | cons e late =>
      have hmore : s.globals.count ≠ (pre ++ .cleared :: post).length := by
        rw [hcount, List.length_cons]
        omega
      exact h.inside_main hfs rfl (if_pos hmore) rfl (fun _ _ he => by cases he)
        (.restart hc hready)

end

theorem Inv.start {programs : Nat → Calls} (hmain : (programs 0).finalizesOnce = true)
    (hothers : ∀ t, t ≠ 0 → (programs t).finalizeFree = true) : Inv (threadsStart programs) where
  not_faulted := rfl
  mutex t := by simp [threadsStart, Holding, ThreadFrame.holds]
  place t := by
    unfold Place
    split
    · rename_i ht
      subst ht
      exact .code .before (.calls hmain) ⟨[], table_initial, rfl⟩
    · rename_i ht
      exact .calls (hothers t ht)
  unreleased t _ _ _ he := by cases he

theorem Main.sound {fs : List ThreadFrame} {g : Globals} (h : Main fs g) :
    ∃ pending, Sound g.count pending g.trace ∧ (g.gArray = .freed → pending = []) := by
  have hready : ∀ {entries}, Ready entries g →
      ∃ pending, Sound g.count pending g.trace ∧ (g.gArray = .freed → pending = []) :=
    fun hr => ⟨_, hr.table.sound, fun hf => absurd hf hr.table.not_freed⟩
  cases h with
  | code stage _ hknows =>
    cases stage with
    | before =>
      obtain ⟨_, hr⟩ := hknows
      exact hready hr
    | handler c pre post =>
      obtain ⟨_, _, _, hr⟩ := hknows
      exact hready hr
    | after =>
      obtain hreleased | ⟨_, hr⟩ := hknows
      · exact ⟨[], hreleased.sound, fun _ => rfl⟩
      · exact hready hr
  | restart _ hr => exact hready hr
  | scan _ hr _ => exact hready hr
  | resume _ hr _ => exact hready hr

/-- A thread that holds the mutex can go on, and without a holder any thread can. -/
theorem Inv.exists_step {s : Threads} (h : Inv s) (hopen : ∃ t, s.stack t ≠ []) :
    ∃ t, (threadStep s t).isSome = true := by
  cases hm : s.mutex with
  | some t =>
    have hheld := (h.mutex t).mp hm
    refine ⟨t, ?_⟩
    rw [threadStep, h.not_faulted]
    generalize s.stack t = fs at hheld
    cases fs with
    | nil => cases hheld
    | cons frame fs =>
      cases frame with
      | calls c => cases hheld
      | await total i => cases hheld
      | _ => rfl
  | none =>
    obtain ⟨t, ht⟩ := hopen
    have hfree : Holding (s.stack t) = false := by
      rw [← Bool.not_eq_true, ← h.mutex t, hm]
      exact nofun
    have hlock : ∀ fs, (s.lock t fs).isSome = true := by
      intro fs
      rw [Threads.lock, if_pos hm]
      rfl
    refine ⟨t, ?_⟩
    rw [threadStep, h.not_faulted]
    generalize s.stack t = fs at hfree ht
    cases fs with
    | nil => exact absurd rfl ht
    | cons frame fs =>
      cases frame with
      | calls c =>
        cases c with
        | done => rfl
        | atexit func arg rest => exact hlock _
        | atexitNull arg rest => rfl
        | finalize rest => exact hlock _
      | await total i => exact hlock _
      | register func arg => cases hfree
      | restart => cases hfree
      | scan total i => cases hfree
      | resume total i => cases hfree
      | unlock => cases hfree

def twoPrograms (t : Nat) : Calls :=
  if t = 0 then .atexit .done 1 (.finalize .done)
  else if t = 1 then .atexit .done 2 .done
  else .done

def twoSchedule : List Nat :=
  List.replicate 7 0 ++ List.replicate 4 1 ++ List.replicate 12 0

example : ((run threadStep (threadsStart twoPrograms) twoSchedule).map fun s =>
      (callsMade s.globals.trace, s.globals.gArray)) =
    some ([(0, .done, 1), (1, .done, 2)], .freed) := by
  decide +kernel

end ZygiskAssistant.Atexit
