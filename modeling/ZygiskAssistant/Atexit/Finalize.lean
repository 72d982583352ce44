import ZygiskAssistant.Atexit.Outcome

/-!
# Order and safety of exit handlers

Registrations and one finalization call every handler once, the last one
first, also when handlers register more. For any other use of the two
functions the table is safe only if the first finalization that finds a
handler is also the last call that touches the table.
-/

namespace ZygiskAssistant.Atexit

open DetRun LifoLog

theorem restart_outcome {entries : List AtexitEntry} {g : Globals} (h : Table entries g)
    (hne : entries ≠ []) (stack : List Frame) :
    Outcome (entries.all AtexitEntry.clean) (entries.length + later entries) stack
      (.restart :: stack, g) :=
  .restart h hne (scan_outcome _ rfl hne (by simp) (by simpa using h))

theorem restart_empty {g : Globals} (h : Table [] g) (stack : List Frame) :
    step (.restart :: stack, g) = some (stack, g) := by
  rw [step, h.count]
  rfl

def registrations (trace : List Event) : List (Nat × Calls × Nat) := pushes (stackEvents trace)

def callsMade (trace : List Event) : List (Nat × Calls × Nat) := pops (stackEvents trace)

theorem Sound.called_last {n : Nat} {pending : List (Nat × Calls × Nat)} {pre post : List Event}
    {i arg : Nat} {fn : Calls} (h : Sound n pending (pre ++ .called i fn arg :: post)) :
    ((registrations pre).filter fun r => r ∉ callsMade pre).getLast? = some (i, fn, arg) := by
  have hsplit : stackEvents (pre ++ .called i fn arg :: post) =
      stackEvents pre ++ .pop (i, fn, arg) :: stackEvents post := by
    simp [stackEvents]
  have hlifo := h.lifo
  have hnodup := h.nodup
  rw [hsplit] at hlifo hnodup
  have hlast := replay_pop hlifo hnodup
  rw [registrations, callsMade]
  convert hlast

theorem Sound.all_called {n : Nat} {trace : List Event} (h : Sound n [] trace) :
    (callsMade trace).Perm (registrations trace) := by
  have hperm := replay_perm h.lifo
  rw [List.append_nil] at hperm
  exact hperm.symm

def registerAndFinalize : List (Calls × Nat) → Calls
  | [] => .finalize .done
  | (func, arg) :: regs => .atexit func arg (registerAndFinalize regs)

def handlerCount (regs : List (Calls × Nat)) : Nat := (regs.map fun r => r.1.size + 1).sum

theorem registerAndFinalize_spec (regs : List (Calls × Nat)) :
    (registerAndFinalize regs).after = some .done ∧
      (registerAndFinalize regs).entries = regs.map (fun r => .handler r.1 r.2) := by
  induction regs with
  | nil => exact ⟨rfl, rfl⟩
  | cons r regs ih =>
    obtain ⟨func, arg⟩ := r
    exact ⟨ih.1, congrArg (AtexitEntry.handler func arg :: ·) ih.2⟩

theorem length_add_later (regs : List (Calls × Nat)) :
    (regs.map fun r => AtexitEntry.handler r.1 r.2).length +
      later (regs.map fun r => .handler r.1 r.2) = handlerCount regs := by
  induction regs with
  | nil => rfl
  | cons r regs ih =>
    simp only [handlerCount, List.map_cons, List.length_cons, later_cons, AtexitEntry.later,
      List.sum_cons] at ih ⊢
    omega

theorem registerAndFinalize_reaches {regs : List (Calls × Nat)}
    (h : ∀ r ∈ regs, r.1.finalizeFree = true) :
    ∃ g, Reaches step (start (registerAndFinalize regs)) ([], g) ∧
      Sound (handlerCount regs) [] g.trace := by
  obtain ⟨hafter, hentries⟩ := registerAndFinalize_spec regs
  obtain ⟨g, hg, hreach⟩ := calls_reaches (registerAndFinalize regs) table_initial []
  rw [hafter] at hreach
  rw [List.nil_append, hentries] at hg
  have hdone : ∀ g, Reaches step ([.calls .done], g) ([], g) := fun g => .head rfl (.refl _)
  by_cases hne : regs = []
  · subst hne
    have hsound := hg.sound
    rw [hg.count] at hsound
    exact ⟨g, hreach.trans (.head (restart_empty hg _) (hdone g)), hsound⟩
  · have hclean : (regs.map fun r => AtexitEntry.handler r.1 r.2).all AtexitEntry.clean = true := by
      simpa [AtexitEntry.clean] using fun func arg hr => h (func, arg) hr
    obtain ⟨g', hg', hcount, hloop⟩ := (restart_outcome hg (by simpa using hne) _).1 hclean
    have hsound := hg'.sound
    rw [hcount, length_add_later] at hsound
    exact ⟨g', hreach.trans (hloop.trans (hdone g')), hsound⟩

/-- The use of the table that is safe, after these handlers were registered: a finalization
that finds a handler finds none that finalizes in turn, and nothing touches the table after it. -/
def Calls.wellUsed (entries : List AtexitEntry) : Calls → Bool
  | done => true
  | atexit func arg rest => rest.wellUsed (entries ++ [.handler func arg])
  | atexitNull _ rest => rest.wellUsed entries
  | finalize rest =>
    if entries.isEmpty then rest.wellUsed [] else entries.all AtexitEntry.clean && rest.inert

/-- A program that uses the table well runs to its end, and any other one faults. -/
theorem calls_outcome (c : Calls) {entries : List AtexitEntry} {g : Globals} (h : Table entries g) :
    (c.wellUsed entries = true → ∃ g', Reaches step ([.calls c], g) ([], g')) ∧
      (c.wellUsed entries = false → Faults step Finished ([.calls c], g)) := by
  induction c generalizing entries g with
  | done => exact ⟨fun _ => ⟨g, .head rfl (.refl _)⟩, fun hw => absurd hw (by simp [Calls.wellUsed])⟩
  | atexit func arg rest _ ih =>
    obtain ⟨g', hg', h'⟩ := h.atexit func arg
    have hstep : step ([.calls (.atexit func arg rest)], g) = some ([.calls rest], g') := by
      rw [step, hg']
      rfl
    obtain ⟨hrun, hfault⟩ := ih h'
    refine ⟨fun hw => ?_, fun hw => .of_reaches (.head hstep (.refl _)) (hfault hw)⟩
    obtain ⟨g'', hreach⟩ := hrun hw
    exact ⟨g'', .head hstep hreach⟩
  | atexitNull arg rest ih =>
    obtain ⟨hrun, hfault⟩ := ih h
    refine ⟨fun hw => ?_, fun hw => .of_reaches (.head rfl (.refl _)) (hfault hw)⟩
    obtain ⟨g', hreach⟩ := hrun hw
    exact ⟨g', .head rfl hreach⟩
  | finalize rest ih =>
    have henter : Reaches step ([.calls (.finalize rest)], g) ([.restart, .calls rest], g) :=
      .head rfl (.refl _)
    by_cases hne : entries = []
    · subst hne
      have hback := henter.trans (.head (restart_empty h [.calls rest]) (.refl _))
      obtain ⟨hrun, hfault⟩ := ih h
      refine ⟨fun hw => ?_, fun hw => .of_reaches hback (hfault hw)⟩
      obtain ⟨g', hreach⟩ := hrun hw
      exact ⟨g', hback.trans hreach⟩
    · have hused : (Calls.finalize rest).wellUsed entries =
          (entries.all AtexitEntry.clean && rest.inert) := by
        simp [Calls.wellUsed, hne]
      obtain ⟨hfree, hfault⟩ := restart_outcome h hne [.calls rest]
      rw [hused]
      cases hc : entries.all AtexitEntry.clean with
      | false => exact ⟨fun hw => absurd hw (by simp), fun _ => .of_reaches henter (hfault hc)⟩
      | true =>
        obtain ⟨g', hg', _, hloop⟩ := hfree hc
        obtain ⟨hinert, htouch⟩ := calls_freed rest hg'.freed hg'.count_pos []
        rw [Bool.true_and]
        exact ⟨fun hi => ⟨g', henter.trans (hloop.trans (hinert hi))⟩,
          fun hi => .of_reaches (henter.trans hloop) (htouch hi)⟩

theorem table_safe_iff (c : Calls) : Safe step Finished (start c) ↔ c.wellUsed [] = true := by
  obtain ⟨hrun, hfault⟩ := calls_outcome c table_initial
  constructor
  · intro hsafe
    rw [← Bool.not_eq_false]
    intro hw
    exact (hfault hw).not_safe hsafe
  · intro hw
    obtain ⟨g, hreach⟩ := hrun hw
    exact safe_of_reaches hreach rfl rfl

/-- One handler and two finalizations, a handler that finalizes, and a registration after the
finalization: each reads or writes the freed table. -/
theorem table_not_safe :
    ¬ Safe step Finished (start (.atexit .done 1 (.finalize (.finalize .done)))) ∧
      ¬ Safe step Finished (start (.atexit (.finalize .done) 1 (.finalize .done))) ∧
      ¬ Safe step Finished (start (.atexit .done 1 (.finalize (.atexit .done 2 .done)))) := by
  refine ⟨?_, ?_, ?_⟩ <;>
    exact ((calls_outcome _ table_initial).2 (by decide)).not_safe

end ZygiskAssistant.Atexit
