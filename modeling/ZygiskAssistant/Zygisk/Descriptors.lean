import ZygiskAssistant.Zygisk.Lifecycle

/-!
# The descriptors that outlive the namespace

A descriptor of a regular file belongs to the mounts under which it was opened.
The hook of `unshare` says of a second call that it breaks the descriptors: this
is the condition, over the whole life of the process, under which each of those
that `ScopedRegularReopener` keeps has been reopened after the last change of
the mounts.
-/

namespace ZygiskAssistant.Zygisk

/-- The mounts under which a path is looked up may change. -/
def Event.movesMounts : Event → Bool
  | .unshare flags ret => ret == 0 && flags &&& cloneNewns != 0#32
  | .mountSlave _ => true
  -- from the request to the answer, the child of the companion is at work
  | .write _ _ => true
  | .read _ _ => true
  | .doUnmount => true
  | _ => false

/-- Whatever has changed the mounts, the descriptor has been reopened since. -/
def Fresh (fd : Int) (trace : List Event) : Prop :=
  ∀ before e after, trace = before ++ e :: after → e.movesMounts = true → .reopen fd ∈ after

def Call.makesNs : Call → Bool
  | .unshare flags ok => ok && flags &&& cloneNewns != 0#32
  | .setresuid _ _ _ _ => false

section Fresh

variable {fd : Int}

theorem fresh_cons (e : Event) (trace : List Event) :
    Fresh fd (e :: trace) ↔ (e.movesMounts = true → .reopen fd ∈ trace) ∧ Fresh fd trace := by
  constructor
  · intro h
    refine ⟨fun he => h [] e trace rfl he, ?_⟩
    rintro before f after rfl hf
    exact h (e :: before) f after rfl hf
  · rintro ⟨hhead, htail⟩ before f after heq hf
    cases before with
    | nil =>
      obtain ⟨rfl, rfl⟩ := List.cons.inj heq
      exact hhead hf
    | cons d before =>
      obtain ⟨rfl, rfl⟩ := List.cons.inj heq
      exact htail before f after rfl hf

theorem fresh_append (l r : List Event) :
    Fresh fd (l ++ r) ↔ Fresh fd r ∧ (Fresh fd l ∨ .reopen fd ∈ r) := by
  induction l with
  | nil =>
    have hnil : Fresh fd [] := fun before e after h => by simp at h
    simp [hnil]
  | cons e l ih =>
    rw [List.cons_append, fresh_cons, fresh_cons, ih, List.mem_append]
    tauto

theorem fresh_of_still {trace : List Event} (h : ∀ e ∈ trace, e.movesMounts = false) :
    Fresh fd trace := by
  rintro before e after rfl he
  rw [h e (by simp)] at he
  cases he

theorem fresh_iff_still {trace : List Event} (hno : .reopen fd ∉ trace) :
    Fresh fd trace ↔ ∀ e ∈ trace, e.movesMounts = false := by
  refine ⟨fun h e he => ?_, fresh_of_still⟩
  obtain ⟨before, after, rfl⟩ := List.append_of_mem he
  rw [← Bool.not_eq_true]
  intro hm
  exact hno (List.mem_append_right before (List.mem_cons_of_mem e (h before e after rfl hm)))

end Fresh

theorem verbatim_still_iff (c : Call) :
    (∀ e ∈ verbatim c, e.movesMounts = false) ↔ c.makesNs = false := by
  cases c with
  | unshare flags ok => cases ok <;> simp [verbatim, Event.movesMounts, Call.makesNs, retOf]
  | setresuid ruid euid suid ok => simp [verbatim, Event.movesMounts, Call.makesNs]

theorem reopen_notMem_verbatim (fd : Int) (calls : List Call) :
    .reopen fd ∉ calls.flatMap verbatim := by
  intro h
  obtain ⟨c, _, hc⟩ := List.mem_flatMap.mp h
  cases c <;> simp [verbatim] at hc

theorem fresh_verbatim (fd : Int) (calls : List Call) :
    Fresh fd (calls.flatMap verbatim) ↔ ∀ c ∈ calls, c.makesNs = false := by
  rw [fresh_iff_still (reopen_notMem_verbatim fd calls)]
  simp only [List.mem_flatMap, forall_exists_index, and_imp, ← verbatim_still_iff]
  exact ⟨fun h c hc e he => h e c hc he, fun h e c hc he => h c hc e he⟩

theorem fresh_forwarded (fd : Int) (calls : List Call) : Fresh fd (calls.flatMap forwarded) := by
  apply fresh_of_still
  intro e he
  obtain ⟨flags, ret, rfl⟩ | ⟨_, _, _, _, rfl⟩ := forwarded_cases he
  · rw [Event.movesMounts, stripped_newns, Bool.and_false]
  · rfl

theorem reopen_notMem_forwarded (fd : Int) (calls : List Call) :
    .reopen fd ∉ calls.flatMap forwarded := by
  intro h
  obtain ⟨_, _, hc⟩ | ⟨_, _, _, _, hc⟩ := forwarded_cases h
  · cases hc
  · cases hc

/-- The destructor runs last, on both ways out of the body. -/
theorem fresh_bodyEvents {cb : CallbackEnv} {fd : Int}
    (hfd : fd ∈ scopedRegularReopener cb.openFds) (companion : Int) :
    Fresh fd (bodyEvents cb companion) := by
  unfold bodyEvents
  rw [fresh_append]
  refine ⟨fresh_of_still fun e he => ?_, Or.inr (List.mem_map_of_mem hfd)⟩
  obtain ⟨_, _, rfl⟩ := List.mem_map.mp he
  rfl

theorem reopen_mem_bodyEvents {cb : CallbackEnv} {fd companion : Int}
    (h : .reopen fd ∈ bodyEvents cb companion) : fd ∈ scopedRegularReopener cb.openFds := by
  unfold bodyEvents at h
  obtain h | h := List.mem_append.mp h
  · obtain h | h := List.mem_append.mp h
    · unfold newMountNsEvents at h
      cases cb.unshareOk <;> simp at h
    · split at h
      · obtain ⟨_, hc⟩ | ⟨_, hc⟩ | hc | hc | hc := hidingEvents_cases h
        all_goals cases hc
      · cases h
  · obtain ⟨fd', hfd, heq⟩ := List.mem_map.mp h
    obtain rfl := Event.reopen.inj heq
    exact hfd

theorem cleanupEvents_still {app : AppEnv} {e : Event} (he : e ∈ cleanupEvents app) :
    e.movesMounts = false := by
  obtain ⟨fd, rfl⟩ := cleanupEvents_none he
  rfl

theorem fresh_ownEvents {cb : CallbackEnv} {fd : Int}
    (hfd : fd ∈ scopedRegularReopener cb.openFds) (app : AppEnv) (calls : List Call) :
    Fresh fd (ownEvents app cb calls) := by
  unfold ownEvents
  split
  · rw [fresh_append]
    split
    · exact ⟨fresh_of_still (by simp), Or.inl (fresh_of_still fun _ => cleanupEvents_still)⟩
    · exact ⟨fresh_bodyEvents hfd _, Or.inl (fresh_of_still fun _ => cleanupEvents_still)⟩
  · exact fresh_of_still (by simp)

theorem reopen_mem_ownEvents {app : AppEnv} {cb : CallbackEnv} {calls : List Call} {fd : Int}
    (h : .reopen fd ∈ ownEvents app cb calls) : fd ∈ scopedRegularReopener cb.openFds := by
  unfold ownEvents at h
  split at h
  · obtain h | h := List.mem_append.mp h
    · obtain ⟨_, hc⟩ := cleanupEvents_none h
      cases hc
    · split at h
      · cases h
      · exact reopen_mem_bodyEvents h
  · cases h

theorem fresh_events (m : Mode) (fd : Int) (calls : List Call) :
    Fresh fd (calls.flatMap m.events) ↔
      (m = .transparent → ∀ c ∈ calls, c.makesNs = false) := by
  cases m
  · simpa [Mode.events] using fresh_verbatim fd calls
  · simpa [Mode.events] using fresh_forwarded fd calls
  · simpa [Mode.events] using fresh_forwarded fd calls

theorem reopen_notMem_events (m : Mode) (fd : Int) (calls : List Call) :
    .reopen fd ∉ calls.flatMap m.events := by
  cases m
  · exact reopen_notMem_verbatim fd calls
  · exact reopen_notMem_forwarded fd calls
  · exact reopen_notMem_forwarded fd calls

/-- In every life of an app process, the descriptors that are kept to be reopened belong in the
end to the mounts of the process, exactly if there are none, or if no unhooked call of the
runtime has made a namespace; and no other descriptor is ever reopened. -/
theorem descriptors_fresh_iff {plt : PltEnv} (hu : plt.postUnshareCommit = true)
    (hr : plt.postSetresuidCommit = true) (app : AppEnv) (cb : CallbackEnv)
    (calls later : List Call) :
    ∃ rets p, lifecycle plt app cb calls later = some (rets, p) ∧
      ((∀ fd ∈ scopedRegularReopener cb.openFds, Fresh fd p.trace) ↔
        scopedRegularReopener cb.openFds = [] ∨
          (mode (app.reading plt) = .transparent → ∀ c ∈ calls, c.makesNs = false) ∧
          ∀ c ∈ later, c.makesNs = false) ∧
      ∀ fd, .reopen fd ∈ p.trace → fd ∈ scopedRegularReopener cb.openFds := by
  obtain ⟨p, hrun, htrace⟩ := lifecycle_log hu hr app cb calls later
  have hone : ∀ fd ∈ scopedRegularReopener cb.openFds, (Fresh fd p.trace ↔
      (mode (app.reading plt) = .transparent → ∀ c ∈ calls, c.makesNs = false) ∧
        ∀ c ∈ later, c.makesNs = false) := by
    intro fd hfd
    have hlater := reopen_notMem_verbatim fd later
    have hcalls := reopen_notMem_events (mode (app.reading plt)) fd calls
    have hown := fresh_ownEvents hfd (app.reading plt) calls
    rw [htrace, fresh_append, fresh_append, fresh_events, fresh_verbatim]
    tauto
  refine ⟨_, p, hrun, ?_, ?_⟩
  · cases hkept : scopedRegularReopener cb.openFds with
    | nil => simp
    | cons fd fds =>
      rw [hkept] at hone
      constructor
      · intro h
        exact Or.inr ((hone fd List.mem_cons_self).mp (h fd List.mem_cons_self))
      · rintro (hnil | h)
        · cases hnil
        · exact fun fd hfd => (hone fd hfd).mpr h
  · intro fd h
    rw [htrace] at h
    obtain h | h := List.mem_append.mp h
    · obtain h | h := List.mem_append.mp h
      · exact reopen_mem_ownEvents h
      · exact absurd h (reopen_notMem_events _ fd calls)
    · exact absurd h (reopen_notMem_verbatim fd later)

theorem descriptors_fresh_sample :
    ∃ rets p, lifecycle samplePlt sampleApp sampleEnv [.unshare cloneNewns true] [] =
        some (rets, p) ∧ Fresh 5 p.trace := by
  obtain ⟨rets, p, hrun, hfresh, _⟩ := @descriptors_fresh_iff samplePlt rfl rfl sampleApp sampleEnv
    [.unshare cloneNewns true] []
  have hmode : mode (sampleApp.reading samplePlt) = .hiding := by decide
  have hkept : (5 : Int) ∈ scopedRegularReopener sampleEnv.openFds := by decide
  have hcond : mode (sampleApp.reading samplePlt) = .transparent →
      ∀ c ∈ [Call.unshare cloneNewns true], c.makesNs = false := by
    rw [hmode]
    intro h
    cases h
  exact ⟨rets, p, hrun, hfresh.mpr (Or.inr ⟨hcond, by simp⟩) 5 hkept⟩

end ZygiskAssistant.Zygisk
