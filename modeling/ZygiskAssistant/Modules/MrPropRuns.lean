import ZygiskAssistant.Lib.LabelledRun
import ZygiskAssistant.Modules.MrProp

/-!
# doMrProp beside other writers

The scrubbing loop copies a value in one step and stores it in another, while
other processes set properties and add new ones. If nobody sets a record
between its copy and its store, the other processes cannot tell that the loop
was there.
-/

namespace ZygiskAssistant.Modules

open CString LabelledRun Utils

structure MrRun where
  area : List PropInfo
  todo : List Nat
  /-- The record under reset, with its copy and the length of that. -/
  held : Option (Nat × Str × Nat)
  resetCount : Nat

inductive MrLabel
  | inspect
  | store
  /-- Another process. -/
  | assign (i : Nat) (value : Str)
  | add (pi : PropInfo)

abbrev Assign := PropInfo → Str → PropInfo

def mrStep (sp : SystemProperties) (buffer : Str) (assign : Assign) (s : MrRun) :
    MrLabel → Option MrRun
  | .inspect =>
    match s.todo, s.held with
    | i :: todo, none =>
      match s.area[i]? with
      | none => some { s with todo := todo }
      | some pi =>
        if shouldResetProperty sp pi then do
          let (buffer, length) ← safeStringCopy buffer pi.value propValueMax
          return { s with todo := todo, held := some (i, buffer, length) }
        else some { s with todo := todo }
    | _, _ => none
  | .store =>
    s.held.map fun (i, buffer, length) =>
      { s with
        area := s.area.modify i fun pi => sp.update pi buffer length
        held := none
        resetCount := s.resetCount + 1 }
  | .assign i value => some { s with area := s.area.modify i fun pi => assign pi value }
  | .add pi => some { s with area := s.area ++ [pi] }

def mrStart (sp : SystemProperties) (s : MrPropState) : MrRun where
  area := s.area
  todo := sp.visited s.area.length
  held := none
  resetCount := s.resetCount

def MrLabel.IsOwn : MrLabel → Prop
  | .inspect => True
  | .store => True
  | _ => False

/-- The name and the value of a record, and all of it if it is not read-only. -/
structure PropView where
  name : Str
  value : Str
  writable : Option PropInfo

def view (pi : PropInfo) : PropView where
  name := pi.name
  value := contents pi.value
  writable := if startsWith pi.name readOnlyPrefix then none else some pi

/-- What the other processes do to their view of the area. -/
def viewStep (assign : Assign) (views : List PropView) : MrLabel → List PropView
  | .assign i value => views.modify i fun v =>
    { v with value := value, writable := v.writable.map fun pi => assign pi value }
  | .add pi => views ++ [view pi]
  | _ => views

/-- The value that is assigned is the one that is then read. -/
structure Faithful (assign : Assign) : Prop where
  name : ∀ pi value, (assign pi value).name = pi.name
  contents : ∀ pi value, nul ∉ value → value.length < propValueMax →
    contents (assign pi value).value = value

/-- Values fit, and nobody sets the record whose copy is not stored yet. -/
def Exclusive (s : MrRun) : MrLabel → Prop
  | .assign i value => nul ∉ value ∧ value.length < propValueMax ∧ ∀ copy ∈ s.held, copy.1 ≠ i
  | _ => True

/-- The copy is the value of its record, which is still to be reset. -/
def Holds (sp : SystemProperties) (s : MrRun) : Prop :=
  ∀ i buffer length, s.held = some (i, buffer, length) → ∃ pi, s.area[i]? = some pi ∧
    shouldResetProperty sp pi = true ∧ length = (contents pi.value).length ∧
    buffer.take length = contents pi.value

/-- Still to be visited, or held, or done. -/
def Covered (sp : SystemProperties) (i : Nat) (s : MrRun) : Prop :=
  ∀ pi, s.area[i]? = some pi → shouldResetProperty sp pi = true →
    i ∈ s.todo ∨ ∃ copy ∈ s.held, copy.1 = i

theorem map_modify {α β : Type} {g : α → β} {f : α → α} (f' : β → β)
    (h : ∀ a, g (f a) = f' (g a)) (l : List α) (i : Nat) : (l.modify i f).map g = (l.map g).modify i f' := by
  induction l generalizing i with
  | nil => rw [List.modify_nil, List.map_nil, List.modify_nil]
  | cons a l ih =>
    cases i with
    | zero => exact congrArg (· :: l.map g) (h a)
    | succ i => exact congrArg (g a :: ·) (ih i)

theorem modify_congr {α : Type} {f f' : α → α} {l : List α} {i : Nat} {a : α}
    (hi : l[i]? = some a) (h : f a = f' a) : l.modify i f = l.modify i f' := by
  induction l generalizing i with
  | nil => cases hi
  | cons b l ih =>
    cases i with
    | zero =>
      obtain rfl := Option.some.inj hi
      exact congrArg (· :: l) h
    | succ i => exact congrArg (b :: ·) (ih hi)

theorem view_assign {assign : Assign} (ha : Faithful assign) (pi : PropInfo) {value : Str}
    (hnul : nul ∉ value) (hlen : value.length < propValueMax) :
    view (assign pi value) = { view pi with
      value := value, writable := (view pi).writable.map fun pi => assign pi value } := by
  unfold view
  rw [ha.name, ha.contents pi value hnul hlen]
  split
  · rfl
  · rfl

section Documented

variable {sp : SystemProperties} (h : sp.Documented)
include h

theorem view_scrub (pi : PropInfo) : view (scrub sp pi) = view pi := by
  obtain ⟨hname, hvalue, _⟩ := scrub_spec h pi
  unfold view
  rw [hname, hvalue]
  split
  · rfl
  · rename_i hro
    have hno : shouldResetProperty sp pi = false := by
      rw [Bool.eq_false_iff, ne_eq, shouldResetProperty_iff]
      exact fun hres => hro hres.1
    rw [scrub, hno]
    rfl

theorem map_view_scrub (area : List PropInfo) (i : Nat) :
    (area.modify i (scrub sp)).map view = area.map view := by
  rw [map_modify id (view_scrub h), List.modify_id]

theorem Holds.store {s : MrRun} (hs : Holds sp s) {i : Nat} {buffer : Str} {length : Nat}
    (hheld : s.held = some (i, buffer, length)) :
    s.area.modify i (fun pi => sp.update pi buffer length) = s.area.modify i (scrub sp) := by
  obtain ⟨pi, hpi, hres, rfl, hcopy⟩ := hs i buffer length hheld
  obtain ⟨hro, hshort, _⟩ := (shouldResetProperty_iff sp pi).mp hres
  refine modify_congr hpi ?_
  rw [scrub, if_pos hres]
  exact update_contents h hro hshort hcopy

theorem mrStep_view {buffer : Str} (hb : buffer.length = propValueMax) {assign : Assign}
    (ha : Faithful assign) {s t : MrRun} {l : MrLabel} (hs : Holds sp s) (hl : Exclusive s l)
    (hstep : mrStep sp buffer assign s l = some t) :
    Holds sp t ∧ t.area.map view = viewStep assign (s.area.map view) l := by
  cases l with
  | inspect =>
    simp only [mrStep] at hstep
    split at hstep
    · rename_i i todo htodo hheld
      split at hstep
      · obtain rfl := Option.some.inj hstep
        exact ⟨hs, rfl⟩
      · rename_i pi hpi
        split at hstep
        · rename_i hres
          rw [safeStringCopy_terminated pi.terminated (Nat.le_of_eq hb.symm)
            (contents_value_lt pi)] at hstep
          obtain rfl := Option.some.inj hstep
          refine ⟨fun j copy length hj => ?_, rfl⟩
          cases hj
          exact ⟨pi, hpi, hres, rfl, List.take_left⟩
        · obtain rfl := Option.some.inj hstep
          exact ⟨hs, rfl⟩
    · cases hstep
  | store =>
    obtain ⟨⟨i, copy, length⟩, hheld, rfl⟩ := Option.map_eq_some_iff.mp hstep
    refine ⟨fun _ _ _ hn => (by cases hn), ?_⟩
    dsimp only
    rw [hs.store h hheld]
    exact map_view_scrub h s.area i
  | assign i value =>
    obtain ⟨hnul, hlen, hfree⟩ := hl
    obtain rfl := Option.some.inj hstep
    refine ⟨fun j copy length hj => ?_, map_modify _ (fun pi => view_assign ha pi hnul hlen) s.area i⟩
    obtain ⟨pi, hpi, hrest⟩ := hs j copy length hj
    refine ⟨pi, ?_, hrest⟩
    dsimp only
    rw [List.getElem?_modify_ne _ _ (hfree _ hj).symm]
    exact hpi
  | add pi =>
    obtain rfl := Option.some.inj hstep
    refine ⟨fun j copy length hj => ?_, List.map_append⟩
    obtain ⟨q, hq, hrest⟩ := hs j copy length hj
    refine ⟨q, ?_, hrest⟩
    dsimp only
    rw [List.getElem?_append_left (List.getElem?_eq_some_iff.mp hq).1]
    exact hq

theorem mrStep_covered {buffer : Str} (hb : buffer.length = propValueMax) {assign : Assign}
    {s t : MrRun} {l : MrLabel} {i : Nat} (hi : i < s.area.length) (hs : Holds sp s)
    (hcovered : Covered sp i s) (hl : ∀ value, l ≠ .assign i value)
    (hstep : mrStep sp buffer assign s l = some t) : Covered sp i t ∧ i < t.area.length := by
  cases l with
  | inspect =>
    simp only [mrStep] at hstep
    split at hstep
    · rename_i j todo htodo hheld
      have hothers : ∀ pi, s.area[i]? = some pi → shouldResetProperty sp pi = true → i = j ∨
          i ∈ todo := by
        intro pi hpi hres
        obtain hin | ⟨copy, hcopy, _⟩ := hcovered pi hpi hres
        · rw [htodo] at hin
          exact List.mem_cons.mp hin
        · rw [hheld] at hcopy
          cases hcopy
      split at hstep
      · rename_i hnone
        obtain rfl := Option.some.inj hstep
        refine ⟨fun pi hpi hres => ?_, hi⟩
        obtain rfl | hin := hothers pi hpi hres
        · cases hnone.symm.trans hpi
        · exact Or.inl hin
      · rename_i q hq
        split at hstep
        · rw [safeStringCopy_terminated q.terminated (Nat.le_of_eq hb.symm)
            (contents_value_lt q)] at hstep
          obtain rfl := Option.some.inj hstep
          refine ⟨fun pi hpi hres => ?_, hi⟩
          obtain rfl | hin := hothers pi hpi hres
          · exact Or.inr ⟨_, rfl, rfl⟩
          · exact Or.inl hin
        · rename_i hno
          obtain rfl := Option.some.inj hstep
          refine ⟨fun pi hpi hres => ?_, hi⟩
          obtain rfl | hin := hothers pi hpi hres
          · obtain rfl := Option.some.inj (hpi.symm.trans hq)
            exact absurd hres hno
          · exact Or.inl hin
    · cases hstep
  | store =>
    obtain ⟨⟨j, copy, length⟩, hheld, rfl⟩ := Option.map_eq_some_iff.mp hstep
    refine ⟨fun pi hpi hres => ?_, by simpa using hi⟩
    dsimp only at hpi
    rw [hs.store h hheld] at hpi
    by_cases hj : j = i
    · subst hj
      rw [List.getElem?_modify_eq] at hpi
      obtain ⟨q, _, rfl⟩ := Option.map_eq_some_iff.mp hpi
      rw [(scrub_spec h q).2.2] at hres
      cases hres
    · rw [List.getElem?_modify_ne _ _ hj] at hpi
      obtain hin | ⟨held, hcopy, hheldi⟩ := hcovered pi hpi hres
      · exact Or.inl hin
      · obtain rfl := Option.some.inj (hheld.symm.trans hcopy)
        exact absurd hheldi hj
  | assign j value =>
    obtain rfl := Option.some.inj hstep
    have hj : j ≠ i := fun he => hl value (he ▸ rfl)
    refine ⟨fun pi hpi hres => ?_, by simpa using hi⟩
    dsimp only at hpi
    rw [List.getElem?_modify_ne _ _ hj] at hpi
    exact hcovered pi hpi hres
  | add q =>
    obtain rfl := Option.some.inj hstep
    refine ⟨fun pi hpi hres => ?_, by simp; omega⟩
    dsimp only at hpi
    rw [List.getElem?_append_left hi] at hpi
    exact hcovered pi hpi hres

theorem run_view {buffer : Str} (hb : buffer.length = propValueMax) {assign : Assign}
    (ha : Faithful assign) {s t : MrRun} {ls : List MrLabel} (hs : Holds sp s)
    (hexclusive : Meets (mrStep sp buffer assign) Exclusive s ls)
    (hrun : run (mrStep sp buffer assign) s ls = some t) :
    t.area.map view = ls.foldl (viewStep assign) (s.area.map view) := by
  induction ls generalizing s with
  | nil =>
    obtain rfl : s = t := Option.some.inj hrun
    rfl
  | cons l ls ih =>
    obtain ⟨u, hu, hrest⟩ := Option.bind_eq_some_iff.mp hrun
    obtain ⟨hl, hlater⟩ := hexclusive
    obtain ⟨hheld, hview⟩ := mrStep_view h hb ha hs hl hu
    rw [List.foldl_cons, ← hview]
    exact ih hheld (hlater u hu) hrest

theorem run_covered {buffer : Str} (hb : buffer.length = propValueMax) {assign : Assign}
    (ha : Faithful assign) {s t : MrRun} {ls : List MrLabel} {i : Nat} (hi : i < s.area.length)
    (hs : Holds sp s) (hcovered : Covered sp i s)
    (hexclusive : Meets (mrStep sp buffer assign) Exclusive s ls)
    (hothers : ∀ value, .assign i value ∉ ls)
    (hrun : run (mrStep sp buffer assign) s ls = some t) : Covered sp i t := by
  have hlabels : Meets (mrStep sp buffer assign) (fun _ l => ∀ value, l ≠ .assign i value) s
      ls := by
    apply meets_of_forall
    rintro l hl _ value rfl
    exact hothers value hl
  have hkept : Holds sp t ∧ Covered sp i t ∧ i < t.area.length := by
    refine run_meets_invariant (P := fun s => Holds sp s ∧ Covered sp i s ∧ i < s.area.length)
      (fun s l t hs hl hstep => ?_) ⟨hs, hcovered, hi⟩ (hexclusive.and hlabels) hrun
    obtain ⟨hheld, hcov, hlt⟩ := hs
    exact ⟨(mrStep_view h hb ha hheld hl.1 hstep).1, mrStep_covered h hb hlt hheld hcov hl.2 hstep⟩
  exact hkept.2.1

omit h in
/-- The loop alone is one of the runs. -/
theorem exists_run_of_foldlM {buffer : Str} {assign : Assign} {todo : List Nat}
    {s s' : MrPropState} (hloop : todo.foldlM (resetProperty sp buffer) s = some s') :
    ∃ ms, (∀ l ∈ ms, l.IsOwn) ∧
      run (mrStep sp buffer assign) ⟨s.area, todo, none, s.resetCount⟩ ms =
        some ⟨s'.area, [], none, s'.resetCount⟩ := by
  induction todo generalizing s with
  | nil =>
    obtain rfl := Option.some.inj hloop
    exact ⟨[], fun _ hl => absurd hl List.not_mem_nil, rfl⟩
  | cons i todo ih =>
    obtain ⟨u, hu, hrest⟩ := Option.bind_eq_some_iff.mp hloop
    obtain ⟨ms, hown, hms⟩ := ih hrest
    have hskip : u = s → mrStep sp buffer assign ⟨s.area, i :: todo, none, s.resetCount⟩ .inspect =
        some ⟨s.area, todo, none, s.resetCount⟩ → ∃ ms, (∀ l ∈ ms, l.IsOwn) ∧
        run (mrStep sp buffer assign) ⟨s.area, i :: todo, none, s.resetCount⟩ ms =
          some ⟨s'.area, [], none, s'.resetCount⟩ := by
      rintro rfl hstep
      refine ⟨.inspect :: ms, List.forall_mem_cons.mpr ⟨trivial, hown⟩, ?_⟩
      rw [run_cons, hstep]
      exact hms
    unfold resetProperty at hu
    cases hget : s.area[i]? with
    | none =>
      rw [hget] at hu
      refine hskip (Option.some.inj hu).symm ?_
      simp only [mrStep, hget]
    | some pi =>
      rw [hget] at hu
      dsimp only at hu
      split at hu
      · rename_i hres
        obtain ⟨⟨copy, length⟩, hcopy, hset⟩ := Option.bind_eq_some_iff.mp hu
        obtain rfl := Option.some.inj hset
        refine ⟨.inspect :: .store :: ms,
          List.forall_mem_cons.mpr ⟨trivial, List.forall_mem_cons.mpr ⟨trivial, hown⟩⟩, ?_⟩
        have hinspect : mrStep sp buffer assign ⟨s.area, i :: todo, none, s.resetCount⟩ .inspect =
            some ⟨s.area, todo, some (i, copy, length), s.resetCount⟩ := by
          simp [mrStep, hget, hres, hcopy]
        have hstore : s.area.modify i (fun pi => sp.update pi copy length) =
            s.area.set i (sp.update pi copy length) := by
          rw [List.modify_eq_set_getElem?, hget]
          rfl
        rw [run_cons, hinspect, Option.bind_some, run_cons, mrStep, Option.map_some,
          Option.bind_some]
        dsimp only
        rw [hstore]
        exact hms
      · rename_i hno
        refine hskip (Option.some.inj hu).symm ?_
        simp [mrStep, hget, hno]

theorem exists_run_of_doMrProp {buffer : Str} {assign : Assign} {s s' : MrPropState}
    (hloop : doMrProp sp buffer s = some s') :
    ∃ ms, (∀ l ∈ ms, l.IsOwn) ∧ run (mrStep sp buffer assign) (mrStart sp s) ms =
      some ⟨s'.area, [], none, s'.resetCount⟩ := by
  rw [doMrProp, if_neg (by simp [h.init_ok])] at hloop
  exact exists_run_of_foldlM (s := { s with isInitialized := true }) hloop

/-- In every run in which nobody sets a record between its copy and its store, the other processes
see what they would see without the loop; and when the loop has ended, every record that nobody
has set looks unmodified. -/
theorem doMrProp_unnoticed {buffer : Str} (hb : buffer.length = propValueMax) {assign : Assign}
    (ha : Faithful assign) {s : MrPropState} {t : MrRun} {ls : List MrLabel}
    (hexclusive : Meets (mrStep sp buffer assign) Exclusive (mrStart sp s) ls)
    (hrun : run (mrStep sp buffer assign) (mrStart sp s) ls = some t) :
    t.area.map view = ls.foldl (viewStep assign) (s.area.map view) ∧
      (t.todo = [] → t.held = none → ∀ i pi, i < s.area.length →
        (∀ value, .assign i value ∉ ls) → t.area[i]? = some pi →
        shouldResetProperty sp pi = false) := by
  have hstart : Holds sp (mrStart sp s) := fun _ _ _ hn => by cases hn
  refine ⟨run_view h hb ha hstart hexclusive hrun, ?_⟩
  intro htodo hheld i pi hi hothers hpi
  have hcovered : Covered sp i (mrStart sp s) := fun _ _ _ =>
    Or.inl ((h.visited_perm s.area.length).mem_iff.mpr (List.mem_range.mpr hi))
  have hend := run_covered h hb ha hi hstart hcovered hexclusive hothers hrun
  rw [← Bool.not_eq_true]
  intro hres
  obtain hin | ⟨copy, hcopy, _⟩ := hend pi hpi hres
  · rw [htodo] at hin
    exact List.not_mem_nil hin
  · rw [hheld] at hcopy
    cases hcopy

end Documented

/-- A writer that leaves the end of the old value behind the new one. -/
def overwriting : Assign := fun pi value =>
  { name := pi.name
    value := value.take 91 ++ nul :: pi.value.drop ((value.take 91).length + 1)
    serial := pi.serial + 1#32
    size_value := by
      have hle : (value.take 91).length ≤ 91 := List.length_take_le 91 value
      rw [List.length_append, List.length_cons, List.length_drop, pi.size_value]
      unfold propValueMax
      omega
    terminated := List.mem_append_right _ List.mem_cons_self }

theorem overwriting_faithful : Faithful overwriting where
  name _ _ := rfl
  contents pi value hnul hlen := by
    have hall : value.take 91 = value := List.take_of_length_le (Nat.le_of_lt_succ hlen)
    have hshort : nul ∉ value.take 91 := by
      rw [hall]
      exact hnul
    exact (contents_append_nul hshort _).trans hall

def busyLabels : List MrLabel := [.assign 0 "1".toList, .inspect, .store]

theorem doMrProp_unnoticed_busy : ∃ t : MrRun,
    run (mrStep zeroFillingProperties (List.replicate 92 'x') overwriting)
        (mrStart zeroFillingProperties ⟨true, 0, [changedProperty]⟩) busyLabels = some t ∧
      t.area.map view = busyLabels.foldl (viewStep overwriting) ([changedProperty].map view) ∧
      (t.todo = [] → t.held = none → ∀ i pi, i < [changedProperty].length →
        (∀ value, .assign i value ∉ busyLabels) → t.area[i]? = some pi →
        shouldResetProperty zeroFillingProperties pi = false) := by
  obtain ⟨t, ht⟩ : ∃ t, run (mrStep zeroFillingProperties (List.replicate 92 'x') overwriting)
      (mrStart zeroFillingProperties ⟨true, 0, [changedProperty]⟩) busyLabels = some t :=
    Option.isSome_iff_exists.mp (by decide +kernel)
  refine ⟨t, ht, doMrProp_unnoticed zeroFillingProperties_documented (by decide)
    overwriting_faithful ?_ ht⟩
  exact ⟨⟨by decide, by decide, fun _ hn => by cases hn⟩,
    fun _ _ => ⟨trivial, fun _ _ => ⟨trivial, fun _ _ => trivial⟩⟩⟩

end ZygiskAssistant.Modules
