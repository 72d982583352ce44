import Mathlib.Logic.Basic

/-!
# Runs of a partial labelled step

A system is a function that takes a state and a label to the next state, or to
none where the label is not enabled. A run follows a list of labels. The rules
compose conditions on the steps of a run, and carry an invariant along a run:
over all steps, and over steps that meet a condition.
-/

namespace LabelledRun

universe u v

variable {σ : Type u} {α : Type v} (step : σ → α → Option σ)

def run (s : σ) : List α → Option σ
  | [] => some s
  | l :: ls => (step s l).bind fun t => run t ls

/-- Every step that the labels take from here satisfies the condition. -/
def Meets (condition : σ → α → Prop) (s : σ) : List α → Prop
  | [] => True
  | l :: ls => condition s l ∧ ∀ t ∈ step s l, Meets condition t ls

@[simp]
theorem run_nil (s : σ) : run step s [] = some s := rfl

@[simp]
theorem run_cons (s : σ) (l : α) (ls : List α) :
    run step s (l :: ls) = (step s l).bind fun t => run step t ls := rfl

variable {step}

instance Meets.decidable {condition : σ → α → Prop} [∀ s l, Decidable (condition s l)] (s : σ) :
    (ls : List α) → Decidable (Meets step condition s ls)
  | [] => inferInstanceAs (Decidable True)
  | l :: ls =>
    have : DecidablePred fun t => Meets step condition t ls := fun t => Meets.decidable t ls
    inferInstanceAs (Decidable (condition s l ∧ ∀ t ∈ step s l, Meets step condition t ls))

theorem run_meets_invariant {condition : σ → α → Prop} {P : σ → Prop}
    (hstep : ∀ s l t, P s → condition s l → step s l = some t → P t) {s t : σ} {ls : List α}
    (hs : P s) (hm : Meets step condition s ls) (hr : run step s ls = some t) : P t := by
  induction ls generalizing s with
  | nil =>
    obtain rfl : s = t := Option.some.inj hr
    exact hs
  | cons l ls ih =>
    obtain ⟨u, hu, hrest⟩ := Option.bind_eq_some_iff.mp hr
    exact ih (hstep s l u hs hm.1 hu) (hm.2 u hu) hrest

theorem meets_of_forall {condition : σ → α → Prop} {ls : List α}
    (h : ∀ l ∈ ls, ∀ s, condition s l) (s : σ) : Meets step condition s ls := by
  induction ls generalizing s with
  | nil => trivial
  | cons l ls ih =>
    exact ⟨h l List.mem_cons_self s, fun t _ => ih (fun m hm => h m (List.mem_cons_of_mem l hm)) t⟩

theorem meets_append {condition : σ → α → Prop} {s : σ} {ls ms : List α}
    (hl : Meets step condition s ls)
    (hm : ∀ t, run step s ls = some t → Meets step condition t ms) :
    Meets step condition s (ls ++ ms) := by
  induction ls generalizing s with
  | nil => exact hm s rfl
  | cons l ls ih =>
    refine ⟨hl.1, fun t ht => ih (hl.2 t ht) fun u hu => hm u ?_⟩
    exact Option.bind_eq_some_iff.mpr ⟨t, ht, hu⟩

theorem Meets.mono {condition condition' : σ → α → Prop} {P : σ → Prop}
    (hstep : ∀ s l t, P s → condition s l → step s l = some t → P t)
    (himp : ∀ s l, P s → condition s l → condition' s l) {s : σ} {ls : List α} (hs : P s)
    (hm : Meets step condition s ls) : Meets step condition' s ls := by
  induction ls generalizing s with
  | nil => trivial
  | cons l ls ih => exact ⟨himp s l hs hm.1, fun t ht => ih (hstep s l t hs hm.1 ht) (hm.2 t ht)⟩

theorem Meets.and {condition condition' : σ → α → Prop} {s : σ} {ls : List α}
    (h : Meets step condition s ls) (h' : Meets step condition' s ls) :
    Meets step (fun s l => condition s l ∧ condition' s l) s ls := by
  induction ls generalizing s with
  | nil => trivial
  | cons l ls ih => exact ⟨⟨h.1, h'.1⟩, fun t ht => ih (h.2 t ht) (h'.2 t ht)⟩

theorem run_invariant {P : σ → Prop} (hstep : ∀ s l t, P s → step s l = some t → P t) {s t : σ}
    {ls : List α} (hs : P s) (hr : run step s ls = some t) : P t :=
  run_meets_invariant (fun s l t hs _ ht => hstep s l t hs ht) hs
    (show Meets step (fun _ _ => True) s ls from meets_of_forall (fun _ _ _ => trivial) s) hr

theorem run_append {s t u : σ} {ls ms : List α} (hl : run step s ls = some t)
    (hm : run step t ms = some u) : run step s (ls ++ ms) = some u := by
  induction ls generalizing s with
  | nil =>
    obtain rfl : s = t := Option.some.inj hl
    exact hm
  | cons l ls ih =>
    obtain ⟨v, hv, hrest⟩ := Option.bind_eq_some_iff.mp hl
    exact Option.bind_eq_some_iff.mpr ⟨v, hv, ih hrest⟩

/-- A run that leaves a set of states has a step that leaves it. -/
theorem run_crossing {P : σ → Prop} {s t : σ} {ls : List α} (hs : P s)
    (hr : run step s ls = some t) (ht : ¬ P t) :
    ∃ before l after u v, ls = before ++ l :: after ∧ run step s before = some u ∧
      step u l = some v ∧ P u ∧ ¬ P v := by
  induction ls generalizing s with
  | nil =>
    obtain rfl : s = t := Option.some.inj hr
    exact absurd hs ht
  | cons l ls ih =>
    obtain ⟨v, hv, hrest⟩ := Option.bind_eq_some_iff.mp hr
    by_cases hP : P v
    · obtain ⟨before, m, after, u, w, rfl, hrun, hstep, hu, hw⟩ := ih hP hrest
      refine ⟨l :: before, m, after, u, w, rfl, ?_, hstep, hu, hw⟩
      exact Option.bind_eq_some_iff.mpr ⟨v, hv, hrun⟩
    · exact ⟨[], l, ls, s, v, rfl, rfl, hv, hs, hP⟩

/-- A quantity that only some labels raise and only some labels lower counts them. -/
theorem run_balance {P : σ → Prop} {f : σ → Nat} {raises lowers : α → Bool}
    (hstep : ∀ s l t, P s → step s l = some t →
      P t ∧ f t + (if lowers l then 1 else 0) = f s + (if raises l then 1 else 0)) {s t : σ}
    {ls : List α} (hs : P s) (hr : run step s ls = some t) :
    f t + ls.countP lowers = f s + ls.countP raises := by
  induction ls generalizing s with
  | nil =>
    obtain rfl : s = t := Option.some.inj hr
    rfl
  | cons l ls ih =>
    obtain ⟨u, hu, hrest⟩ := Option.bind_eq_some_iff.mp hr
    obtain ⟨hP, hf⟩ := hstep s l u hs hu
    have hrun := ih hP hrest
    rw [List.countP_cons, List.countP_cons]
    omega

/-- A variant bounds the number of labels that it pays for. -/
theorem run_variant {P : σ → Prop} {f : σ → Nat} {pays : α → Bool}
    (hstep : ∀ s l t, P s → step s l = some t → P t ∧ f t + (if pays l then 1 else 0) ≤ f s)
    {s t : σ} {ls : List α} (hs : P s) (hr : run step s ls = some t) :
    f t + ls.countP pays ≤ f s := by
  induction ls generalizing s with
  | nil =>
    obtain rfl : s = t := Option.some.inj hr
    exact Nat.le_refl _
  | cons l ls ih =>
    obtain ⟨u, hu, hrest⟩ := Option.bind_eq_some_iff.mp hr
    obtain ⟨hP, hf⟩ := hstep s l u hs hu
    have hrun := ih hP hrest
    rw [List.countP_cons]
    omega

end LabelledRun
