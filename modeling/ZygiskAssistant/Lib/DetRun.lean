import Mathlib.Logic.Relation

/-!
# Runs of a deterministic machine

A machine is a function to the next state, or to none where it stops. It is
safe if it stops only in final states. Since a run cannot branch, one run to a
stop decides whether the machine is safe.
-/

namespace DetRun

universe u

variable {σ : Type u} (step : σ → Option σ) (final : σ → Prop)

def Reaches (s t : σ) : Prop := Relation.ReflTransGen (fun a b => step a = some b) s t

def Safe (s : σ) : Prop := ∀ t, Reaches step s t → step t = none → final t

/-- Some run gets stuck. -/
def Faults (s : σ) : Prop := ∃ t, Reaches step s t ∧ step t = none ∧ ¬ final t

variable {step final}

theorem Reaches.refl (s : σ) : Reaches step s s := Relation.ReflTransGen.refl

theorem Reaches.head {s t u : σ} (h : step s = some t) (ht : Reaches step t u) : Reaches step s u :=
  Relation.ReflTransGen.head h ht

theorem Reaches.trans {s t u : σ} (h : Reaches step s t) (ht : Reaches step t u) :
    Reaches step s u := Relation.ReflTransGen.trans h ht

theorem Reaches.eq_of_stop {s t : σ} (h : Reaches step s t) (hs : step s = none) : t = s := by
  induction h with
  | refl => rfl
  | tail _ hlast ih =>
    rw [ih, hs] at hlast
    cases hlast

theorem stop_unique {s t u : σ} (ht : Reaches step s t) (hstop : step t = none)
    (hu : Reaches step s u) (hstop' : step u = none) : u = t := by
  have hunique : Relator.RightUnique fun a b => step a = some b := by
    intro a b c hb hc
    exact Option.some.inj (hb.symm.trans hc)
  rcases Relation.ReflTransGen.total_of_right_unique hunique ht hu with h | h
  · exact Reaches.eq_of_stop h hstop
  · exact (Reaches.eq_of_stop h hstop').symm

theorem safe_of_reaches {s t : σ} (h : Reaches step s t) (hstop : step t = none) (hf : final t) :
    Safe step final s := by
  intro u hu hstop'
  rw [stop_unique h hstop hu hstop']
  exact hf

theorem Faults.not_safe {s : σ} (h : Faults step final s) : ¬ Safe step final s := by
  rintro hsafe
  obtain ⟨t, ht, hstop, hf⟩ := h
  exact hf (hsafe t ht hstop)

theorem Faults.of_reaches {s t : σ} (h : Reaches step s t) (ht : Faults step final t) :
    Faults step final s := by
  obtain ⟨u, hu, hstop, hf⟩ := ht
  exact ⟨u, h.trans hu, hstop, hf⟩

theorem Faults.of_stop {s : σ} (hstop : step s = none) (hf : ¬ final s) : Faults step final s :=
  ⟨s, .refl s, hstop, hf⟩

end DetRun
