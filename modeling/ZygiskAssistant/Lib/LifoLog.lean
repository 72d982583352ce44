import Mathlib.Data.List.Induction
import Mathlib.Data.List.Nodup
import Mathlib.Data.List.Perm.Basic

/-!
# Logs of a stack

A log of pushes and pops is replayed on a stack, where a pop must take the top.
A log that can be replayed pops each element once, and always the one that was
pushed last among those that were not popped before.
-/

namespace LifoLog

universe u

variable {α : Type u}

inductive Event (α : Type u)
  | push (a : α)
  | pop (a : α)

def pushes (es : List (Event α)) : List α :=
  es.filterMap fun e => match e with
    | .push a => some a
    | .pop _ => none

def pops (es : List (Event α)) : List α :=
  es.filterMap fun e => match e with
    | .push _ => none
    | .pop a => some a

theorem pushes_concat_push (es : List (Event α)) (a : α) :
    pushes (es ++ [.push a]) = pushes es ++ [a] := by simp [pushes]

theorem pushes_concat_pop (es : List (Event α)) (a : α) : pushes (es ++ [.pop a]) = pushes es := by
  simp [pushes]

theorem pops_concat_push (es : List (Event α)) (a : α) : pops (es ++ [.push a]) = pops es := by
  simp [pops]

theorem pops_concat_pop (es : List (Event α)) (a : α) : pops (es ++ [.pop a]) = pops es ++ [a] := by
  simp [pops]

variable [DecidableEq α]

def act (stack : List α) : Event α → Option (List α)
  | .push a => some (a :: stack)
  | .pop a =>
    match stack with
    | [] => none
    | b :: stack => if a = b then some stack else none

def replay (es : List (Event α)) : Option (List α) := es.foldlM act []

theorem replay_concat (es : List (Event α)) (e : Event α) :
    replay (es ++ [e]) = (replay es).bind fun stack => act stack e := by
  simp [replay, List.foldlM_append]

theorem act_pop {stack next : List α} {a : α} (h : act stack (.pop a) = some next) :
    stack = a :: next := by
  cases stack with
  | nil => cases h
  | cons b rest =>
    unfold act at h
    dsimp only at h
    split at h
    · rename_i hab
      rw [hab, Option.some.inj h]
    · cases h

/-- What was pushed was popped or is on the stack. -/
theorem replay_perm {es : List (Event α)} {stack : List α} (h : replay es = some stack) :
    (pushes es).Perm (pops es ++ stack) := by
  induction es using List.reverseRecOn generalizing stack with
  | nil =>
    obtain rfl := Option.some.inj h
    exact List.Perm.refl _
  | append_singleton es e ih =>
    rw [replay_concat] at h
    obtain ⟨before, hbefore, hact⟩ := Option.bind_eq_some_iff.mp h
    have hp := ih hbefore
    cases e with
    | push a =>
      obtain rfl := Option.some.inj hact
      rw [pushes_concat_push, pops_concat_push]
      exact (List.perm_append_singleton a _).trans ((hp.cons a).trans List.perm_middle.symm)
    | pop a =>
      rw [act_pop hact] at hp
      rw [pushes_concat_pop, pops_concat_pop, List.append_assoc]
      exact hp

/-- The stack holds what was pushed and not popped, the last of it on top. -/
theorem replay_remaining {es : List (Event α)} {stack : List α} (h : replay es = some stack)
    (hd : (pushes es).Nodup) : (pushes es).filter (fun a => a ∉ pops es) = stack.reverse := by
  induction es using List.reverseRecOn generalizing stack with
  | nil =>
    obtain rfl := Option.some.inj h
    rfl
  | append_singleton es e ih =>
    rw [replay_concat] at h
    obtain ⟨before, hbefore, hact⟩ := Option.bind_eq_some_iff.mp h
    cases e with
    | push a =>
      obtain rfl := Option.some.inj hact
      rw [pushes_concat_push] at hd ⊢
      obtain ⟨hdup, _, hdisj⟩ := List.nodup_append.mp hd
      have hfresh : a ∉ pops es := by
        intro ha
        have hmem := (replay_perm hbefore).mem_iff.mpr (List.mem_append_left before ha)
        exact hdisj a hmem a List.mem_cons_self rfl
      rw [pops_concat_push, List.filter_append, ih hbefore hdup, List.reverse_cons]
      simp [hfresh]
    | pop a =>
      have htop := act_pop hact
      rw [pushes_concat_pop] at hd ⊢
      have hstack : (a :: stack).Nodup := by
        have hall := (replay_perm hbefore).nodup_iff.mp hd
        rw [htop] at hall
        exact (List.nodup_append.mp hall).2.1
      have hsplit : (pushes es).filter (fun b => b ∉ pops (es ++ [.pop a])) =
          ((pushes es).filter (fun b => b ∉ pops es)).filter (fun b => b ≠ a) := by
        rw [List.filter_filter, pops_concat_pop]
        congr 1
        funext b
        simp [and_comm, not_or]
      have hrest : ∀ b ∈ stack, b ≠ a := by
        rintro b hb rfl
        exact (List.nodup_cons.mp hstack).1 hb
      rw [hsplit, ih hbefore hd, htop, List.reverse_cons, List.filter_append]
      simpa using hrest

/-- Every pop is of the last pushed element that was not popped before. -/
theorem replay_pop {pre post : List (Event α)} {a : α} {stack : List α}
    (h : replay (pre ++ .pop a :: post) = some stack)
    (hd : (pushes (pre ++ .pop a :: post)).Nodup) :
    ((pushes pre).filter fun b => b ∉ pops pre).getLast? = some a := by
  obtain ⟨before, hbefore, hrest⟩ : ∃ before, replay pre = some before ∧
      (act before (.pop a)).isSome = true := by
    rw [replay, List.foldlM_append] at h
    obtain ⟨before, hbefore, hrest⟩ := Option.bind_eq_some_iff.mp h
    rw [List.foldlM_cons] at hrest
    obtain ⟨next, hnext, _⟩ := Option.bind_eq_some_iff.mp hrest
    exact ⟨before, hbefore, by rw [hnext]; rfl⟩
  obtain ⟨next, hnext⟩ := Option.isSome_iff_exists.mp hrest
  have hpre : (pushes pre).Nodup := by
    rw [pushes, List.filterMap_append] at hd
    exact (List.nodup_append.mp hd).1
  rw [replay_remaining hbefore hpre, act_pop hnext, List.reverse_cons]
  simp

end LifoLog
