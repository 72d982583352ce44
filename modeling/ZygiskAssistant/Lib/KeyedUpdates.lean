import Mathlib.Data.List.Basic

/-!
# Updates of a keyed list

An update gives each value a new one by its key, or takes it away. Updates
compose under the keys, a run of them is one update, and one that settles what
it gives is idempotent.
-/

namespace KeyedUpdates

universe u v w

variable {κ : Type u} {ν : Type v} {γ : Type w}

/-- What becomes of a value under a key. -/
abbrev Effect (κ : Type u) (ν : Type v) := κ → ν → Option ν

def update (f : Effect κ ν) (s : List (κ × ν)) : List (κ × ν) :=
  s.filterMap fun p => (f p.1 p.2).map fun v => (p.1, v)

def Effect.skip : Effect κ ν := fun _ v => some v

def Effect.andThen (f g : Effect κ ν) : Effect κ ν := fun k v => (f k v).bind (g k)

/-- What a value is given, it keeps. -/
def Effect.Settles (f : Effect κ ν) : Prop := ∀ k v w, f k v = some w → f k w = some w

theorem update_congr {f g : Effect κ ν} {s : List (κ × ν)} (h : ∀ p ∈ s, f p.1 p.2 = g p.1 p.2) :
    update f s = update g s :=
  List.filterMap_congr fun p hp => by rw [h p hp]

@[simp]
theorem update_skip (s : List (κ × ν)) : update Effect.skip s = s := List.filterMap_some

theorem update_update (f g : Effect κ ν) (s : List (κ × ν)) :
    update g (update f s) = update (f.andThen g) s := by
  unfold update
  rw [List.filterMap_filterMap]
  apply List.filterMap_congr
  intro p _
  rw [Effect.andThen]
  cases f p.1 p.2 with
  | none => rfl
  | some v => rfl

theorem mem_update {f : Effect κ ν} {s : List (κ × ν)} {k : κ} {v : ν} :
    (k, v) ∈ update f s ↔ ∃ u, (k, u) ∈ s ∧ f k u = some v := by
  unfold update
  rw [List.mem_filterMap]
  constructor
  · rintro ⟨⟨k', u⟩, hp, he⟩
    obtain ⟨w, hw, hkw⟩ := Option.map_eq_some_iff.mp he
    obtain ⟨rfl, rfl⟩ := Prod.mk.inj hkw
    exact ⟨u, hp, hw⟩
  · rintro ⟨u, hu, hf⟩
    refine ⟨(k, u), hu, ?_⟩
    rw [hf]
    rfl

/-- No key is new, and the keys keep their order. -/
theorem keys_update_sublist (f : Effect κ ν) (s : List (κ × ν)) :
    ((update f s).map Prod.fst).Sublist (s.map Prod.fst) := by
  induction s with
  | nil => exact List.Sublist.refl _
  | cons p s ih =>
    unfold update at ih ⊢
    rw [List.filterMap_cons]
    cases f p.1 p.2 with
    | none => exact ih.cons p.1
    | some v => exact ih.cons_cons p.1

theorem update_idempotent {f : Effect κ ν} (hf : f.Settles) (s : List (κ × ν)) :
    update f (update f s) = update f s := by
  have hkeep : ∀ p ∈ update f s, f p.1 p.2 = Effect.skip p.1 p.2 := by
    rintro ⟨k, v⟩ hp
    obtain ⟨u, _, hu⟩ := mem_update.mp hp
    exact hf k u v hu
  rw [update_congr hkeep, update_skip]

/-- The updates of a list of commands, in their order. -/
def Effect.all (effect : γ → Effect κ ν) (commands : List γ) : Effect κ ν :=
  commands.foldr (fun c f => (effect c).andThen f) Effect.skip

theorem all_append (effect : γ → Effect κ ν) (as bs : List γ) :
    Effect.all effect (as ++ bs) = (Effect.all effect as).andThen (Effect.all effect bs) := by
  induction as with
  | nil => rfl
  | cons c as ih =>
    change (effect c).andThen (Effect.all effect (as ++ bs)) = _
    rw [ih]
    funext k v
    exact (Option.bind_assoc _ _ _).symm

theorem all_of_skip {effect : γ → Effect κ ν} {commands : List γ} {k : κ}
    (h : ∀ c ∈ commands, ∀ v, effect c k v = some v) (v : ν) :
    Effect.all effect commands k v = some v := by
  induction commands with
  | nil => rfl
  | cons c commands ih =>
    change (effect c k v).bind (Effect.all effect commands k) = some v
    rw [h c List.mem_cons_self]
    exact ih fun c' hc => h c' (List.mem_cons_of_mem c hc)

variable [DecidableEq κ]

def Effect.at (key : κ) (change : ν → Option ν) : Effect κ ν := fun k v =>
  if k = key then change v else some v

/-- Commands on different keys: a value meets the one command of its key. -/
theorem all_at {key : γ → κ} {change : γ → ν → Option ν} {commands : List γ}
    (hkeys : (commands.map key).Nodup) (k : κ) (v : ν) :
    Effect.all (fun c => Effect.at (key c) (change c)) commands k v =
      (commands.find? fun c => key c = k).elim (some v) fun c => change c v := by
  induction commands with
  | nil => rfl
  | cons c commands ih =>
    obtain ⟨hfresh, hrest⟩ := List.nodup_cons.mp hkeys
    change (Effect.at (key c) (change c) k v).bind
      (Effect.all (fun c => Effect.at (key c) (change c)) commands k) = _
    rw [Effect.at, List.find?_cons]
    by_cases hk : k = key c
    · subst hk
      have hothers : ∀ w, Effect.all (fun c => Effect.at (key c) (change c)) commands (key c) w =
          some w := by
        apply all_of_skip
        intro c' hc w
        refine if_neg fun he => hfresh ?_
        rw [he]
        exact List.mem_map_of_mem hc
      rw [if_pos rfl, decide_eq_true rfl, funext hothers]
      exact Option.bind_fun_some _
    · rw [if_neg hk, decide_eq_false (Ne.symm hk)]
      exact ih hrest

end KeyedUpdates
