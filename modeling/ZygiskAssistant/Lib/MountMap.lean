import ZygiskAssistant.Lib.MountRun

/-!
# Tables with the same layout

Resolution and removal read of a mount no more than its layout, so they commute
with every map of the mounts that keeps it.
-/

namespace MountTree.Layout

universe u u' v w

variable {α : Type u} {β : Type u'} {ι : Type v} {κ : Type w}

/-- The map keeps of every mount what the layouts read. -/
structure Carries (L : Layout α ι κ) (M : Layout β ι κ) (f : α → β) : Prop where
  id : ∀ a, M.id (f a) = L.id a
  parent : ∀ a, M.parent (f a) = L.parent a
  point : ∀ a, M.point (f a) = L.point a

variable {L : Layout α ι κ} {M : Layout β ι κ} {f : α → β}
variable [DecidableEq ι] [DecidableEq κ]

theorem argmin_map (key : β → Nat) (l : List α) :
    (l.map f).argmin key = (l.argmin fun a => key (f a)).map f := by
  induction l using List.reverseRecOn with
  | nil => rfl
  | append_singleton l a ih =>
    rw [List.map_append, List.map_singleton, List.argmin_concat, List.argmin_concat, ih]
    cases l.argmin fun a => key (f a) with
    | none => rfl
    | some b =>
      change (if key (f a) < key (f b) then some (f a) else some (f b)) =
        (if key (f a) < key (f b) then some a else some b).map f
      split
      · rfl
      · rfl

namespace Carries

variable (hf : L.Carries M f)

include hf

theorem crossings (X : List α) (p : List κ) (c : α) :
    M.crossings (X.map f) p (f c) = (L.crossings X p c).map f := by
  unfold Layout.crossings
  rw [← List.map_reverse, List.filter_map]
  congr 2
  funext d
  simp [Layout.isChild, hf.id, hf.parent, hf.point]

theorem next (X : List α) (p : List κ) (c : α) :
    M.next (X.map f) p (f c) = (L.next X p c).map f := by
  unfold Layout.next
  rw [hf.crossings, argmin_map]
  simp only [hf.point]

theorem walk (X : List α) (p : List κ) (fuel : Nat) (c : α) :
    M.walk (X.map f) p fuel (f c) = f (L.walk X p fuel c) := by
  induction fuel generalizing c with
  | zero => rfl
  | succ fuel ih =>
    unfold Layout.walk
    rw [hf.next]
    cases L.next X p c with
    | none => rfl
    | some d => exact ih d

theorem resolve (X : List α) (p : List κ) :
    M.resolve (X.map f) p = (L.resolve X p).map f := by
  unfold Layout.resolve
  rw [List.head?_map, List.length_map, Option.map_map, Option.map_map]
  congr 1
  funext r
  exact hf.walk X p X.length r

omit [DecidableEq κ] in
theorem doomed (m : α) (X : List α) : M.doomed (f m) (X.map f) = L.doomed m X := by
  unfold Layout.doomed
  rw [List.foldl_map]
  simp only [hf.id, hf.parent]

omit [DecidableEq κ] in
theorem detach (X : List α) (m : α) : M.detach (X.map f) (f m) = (L.detach X m).map f := by
  unfold Layout.detach
  rw [hf.doomed, List.filter_map]
  congr 2
  funext d
  simp [hf.id]

theorem umount (X : List α) (p : List κ) : M.umount (X.map f) p = (L.umount X p).map f := by
  unfold Layout.umount
  rw [hf.resolve]
  cases L.resolve X p with
  | none => rfl
  | some m =>
    dsimp only [Option.map_some]
    rw [hf.point]
    split
    · exact hf.detach X m
    · rfl

/-- The run over the images of the mounts, where they are selected as the mounts are. -/
theorem unmountSelected {sel : α → Bool} {sel' : β → Bool} {order : List α}
    (hsel : ∀ a ∈ order, sel' (f a) = sel a) (X : List α) :
    M.unmountSelected sel' (order.map f) (X.map f) = (L.unmountSelected sel order X).map f := by
  unfold Layout.unmountSelected
  rw [← List.map_reverse, List.foldl_map]
  have hrev : ∀ a ∈ order.reverse, sel' (f a) = sel a := fun a ha =>
    hsel a (List.mem_reverse.mp ha)
  generalize order.reverse = rounds at hrev
  induction rounds generalizing X with
  | nil => rfl
  | cons a rounds ih =>
    rw [List.foldl_cons, List.foldl_cons, hrev a List.mem_cons_self, hf.point]
    have hrest := fun b hb => hrev b (List.mem_cons_of_mem a hb)
    split
    · rw [hf.umount]
      exact ih _ hrest
    · exact ih _ hrest

end Carries

end MountTree.Layout
