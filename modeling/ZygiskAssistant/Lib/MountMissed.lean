import ZygiskAssistant.Lib.MountExact

/-!
# Rounds that miss

A run in which the rounds of some selected mounts find nothing, because their
mount points are not reached by the path that is tried. It is exact for the
selection when, besides being clear, every outermost selected mount is reached.
-/

namespace MountTree.Layout

universe u v w

variable {α : Type u} {ι : Type v} {κ : Type w} {L : Layout α ι κ} {sel hit : α → Bool}
variable {T X : List α}

def reached (sel hit : α → Bool) (m : α) : Bool := sel m && hit m

theorem sel_of_reached {m : α} (h : reached sel hit m = true) : sel m = true :=
  (Bool.and_eq_true_iff.mp h).1

theorem Kept.reached {m : α} (h : L.Kept sel T m) : L.Kept (reached sel hit) T m := by
  intro a ha
  rw [Layout.reached, h a ha, Bool.false_and]

variable [DecidableEq α]

/-- Every outermost selected mount is reached. -/
def AllReached (L : Layout α ι κ) (sel hit : α → Bool) (T : List α) : Prop :=
  ∀ m, L.Outermost sel T m → hit m = true

namespace AllReached

variable (hall : L.AllReached sel hit T) (h : L.IsTree T)

include hall h

theorem kept_iff {m : α} (hm : m ∈ T) : L.Kept (reached sel hit) T m ↔ L.Kept sel T m := by
  constructor
  · intro hk
    by_contra hno
    obtain ⟨o, ho, hom⟩ := h.exists_outermost hm hno
    have hreached : reached sel hit o = true := by
      rw [reached, ho.selected, hall o ho]
      rfl
    exact not_kept_of_selected hreached hom hk
  · exact Kept.reached

theorem outermost_iff {m : α} : L.Outermost (reached sel hit) T m ↔ L.Outermost sel T m := by
  constructor
  · intro hm
    refine ⟨hm.mem, sel_of_reached hm.selected, ?_⟩
    intro a ham hs
    obtain ⟨o, ho, hoa⟩ := h.exists_outermost (ham.mem_left hm.mem)
      (not_kept_of_selected hs (Under.refl a))
    have hreached : reached sel hit o = true := by
      rw [reached, ho.selected, hall o ho]
      rfl
    obtain rfl := hm.outer o (hoa.trans ham) hreached
    exact h.under_antisymm ham hoa
  · intro hm
    refine ⟨hm.mem, ?_, fun a ham hs => hm.outer a ham (sel_of_reached hs)⟩
    rw [reached, hm.selected, hall m hm]
    rfl

/-- Mounts at one mount point are reached together. -/
theorem clear_iff (hpoint : ∀ a b, L.point a = L.point b → hit a = hit b) {m : α}
    (hm : L.Outermost sel T m) : L.Clear (reached sel hit) T m ↔ L.Clear sel T m := by
  constructor
  · intro hc
    refine ⟨fun n hn hk => hc.not_covered n hn hk.reached, ?_⟩
    exact fun c hs => sel_of_reached (hc.stack_selected c hs)
  · intro hc
    refine ⟨?_, ?_⟩
    · intro n hn hk
      exact hc.not_covered n hn ((hall.kept_iff h hn.mem_left).mp hk)
    · intro c hs
      rw [reached, hc.stack_selected c hs, hpoint c m hs.2, hall m hm]
      rfl

theorem exact_iff (hX : L.Closed T X) : L.Exact (reached sel hit) T X ↔ L.Exact sel T X := by
  constructor
  · intro he
    refine ⟨?_, fun m hm hk => he.kept m hm hk.reached⟩
    intro m hm
    rw [← Bool.not_eq_true]
    intro hs
    obtain ⟨o, ho, hom⟩ := h.exists_outermost (hX.mem hm)
      (not_kept_of_selected hs (Under.refl m))
    have hno := he.gone o (hX.under_mem hom hm)
    rw [reached, ho.selected, hall o ho] at hno
    cases hno
  · intro he
    refine ⟨?_, fun m hm hk => he.kept m hm ((hall.kept_iff h hm).mp hk)⟩
    intro m hm
    rw [reached, he.gone m hm, Bool.false_and]

end AllReached

variable [DecidableEq ι] [DecidableEq κ]

omit [DecidableEq α] in
theorem mem_of_walk {p : List κ} {fuel : Nat} {c : α} (hc : c ∈ X) : L.walk X p fuel c ∈ X := by
  induction fuel generalizing c with
  | zero => exact hc
  | succ fuel ih =>
    unfold walk
    split
    · rename_i d hd
      have hcross := List.mem_of_mem_filter (List.argmin_mem (Option.mem_def.mpr hd))
      exact ih (List.mem_reverse.mp hcross)
    · exact hc

omit [DecidableEq α] in
theorem umount_sublist (X : List α) (p : List κ) : (L.umount X p).Sublist X := by
  unfold umount
  split
  · split
    · exact List.filter_sublist
    · exact List.Sublist.refl X
  · exact List.Sublist.refl X

omit [DecidableEq α] in
theorem umount_eq_self {p : List κ} (hno : ∀ m ∈ X, L.point m ≠ p) : L.umount X p = X := by
  unfold umount
  split
  · rename_i m hm
    obtain ⟨r, hr, rfl⟩ := Option.map_eq_some_iff.mp hm
    exact if_neg (hno _ (mem_of_walk (List.mem_of_mem_head? hr)))
  · rfl

omit [DecidableEq α] in
/-- A run that tries a path for each selected mount, which is its mount point or no mount
point at all, is the run of the mounts that are reached. -/
theorem foldl_paths_eq {path : α → List κ} (hX : ∀ m ∈ X, m ∈ T)
    (hhit : ∀ s, hit s = true → path s = L.point s)
    (hmiss : ∀ s ∈ T, sel s = true → hit s = false → ∀ m ∈ T, L.point m ≠ path s)
    {order : List α} (horder : ∀ s ∈ order, s ∈ T) :
    order.foldl (fun X s => if sel s then L.umount X (path s) else X) X =
      order.foldl (fun X s => if reached sel hit s then L.umount X (L.point s) else X) X := by
  induction order generalizing X with
  | nil => rfl
  | cons s order ih =>
    have hround : (if sel s then L.umount X (path s) else X) =
        if reached sel hit s then L.umount X (L.point s) else X := by
      unfold reached
      cases hs : sel s with
      | false => rfl
      | true =>
        cases hh : hit s with
        | true =>
          rw [hhit s hh]
          rfl
        | false =>
          have hsT := horder s List.mem_cons_self
          exact umount_eq_self fun m hm => hmiss s hsT hs hh m (hX m hm)
    rw [List.foldl_cons, List.foldl_cons, hround]
    refine ih ?_ fun m hm => horder m (List.mem_cons_of_mem s hm)
    intro m hm
    split at hm
    · exact hX m ((umount_sublist X _).subset hm)
    · exact hX m hm

theorem unmountSelected_closed (h : L.IsTree T) : L.Closed T (L.unmountSelected sel T T) := by
  refine unmountSelected_rule h (P := fun _ X => L.Closed T X) ?_ closed_self
  intro s _ X hX
  rcases umountIf_cases h hX s with he | ⟨t, _, _, hcl, _⟩
  · rwa [he]
  · exact hcl

theorem mem_of_not_reached (h : L.IsTree T)
    (hpoint : ∀ a b, L.point a = L.point b → hit a = hit b) {m : α} (hm : L.Outermost sel T m)
    (hno : hit m = false)
    (hkept : ∀ d ∈ T, L.Kept sel T d → d ∈ L.unmountSelected (reached sel hit) T T) :
    m ∈ L.unmountSelected (reached sel hit) T T := by
  have hstep : ∀ s ∈ T, ∀ X,
      (L.Closed T X ∧ ((∀ d ∈ T, L.Kept sel T d → d ∈ X) → m ∈ X)) →
      L.Closed T (L.umountIf (reached sel hit) X s) ∧
        ((∀ d ∈ T, L.Kept sel T d → d ∈ L.umountIf (reached sel hit) X s) →
          m ∈ L.umountIf (reached sel hit) X s) := by
    rintro s hs X ⟨hX, hP⟩
    rcases umountIf_cases h hX s with he | ⟨t, hsel, ht, hcl, hmem⟩
    · rw [he]
      exact ⟨hX, hP⟩
    · refine ⟨hcl, fun hk => (hmem m).mpr ⟨?_, ?_⟩⟩
      · exact hP fun d hd hkd => ((hmem d).mp (hk d hd hkd)).1
      · intro htm
        have hkt : ¬ L.Kept sel T t := fun hkt =>
          ((hmem t).mp (hk t (hX.mem ht.mem) hkt)).2 (Under.refl t)
        have hmt := hm.under_of_not_kept h (Under.refl m) htm hkt
        obtain rfl := h.under_antisymm htm hmt
        have hhit := (Bool.and_eq_true_iff.mp hsel).2
        rw [hpoint s t ht.point.symm, hno] at hhit
        cases hhit
  have hend := unmountSelected_rule h
    (P := fun _ X => L.Closed T X ∧ ((∀ d ∈ T, L.Kept sel T d → d ∈ X) → m ∈ X))
    hstep ⟨closed_self, fun _ => hm.mem⟩
  exact hend.2 hkept

/-- Of the trees that list the covered first, the run is exact for the selection on those in
which every outermost selected mount is clear and reached, and on no others. -/
theorem unmountSelected_reached_exact_iff (h : L.IsTree T) (hord : L.CoveredFirst T)
    (hpoint : ∀ a b, L.point a = L.point b → hit a = hit b) :
    L.Exact sel T (L.unmountSelected (reached sel hit) T T) ↔
      ∀ m, L.Outermost sel T m → L.Clear sel T m ∧ hit m = true := by
  constructor
  · intro he
    have hall : L.AllReached sel hit T := by
      intro m hm
      rw [← Bool.not_eq_false]
      intro hno
      have hgone := he.gone m (mem_of_not_reached h hpoint hm hno he.kept)
      rw [hm.selected] at hgone
      cases hgone
    intro m hm
    have he' := (hall.exact_iff h (unmountSelected_closed h)).mpr he
    have hclear := (unmountSelected_exact_iff h hord).mp he' m ((hall.outermost_iff h).mpr hm)
    exact ⟨(hall.clear_iff h hpoint hm).mp hclear, hall m hm⟩
  · intro hm
    have hall : L.AllReached sel hit T := fun m ho => (hm m ho).2
    refine (hall.exact_iff h (unmountSelected_closed h)).mp (exact_of_clear h hord ?_)
    intro m ho
    have ho' := (hall.outermost_iff h).mp ho
    exact (hall.clear_iff h hpoint ho').mpr (hm m ho').1

end MountTree.Layout
