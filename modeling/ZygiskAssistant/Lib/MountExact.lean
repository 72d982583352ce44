import ZygiskAssistant.Lib.MountRun

/-!
# Only clear trees are treated exactly

Where the covered is listed first, every round of the run detaches at most one
mount of a stack, and it does so from the top. A stack of which one mount is not
selected therefore runs short of rounds, or takes a round from another stack
below it that runs short in turn, so that in the end a selected mount is left.
-/

namespace MountTree.Layout

universe u v w

variable {α : Type u} {ι : Type v} {κ : Type w} {L : Layout α ι κ} {sel : α → Bool} {T : List α}
variable [DecidableEq α]

theorem Closed.removed_outermost {X : List α} {t c m : α} {p : List κ} (hX : L.Closed T X)
    (h : L.IsTree T) (ht : L.Top T X p t) (hk : ¬ L.Kept sel T t) (hm : L.Outermost sel T m)
    (hc : L.Stacked T m c) (hcX : c ∈ X) (htc : L.Under T t c) : c = t := by
  have hmt : L.Under T m t := hm.under_of_not_kept h hc.1 htc hk
  have hp : L.point c = p := (h.point_between hmt htc hc.2.symm).symm.trans ht.point
  exact ht.eq_of_under h hX hcX hp htc

/-- Every stack still has all that is listed before the place. -/
def HasRest (L : Layout α ι κ) (sel : α → Bool) (T : List α) (k : Nat) (X : List α) : Prop :=
  ∀ m c, L.Outermost sel T m → L.Stacked T m c → T.idxOf c < k → c ∈ X

/-- Some stack still has a mount from the place on. -/
def RunsShort (L : Layout α ι κ) (sel : α → Bool) (T : List α) (k : Nat) (X : List α) : Prop :=
  ∃ m c, L.Outermost sel T m ∧ L.Stacked T m c ∧ c ∈ X ∧ k ≤ T.idxOf c

/-- A round on the stack of `m` belongs to that stack, or to one that `m` lies over. -/
theorem HasRest.stacked_or_covers {X : List α} {s t m : α} (h : L.IsTree T) (hX : L.Closed T X)
    (hrest : L.HasRest sel T (T.idxOf s + 1) X) (hsT : s ∈ T) (hs : sel s = true)
    (ht : L.Top T X (L.point s) t) (hm : L.Outermost sel T m) (hmt : L.Stacked T m t) :
    L.Stacked T m s ∨ ∃ o a, L.Outermost sel T o ∧ L.Under T o s ∧ L.Under T a m ∧
      L.Covers T a o := by
  obtain ⟨o, ho, hos⟩ := h.exists_outermost hsT (not_kept_of_selected hs (Under.refl s))
  have hpm : L.point m = L.point s := hmt.2.symm.trans ht.point
  have hpm' : L.point m <+: L.point s := hpm ▸ List.prefix_rfl
  rcases h.comparable_or_covers hm.mem ho.mem hpm' (h.under_point hos) with
    hmo | hom | ⟨a, ham, hcov⟩ | ⟨b, hbo, hcov⟩
  · obtain rfl := ho.outer m hmo hm.selected
    exact Or.inl ⟨hos, hpm.symm⟩
  · obtain rfl := hm.outer o hom ho.selected
    exact Or.inl ⟨hos, hpm.symm⟩
  · exact Or.inr ⟨o, a, ho, hos, ham, hcov⟩
  · have hle := h.under_le hos
    have hoX : o ∈ X := hrest o o ho (Stacked.refl o) (by omega)
    exact absurd (hcov.below hmt.1) (ht.uncovered b (hX.under_mem hbo hoX))

theorem not_under_of_lt {s t : α} (h : L.IsTree T) (hlt : T.idxOf s < T.idxOf t) :
    ¬ L.Under T t s := by
  intro hu
  have hle := h.under_le hu
  omega

theorem HasRest.keep {X Y : List α} {s t : α} (h : L.IsTree T) (hord : L.CoveredFirst T)
    (hX : L.Closed T X) (hrest : L.HasRest sel T (T.idxOf s + 1) X) (hsT : s ∈ T)
    (hs : sel s = true) (ht : L.Top T X (L.point s) t) (hk : ¬ L.Kept sel T t)
    (hY : ∀ d, d ∈ Y ↔ d ∈ X ∧ ¬ L.Under T t d) : L.HasRest sel T (T.idxOf s) Y := by
  intro m c hm hc hlt
  have hcX := hrest m c hm hc (by omega)
  refine (hY c).mpr ⟨hcX, fun htc => ?_⟩
  obtain rfl := hX.removed_outermost h ht hk hm hc hcX htc
  rcases hrest.stacked_or_covers h hX hsT hs ht hm hc with hms | ⟨o, a, ho, hos, ham, hcov⟩
  · have hsX := hrest m s hm hms (Nat.lt_succ_self _)
    rcases ht.last h hord hX hsX rfl with rfl | hbefore
    · exact lt_irrefl _ hlt
    · unfold Before at hbefore
      omega
  · have hafter := hord a s (hcov.below hos)
    have hle := h.under_le ham
    have hle' := h.under_le hc.1
    unfold Before at hafter
    omega

theorem RunsShort.keep {X Y : List α} {s t : α} (h : L.IsTree T) (hX : L.Closed T X)
    (hcover : ∀ m, L.Outermost sel T m → ∀ n, L.Covers T n m → ¬ L.Kept sel T n)
    (hrest : L.HasRest sel T (T.idxOf s + 1) X) (hshort : L.RunsShort sel T (T.idxOf s + 1) X)
    (hsT : s ∈ T) (hs : sel s = true) (ht : L.Top T X (L.point s) t) (hk : ¬ L.Kept sel T t)
    (hY : ∀ d, d ∈ Y ↔ d ∈ X ∧ ¬ L.Under T t d) : L.RunsShort sel T (T.idxOf s) Y := by
  obtain ⟨m, c, hm, hc, hcX, hle⟩ := hshort
  by_cases htc : L.Under T t c
  · obtain rfl := hX.removed_outermost h ht hk hm hc hcX htc
    have hstay : ∀ o, L.Outermost sel T o → L.Stacked T o s → L.RunsShort sel T (T.idxOf s) Y := by
      intro o ho hos
      have hsX := hrest o s ho hos (Nat.lt_succ_self _)
      exact ⟨o, s, ho, hos, (hY s).mpr ⟨hsX, not_under_of_lt h (by omega)⟩, le_refl _⟩
    rcases hrest.stacked_or_covers h hX hsT hs ht hm hc with hms | ⟨o, a, ho, hos, ham, hcov⟩
    · exact hstay m hm hms
    · have hma : L.Under T m a :=
        hm.under_of_not_kept h (Under.refl m) ham (hcover o ho a hcov)
      obtain rfl := h.under_antisymm ham hma
      have hpo : L.point o = L.point s := by
        have hlen := (hcov.point_prefix h).length_le
        rw [hc.2.symm.trans ht.point] at hlen
        exact (h.under_point hos).eq_of_length_le hlen
      exact hstay o ho ⟨hos, hpo.symm⟩
  · exact ⟨m, c, hm, hc, (hY c).mpr ⟨hcX, htc⟩, by omega⟩

variable [DecidableEq ι] [DecidableEq κ]

theorem umountIf_cases {X : List α} (h : L.IsTree T) (hX : L.Closed T X) (s : α) :
    (L.umountIf sel X s = X) ∨ ∃ t, sel s = true ∧ L.Top T X (L.point s) t ∧
      L.Closed T (L.umountIf sel X s) ∧ ∀ d, d ∈ L.umountIf sel X s ↔ d ∈ X ∧ ¬ L.Under T t d := by
  unfold umountIf
  cases hs : sel s with
  | false => exact Or.inl rfl
  | true =>
    rw [if_pos rfl]
    rcases umount_cases h hX (L.point s) with ⟨hsame, _⟩ | ⟨t, ht, hcl, hmem⟩
    · exact Or.inl hsame
    · exact Or.inr ⟨t, rfl, ht, hcl, hmem⟩

/-- A property of the mounts that are left, carried along a run that keeps what it should. -/
theorem unmountSelected_kept_rule (h : L.IsTree T) {P : Nat → List α → Prop}
    (hsame : ∀ s ∈ T, ∀ X, P (T.idxOf s + 1) X → P (T.idxOf s) X)
    (hremove : ∀ s ∈ T, ∀ X Y t, L.Closed T X → P (T.idxOf s + 1) X → sel s = true →
      L.Top T X (L.point s) t → ¬ L.Kept sel T t → (∀ d, d ∈ Y ↔ d ∈ X ∧ ¬ L.Under T t d) →
      P (T.idxOf s) Y)
    (hstart : P T.length T)
    (hkept : ∀ m ∈ T, L.Kept sel T m → m ∈ L.unmountSelected sel T T) :
    L.Closed T (L.unmountSelected sel T T) ∧ P 0 (L.unmountSelected sel T T) := by
  have hstep : ∀ s ∈ T, ∀ X,
      (L.Closed T X ∧ ((∀ m ∈ T, L.Kept sel T m → m ∈ X) → P (T.idxOf s + 1) X)) →
      L.Closed T (L.umountIf sel X s) ∧
        ((∀ m ∈ T, L.Kept sel T m → m ∈ L.umountIf sel X s) →
          P (T.idxOf s) (L.umountIf sel X s)) := by
    rintro s hs X ⟨hX, hP⟩
    rcases umountIf_cases h hX s with he | ⟨t, hsel, ht, hcl, hmem⟩
    · rw [he]
      exact ⟨hX, fun hk => hsame s hs X (hP hk)⟩
    · refine ⟨hcl, fun hk => ?_⟩
      have hkX : ∀ m ∈ T, L.Kept sel T m → m ∈ X := fun m hm hkm =>
        ((hmem m).mp (hk m hm hkm)).1
      have hkt : ¬ L.Kept sel T t := fun hkt =>
        ((hmem t).mp (hk t (hX.mem ht.mem) hkt)).2 (Under.refl t)
      exact hremove s hs X _ t hX (hP hkX) hsel ht hkt hmem
  have hend := unmountSelected_rule h
    (P := fun k X => L.Closed T X ∧ ((∀ m ∈ T, L.Kept sel T m → m ∈ X) → P k X))
    hstep ⟨closed_self, fun _ => hstart⟩
  exact ⟨hend.1, hend.2 hkept⟩

theorem Exact.not_covered (h : L.IsTree T) (he : L.Exact sel T (L.unmountSelected sel T T)) {m : α}
    (hm : L.Outermost sel T m) : ∀ n, L.Covers T n m → ¬ L.Kept sel T n := by
  intro n hcov hkn
  have hrun := unmountSelected_kept_rule h (P := fun _ X => m ∈ X ∧ n ∈ X) ?_ ?_
    ⟨hm.mem, hcov.mem_left⟩ he.kept
  · have hno := he.gone m hrun.2.1
    rw [hm.selected] at hno
    cases hno
  · intro s _ X hP
    exact hP
  · rintro s _ X Y t hX ⟨hmX, hnX⟩ _ ht hkt hY
    refine ⟨(hY m).mpr ⟨hmX, fun htm => ?_⟩, (hY n).mpr ⟨hnX, fun htn => hkt (hkn.above htn)⟩⟩
    have hmt : L.Under T m t := hm.under_of_not_kept h (Under.refl m) htm hkt
    obtain rfl := h.under_antisymm htm hmt
    exact ht.uncovered n hnX hcov

theorem Exact.stack_selected (h : L.IsTree T) (hord : L.CoveredFirst T)
    (he : L.Exact sel T (L.unmountSelected sel T T)) {m c : α} (hm : L.Outermost sel T m)
    (hc : L.Stacked T m c) : sel c = true := by
  have hcover : ∀ m, L.Outermost sel T m → ∀ n, L.Covers T n m → ¬ L.Kept sel T n :=
    fun m hm => he.not_covered h hm
  rw [← Bool.not_eq_false]
  intro hsc
  have hcT := hc.1.mem_right hm.mem
  have hrun := unmountSelected_kept_rule h
    (P := fun k X => L.HasRest sel T k X ∧ (k ≤ T.idxOf c → L.RunsShort sel T k X)) ?_ ?_ ?_ he.kept
  · obtain ⟨hcl, _, hshort⟩ := hrun
    obtain ⟨o, d, ho, hod, hd, _⟩ := hshort (Nat.zero_le _)
    have hno := he.gone o (hcl.under_mem hod.1 hd)
    rw [ho.selected] at hno
    cases hno
  · rintro s hs X ⟨hrest, hshort⟩
    refine ⟨fun o d ho hd hlt => hrest o d ho hd (by omega), fun hle => ?_⟩
    rcases Nat.lt_or_eq_of_le hle with hlt | heq
    · obtain ⟨o, d, ho, hod, hd, hle'⟩ := hshort hlt
      exact ⟨o, d, ho, hod, hd, by omega⟩
    · have hcX := hrest m c hm hc (by omega)
      exact ⟨m, c, hm, hc, hcX, hle⟩
  · rintro s hs X Y t hX ⟨hrest, hshort⟩ hsel ht hkt hY
    refine ⟨hrest.keep h hord hX hs hsel ht hkt hY, fun hle => ?_⟩
    rcases Nat.lt_or_eq_of_le hle with hlt | heq
    · exact (hshort hlt).keep h hX hcover hrest hs hsel ht hkt hY
    · have hsc' : s = c := (List.idxOf_inj hs).mp heq
      rw [hsc', hsc] at hsel
      cases hsel
  · refine ⟨fun o d ho hd _ => hd.1.mem_right ho.mem, fun hle => ?_⟩
    have hlt := List.idxOf_lt_length_of_mem hcT
    omega

/-- Of the trees that list the covered first, the run is exact on those in which every
outermost selected mount is clear, and on no others. -/
theorem unmountSelected_exact_iff (h : L.IsTree T) (hord : L.CoveredFirst T) :
    L.Exact sel T (L.unmountSelected sel T T) ↔
      ∀ m, L.Outermost sel T m → L.Clear sel T m := by
  constructor
  · intro he m hm
    exact ⟨he.not_covered h hm, fun c hc => he.stack_selected h hord hm hc⟩
  · exact exact_of_clear h hord

end MountTree.Layout
