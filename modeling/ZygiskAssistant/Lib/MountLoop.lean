import ZygiskAssistant.Lib.MountAgain

/-!
# A run under way

The rounds of a run that are to come, and what holds before them: in a run of
which any rounds may fail, and in a run that others disturb by detaching mounts
of their own. The first never takes a mount that is to stay; the second leaves
just these where no mount that goes is stacked with one that stays.
-/

namespace MountTree.Layout

universe u v w

variable {α : Type u} {ι : Type v} {κ : Type w} {L : Layout α ι κ} {sel : α → Bool}
variable {T X Y rest : List α}

/-- The rounds to come while those from place `k` on have been made. -/
def rounds (sel : α → Bool) (T : List α) (k : Nat) : List α := ((T.take k).filter sel).reverse

theorem rounds_length : rounds sel T T.length = (T.filter sel).reverse := by
  rw [rounds, List.take_length]

variable [DecidableEq α]

theorem rounds_cons (hT : T.Nodup) {k : Nat} {s : α} (hk : rounds sel T k = s :: rest) :
    s ∈ T ∧ sel s = true ∧ T.idxOf s < k ∧ rest = rounds sel T (T.idxOf s) := by
  induction k with
  | zero =>
    rw [rounds, List.take_zero] at hk
    cases hk
  | succ k ih =>
    by_cases hlt : k < T.length
    · unfold rounds at hk
      rw [List.take_succ_eq_append_getElem hlt, List.filter_append, List.reverse_append] at hk
      by_cases hs : sel T[k] = true
      · rw [List.filter_cons_of_pos hs] at hk
        obtain ⟨rfl, rfl⟩ := List.cons.inj hk
        rw [hT.idxOf_getElem]
        exact ⟨List.getElem_mem hlt, hs, Nat.lt_succ_self k, rfl⟩
      · rw [List.filter_cons_of_neg hs] at hk
        obtain ⟨hmem, hsel, hidx, hrest⟩ := ih hk
        exact ⟨hmem, hsel, Nat.lt_succ_of_lt hidx, hrest⟩
    · have hsame : rounds sel T (k + 1) = rounds sel T k := by
        unfold rounds
        rw [List.take_of_length_le (by omega), List.take_of_length_le (by omega)]
      rw [hsame] at hk
      obtain ⟨hmem, hsel, hidx, hrest⟩ := ih hk
      exact ⟨hmem, hsel, Nat.lt_succ_of_lt hidx, hrest⟩

theorem mem_rounds {k : Nat} {m : α} :
    m ∈ rounds sel T k ↔ m ∈ T ∧ sel m = true ∧ T.idxOf m < k := by
  unfold rounds
  rw [List.mem_reverse, List.mem_filter]
  constructor
  · rintro ⟨hm, hs⟩
    have hmT := List.mem_of_mem_take hm
    exact ⟨hmT, hs, (List.mem_take_iff_idxOf_lt hmT).mp hm⟩
  · rintro ⟨hm, hs, hlt⟩
    exact ⟨(List.mem_take_iff_idxOf_lt hm).mpr hlt, hs⟩

/-- What holds before the rounds to come of a run some of whose rounds may have failed. -/
def Faltering (L : Layout α ι κ) (sel : α → Bool) (T X rest : List α) : Prop :=
  ∃ k, rest = rounds sel T k ∧ L.Remainder sel T X ∧ L.HasRest sel T k X

/-- In a clear tree a round finds no mount that is to stay. -/
theorem Top.not_kept {s o t : α} (h : L.IsTree T) (hX : L.Closed T X)
    (ht : L.Top T X (L.point s) t) (ho : L.Outermost sel T o) (hc : L.Clear sel T o)
    (hos : L.Under T o s) (hoX : o ∈ X) : ¬ L.Kept sel T t := by
  have hpt : L.point t <+: L.point s := ht.point ▸ List.prefix_rfl
  rcases h.comparable_or_covers ho.mem (hX.mem ht.mem) (h.under_point hos) hpt with
    hot | hto | ⟨a, hao, hcov⟩ | ⟨b, hbt, hcov⟩
  · exact not_kept_of_selected ho.selected hot
  · have hp : L.point o = L.point s := by
      have hle := (h.under_point hto).length_le
      rw [ht.point] at hle
      exact (h.under_point hos).eq_of_length_le hle
    obtain rfl := ht.eq_of_under h hX hoX hp hto
    exact not_kept_of_selected ho.selected (Under.refl o)
  · exact absurd hcov (ht.uncovered a (hX.under_mem hao hoX))
  · exact fun hk => hc.not_covered b hcov (hk.above hbt)

theorem HasRest.mono {k k' : Nat} (hrest : L.HasRest sel T k X) (hle : k' ≤ k) :
    L.HasRest sel T k' X := fun m c hm hc hlt => hrest m c hm hc (by omega)

namespace Faltering

variable (h : L.IsTree T)

theorem start : L.Faltering sel T T (T.filter sel).reverse :=
  ⟨T.length, rounds_length.symm, .refl T, fun _ _ hm hc _ => hc.1.mem_right hm.mem⟩

theorem remainder (hf : L.Faltering sel T X rest) : L.Remainder sel T X := by
  obtain ⟨_, _, hX, _⟩ := hf
  exact hX

include h

theorem miss {s : α} (hf : L.Faltering sel T X (s :: rest)) : L.Faltering sel T X rest := by
  obtain ⟨k, hk, hX, hrest⟩ := hf
  obtain ⟨_, _, hlt, rfl⟩ := rounds_cons h.nodup.of_map hk.symm
  exact ⟨T.idxOf s, rfl, hX, hrest.mono (Nat.le_of_lt hlt)⟩

omit h in
theorem stop (hf : L.Faltering sel T X rest) : L.Faltering sel T X [] := by
  obtain ⟨_, _, hX, _⟩ := hf
  refine ⟨0, ?_, hX, fun m c hm hc hlt => absurd hlt (Nat.not_lt_zero _)⟩
  rw [rounds, List.take_zero]
  rfl

variable [DecidableEq ι] [DecidableEq κ]

theorem umount (hord : L.CoveredFirst T)
    (hclear : ∀ m, L.Outermost sel T m → L.Clear sel T m) {s : α}
    (hf : L.Faltering sel T X (s :: rest)) : L.Faltering sel T (L.umount X (L.point s)) rest := by
  obtain ⟨k, hk, hX, hrest⟩ := hf
  obtain ⟨hsT, hs, hlt, rfl⟩ := rounds_cons h.nodup.of_map hk.symm
  have hrest' : L.HasRest sel T (T.idxOf s + 1) X := hrest.mono hlt
  obtain ⟨o, ho, hos⟩ := h.exists_outermost hsT (not_kept_of_selected hs (Under.refl s))
  have hoX : o ∈ X := by
    have hle := h.under_le hos
    exact hrest' o o ho (Stacked.refl o) (by omega)
  have htop : ∀ t, L.Top T X (L.point s) t → ¬ L.Kept sel T t := fun t ht =>
    ht.not_kept h hX.closed ho (hclear o ho) hos hoX
  refine ⟨T.idxOf s, rfl, hX.umount h htop, ?_⟩
  rcases umount_cases h hX.closed (L.point s) with ⟨hsame, _⟩ | ⟨t, ht, _, hmem⟩
  · rw [hsame]
    exact hrest'.mono (Nat.le_succ _)
  · exact hrest'.keep h hord hX.closed hsT hs ht (htop t ht) hmem

end Faltering

/-- No mount that goes has the mount point of one that stays. -/
def Separated (L : Layout α ι κ) (sel : α → Bool) (T : List α) : Prop :=
  ∀ m ∈ T, ∀ n ∈ T, L.Kept sel T m → ¬ L.Kept sel T n → L.point m ≠ L.point n

omit [DecidableEq α] in
theorem Separated.part (hsep : L.Separated sel T) (hX : L.Closed T X) : L.Separated sel X := by
  intro m hm n hn hkm hkn
  exact hsep m (hX.mem hm) n (hX.mem hn) ((hX.kept_iff hm).mp hkm)
    fun hk => hkn ((hX.kept_iff hn).mpr hk)

omit [DecidableEq α] in
theorem separated_of_inj (hinj : ∀ m ∈ T, ∀ n ∈ T, L.point m = L.point n → m = n) :
    L.Separated sel T := by
  intro m hm n hn hkm hkn he
  exact hkn (hinj m hm n hn he ▸ hkm)

/-- What holds before the rounds to come of a run that others disturb. -/
def Sinking (L : Layout α ι κ) (sel : α → Bool) (T X rest : List α) : Prop :=
  ∃ k, rest = rounds sel T k ∧ L.Remainder sel T X ∧
    ∀ m c, L.Outermost sel T m → L.Stacked T m c → c ∈ X → T.idxOf c < k

theorem stack_top {s m : α} (h : L.IsTree T) (hord : L.CoveredFirst T)
    (hclear : ∀ m, L.Outermost sel T m → L.Clear sel T m)
    (hsunk : ∀ m c, L.Outermost sel T m → L.Stacked T m c → c ∈ X → T.idxOf c < T.idxOf s + 1)
    (hm : L.Outermost sel T m) (hs : L.Stacked T m s) (hsX : s ∈ X) :
    L.Top T X (L.point s) s := by
  have hlast : ∀ c ∈ X, ∀ o, L.Outermost sel T o → L.Stacked T o c → ¬ Before T s c := by
    intro c hc o ho hoc hlt
    have hidx := hsunk o c ho hoc hc
    unfold Before at hlt
    omega
  refine ⟨hsX, rfl, ?_, ?_⟩
  · rintro n hn ⟨c, a, ha, hcn, hne, hu, hp, hlater⟩
    have hafter := hord n s ⟨c, a, ha, hcn, hne, hu, hp, hlater⟩
    have hover : L.Under T a m → False := by
      intro ham
      have hcov : L.Covers T n m := ⟨c, a, ha, hcn, hne, ham, hp, hlater⟩
      have hno := hm.of_covers h hcov ((hclear m hm).not_covered n hcov)
      exact hlast n hn n hno (Stacked.refl n) hafter
    rcases h.ancestors_comparable hs.1 hu with hma | ham
    · rcases Relation.ReflTransGen.cases_tail hma with rfl | ⟨c', hmc, hca⟩
      · exact hover (Under.refl a)
      · obtain rfl := h.parent_unique ha hca
        have hmn : L.Under T m n := hmc.trans hcn.under
        have hpn : L.point n = L.point m := by
          have hle := (hp.trans (h.under_point hu)).length_le
          rw [hs.2] at hle
          exact ((h.under_point hmn).eq_of_length_le hle).symm
        exact hlast n hn m hm ⟨hmn, hpn⟩ hafter
    · exact hover ham
  · intro d hd hsd hpd
    exact hlast d hd m hm ⟨hs.1.trans hsd.under, hpd.trans hs.2⟩ (h.child_later s d hsd)

/-- In a separated tree no path of a mount that goes finds one that is to stay. -/
theorem Separated.umount [DecidableEq ι] [DecidableEq κ] (hsep : L.Separated sel T)
    (h : L.IsTree T) (hX : L.Remainder sel T X) {n : α} (hn : n ∈ T) (hk : ¬ L.Kept sel T n) :
    L.Remainder sel T (L.umount X (L.point n)) := by
  refine hX.umount h fun t ht hkt => ?_
  exact hsep t (hX.closed.mem ht.mem) n hn hkt hk ht.point

namespace Sinking

theorem start : L.Sinking sel T T (T.filter sel).reverse :=
  ⟨T.length, rounds_length.symm, .refl T, fun _ _ _ _ hc => List.idxOf_lt_length_of_mem hc⟩

theorem remainder (hs : L.Sinking sel T X rest) : L.Remainder sel T X := by
  obtain ⟨_, _, hX, _⟩ := hs
  exact hX

theorem disturbed (hs : L.Sinking sel T X rest) (hY : L.Remainder sel T Y) (hsub : Y ⊆ X) :
    L.Sinking sel T Y rest := by
  obtain ⟨k, hk, _, hsunk⟩ := hs
  exact ⟨k, hk, hY, fun m c hm hc hcY => hsunk m c hm hc (hsub hcY)⟩

variable (h : L.IsTree T) (hord : L.CoveredFirst T)
variable (hclear : ∀ m, L.Outermost sel T m → L.Clear sel T m)

include h hord hclear

theorem umount [DecidableEq ι] [DecidableEq κ] (hsep : L.Separated sel T) {s : α}
    (hs : L.Sinking sel T X (s :: rest)) : L.Sinking sel T (L.umount X (L.point s)) rest := by
  obtain ⟨k, hk, hX, hsunk⟩ := hs
  obtain ⟨hsT, hsel, hlt, rfl⟩ := rounds_cons h.nodup.of_map hk.symm
  have hround : ∀ m c, L.Outermost sel T m → L.Stacked T m c → c ∈ X →
      T.idxOf c < T.idxOf s + 1 := by
    intro m c hm hc hcX
    have hcr : c ∈ rounds sel T k := mem_rounds.mpr
      ⟨hX.closed.mem hcX, (hclear m hm).stack_selected c hc, hsunk m c hm hc hcX⟩
    rw [← hk] at hcr
    rcases List.mem_cons.mp hcr with rfl | hcr
    · exact Nat.lt_succ_self _
    · have hidx := (mem_rounds.mp hcr).2.2
      omega
  have hgone := hsep.umount h hX hsT (not_kept_of_selected hsel (Under.refl s))
  refine ⟨T.idxOf s, rfl, hgone, ?_⟩
  intro m c hm hc hcY
  have hidx := hround m c hm hc ((umount_sublist X _).subset hcY)
  have hne : c ≠ s := by
    rintro rfl
    have hcX := (umount_sublist X _).subset hcY
    have htop := stack_top h hord hclear hround hm hc hcX
    rw [umount_top htop h hX.closed] at hcY
    exact ((mem_detach h hX.closed hsT).mp hcY).2 (Under.refl c)
  have hinj : T.idxOf c ≠ T.idxOf s := fun he =>
    hne ((List.idxOf_inj (hX.closed.mem ((umount_sublist X _).subset hcY))).mp he)
  omega

omit hord hclear in
theorem gone (hs : L.Sinking sel T X []) : ∀ m ∈ X, sel m = false := by
  obtain ⟨k, hk, hX, hsunk⟩ := hs
  intro m hm
  rw [← Bool.not_eq_true]
  intro hsel
  obtain ⟨o, ho, hom⟩ := h.exists_outermost (hX.closed.mem hm)
    (not_kept_of_selected hsel (Under.refl m))
  have hoX := hX.closed.under_mem hom hm
  have hmem : o ∈ rounds sel T k := mem_rounds.mpr
    ⟨ho.mem, ho.selected, hsunk o o ho (Stacked.refl o) hoX⟩
  rw [← hk] at hmem
  cases hmem

end Sinking

end MountTree.Layout
