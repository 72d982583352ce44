import ZygiskAssistant.Lib.MountResolve

/-!
# Detaching a selection, last mount first

A run over the table from its end that detaches the mount point of every
selected entry. It is exact when nothing selected is left and everything is
kept that lies below no selected mount. Where the covered is listed first this
happens when no kept mount covers an outermost selected one and whatever is
stacked on the mount point of such a mount is selected too.
-/

namespace MountTree.Layout

universe u v w

variable {α : Type u} {ι : Type v} {κ : Type w} (L : Layout α ι κ) (sel : α → Bool)

def unmountSelected [DecidableEq ι] [DecidableEq κ] (order X : List α) : List α :=
  order.reverse.foldl (fun X m => if sel m then L.umount X (L.point m) else X) X

def Kept (T : List α) (m : α) : Prop := ∀ a, L.Under T a m → sel a = false

/-- A selected mount below no other. -/
structure Outermost (T : List α) (m : α) : Prop where
  mem : m ∈ T
  selected : sel m = true
  outer : ∀ a, L.Under T a m → sel a = true → a = m

/-- Nothing selected is left, and all is kept that lies below nothing selected. -/
structure Exact (T X : List α) : Prop where
  gone : ∀ m ∈ X, sel m = false
  kept : ∀ m ∈ T, L.Kept sel T m → m ∈ X

/-- What is mounted on `m` at its own mount point, and `m` itself. -/
def Stacked (T : List α) (m c : α) : Prop := L.Under T m c ∧ L.point c = L.point m

/-- Nothing that is kept covers the mount, and all that is stacked on it is selected. -/
structure Clear [DecidableEq α] (T : List α) (m : α) : Prop where
  not_covered : ∀ n, L.Covers T n m → ¬ L.Kept sel T n
  stack_selected : ∀ c, L.Stacked T m c → sel c = true

variable {L} {sel} {T X : List α}

theorem not_kept_of_selected {m d : α} (hs : sel m = true) (hu : L.Under T m d) :
    ¬ L.Kept sel T d := by
  intro hk
  have hno := hk m hu
  rw [hs] at hno
  cases hno

theorem Kept.above {a m : α} (hm : L.Kept sel T m) (hu : L.Under T a m) : L.Kept sel T a :=
  fun b hb => hm b (hb.trans hu)

theorem Stacked.refl (m : α) : L.Stacked T m m := ⟨Under.refl m, rfl⟩

variable [DecidableEq α]

section Tree

variable (h : L.IsTree T)

include h

theorem IsTree.exists_outermost {m : α} (hm : m ∈ T) (hk : ¬ L.Kept sel T m) :
    ∃ o, L.Outermost sel T o ∧ L.Under T o m := by
  obtain ⟨a, hu, hs⟩ : ∃ a, L.Under T a m ∧ sel a = true := by
    unfold Kept at hk
    simpa using hk
  induction hn : T.idxOf a using Nat.strong_induction_on generalizing a with
  | _ n ih =>
    by_cases ho : ∃ b, L.Under T b a ∧ sel b = true ∧ b ≠ a
    · obtain ⟨b, hba, hsb, hne⟩ := ho
      rcases h.under_before hba with he | hlt
      · exact absurd he hne
      · unfold Before at hlt
        exact ih (T.idxOf b) (by omega) b (hba.trans hu) hsb rfl
    · refine ⟨a, ⟨hu.mem_left hm, hs, ?_⟩, hu⟩
      intro b hba hsb
      by_contra hne
      exact ho ⟨b, hba, hsb, hne⟩

theorem Outermost.eq {m o d : α} (hm : L.Outermost sel T m) (ho : L.Outermost sel T o)
    (hmd : L.Under T m d) (hod : L.Under T o d) : m = o := by
  rcases h.ancestors_comparable hmd hod with hu | hu
  · exact ho.outer m hu hm.selected
  · exact (hm.outer o hu ho.selected).symm

theorem Outermost.under_of_not_kept {m a d : α} (hm : L.Outermost sel T m) (hmd : L.Under T m d)
    (had : L.Under T a d) (hk : ¬ L.Kept sel T a) : L.Under T m a := by
  have haT : a ∈ T := had.mem_left (hmd.mem_right hm.mem)
  obtain ⟨o, ho, hoa⟩ := h.exists_outermost haT hk
  rwa [hm.eq h ho hmd (hoa.trans had)]

theorem Outermost.of_covers {m n : α} (hm : L.Outermost sel T m) (hc : L.Covers T n m)
    (hk : ¬ L.Kept sel T n) : L.Outermost sel T n := by
  obtain ⟨o, ho, hon⟩ := h.exists_outermost hc.mem_left hk
  obtain ⟨c, a, ha, hn, _, hu, _⟩ := hc
  rcases Relation.ReflTransGen.cases_tail hon with rfl | ⟨c', hoc, hcn⟩
  · exact ho
  · obtain rfl := h.parent_unique hn hcn
    have hom : L.Under T o m := hoc.trans (ha.under.trans hu)
    obtain rfl := hm.outer o hom ho.selected
    have hle := h.under_le hoc
    have hle' := h.under_le hu
    have hlt := h.child_later c a ha
    unfold Before at hlt
    omega

theorem Covers.point_prefix {n m : α} (hc : L.Covers T n m) : L.point n <+: L.point m := by
  obtain ⟨_, a, _, _, _, hu, hp, _⟩ := hc
  exact hp.trans (h.under_point hu)

end Tree

/-- What holds before the mount at place `k` is left: of every stack just the part that is
listed before it. -/
structure Descent (L : Layout α ι κ) (sel : α → Bool) (T : List α) (k : Nat) (X : List α) :
    Prop where
  closed : L.Closed T X
  kept : ∀ m ∈ T, L.Kept sel T m → m ∈ X
  stack_left : ∀ m c, L.Outermost sel T m → L.Stacked T m c → (c ∈ X ↔ T.idxOf c < k)

theorem Descent.visited {X : List α} {s o : α} (h : L.IsTree T) (hord : L.CoveredFirst T)
    (hclear : ∀ m, L.Outermost sel T m → L.Clear sel T m)
    (hd : L.Descent sel T (T.idxOf s + 1) X) (ho : L.Outermost sel T o) (hos : L.Under T o s) :
    L.Visited T X (L.point s) o := by
  refine ⟨?_, h.under_point hos, ?_⟩
  · have hle := h.under_le hos
    exact (hd.stack_left o o ho (Stacked.refl o)).mpr (by omega)
  · intro n hn hcov
    have hno := ho.of_covers h hcov ((hclear o ho).not_covered n hcov)
    have hlt := (hd.stack_left n n hno (Stacked.refl n)).mp hn
    have hafter := hord n s (hcov.below hos)
    unfold Before at hafter
    omega

theorem Descent.top {X : List α} {s m : α} (h : L.IsTree T) (hord : L.CoveredFirst T)
    (hd : L.Descent sel T (T.idxOf s + 1) X) (hm : L.Outermost sel T m)
    (hvis : L.Visited T X (L.point s) m) (hs : L.Stacked T m s) : L.Top T X (L.point s) s := by
  have hlast : ∀ c ∈ X, L.Stacked T m c → ¬ Before T s c := by
    intro c hc hmc hlt
    have hidx := (hd.stack_left m c hm hmc).mp hc
    unfold Before at hlt
    omega
  refine ⟨(hd.stack_left m s hm hs).mpr (Nat.lt_succ_self _), rfl, ?_, ?_⟩
  · rintro n hn ⟨c, a, ha, hcn, hne, hu, hp, hlater⟩
    rcases h.ancestors_comparable hs.1 hu with hma | ham
    · rcases Relation.ReflTransGen.cases_tail hma with rfl | ⟨c', hmc, hca⟩
      · exact hvis.uncovered n hn ⟨c, a, ha, hcn, hne, Under.refl a, hp, hlater⟩
      · obtain rfl := h.parent_unique ha hca
        have hmn : L.Under T m n := hmc.trans hcn.under
        have hpn : L.point n = L.point m := by
          have hle := (hp.trans (h.under_point hu)).length_le
          rw [hs.2] at hle
          exact ((h.under_point hmn).eq_of_length_le hle).symm
        exact hlast n hn ⟨hmn, hpn⟩
          (hord n s ⟨c, a, ha, hcn, hne, hu, hp, hlater⟩)
    · exact hvis.uncovered n hn ⟨c, a, ha, hcn, hne, ham, hp, hlater⟩
  · intro d hdX hsd hpd
    exact hlast d hdX ⟨hs.1.trans hsd.under, hpd.trans hs.2⟩ (h.child_later s d hsd)

theorem Descent.skip {X : List α} {s : α} (hd : L.Descent sel T (T.idxOf s + 1) X)
    (hout : ∀ m c, L.Outermost sel T m → L.Stacked T m c → c ≠ s) :
    L.Descent sel T (T.idxOf s) X := by
  refine ⟨hd.closed, hd.kept, ?_⟩
  intro m c hm hc
  rw [hd.stack_left m c hm hc]
  have hne : T.idxOf c ≠ T.idxOf s := by
    intro he
    exact hout m c hm hc ((List.idxOf_inj (hc.1.mem_right hm.mem)).mp he)
  omega

theorem Descent.remove_self {X Y : List α} {s o : α} (h : L.IsTree T)
    (hd : L.Descent sel T (T.idxOf s + 1) X) (ho : L.Outermost sel T o) (hos : L.Under T o s)
    (hY : L.Closed T Y) (hmem : ∀ d, d ∈ Y ↔ d ∈ X ∧ ¬ L.Under T s d) :
    L.Descent sel T (T.idxOf s) Y := by
  refine ⟨hY, ?_, ?_⟩
  · intro m hm hkm
    have hno : ¬ L.Under T s m := fun hsm =>
      not_kept_of_selected ho.selected (hos.trans hsm) hkm
    exact (hmem m).mpr ⟨hd.kept m hm hkm, hno⟩
  · intro m c hm hc
    rw [hmem, hd.stack_left m c hm hc]
    constructor
    · rintro ⟨hlt, hno⟩
      have hne : T.idxOf c ≠ T.idxOf s := by
        intro he
        obtain rfl := (List.idxOf_inj (hc.1.mem_right hm.mem)).mp he
        exact hno (Under.refl c)
      omega
    · intro hlt
      refine ⟨by omega, fun hsc => ?_⟩
      have hle := h.under_le hsc
      omega

theorem Descent.remove_other {X Y : List α} {s o t : α} (h : L.IsTree T)
    (hd : L.Descent sel T (T.idxOf s + 1) X) (ho : L.Outermost sel T o) (hot : L.Under T o t)
    (hout : ∀ m c, L.Outermost sel T m → L.Stacked T m c → c ≠ s)
    (hp : L.point t ≠ L.point o) (hY : L.Closed T Y)
    (hmem : ∀ d, d ∈ Y ↔ d ∈ X ∧ ¬ L.Under T t d) : L.Descent sel T (T.idxOf s) Y := by
  refine ⟨hY, ?_, ?_⟩
  · intro m hm hkm
    have hno : ¬ L.Under T t m := fun htm =>
      not_kept_of_selected ho.selected (hot.trans htm) hkm
    exact (hmem m).mpr ⟨hd.kept m hm hkm, hno⟩
  · intro m c hm hc
    rw [hmem, ← (hd.skip hout).stack_left m c hm hc]
    refine ⟨fun hcX => hcX.1, fun hcX => ⟨hcX, fun htc => hp ?_⟩⟩
    obtain rfl := ho.eq h hm (hot.trans htc) hc.1
    exact (h.point_between hot htc hc.2.symm).trans hc.2

variable [DecidableEq ι] [DecidableEq κ]

def umountIf (L : Layout α ι κ) (sel : α → Bool) (X : List α) (m : α) : List α :=
  if sel m then L.umount X (L.point m) else X

/-- What every round carries from the mounts up to the one it visits to the mounts before
it, the run carries from the whole table to the end. -/
theorem unmountSelected_rule (h : L.IsTree T) {P : Nat → List α → Prop}
    (hstep : ∀ s ∈ T, ∀ X, P (T.idxOf s + 1) X → P (T.idxOf s) (L.umountIf sel X s))
    (hstart : P T.length T) : P 0 (L.unmountSelected sel T T) := by
  have hrun : ∀ rem passed X, T = rem ++ passed → P rem.length X →
      P 0 (L.unmountSelected sel rem X) := by
    intro rem
    induction rem using List.reverseRecOn with
    | nil =>
      intro _ _ _ hP
      exact hP
    | append_singleton rem s ih =>
      intro passed X hT hP
      have hnd : T.Nodup := h.nodup.of_map
      have hT' : T = rem ++ s :: passed := by simpa using hT
      have hidx : T.idxOf s = rem.length := by
        rw [hT'] at hnd ⊢
        have hs : s ∉ rem := fun hm =>
          (List.nodup_append.mp hnd).2.2 s hm s List.mem_cons_self rfl
        simp [List.idxOf_append_of_notMem hs]
      have hnext := hstep s (by simp [hT']) X (by simpa [hidx] using hP)
      rw [hidx] at hnext
      have hrest := ih (s :: passed) _ hT' hnext
      simpa [unmountSelected, umountIf] using hrest
  exact hrun T [] T (by simp) hstart

theorem Descent.step {X : List α} {s : α} (h : L.IsTree T) (hord : L.CoveredFirst T)
    (hclear : ∀ m, L.Outermost sel T m → L.Clear sel T m) (hsT : s ∈ T)
    (hd : L.Descent sel T (T.idxOf s + 1) X) :
    L.Descent sel T (T.idxOf s) (L.umountIf sel X s) := by
  have hX := hd.closed
  cases hs : sel s with
  | false =>
    rw [umountIf, hs, if_neg Bool.false_ne_true]
    refine hd.skip fun m c hm hc he => ?_
    have hsel := (hclear m hm).stack_selected c hc
    rw [he, hs] at hsel
    cases hsel
  | true =>
    rw [umountIf, hs, if_pos rfl]
    obtain ⟨o, ho, hos⟩ := h.exists_outermost hsT (not_kept_of_selected hs (Under.refl s))
    have hvis := hd.visited h hord hclear ho hos
    by_cases hp : L.point s = L.point o
    · have htop := hd.top h hord ho hvis ⟨hos, hp⟩
      rw [umount_top htop h hX]
      exact hd.remove_self h ho hos (hX.detach h hsT) fun d => mem_detach h hX hsT
    · have hout : ∀ m c, L.Outermost sel T m → L.Stacked T m c → c ≠ s := by
        rintro m c hm hc rfl
        obtain rfl := hm.eq h ho hc.1 hos
        exact hp hc.2
      rcases umount_cases h hX (L.point s) with ⟨hsame, _⟩ | ⟨t, ht, hcl, hmem⟩
      · rw [hsame]
        exact hd.skip hout
      · exact hd.remove_other h ho (ht.under h hX hvis) hout (ht.point ▸ hp) hcl hmem

theorem exact_of_clear (h : L.IsTree T) (hord : L.CoveredFirst T)
    (hclear : ∀ m, L.Outermost sel T m → L.Clear sel T m) :
    L.Exact sel T (L.unmountSelected sel T T) := by
  have hstart : L.Descent sel T T.length T := by
    refine ⟨closed_self, fun m hm _ => hm, ?_⟩
    intro m c hm hc
    have hcT := hc.1.mem_right hm.mem
    exact ⟨fun _ => List.idxOf_lt_length_of_mem hcT, fun _ => hcT⟩
  have hend := unmountSelected_rule h (fun s hs X hd => Descent.step h hord hclear hs hd) hstart
  refine ⟨?_, hend.kept⟩
  intro m hm
  rw [← Bool.not_eq_true]
  intro hs
  obtain ⟨o, ho, hom⟩ := h.exists_outermost (hend.closed.mem hm)
    (not_kept_of_selected hs (Under.refl m))
  have hlt := (hend.stack_left o o ho (Stacked.refl o)).mp (hend.closed.under_mem hom hm)
  omega

end MountTree.Layout
