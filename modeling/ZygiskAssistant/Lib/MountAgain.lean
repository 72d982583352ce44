import ZygiskAssistant.Lib.MountMissed

/-!
# A run over what another has left

What is left of a tree is a tree again, with the same mounts to go and to stay.
So a run that stops early, or of which some rounds fail, is made good by one
more run over what it leaves: together they leave what one run leaves.
-/

namespace MountTree.Layout

universe u v w

variable {α : Type u} {ι : Type v} {κ : Type w} {L : Layout α ι κ} {sel : α → Bool}
variable {T X Y : List α}

section Part

variable (hX : L.Closed T X)

theorem under_of_part (hsub : X ⊆ T) {a m : α} (hu : L.Under X a m) : L.Under T a m := by
  induction hu with
  | refl => exact Under.refl a
  | tail _ hc ih => exact ih.trans (Child.under ⟨hsub hc.1, hsub hc.2.1, hc.2.2⟩)

include hX

theorem Closed.child_iff {c d : α} (hd : d ∈ X) : L.Child X c d ↔ L.Child T c d := by
  constructor
  · rintro ⟨hc, _, hp⟩
    exact ⟨hX.mem hc, hX.mem hd, hp⟩
  · intro hc
    exact ⟨hX.parent_mem c d hc hd, hd, hc.2.2⟩

theorem Closed.under_iff {a m : α} (hm : m ∈ X) : L.Under X a m ↔ L.Under T a m := by
  constructor
  · exact under_of_part hX.sublist.subset
  · intro hu
    induction hu with
    | refl => exact Under.refl a
    | tail _ hc ih =>
      have hchild := (hX.child_iff hm).mpr hc
      exact (ih hchild.1).trans hchild.under

theorem Closed.trans (hY : L.Closed X Y) : L.Closed T Y := by
  refine ⟨hY.sublist.trans hX.sublist, ?_⟩
  intro c d hc hd
  exact hY.parent_mem c d ((hX.child_iff (hY.mem hd)).mpr hc) hd

theorem Closed.kept_iff {m : α} (hm : m ∈ X) : L.Kept sel X m ↔ L.Kept sel T m := by
  constructor
  · intro hk a ha
    exact hk a ((hX.under_iff hm).mpr ha)
  · intro hk a ha
    exact hk a ((hX.under_iff hm).mp ha)

theorem Closed.outermost {m : α} (hm : L.Outermost sel X m) : L.Outermost sel T m where
  mem := hX.mem hm.mem
  selected := hm.selected
  outer a ha hs := hm.outer a ((hX.under_iff hm.mem).mpr ha) hs

end Part

variable [DecidableEq α]

section Tree

variable (h : L.IsTree T) (hX : L.Closed T X)

include h hX

/-- A part lists its mounts as the whole does. -/
theorem Closed.before_iff {a b : α} (ha : a ∈ X) (hb : b ∈ X) : Before X a b ↔ Before T a b := by
  have hforth : ∀ {a b : α}, a ∈ X → b ∈ X → Before X a b → Before T a b := by
    intro a b ha hb hlt
    have hget := List.pairwise_iff_getElem.mp (hX.pairwise_before h) _ _
      (List.idxOf_lt_length_of_mem ha) (List.idxOf_lt_length_of_mem hb) hlt
    rwa [List.getElem_idxOf, List.getElem_idxOf] at hget
  constructor
  · exact hforth ha hb
  · intro hlt
    have hne : a ≠ b := by
      rintro rfl
      exact hlt.asymm hlt
    rcases before_or_before ha hne with hab | hba
    · exact hab
    · exact absurd hlt (hforth hb ha hba).asymm

theorem Closed.head_mem {r : α} (hr : r ∈ X.head?) : r ∈ T.head? := by
  have hrX : r ∈ X := List.mem_of_mem_head? hr
  obtain ⟨r', hr', hu⟩ := h.root_under (hX.mem hrX)
  have hrX' : r' ∈ X := hX.under_mem hu hrX
  obtain ⟨rest, rfl⟩ : ∃ rest, X = r :: rest := List.head?_eq_some_iff.mp hr
  rcases List.mem_cons.mp hrX' with rfl | hrest
  · exact hr'
  · have hbefore := (List.pairwise_cons.mp (hX.pairwise_before h)).1 r' hrest
    have hle := h.under_le hu
    unfold Before at hbefore
    omega

theorem Closed.covers {n m : α} (hc : L.Covers X n m) : L.Covers T n m := by
  obtain ⟨c, a, ha, hn, hne, hu, hp, hord⟩ := hc
  refine ⟨c, a, (hX.child_iff ha.2.1).mp ha, (hX.child_iff hn.2.1).mp hn, hne,
    under_of_part hX.sublist.subset hu, hp, fun he => ?_⟩
  exact (hX.before_iff h ha.2.1 hn.2.1).mp (hord he)

theorem Closed.isTree : L.IsTree X where
  nodup := (hX.sublist.map L.id).nodup h.nodup
  root_point r hr := h.root_point r (hX.head_mem h hr)
  exists_parent d hd hroot := by
    have hrootT : d ∉ T.head? := by
      intro hdT
      obtain ⟨r, rest, rfl⟩ := List.exists_cons_of_ne_nil (List.ne_nil_of_mem hd)
      have hrT := hX.head_mem h (r := r) rfl
      obtain rfl := Option.mem_unique hrT hdT
      exact hroot rfl
    obtain ⟨c, hc⟩ := h.exists_parent d (hX.mem hd) hrootT
    exact ⟨c, (hX.child_iff hd).mpr hc⟩
  child_later c d hc :=
    (hX.before_iff h hc.1 hc.2.1).mpr (h.child_later c d ((hX.child_iff hc.2.1).mp hc))
  child_point c d hc := h.child_point c d ((hX.child_iff hc.2.1).mp hc)

theorem Closed.coveredFirst (hord : L.CoveredFirst T) : L.CoveredFirst X := by
  intro n m hc
  have hn : n ∈ X := hc.mem_left
  have hm : m ∈ X := by
    obtain ⟨_, a, ha, _, _, hu, _⟩ := hc
    exact hu.mem_right ha.2.1
  exact (hX.before_iff h hm hn).mpr (hord n m (hX.covers h hc))

theorem Closed.clear {m : α} (hc : L.Clear sel T m) : L.Clear sel X m where
  not_covered n hn hk :=
    hc.not_covered n (hX.covers h hn) ((hX.kept_iff hn.mem_left).mp hk)
  stack_selected c hs := hc.stack_selected c ⟨under_of_part hX.sublist.subset hs.1, hs.2⟩

end Tree

/-- A part of the tree with all that is to stay. -/
structure Remainder (L : Layout α ι κ) (sel : α → Bool) (T X : List α) : Prop where
  closed : L.Closed T X
  kept : ∀ m ∈ T, L.Kept sel T m → m ∈ X

namespace Remainder

omit [DecidableEq α] in
theorem refl (T : List α) : L.Remainder sel T T := ⟨closed_self, fun _ hm _ => hm⟩

omit [DecidableEq α] in
theorem trans (hX : L.Remainder sel T X) (hY : L.Remainder sel X Y) : L.Remainder sel T Y := by
  refine ⟨hX.closed.trans hY.closed, ?_⟩
  intro m hm hk
  have hmX := hX.kept m hm hk
  exact hY.kept m hmX ((hX.closed.kept_iff hmX).mpr hk)

omit [DecidableEq α] in
/-- What is left of a remainder is one of the part as well. -/
theorem of_sublist (hX : L.Remainder sel T X) (hY : L.Remainder sel T Y) (hsub : Y.Sublist X) :
    L.Remainder sel X Y := by
  refine ⟨⟨hsub, fun c d hc hd => ?_⟩, ?_⟩
  · exact hY.closed.parent_mem c d ((hX.closed.child_iff (hsub.subset hd)).mp hc) hd
  · intro m hm hk
    exact hY.kept m (hX.closed.mem hm) ((hX.closed.kept_iff hm).mp hk)

/-- Nothing more is left than what is to stay as soon as nothing selected is left. -/
theorem eq_of_gone (h : L.IsTree T) (hX : L.Remainder sel T X) (hY : L.Remainder sel T Y)
    (hgoneX : ∀ m ∈ X, sel m = false) (hgoneY : ∀ m ∈ Y, sel m = false) : X = Y := by
  have hkept : ∀ {Z : List α}, L.Remainder sel T Z → (∀ m ∈ Z, sel m = false) →
      ∀ m, m ∈ Z ↔ m ∈ T ∧ L.Kept sel T m := by
    intro Z hZ hgone m
    constructor
    · intro hm
      exact ⟨hZ.closed.mem hm, fun a ha => hgone a (hZ.closed.under_mem ha hm)⟩
    · rintro ⟨hm, hk⟩
      exact hZ.kept m hm hk
  have hnd : T.Nodup := h.nodup.of_map
  have hperm : X.Perm Y := by
    rw [List.perm_ext_iff_of_nodup (hX.closed.sublist.nodup hnd) (hY.closed.sublist.nodup hnd)]
    intro m
    rw [hkept hX hgoneX, hkept hY hgoneY]
  refine hperm.eq_of_pairwise (fun a b _ _ hab hba => absurd hba hab.asymm)
    (hX.closed.pairwise_before h) (hY.closed.pairwise_before h)

variable [DecidableEq ι] [DecidableEq κ]

/-- Detaching leaves a remainder as long as the mount that goes is not to stay. -/
theorem umount (h : L.IsTree T) (hX : L.Remainder sel T X) {p : List κ}
    (htop : ∀ t, L.Top T X p t → ¬ L.Kept sel T t) : L.Remainder sel T (L.umount X p) := by
  rcases umount_cases h hX.closed p with ⟨hsame, _⟩ | ⟨t, ht, hcl, hmem⟩
  · rwa [hsame]
  · refine ⟨hcl, fun m hm hk => (hmem m).mpr ⟨hX.kept m hm hk, fun htm => ?_⟩⟩
    exact htop t ht (hk.above htm)

theorem of_exact (h : L.IsTree T) (he : L.Exact sel T (L.unmountSelected sel T T)) :
    L.Remainder sel T (L.unmountSelected sel T T) := ⟨unmountSelected_closed h, he.kept⟩

/-- A run over what is left of a clear tree leaves what a run over the tree leaves. -/
theorem unmountSelected_eq (h : L.IsTree T) (hord : L.CoveredFirst T)
    (hclear : ∀ m, L.Outermost sel T m → L.Clear sel T m) (hX : L.Remainder sel T X) :
    L.unmountSelected sel X X = L.unmountSelected sel T T := by
  have hT := exact_of_clear h hord hclear
  have htree := hX.closed.isTree h
  have hpart : L.Exact sel X (L.unmountSelected sel X X) :=
    exact_of_clear htree (hX.closed.coveredFirst h hord) fun m hm =>
      hX.closed.clear h (hclear m (hX.closed.outermost hm))
  exact eq_of_gone h (hX.trans (of_exact htree hpart)) (of_exact h hT) hpart.gone hT.gone

end Remainder

/-- No mount point lies at or below the one of a sibling. -/
def Beside (L : Layout α ι κ) (T : List α) : Prop :=
  ∀ n ∈ T, ∀ a ∈ T, L.parent n = L.parent a → n ≠ a → ¬ L.point n <+: L.point a

theorem Beside.not_covers {n m : α} (hb : L.Beside T) : ¬ L.Covers T n m := by
  rintro ⟨c, a, ha, hcn, hne, _, hp, _⟩
  exact hb n hcn.2.1 a ha.2.1 (hcn.2.2.1.trans ha.2.2.1.symm) hne hp

theorem Beside.coveredFirst (hb : L.Beside T) : L.CoveredFirst T :=
  fun _ _ hc => absurd hc hb.not_covers

section Check

variable [DecidableEq ι] (h : L.IsTree T)

include h

theorem IsTree.under_iff {a m : α} (ha : a ∈ T) (hm : m ∈ T) :
    L.Under T a m ↔ L.id m ∈ L.doomed a T := by
  rw [mem_doomed h closed_self ha]
  constructor
  · intro hu
    exact ⟨m, hm, rfl, hu⟩
  · rintro ⟨d, hd, hid, hu⟩
    rwa [← h.eq_of_id hd hm hid]

theorem kept_of_forall {m : α} (hm : m ∈ T)
    (hall : ∀ a ∈ T, L.id m ∈ L.doomed a T → sel a = false) : L.Kept sel T m := by
  intro a ha
  have haT := ha.mem_left hm
  exact hall a haT ((h.under_iff haT hm).mp ha)

theorem Beside.clear (hb : L.Beside T)
    (hstack : ∀ m ∈ T, sel m = true → ∀ c ∈ T, L.id c ∈ L.doomed m T →
      L.point c = L.point m → sel c = true) {m : α} (hm : L.Outermost sel T m) :
    L.Clear sel T m where
  not_covered n hn _ := hb.not_covers hn
  stack_selected c hc := by
    have hcT := hc.1.mem_right hm.mem
    exact hstack m hm.mem hm.selected c hcT ((h.under_iff hm.mem hcT).mp hc.1) hc.2

end Check

end MountTree.Layout
