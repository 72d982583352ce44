import Mathlib.Data.List.Infix
import ZygiskAssistant.Lib.MountAgain

/-!
# What the rounds of a run have to pay

In any tree, however its mounts are listed: a round takes a mount of a stack
only once all stacks at shorter paths on the way are gone, and then it takes one.
So what is due at a path is a list of paths, one for each mount of a stack on the
way, and the run is exact when its rounds hold what is due, in that order, and
no round is left over for a mount that is to stay.
-/

namespace MountTree.Layout

universe u v w

section Words

variable {κ : Type w} {n n' : List κ → Nat} {p q : List κ}

/-- The paths on the way to `p`, shortest first, each as often as `n` says. -/
def onTheWay (n : List κ → Nat) (p : List κ) : List (List κ) :=
  p.inits.flatMap fun q => List.replicate (n q) q

theorem pairwise_inits (p : List κ) :
    p.inits.Pairwise fun a b => a <+: b ∧ a ≠ b := by
  rw [List.pairwise_iff_getElem]
  intro i j hi hj hij
  rw [List.length_inits] at hi hj
  rw [List.getElem_inits, List.getElem_inits]
  refine ⟨List.take_prefix_take_left (by omega), fun he => ?_⟩
  have hlen := congrArg List.length he
  rw [List.length_take, List.length_take] at hlen
  omega

theorem mem_onTheWay : q ∈ onTheWay n p ↔ q <+: p ∧ n q ≠ 0 := by
  simp only [onTheWay, List.mem_flatMap, List.mem_inits, List.mem_replicate]
  constructor
  · rintro ⟨_, hp, hn, rfl⟩
    exact ⟨hp, hn⟩
  · rintro ⟨hp, hn⟩
    exact ⟨q, hp, hn, rfl⟩

theorem onTheWay_eq_nil : onTheWay n p = [] ↔ ∀ q, q <+: p → n q = 0 := by
  rw [List.eq_nil_iff_forall_not_mem]
  simp only [mem_onTheWay, not_and, not_not]

theorem onTheWay_congr (h : ∀ q, q <+: p → n q = n' q) : onTheWay n p = onTheWay n' p := by
  apply List.flatMap_congr
  intro q hq
  rw [h q ((List.mem_inits q p).mp hq)]

theorem onTheWay_eq_cons (hq : q <+: p) (hfirst : ∀ r, r <+: q → r ≠ q → n r = 0)
    (hpaid : n q = n' q + 1) (hsame : ∀ r, r ≠ q → n r = n' r) :
    onTheWay n p = q :: onTheWay n' p := by
  obtain ⟨before, after, hsplit⟩ := List.append_of_mem ((List.mem_inits q p).mpr hq)
  have hpair := pairwise_inits p
  rw [hsplit, List.pairwise_append] at hpair
  have hbefore : ∀ r ∈ before, r <+: q ∧ r ≠ q := fun r hr =>
    hpair.2.2 r hr q List.mem_cons_self
  have hafter : ∀ r ∈ after, r ≠ q := fun r hr he =>
    ((List.pairwise_cons.mp hpair.2.1).1 r hr).2 he.symm
  have hnil : ∀ {m : List κ → Nat}, (∀ r ∈ before, m r = 0) →
      before.flatMap (fun r => List.replicate (m r) r) = [] := by
    intro m hm
    rw [List.flatMap_eq_nil_iff]
    intro r hr
    rw [hm r hr, List.replicate_zero]
  have hrest : after.flatMap (fun r => List.replicate (n r) r) =
      after.flatMap fun r => List.replicate (n' r) r := by
    apply List.flatMap_congr
    intro r hr
    rw [hsame r (hafter r hr)]
  have hzero : ∀ r ∈ before, n r = 0 := fun r hr =>
    hfirst r (hbefore r hr).1 (hbefore r hr).2
  have hzero' : ∀ r ∈ before, n' r = 0 := fun r hr =>
    (hsame r (hbefore r hr).2).symm.trans (hzero r hr)
  unfold onTheWay
  rw [hsplit, List.flatMap_append, List.flatMap_append, hnil hzero, hnil hzero',
    List.flatMap_cons, List.flatMap_cons, hpaid, List.replicate_succ, hrest]
  rfl

theorem onTheWay_sorted (n : List κ → Nat) (p : List κ) :
    (onTheWay n p).Pairwise fun a b => a.length ≤ b.length := by
  rw [onTheWay, List.pairwise_flatMap]
  refine ⟨fun q _ => List.pairwise_replicate.mpr (Or.inr (le_refl _)), (pairwise_inits p).imp ?_⟩
  intro a b hab x hx y hy
  rw [List.eq_of_mem_replicate hx, List.eq_of_mem_replicate hy]
  exact hab.1.length_le

theorem onTheWay_head (h : (onTheWay n p).head? = some q) :
    ∀ r, r <+: q → r ≠ q → n r = 0 := by
  intro r hr hne
  by_contra hn
  obtain ⟨rest, hcons⟩ := List.head?_eq_some_iff.mp h
  have hq : q <+: p := (mem_onTheWay.mp (List.mem_of_mem_head? h)).1
  have hmem : r ∈ onTheWay n p := mem_onTheWay.mpr ⟨hr.trans hq, hn⟩
  have hsorted := onTheWay_sorted n p
  rw [hcons] at hmem hsorted
  rcases List.mem_cons.mp hmem with he | hrest
  · exact hne he
  · exact hne (hr.eq_of_length_le ((List.pairwise_cons.mp hsorted).1 r hrest))

theorem sublist_cons_iff_of_head {a : List κ} {l cs : List (List κ)} (h : l.head? ≠ some a) :
    l.Sublist (a :: cs) ↔ l.Sublist cs := by
  rw [List.sublist_cons_iff]
  constructor
  · rintro (hl | ⟨r, rfl, _⟩)
    · exact hl
    · exact absurd rfl h
  · exact Or.inl

end Words

variable {α : Type u} {ι : Type v} {κ : Type w}

section Conditions

variable (L : Layout α ι κ) (sel : α → Bool)

/-- An outermost selected mount, or one that is stacked on it. -/
def Piled (T : List α) (c : α) : Prop := ∃ m, L.Outermost sel T m ∧ L.Stacked T m c

open Classical in
noncomputable def height (T X : List α) (q : List κ) : Nat :=
  (X.filter fun c => L.Piled sel T c ∧ L.point c = q).length

/-- What is due before nothing of a stack is left on the way to `p`. -/
noncomputable def due (T X : List α) (p : List κ) : List (List κ) :=
  onTheWay (L.height sel T X) p

/-- A mount that stays and is the topmost at its mount point of those that stay. -/
structure Exposed [DecidableEq α] (T : List α) (t : α) : Prop where
  mem : t ∈ T
  kept : L.Kept sel T t
  uncovered : ∀ n, L.Kept sel T n → ¬ L.Covers T n t
  no_child : ∀ d, L.Kept sel T d → L.Child T t d → L.point d ≠ L.point t

def calls (T : List α) : List (List κ) := (T.filter sel).reverse.map L.point

/-- The rounds pay for all that is to go, and for nothing that is to stay. -/
structure Settled [DecidableEq α] (T : List α) : Prop where
  not_covered : ∀ m, L.Outermost sel T m → ∀ n, L.Covers T n m → ¬ L.Kept sel T n
  paid : ∀ m, L.Outermost sel T m → (L.due sel T T (L.point m)).Sublist (L.calls sel T)
  none_over : ∀ t, L.Exposed sel T t →
    ¬ (L.due sel T T (L.point t) ++ [L.point t]).Sublist (L.calls sel T)

end Conditions

variable {L : Layout α ι κ} {sel : α → Bool} {T X Y : List α} {p q : List κ}

theorem Piled.not_kept {c : α} (hc : L.Piled sel T c) : ¬ L.Kept sel T c := by
  obtain ⟨m, hm, hs⟩ := hc
  exact not_kept_of_selected hm.selected hs.1

theorem Outermost.piled {m : α} (hm : L.Outermost sel T m) : L.Piled sel T m :=
  ⟨m, hm, Stacked.refl m⟩

theorem height_eq_zero : L.height sel T X q = 0 ↔ ∀ c ∈ X, L.Piled sel T c → L.point c ≠ q := by
  unfold height
  rw [List.length_eq_zero_iff, List.filter_eq_nil_iff]
  simp only [decide_eq_true_eq, not_and]

theorem due_eq_nil :
    L.due sel T X p = [] ↔ ∀ c ∈ X, L.Piled sel T c → ¬ L.point c <+: p := by
  rw [due, onTheWay_eq_nil]
  constructor
  · intro hno c hc hpiled hp
    exact height_eq_zero.mp (hno _ hp) c hc hpiled rfl
  · intro hno q hq
    refine height_eq_zero.mpr ?_
    rintro c hc hpiled rfl
    exact hno c hc hpiled hq

variable [DecidableEq α]

/-- What a round at `q` makes of `X`: it misses, it loses a mount that stays, it comes while
something is due at a shorter path, or it pays for one mount of a stack. -/
inductive Round (L : Layout α ι κ) (sel : α → Bool) (T X : List α) (q : List κ) (Y : List α) :
    Prop
  | missed (hdue : L.due sel T X q = []) (hsame : Y = X)
      (hnone : ∀ t, L.Exposed sel T t → L.point t ≠ q)
  | lost (t : α) (ht : L.Exposed sel T t) (hp : L.point t = q) (hdue : L.due sel T X q = [])
      (hgone : t ∉ Y)
  | below (r : List κ) (hr : r <+: q) (hne : r ≠ q) (hdue : L.height sel T X r ≠ 0)
      (hY : L.Remainder sel T Y) (hsame : ∀ c, L.Piled sel T c → (c ∈ Y ↔ c ∈ X))
  | paid (t : α) (htX : t ∈ X) (ht : L.Piled sel T t) (hp : L.point t = q)
      (hfirst : ∀ r, r <+: q → r ≠ q → L.height sel T X r = 0) (hY : L.Remainder sel T Y)
      (hone : ∀ c, L.Piled sel T c → (c ∈ Y ↔ c ∈ X ∧ c ≠ t))

section Rounds

variable (h : L.IsTree T) (hX : L.Remainder sel T X)
variable (hcov : ∀ m, L.Outermost sel T m → ∀ n, L.Covers T n m → ¬ L.Kept sel T n)

include h hX

theorem top_iff_exposed (hno : ∀ c ∈ X, L.Piled sel T c → ¬ L.point c <+: p) {t : α} :
    L.Top T X p t ↔ L.Exposed sel T t ∧ L.point t = p := by
  have hkept : ∀ n ∈ X, L.point n <+: p → L.Kept sel T n := by
    intro n hn hp
    by_contra hk
    obtain ⟨o, ho, hon⟩ := h.exists_outermost (hX.closed.mem hn) hk
    exact hno o (hX.closed.under_mem hon hn) ho.piled ((h.under_point hon).trans hp)
  constructor
  · intro ht
    refine ⟨⟨hX.closed.mem ht.mem, hkept t ht.mem (ht.point ▸ List.prefix_rfl), ?_, ?_⟩, ht.point⟩
    · exact fun n hn hc => ht.uncovered n (hX.kept n hc.mem_left hn) hc
    · exact fun d hd hc hp => ht.no_child d (hX.kept d hc.2.1 hd) hc (hp.trans ht.point)
  · rintro ⟨ht, rfl⟩
    refine ⟨hX.kept t ht.mem ht.kept, rfl, ?_, ?_⟩
    · exact fun n hn hc => ht.uncovered n (hkept n hn (hc.point_prefix h)) hc
    · exact fun d hd hc hp => ht.no_child d (hkept d hd (hp ▸ List.prefix_rfl)) hc hp

variable [DecidableEq ι] [DecidableEq κ]

include hcov

theorem resolve_outermost {c : α} (hc : c ∈ X) (hpiled : L.Piled sel T c)
    (hp : L.point c <+: p) : ∃ e o, L.next X p e = none ∧ L.Visited T X p e ∧
      L.Outermost sel T o ∧ L.Visited T X p o ∧ L.Under T o e := by
  obtain ⟨m, hm, hmc⟩ := hpiled
  obtain ⟨r, rest, rfl⟩ := List.exists_cons_of_ne_nil (List.ne_nil_of_mem hc)
  obtain ⟨e, he⟩ : ∃ e, L.resolve (r :: rest) p = some e := ⟨_, rfl⟩
  obtain ⟨hvis, hnone⟩ := resolve_spec h hX.closed he
  have hmX := hX.closed.under_mem hmc.1 hc
  have hpm : L.point m <+: p := hmc.2 ▸ hp
  have hke : ¬ L.Kept sel T e := by
    intro hk
    rcases h.comparable_or_covers hm.mem (hX.closed.mem hvis.mem) hpm hvis.point with
      hme | hem | ⟨a, ham, hca⟩ | ⟨b, hbe, hcb⟩
    · exact not_kept_of_selected hm.selected hme hk
    · rcases Relation.ReflTransGen.cases_head hem with rfl | ⟨d, hed, hdm⟩
      · exact not_kept_of_selected hm.selected (Under.refl _) hk
      · have hd := hX.closed.under_mem hdm hmX
        exact next_none hX.closed hvis.mem hnone d hd hed ((h.under_point hdm).trans hpm)
    · exact hvis.uncovered a (hX.closed.under_mem ham hmX) hca
    · exact hcov m hm b hcb (hk.above hbe)
  obtain ⟨o, ho, hoe⟩ := h.exists_outermost (hX.closed.mem hvis.mem) hke
  refine ⟨e, o, hnone, hvis, ho, ⟨?_, ?_, ?_⟩, hoe⟩
  · exact hX.closed.under_mem hoe hvis.mem
  · exact (h.under_point hoe).trans hvis.point
  · exact fun n hn hno => hvis.uncovered n hn (hno.below hoe)

omit [DecidableEq ι] [DecidableEq κ] in
theorem Outermost.no_shorter {o c : α} (ho : L.Outermost sel T o) (hvis : L.Visited T X p o)
    (hc : c ∈ X) (hpiled : L.Piled sel T c) (hp : L.point c <+: L.point o) :
    L.point c = L.point o := by
  obtain ⟨m, hm, hmc⟩ := hpiled
  rw [hmc.2] at hp ⊢
  have hmX := hX.closed.under_mem hmc.1 hc
  rcases h.comparable_or_covers hm.mem ho.mem hp List.prefix_rfl with
    hmo | hom | ⟨a, ham, hca⟩ | ⟨b, hbo, hcb⟩
  · rw [ho.outer m hmo hm.selected]
  · rw [hm.outer o hom ho.selected]
  · exact absurd hca (hvis.uncovered a (hX.closed.under_mem ham hmX))
  · have hob := ho.under_of_not_kept h (Under.refl o) hbo (hcov m hm b hcb)
    obtain rfl := h.under_antisymm hbo hob
    exact hp.eq_of_length_le (hcb.point_prefix h).length_le

omit hX hcov [DecidableEq ι] [DecidableEq κ] in
theorem Outermost.stack_point {o t d : α} (ho : L.Outermost sel T o) (hot : L.Under T o t)
    (htd : L.Under T t d) (hd : L.Piled sel T d) :
    L.point d = L.point t ∧ L.point t = L.point o := by
  obtain ⟨m, hm, hmd⟩ := hd
  obtain rfl := ho.eq h hm (hot.trans htd) hmd.1
  have hpt := h.point_between hot htd hmd.2.symm
  exact ⟨hpt.symm, hpt.trans hmd.2⟩

theorem round_below {o c : α} (ho : L.Outermost sel T o) (hviso : L.Visited T X q o) (hc : c ∈ X)
    (hpiled : L.Piled sel T c) (hp : L.point c <+: q) (hne : L.point c ≠ q) :
    L.Round sel T X q (L.umount X q) := by
  have htop : ∀ t, L.Top T X q t → ¬ L.Kept sel T t := fun t ht =>
    not_kept_of_selected ho.selected (ht.under h hX.closed hviso)
  have hdue : L.height sel T X (L.point c) ≠ 0 := fun hno =>
    height_eq_zero.mp hno c hc hpiled rfl
  refine .below _ hp hne hdue (hX.umount h htop) fun d hd => ?_
  rcases umount_cases h hX.closed q with ⟨hsame, _⟩ | ⟨t, ht, _, hmem⟩
  · rw [hsame]
  · rw [hmem]
    refine ⟨And.left, fun hdX => ⟨hdX, fun htd => hne ?_⟩⟩
    have hpo : L.point o = q :=
      (ho.stack_point h (ht.under h hX.closed hviso) htd hd).2.symm.trans ht.point
    exact (ho.no_shorter h hX hcov hviso hc hpiled (hpo ▸ hp)).trans hpo

omit hcov in
/-- The mount that a path ends at is the topmost one there if an ancestor of it has the path. -/
theorem Visited.top {o e : α} (hvis : L.Visited T X q e) (hnone : L.next X q e = none)
    (hoe : L.Under T o e) (hpo : L.point o = q) : L.Top T X q e := by
  have hpe : L.point e = q :=
    hvis.point.eq_of_length_le (hpo ▸ (h.under_point hoe).length_le)
  refine ⟨hvis.mem, hpe, hvis.uncovered, fun d hd hed hpd => ?_⟩
  exact next_none hX.closed hvis.mem hnone d hd hed (hpd ▸ List.prefix_rfl)

omit hcov in
theorem round_paid {o e : α} (ho : L.Outermost sel T o) (hviso : L.Visited T X q o)
    (hoe : L.Under T o e) (ht : L.Top T X q e)
    (hpo : L.point o = q) (hfirst : ∀ r, r <+: q → r ≠ q → L.height sel T X r = 0) :
    L.Round sel T X q (L.umount X q) := by
  have hpiled : L.Piled sel T e := ⟨o, ho, hoe, ht.point.trans hpo.symm⟩
  have heT := hX.closed.mem ht.mem
  refine .paid e ht.mem hpiled ht.point hfirst (hX.umount h fun t ht' => ?_) fun d hd => ?_
  · exact not_kept_of_selected ho.selected (ht'.under h hX.closed hviso)
  · rw [umount_top ht h hX.closed, mem_detach h hX.closed heT]
    refine and_congr_right fun hdX => not_congr ⟨fun hed => ?_, ?_⟩
    · have hpd := (ho.stack_point h hoe hed hd).1.trans ht.point
      exact ht.eq_of_under h hX.closed hdX hpd hed
    · rintro rfl
      exact Under.refl d

theorem round_outermost {c : α} (hc : c ∈ X) (hpiled : L.Piled sel T c) (hp : L.point c <+: q) :
    L.Round sel T X q (L.umount X q) := by
  obtain ⟨e, o, hnone, hvis, ho, hviso, hoe⟩ := resolve_outermost h hX hcov hc hpiled hp
  by_cases hlow : ∃ d ∈ X, L.Piled sel T d ∧ L.point d <+: q ∧ L.point d ≠ q
  · obtain ⟨d, hd, hdpiled, hdp, hne⟩ := hlow
    exact round_below h hX hcov ho hviso hd hdpiled hdp hne
  · have hpo : L.point o = q := by
      by_contra hne
      exact hlow ⟨o, hviso.mem, ho.piled, hviso.point, hne⟩
    refine round_paid h hX ho hviso hoe (hvis.top h hX hnone hoe hpo) hpo fun r hr hne => ?_
    refine height_eq_zero.mpr ?_
    rintro d hd hdpiled rfl
    exact hlow ⟨d, hd, hdpiled, hr, hne⟩

theorem round_cases (q : List κ) : L.Round sel T X q (L.umount X q) := by
  by_cases hdue : L.due sel T X q = []
  · have hno := due_eq_nil.mp hdue
    rcases umount_cases h hX.closed q with ⟨hsame, htop⟩ | ⟨t, ht, _, hmem⟩
    · exact .missed hdue hsame fun t ht hp =>
        htop t ((top_iff_exposed h hX hno).mpr ⟨ht, hp⟩)
    · obtain ⟨hexposed, hp⟩ := (top_iff_exposed h hX hno).mp ht
      exact .lost t hexposed hp hdue fun hmemt => ((hmem t).mp hmemt).2 (Under.refl t)
  · obtain ⟨c, hc, hpiled, hp⟩ : ∃ c ∈ X, L.Piled sel T c ∧ L.point c <+: q := by
      by_contra hno
      exact hdue (due_eq_nil.mpr fun c hc hpiled hp => hno ⟨c, hc, hpiled, hp⟩)
    exact round_outermost h hX hcov hc hpiled hp

end Rounds

section Heights

variable (h : L.IsTree T) (hX : L.Remainder sel T X) (hY : L.Remainder sel T Y)

include h hX

theorem filter_nodup (P : α → Bool) : (X.filter P).Nodup :=
  (hX.closed.sublist.nodup h.nodup.of_map).filter P

include hY

theorem height_eq (hsame : ∀ c, L.Piled sel T c → L.point c = q → (c ∈ Y ↔ c ∈ X)) :
    L.height sel T X q = L.height sel T Y q := by
  apply List.Perm.length_eq
  rw [List.perm_ext_iff_of_nodup (filter_nodup h hX _) (filter_nodup h hY _)]
  intro c
  simp only [List.mem_filter, decide_eq_true_eq]
  exact and_congr_left fun hc => (hsame c hc.1 hc.2).symm

theorem height_succ {t : α} (htX : t ∈ X) (ht : L.Piled sel T t) (hp : L.point t = q)
    (hone : ∀ c, L.Piled sel T c → (c ∈ Y ↔ c ∈ X ∧ c ≠ t)) :
    L.height sel T X q = L.height sel T Y q + 1 := by
  have htY : t ∉ Y := fun hmem => ((hone t ht).mp hmem).2 rfl
  unfold height
  rw [← List.length_cons (a := t)]
  apply List.Perm.length_eq
  have hnd : ∀ P : α → Bool, (t :: Y.filter P).Nodup := fun P =>
    List.nodup_cons.mpr ⟨fun hmem => htY (List.mem_of_mem_filter hmem), filter_nodup h hY P⟩
  rw [List.perm_ext_iff_of_nodup (filter_nodup h hX _) (hnd _)]
  intro c
  simp only [List.mem_cons, List.mem_filter, decide_eq_true_eq]
  constructor
  · rintro ⟨hc, hpiled, hpc⟩
    by_cases he : c = t
    · exact Or.inl he
    · exact Or.inr ⟨(hone c hpiled).mpr ⟨hc, he⟩, hpiled, hpc⟩
  · rintro (rfl | ⟨hc, hpiled, hpc⟩)
    · exact ⟨htX, ht, hp⟩
    · exact ⟨((hone c hpiled).mp hc).1, hpiled, hpc⟩

end Heights

namespace Round

variable (hround : L.Round sel T X q Y) (hkept : ∀ m ∈ T, L.Kept sel T m → m ∈ Y)

include hround hkept

theorem remainder (hX : L.Remainder sel T X) : L.Remainder sel T Y := by
  cases hround with
  | missed _ hsame _ => rwa [hsame]
  | lost t ht _ _ hgone => exact absurd (hkept t ht.mem ht.kept) hgone
  | below _ _ _ _ hY _ => exact hY
  | paid _ _ _ _ _ hY _ => exact hY

/-- A round that loses nothing pays for the first that is due on a way, or for nothing on it. -/
theorem spends (h : L.IsTree T) (hX : L.Remainder sel T X) (p : List κ) :
    L.due sel T X p = q :: L.due sel T Y p ∨
      (L.due sel T X p).head? ≠ some q ∧ L.due sel T Y p = L.due sel T X p := by
  cases hround with
  | missed hdue hsame _ =>
    refine Or.inr ⟨fun hhead => ?_, by rw [hsame]⟩
    have hmem := mem_onTheWay.mp (List.mem_of_mem_head? hhead)
    exact hmem.2 (onTheWay_eq_nil.mp hdue q List.prefix_rfl)
  | lost t ht _ _ hgone => exact absurd (hkept t ht.mem ht.kept) hgone
  | below r hr hne hdue hY hsame =>
    refine Or.inr ⟨fun hhead => hdue (onTheWay_head hhead r hr hne), ?_⟩
    exact onTheWay_congr fun _ _ => (height_eq h hX hY fun c hc _ => hsame c hc).symm
  | paid t htX ht hp hfirst hY hone =>
    have hother : ∀ r, r ≠ q → L.height sel T X r = L.height sel T Y r := by
      rintro r hne
      refine height_eq h hX hY fun c hc hpc => ?_
      rw [hone c hc]
      refine ⟨And.left, fun hcX => ⟨hcX, ?_⟩⟩
      rintro rfl
      exact hne (hpc.symm.trans hp)
    by_cases hq : q <+: p
    · exact Or.inl (onTheWay_eq_cons hq hfirst (height_succ h hX hY htX ht hp hone) hother)
    · refine Or.inr ⟨fun hhead => hq (mem_onTheWay.mp (List.mem_of_mem_head? hhead)).1, ?_⟩
      refine onTheWay_congr fun r hr => (hother r ?_).symm
      rintro rfl
      exact hq hr

theorem exposed_ne {t : α} (ht : L.Exposed sel T t) (hdue : L.due sel T X (L.point t) = []) :
    L.point t ≠ q := by
  cases hround with
  | missed _ _ hnone => exact hnone t ht
  | lost t ht _ _ hgone => exact absurd (hkept t ht.mem ht.kept) hgone
  | below r hr _ hheight _ _ =>
    rintro rfl
    exact hheight (onTheWay_eq_nil.mp hdue r hr)
  | paid s hsX hs hp _ _ _ =>
    rintro rfl
    exact due_eq_nil.mp hdue s hsX hs (hp ▸ List.prefix_rfl)

variable (h : L.IsTree T) (hX : L.Remainder sel T X) {cs : List (List κ)}

include h hX

theorem due_sublist_iff (p : List κ) :
    (L.due sel T X p).Sublist (q :: cs) ↔ (L.due sel T Y p).Sublist cs := by
  rcases hround.spends hkept h hX p with hpay | ⟨hhead, hsame⟩
  · rw [hpay, List.cons_sublist_cons]
  · rw [sublist_cons_iff_of_head hhead, hsame]

theorem over_sublist_iff {t : α} (ht : L.Exposed sel T t) :
    (L.due sel T X (L.point t) ++ [L.point t]).Sublist (q :: cs) ↔
      (L.due sel T Y (L.point t) ++ [L.point t]).Sublist cs := by
  rcases hround.spends hkept h hX (L.point t) with hpay | ⟨hhead, hsame⟩
  · rw [hpay, List.cons_append, List.cons_sublist_cons]
  · rw [hsame]
    apply sublist_cons_iff_of_head
    cases hdue : L.due sel T X (L.point t) with
    | nil => exact fun he => hround.exposed_ne hkept ht hdue (Option.some.inj he)
    | cons r rest =>
      rw [hdue] at hhead
      exact hhead

end Round

variable [DecidableEq ι] [DecidableEq κ]

omit [DecidableEq α] in
theorem unmountSelected_eq_foldl :
    L.unmountSelected sel T X = (L.calls sel T).foldl L.umount X := by
  unfold unmountSelected calls
  rw [← List.filter_reverse, List.foldl_map, List.foldl_filter]

omit [DecidableEq α] in
theorem foldl_umount_sublist (cs : List (List κ)) (X : List α) :
    (cs.foldl L.umount X).Sublist X := by
  induction cs generalizing X with
  | nil => exact List.Sublist.refl X
  | cons q cs ih => exact (ih (L.umount X q)).trans (umount_sublist X q)

section Runs

variable (h : L.IsTree T)
variable (hcov : ∀ m, L.Outermost sel T m → ∀ n, L.Covers T n m → ¬ L.Kept sel T n)

include h hcov

theorem foldl_umount_kept_iff {cs : List (List κ)} (hX : L.Remainder sel T X) :
    (∀ m ∈ T, L.Kept sel T m → m ∈ cs.foldl L.umount X) ↔
      ∀ t, L.Exposed sel T t → ¬ (L.due sel T X (L.point t) ++ [L.point t]).Sublist cs := by
  induction cs generalizing X with
  | nil =>
    refine iff_of_true hX.kept fun t _ hsub => ?_
    have hnil := List.sublist_nil.mp hsub
    simp at hnil
  | cons q cs ih =>
    have hround := round_cases h hX hcov q
    by_cases hkept : ∀ m ∈ T, L.Kept sel T m → m ∈ L.umount X q
    · rw [List.foldl_cons, ih (hround.remainder hkept hX)]
      refine forall_congr' fun t => imp_congr_right fun ht => not_congr ?_
      exact (hround.over_sublist_iff hkept h hX ht).symm
    · refine iff_of_false (fun hall => hkept fun m hm hk => ?_) fun hnone => hkept ?_
      · exact (foldl_umount_sublist cs _).subset (hall m hm hk)
      · cases hround with
        | missed _ hsame _ =>
          rw [hsame]
          exact hX.kept
        | lost t ht hp hdue _ =>
          have hno := hnone t ht
          rw [hp, hdue, List.nil_append, List.singleton_sublist] at hno
          exact absurd List.mem_cons_self hno
        | below _ _ _ _ hY _ => exact hY.kept
        | paid _ _ _ _ _ hY _ => exact hY.kept

/-- A run that keeps what is to stay leaves nothing else exactly when its rounds pay for all
that is due. -/
theorem foldl_umount_gone_iff {cs : List (List κ)} (hX : L.Remainder sel T X)
    (hkept : ∀ m ∈ T, L.Kept sel T m → m ∈ cs.foldl L.umount X) :
    (∀ m, L.Outermost sel T m → m ∉ cs.foldl L.umount X) ↔
      ∀ m, L.Outermost sel T m → (L.due sel T X (L.point m)).Sublist cs := by
  induction cs generalizing X with
  | nil =>
    constructor
    · intro hgone m hm
      rw [due_eq_nil.mpr]
      rintro c hc ⟨o, ho, hoc⟩ _
      exact hgone o ho (hX.closed.under_mem hoc.1 hc)
    · intro hdue m hm hmX
      have hnil := List.sublist_nil.mp (hdue m hm)
      exact due_eq_nil.mp hnil m hmX hm.piled List.prefix_rfl
  | cons q cs ih =>
    have hround := round_cases h hX hcov q
    have hkeptY : ∀ m ∈ T, L.Kept sel T m → m ∈ L.umount X q := fun m hm hk =>
      (foldl_umount_sublist cs _).subset (hkept m hm hk)
    rw [List.foldl_cons, ih (hround.remainder hkeptY hX) hkept]
    refine forall_congr' fun m => imp_congr_right fun _ => ?_
    exact (hround.due_sublist_iff hkeptY h hX (L.point m)).symm

end Runs

/-- The run is exact on the trees whose rounds pay for all that is to go and for nothing that
is to stay, and on no others. -/
theorem unmountSelected_exact_iff_settled (h : L.IsTree T) :
    L.Exact sel T (L.unmountSelected sel T T) ↔ L.Settled sel T := by
  constructor
  · intro he
    have hcov : ∀ m, L.Outermost sel T m → ∀ n, L.Covers T n m → ¬ L.Kept sel T n :=
      fun m hm => he.not_covered h hm
    rw [unmountSelected_eq_foldl] at he
    refine ⟨hcov, ?_, (foldl_umount_kept_iff h hcov (.refl T)).mp he.kept⟩
    refine (foldl_umount_gone_iff h hcov (.refl T) he.kept).mp fun m hm hmem => ?_
    have hno := he.gone m hmem
    rw [hm.selected] at hno
    cases hno
  · intro hs
    have hclosed : L.Closed T (L.unmountSelected sel T T) := unmountSelected_closed h
    rw [unmountSelected_eq_foldl] at hclosed ⊢
    have hkept := (foldl_umount_kept_iff h hs.not_covered (.refl T)).mpr hs.none_over
    have hgone := (foldl_umount_gone_iff h hs.not_covered (.refl T) hkept).mpr hs.paid
    refine ⟨?_, hkept⟩
    intro m hm
    rw [← Bool.not_eq_true]
    intro hsel
    obtain ⟨o, ho, hom⟩ := h.exists_outermost (hclosed.mem hm)
      (not_kept_of_selected hsel (Under.refl m))
    exact hgone o ho (hclosed.under_mem hom hm)

/-- Where the covered is listed first, the rounds settle a tree when all its outermost selected
mounts are clear. -/
theorem settled_iff_clear (h : L.IsTree T) (hord : L.CoveredFirst T) :
    L.Settled sel T ↔ ∀ m, L.Outermost sel T m → L.Clear sel T m :=
  (unmountSelected_exact_iff_settled h).symm.trans (unmountSelected_exact_iff h hord)

end MountTree.Layout
