import ZygiskAssistant.Lib.MountTree

/-!
# Resolution and removal in a mount tree

What `resolve`, `detach` and `umount` compute on a part of the tree that is
closed under parents: the path ends in a mount that nothing covers, and the
subtree of that mount is removed.
-/

namespace MountTree.Layout

universe u v w

variable {α : Type u} {ι : Type v} {κ : Type w} {L : Layout α ι κ} {T X : List α} {p : List κ}

/-- The mounts that are left: some of the table, with all their ancestors. -/
structure Closed (L : Layout α ι κ) (T X : List α) : Prop where
  sublist : X.Sublist T
  parent_mem : ∀ c d, L.Child T c d → d ∈ X → c ∈ X

theorem Closed.mem {d : α} (hX : L.Closed T X) (hd : d ∈ X) : d ∈ T := hX.sublist.subset hd

theorem Closed.under_mem {a d : α} (hX : L.Closed T X) (hu : L.Under T a d) (hd : d ∈ X) :
    a ∈ X := by
  induction hu with
  | refl => exact hd
  | tail _ hc ih => exact ih (hX.parent_mem _ _ hc hd)

theorem closed_self : L.Closed T T := ⟨List.Sublist.refl T, fun _ _ hc _ => hc.1⟩

section Words

variable [DecidableEq ι] [DecidableEq κ]

theorem mem_crossings {c d : α} (hX : L.Closed T X) (hc : c ∈ X) :
    d ∈ L.crossings X p c ↔ d ∈ X ∧ L.Child T c d ∧ L.point d <+: p := by
  simp only [crossings, isChild, List.mem_filter, List.mem_reverse, Bool.and_eq_true,
    decide_eq_true_eq, List.isPrefixOf_iff_prefix]
  constructor
  · rintro ⟨hd, ⟨hp, hne⟩, hpre⟩
    exact ⟨hd, ⟨hX.mem hc, hX.mem hd, hp, hne⟩, hpre⟩
  · rintro ⟨hd, ⟨_, _, hp, hne⟩, hpre⟩
    exact ⟨hd, ⟨hp, hne⟩, hpre⟩

theorem next_none {c : α} (hX : L.Closed T X) (hc : c ∈ X) (hn : L.next X p c = none) :
    ∀ d ∈ X, L.Child T c d → ¬ L.point d <+: p := by
  intro d hd hcd hpd
  have hnil : L.crossings X p c = [] := List.argmin_eq_none.mp hn
  have hmem := (mem_crossings hX hc).mpr ⟨hd, hcd, hpd⟩
  rw [hnil] at hmem
  cases hmem

omit [DecidableEq κ] in
theorem doomed_append_singleton (m d : α) (Y : List α) : L.doomed m (Y ++ [d]) =
    if L.id d = L.id m ∨ L.parent d ∈ L.doomed m Y then L.id d :: L.doomed m Y
    else L.doomed m Y := by
  unfold doomed
  rw [List.foldl_append]
  rfl

end Words

variable [DecidableEq α]

theorem IsTree.pairwise_before (h : L.IsTree T) : T.Pairwise (Before T) := by
  have hnd : T.Nodup := h.nodup.of_map
  rw [List.pairwise_iff_getElem]
  intro i j hi hj hij
  unfold Before
  rwa [hnd.idxOf_getElem, hnd.idxOf_getElem]

theorem Closed.pairwise_before (hX : L.Closed T X) (h : L.IsTree T) : X.Pairwise (Before T) :=
  h.pairwise_before.sublist hX.sublist

theorem mem_post {pre post : List α} {c e : α} (hpair : (pre ++ c :: post).Pairwise (Before T))
    (he : e ∈ pre ++ c :: post) (hlt : Before T c e) : e ∈ post := by
  rcases List.mem_append.mp he with he | he
  · exact absurd ((List.pairwise_append.mp hpair).2.2 e he c List.mem_cons_self) hlt.asymm
  · rcases List.mem_cons.mp he with rfl | he
    · exact absurd hlt hlt.asymm
    · exact he

/-- A mount that the path passes: nothing that is left covers it. -/
structure Visited (L : Layout α ι κ) (T X : List α) (p : List κ) (m : α) : Prop where
  mem : m ∈ X
  point : L.point m <+: p
  uncovered : ∀ n ∈ X, ¬ L.Covers T n m

/-- The mount at which `umount` finds the path. -/
structure Top (L : Layout α ι κ) (T X : List α) (p : List κ) (t : α) : Prop where
  mem : t ∈ X
  point : L.point t = p
  uncovered : ∀ n ∈ X, ¬ L.Covers T n t
  no_child : ∀ d ∈ X, L.Child T t d → L.point d ≠ p

theorem head_visited {r : α} (h : L.IsTree T) (hX : L.Closed T X) (hr : r ∈ X.head?) :
    L.Visited T X p r := by
  obtain ⟨rest, rfl⟩ : ∃ rest, X = r :: rest := List.head?_eq_some_iff.mp hr
  obtain ⟨r', hr', hu⟩ := h.root_under (hX.mem List.mem_cons_self)
  have hmem : r' ∈ r :: rest := hX.under_mem hu List.mem_cons_self
  have hroot : r' = r := by
    rcases List.mem_cons.mp hmem with he | he
    · exact he
    · have hbefore := (List.pairwise_cons.mp (hX.pairwise_before h)).1 r' he
      have hle := h.under_le hu
      unfold Before at hbefore
      omega
  subst hroot
  refine ⟨List.mem_cons_self, ?_, ?_⟩
  · rw [h.root_point r' hr']
    exact List.nil_prefix
  · rintro n _ ⟨c, a, ha, _, _, hu', _⟩
    have hra := h.root_under_all hr' ha.2.1
    obtain rfl := h.under_antisymm hra hu'
    have hlater := h.child_later c r' ha
    have hle := h.under_le (h.root_under_all hr' ha.1)
    unfold Before at hlater
    omega

/-- Of the mounts below a top mount only itself has the mount point. -/
theorem Top.eq_of_under {t c : α} (ht : L.Top T X p t) (h : L.IsTree T) (hX : L.Closed T X)
    (hc : c ∈ X) (hp : L.point c = p) (htc : L.Under T t c) : c = t := by
  rcases Relation.ReflTransGen.cases_head htc with rfl | ⟨d, htd, hdc⟩
  · rfl
  · have hd : L.point d = p :=
      (h.point_between htd.under hdc (ht.point.trans hp.symm)).trans hp
    exact absurd hd (ht.no_child d (hX.under_mem hdc hc) htd)

/-- Where the covered is listed first, a top mount is the last of all that are left at its
mount point. -/
theorem Top.last {t c : α} (ht : L.Top T X p t) (h : L.IsTree T) (hord : L.CoveredFirst T)
    (hX : L.Closed T X) (hc : c ∈ X) (hp : L.point c = p) : c = t ∨ Before T c t := by
  have hpre : ∀ m : α, L.point m = p → L.point m <+: p := fun m hm => hm ▸ List.prefix_rfl
  rcases h.comparable_or_covers (hX.mem hc) (hX.mem ht.mem) (hpre c hp) (hpre t ht.point) with
    hct | htc | ⟨a, hac, hcov⟩ | ⟨b, hbt, hcov⟩
  · exact h.under_before hct
  · exact Or.inl (ht.eq_of_under h hX hc hp htc)
  · exact absurd hcov (ht.uncovered a (hX.under_mem hac hc))
  · have hlt := hord b c hcov
    have hle := h.under_le hbt
    right
    unfold Before at *
    omega

/-- A mount that the path passes lies above the top mount of the path. -/
theorem Top.under {t m : α} (ht : L.Top T X p t) (h : L.IsTree T) (hX : L.Closed T X)
    (hm : L.Visited T X p m) : L.Under T m t := by
  have hpre : L.point t <+: p := ht.point ▸ List.prefix_rfl
  rcases h.comparable_or_covers (hX.mem hm.mem) (hX.mem ht.mem) hm.point hpre with
    hmt | htm | ⟨a, ham, hcov⟩ | ⟨b, hbt, hcov⟩
  · exact hmt
  · have hp : L.point m = p :=
      hm.point.eq_of_length_le (ht.point ▸ (h.under_point htm).length_le)
    obtain rfl := ht.eq_of_under h hX hm.mem hp htm
    exact Under.refl m
  · exact absurd hcov (ht.uncovered a (hX.under_mem ham hm.mem))
  · exact absurd hcov (hm.uncovered b (hX.under_mem hbt ht.mem))

variable [DecidableEq ι] [DecidableEq κ]

theorem before_of_idxOf_crossings {c d e : α} (h : L.IsTree T) (hX : L.Closed T X)
    (he : e ∈ L.crossings X p c) (hd : d ∈ L.crossings X p c) (hne : d ≠ e)
    (hle : (L.crossings X p c).idxOf e ≤ (L.crossings X p c).idxOf d) : Before T d e := by
  have hpair : (L.crossings X p c).Pairwise (fun a b => Before T b a) :=
    (List.pairwise_reverse.mpr (hX.pairwise_before h)).filter _
  have hlt : (L.crossings X p c).idxOf e < (L.crossings X p c).idxOf d := by
    rcases Nat.lt_or_eq_of_le hle with hlt | heq
    · exact hlt
    · exact absurd ((List.idxOf_inj he).mp heq).symm hne
  have hget := List.pairwise_iff_getElem.mp hpair _ _ (List.idxOf_lt_length_of_mem he)
    (List.idxOf_lt_length_of_mem hd) hlt
  rwa [List.getElem_idxOf, List.getElem_idxOf] at hget

theorem next_spec {c e : α} (h : L.IsTree T) (hX : L.Closed T X) (hc : c ∈ X)
    (hn : L.next X p c = some e) : e ∈ X ∧ L.Child T c e ∧ L.point e <+: p ∧
      ∀ d ∈ X, L.Child T c d → L.point d <+: p → d ≠ e → L.point e <+: L.point d ∧
        (L.point e = L.point d → Before T d e) := by
  obtain ⟨hmem, hmin, hidx⟩ := List.argmin_eq_some_iff.mp hn
  obtain ⟨heX, hce, hpe⟩ := (mem_crossings hX hc).mp hmem
  refine ⟨heX, hce, hpe, ?_⟩
  intro d hd hcd hpd hne
  have hdm : d ∈ L.crossings X p c := (mem_crossings hX hc).mpr ⟨hd, hcd, hpd⟩
  refine ⟨List.prefix_of_prefix_length_le hpe hpd (hmin d hdm), fun heq => ?_⟩
  exact before_of_idxOf_crossings h hX hmem hdm hne (hidx d hdm (by rw [heq]))

theorem Visited.next {c e : α} (h : L.IsTree T) (hX : L.Closed T X) (hc : L.Visited T X p c)
    (hn : L.next X p c = some e) : L.Visited T X p e := by
  obtain ⟨heX, hce, hpe, hfirst⟩ := next_spec h hX hc.mem hn
  refine ⟨heX, hpe, ?_⟩
  rintro n hnX ⟨c', a, ha, hcn, hne, hu, hpre, hord⟩
  rcases Relation.ReflTransGen.cases_tail hu with rfl | ⟨c'', hu', hce'⟩
  · obtain rfl := h.parent_unique hce ha
    -- a sibling that covers `e` would have been crossed in its place
    obtain ⟨hpre', hord'⟩ := hfirst n hnX hcn (hpre.trans hpe) hne
    have heq := hpre.eq_of_length_le hpre'.length_le
    exact (hord heq).asymm (hord' heq.symm)
  · obtain rfl := h.parent_unique hce hce'
    exact hc.uncovered n hnX ⟨c', a, ha, hcn, hne, hu', hpre, hord⟩

theorem next_mem_post {c e : α} {pre post : List α} (h : L.IsTree T) (hX : L.Closed T X)
    (hsplit : X = pre ++ c :: post) (hn : L.next X p c = some e) : e ∈ post := by
  obtain ⟨heX, hce, _, _⟩ := next_spec h hX (by simp [hsplit]) hn
  have hpair := hX.pairwise_before h
  rw [hsplit] at hpair heX
  exact mem_post hpair heX (h.child_later c e hce)

/-- With the rest of the table as fuel the walk goes on to its end. -/
theorem walk_visited {fuel : Nat} {c : α} {pre post : List α} (h : L.IsTree T)
    (hX : L.Closed T X) (hsplit : X = pre ++ c :: post) (hf : post.length ≤ fuel)
    (hc : L.Visited T X p c) : L.Visited T X p (L.walk X p fuel c) ∧
      L.next X p (L.walk X p fuel c) = none := by
  induction fuel generalizing c pre post with
  | zero =>
    cases hn : L.next X p c with
    | none => exact ⟨hc, hn⟩
    | some e =>
      have he := List.length_pos_of_mem (next_mem_post h hX hsplit hn)
      omega
  | succ fuel ih =>
    cases hn : L.next X p c with
    | none => simpa [walk, hn] using hc
    | some e =>
      obtain ⟨mid, rest, rfl⟩ := List.append_of_mem (next_mem_post h hX hsplit hn)
      have hsplit' : X = (pre ++ c :: mid) ++ e :: rest := by simp [hsplit]
      have hlen : rest.length ≤ fuel := by
        simp only [List.length_append, List.length_cons] at hf
        omega
      simp only [walk, hn]
      exact ih hsplit' hlen (hc.next h hX hn)

theorem resolve_spec (h : L.IsTree T) (hX : L.Closed T X) {e : α} (hr : L.resolve X p = some e) :
    L.Visited T X p e ∧ L.next X p e = none := by
  obtain ⟨r, hr', rfl⟩ := Option.map_eq_some_iff.mp hr
  obtain ⟨rest, rfl⟩ := List.head?_eq_some_iff.mp hr'
  have hsplit : r :: rest = [] ++ r :: rest := rfl
  exact walk_visited h hX hsplit (Nat.le_succ _) (head_visited h hX hr')

theorem resolve_top {t : α} (ht : L.Top T X p t) (h : L.IsTree T) (hX : L.Closed T X) :
    L.resolve X p = some t := by
  obtain ⟨r, rest, rfl⟩ := List.exists_cons_of_ne_nil (List.ne_nil_of_mem ht.mem)
  obtain ⟨e, he⟩ : ∃ e, L.resolve (r :: rest) p = some e := ⟨_, rfl⟩
  obtain ⟨hvis, hnone⟩ := resolve_spec h hX he
  have het := ht.under h hX hvis
  rcases Relation.ReflTransGen.cases_head het with rfl | ⟨d, hed, hdt⟩
  · exact he
  · have hpre : L.point d <+: p := ht.point ▸ h.under_point hdt
    exact absurd hpre (next_none hX hvis.mem hnone d (hX.under_mem hdt ht.mem) hed)

theorem umount_top {t : α} (ht : L.Top T X p t) (h : L.IsTree T) (hX : L.Closed T X) :
    L.umount X p = L.detach X t := by
  simp [umount, resolve_top ht h hX, ht.point]

theorem umount_no_top (h : L.IsTree T) (hX : L.Closed T X) (hno : ∀ t, ¬ L.Top T X p t) :
    L.umount X p = X := by
  unfold umount
  split
  · rename_i m hm
    obtain ⟨hvis, hnone⟩ := resolve_spec h hX hm
    split
    · rename_i hp
      refine absurd ⟨hvis.mem, hp, hvis.uncovered, ?_⟩ (hno m)
      intro d hd hmd hdp
      exact next_none hX hvis.mem hnone d hd hmd (hdp ▸ List.prefix_rfl)
    · rfl
  · rfl

omit [DecidableEq ι] [DecidableEq κ] in
theorem Closed.of_append_singleton {Y : List α} {d : α} (hX : L.Closed T (Y ++ [d]))
    (h : L.IsTree T) : L.Closed T Y := by
  refine ⟨(List.sublist_append_left Y [d]).trans hX.sublist, ?_⟩
  intro c e hce he
  rcases List.mem_append.mp (hX.parent_mem c e hce (by simp [he])) with hc | hc
  · exact hc
  · obtain rfl := List.mem_singleton.mp hc
    have hlt := (List.pairwise_append.mp (hX.pairwise_before h)).2.2 e he c (by simp)
    exact absurd (h.child_later c e hce) hlt.asymm

omit [DecidableEq ι] [DecidableEq κ] in
/-- The last mount lies below `m` when it is `m`, or when its parent does. -/
theorem Closed.under_last_iff {Y : List α} {d m : α} (hX : L.Closed T (Y ++ [d]))
    (h : L.IsTree T) (hm : m ∈ T) :
    (L.id d = L.id m ∨ ∃ c ∈ Y, L.id c = L.parent d ∧ L.Under T m c) ↔ L.Under T m d := by
  have hdT : d ∈ T := hX.mem (by simp)
  constructor
  · rintro (hid | ⟨c, hc, hp, hu⟩)
    · rw [h.eq_of_id hdT hm hid]
      exact Under.refl m
    · have hcT : c ∈ T := hX.mem (by simp [hc])
      have hne : L.id d ≠ L.id c := by
        intro he
        obtain rfl := h.eq_of_id hdT hcT he
        have hlt := (List.pairwise_append.mp (hX.pairwise_before h)).2.2 d hc d (by simp)
        exact hlt.asymm hlt
      exact hu.trans (Child.under ⟨hcT, hdT, hp.symm, hne⟩)
  · intro hu
    rcases Relation.ReflTransGen.cases_tail hu with rfl | ⟨c, hmc, hcd⟩
    · exact Or.inl rfl
    · refine Or.inr ⟨c, ?_, hcd.2.2.1.symm, hmc⟩
      rcases List.mem_append.mp (hX.parent_mem c d hcd (by simp)) with hc | hc
      · exact hc
      · obtain rfl := List.mem_singleton.mp hc
        exact absurd rfl hcd.2.2.2

omit [DecidableEq κ] in
theorem mem_doomed {m : α} (h : L.IsTree T) (hX : L.Closed T X) (hm : m ∈ T) (i : ι) :
    i ∈ L.doomed m X ↔ ∃ d ∈ X, L.id d = i ∧ L.Under T m d := by
  induction X using List.reverseRecOn generalizing i with
  | nil => simp [doomed]
  | append_singleton Y d ih =>
    have hY := hX.of_append_singleton h
    have hlast : (L.id d = L.id m ∨ L.parent d ∈ L.doomed m Y) ↔ L.Under T m d := by
      rw [ih hY]
      exact hX.under_last_iff h hm
    rw [doomed_append_singleton]
    by_cases hu : L.Under T m d
    · rw [if_pos (hlast.mpr hu), List.mem_cons, ih hY]
      constructor
      · rintro (rfl | ⟨e, he, hid, hue⟩)
        · exact ⟨d, by simp, rfl, hu⟩
        · exact ⟨e, by simp [he], hid, hue⟩
      · rintro ⟨e, he, rfl, hue⟩
        rcases List.mem_append.mp he with he | he
        · exact Or.inr ⟨e, he, rfl, hue⟩
        · exact Or.inl (by rw [List.mem_singleton.mp he])
    · rw [if_neg (mt hlast.mp hu), ih hY]
      constructor
      · rintro ⟨e, he, hid, hue⟩
        exact ⟨e, by simp [he], hid, hue⟩
      · rintro ⟨e, he, hid, hue⟩
        rcases List.mem_append.mp he with he | he
        · exact ⟨e, he, hid, hue⟩
        · rw [List.mem_singleton.mp he] at hue
          exact absurd hue hu

omit [DecidableEq κ] in
theorem mem_detach {m d : α} (h : L.IsTree T) (hX : L.Closed T X) (hm : m ∈ T) :
    d ∈ L.detach X m ↔ d ∈ X ∧ ¬ L.Under T m d := by
  unfold detach
  rw [List.mem_filter, decide_eq_true_eq, mem_doomed h hX hm]
  constructor
  · rintro ⟨hd, hno⟩
    exact ⟨hd, fun hu => hno ⟨d, hd, rfl, hu⟩⟩
  · rintro ⟨hd, hno⟩
    refine ⟨hd, ?_⟩
    rintro ⟨e, he, hid, hu⟩
    rw [h.eq_of_id (hX.mem he) (hX.mem hd) hid] at hu
    exact hno hu

omit [DecidableEq κ] in
theorem Closed.detach {m : α} (hX : L.Closed T X) (h : L.IsTree T) (hm : m ∈ T) :
    L.Closed T (L.detach X m) := by
  refine ⟨List.filter_sublist.trans hX.sublist, ?_⟩
  intro c d hcd hd
  obtain ⟨hdX, hno⟩ := (mem_detach h hX hm).mp hd
  exact (mem_detach h hX hm).mpr
    ⟨hX.parent_mem c d hcd hdX, fun hu => hno (hu.trans hcd.under)⟩

theorem umount_cases (h : L.IsTree T) (hX : L.Closed T X) (p : List κ) :
    (L.umount X p = X ∧ ∀ t, ¬ L.Top T X p t) ∨
      ∃ t, L.Top T X p t ∧ L.Closed T (L.umount X p) ∧
        ∀ d, d ∈ L.umount X p ↔ d ∈ X ∧ ¬ L.Under T t d := by
  by_cases htop : ∃ t, L.Top T X p t
  · obtain ⟨t, ht⟩ := htop
    have hm := hX.mem ht.mem
    rw [umount_top ht h hX]
    exact Or.inr ⟨t, ht, hX.detach h hm, fun d => mem_detach h hX hm⟩
  · have hno : ∀ t, ¬ L.Top T X p t := fun t ht => htop ⟨t, ht⟩
    exact Or.inl ⟨umount_no_top h hX hno, hno⟩

end MountTree.Layout
