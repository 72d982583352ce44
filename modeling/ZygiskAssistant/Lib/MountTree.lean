import Mathlib.Data.List.MinMax
import Mathlib.Data.List.Nodup
import Mathlib.Logic.Relation

/-!
# Mount trees

A table of mounts, each with an identity, the identity of its parent and the
path of its mount point; how a path is resolved through it, and what detaching
a mount removes. The relations say what the functions compute on a table that
lists every parent before its children.
-/

namespace MountTree

universe u v w

/-- How to read a mount: its identity, its parent's, and its mount point from the root. -/
structure Layout (α : Type u) (ι : Type v) (κ : Type w) where
  id : α → ι
  parent : α → ι
  point : α → List κ

namespace Layout

variable {α : Type u} {ι : Type v} {κ : Type w} (L : Layout α ι κ)

section Executable

variable [DecidableEq ι] [DecidableEq κ]

def isChild (c d : α) : Bool := L.parent d = L.id c ∧ L.id d ≠ L.id c

/-- The mounts on `c` whose mount point the path meets, the last mounted first. -/
def crossings (X : List α) (p : List κ) (c : α) : List α :=
  X.reverse.filter fun d => L.isChild c d && (L.point d).isPrefixOf p

/-- Where a path that has entered `c` crosses next: at the first mount point it meets. -/
def next (X : List α) (p : List κ) (c : α) : Option α :=
  (L.crossings X p c).argmin fun d => (L.point d).length

def walk (X : List α) (p : List κ) : Nat → α → α
  | 0, c => c
  | fuel + 1, c =>
    match L.next X p c with
    | some d => walk X p fuel d
    | none => c

def resolve (X : List α) (p : List κ) : Option α := X.head?.map (L.walk X p X.length)

/-- The identities of a mount and of everything mounted below it. -/
def doomed (m : α) (X : List α) : List ι :=
  X.foldl (fun ids d => if L.id d = L.id m ∨ L.parent d ∈ ids then L.id d :: ids else ids) []

def detach (X : List α) (m : α) : List α := X.filter fun d => L.id d ∉ L.doomed m X

/-- Detach the topmost mount at the path, or do nothing where the path is no mount point. -/
def umount (X : List α) (p : List κ) : List α :=
  match L.resolve X p with
  | some m => if L.point m = p then L.detach X m else X
  | none => X

end Executable

def Child (T : List α) (c d : α) : Prop :=
  c ∈ T ∧ d ∈ T ∧ L.parent d = L.id c ∧ L.id d ≠ L.id c

/-- `a` is `m` or one of its ancestors. -/
def Under (T : List α) : α → α → Prop := Relation.ReflTransGen (L.Child T)

variable {L} {T : List α}

theorem Under.refl (m : α) : L.Under T m m := Relation.ReflTransGen.refl

theorem Under.trans {a b c : α} (hab : L.Under T a b) (hbc : L.Under T b c) : L.Under T a c :=
  Relation.ReflTransGen.trans hab hbc

theorem Child.under {c d : α} (h : L.Child T c d) : L.Under T c d := Relation.ReflTransGen.single h

theorem Under.mem_left {a m : α} (h : L.Under T a m) (hm : m ∈ T) : a ∈ T := by
  rcases Relation.ReflTransGen.cases_head h with rfl | ⟨_, hc, _⟩
  · exact hm
  · exact hc.1

theorem Under.mem_right {a m : α} (h : L.Under T a m) (ha : a ∈ T) : m ∈ T := by
  rcases Relation.ReflTransGen.cases_tail h with rfl | ⟨_, _, hc⟩
  · exact ha
  · exact hc.2.1

variable [DecidableEq α]

def Before (T : List α) (a b : α) : Prop := T.idxOf a < T.idxOf b

theorem Before.asymm {a b : α} (h : Before T a b) : ¬ Before T b a := by
  unfold Before at *
  omega

theorem before_or_before {a b : α} (ha : a ∈ T) (hne : a ≠ b) : Before T a b ∨ Before T b a := by
  rcases lt_trichotomy (T.idxOf a) (T.idxOf b) with h | h | h
  · exact Or.inl h
  · exact absurd ((List.idxOf_inj ha).mp h) hne
  · exact Or.inr h

variable (L) (T)

/-- `n` lies over `m`: it is mounted beside an ancestor of `m`, or `m` itself, at a mount
point above, or later at the same one. -/
def Covers (n m : α) : Prop := ∃ c a, L.Child T c a ∧ L.Child T c n ∧ n ≠ a ∧ L.Under T a m ∧
  L.point n <+: L.point a ∧ (L.point n = L.point a → Before T a n)

structure IsTree : Prop where
  nodup : (T.map L.id).Nodup
  root_point : ∀ r ∈ T.head?, L.point r = []
  exists_parent : ∀ d ∈ T, d ∉ T.head? → ∃ c, L.Child T c d
  child_later : ∀ c d, L.Child T c d → Before T c d
  child_point : ∀ c d, L.Child T c d → L.point c <+: L.point d

/-- Every mount is listed before what covers it or an ancestor of it, also from a mount point
above. -/
def CoveredFirst : Prop := ∀ n m, L.Covers T n m → Before T m n

variable {L} {T}

theorem Covers.below {n m d : α} (h : L.Covers T n m) (hd : L.Under T m d) : L.Covers T n d := by
  obtain ⟨c, a, ha, hn, hne, hu, hp⟩ := h
  exact ⟨c, a, ha, hn, hne, hu.trans hd, hp⟩

theorem Covers.mem_left {n m : α} (h : L.Covers T n m) : n ∈ T := by
  obtain ⟨_, _, _, hn, _⟩ := h
  exact hn.2.1

/-- Of two siblings on one path, one covers everything below the other. -/
theorem sibling_covers {c a b u v : α} {p : List κ} (ha : L.Child T c a) (hb : L.Child T c b)
    (hne : a ≠ b) (hau : L.Under T a u) (hbv : L.Under T b v) (hpa : L.point a <+: p)
    (hpb : L.point b <+: p) : L.Covers T a v ∨ L.Covers T b u := by
  by_cases heq : L.point a = L.point b
  · rcases before_or_before ha.2.1 hne with hlt | hlt
    · exact Or.inr ⟨c, a, ha, hb, hne.symm, hau, heq ▸ List.prefix_rfl, fun _ => hlt⟩
    · exact Or.inl ⟨c, b, hb, ha, hne, hbv, heq ▸ List.prefix_rfl, fun _ => hlt⟩
  · rcases List.prefix_or_prefix_of_prefix hpa hpb with hab | hba
    · exact Or.inl ⟨c, b, hb, ha, hne, hbv, hab, fun he => absurd he heq⟩
    · exact Or.inr ⟨c, a, ha, hb, hne.symm, hau, hba, fun he => absurd he.symm heq⟩

namespace IsTree

variable (h : L.IsTree T)

include h

theorem eq_of_id {a b : α} (ha : a ∈ T) (hb : b ∈ T) (he : L.id a = L.id b) : a = b :=
  List.inj_on_of_nodup_map h.nodup ha hb he

theorem parent_unique {c c' d : α} (hc : L.Child T c d) (hc' : L.Child T c' d) : c = c' :=
  h.eq_of_id hc.1 hc'.1 (hc.2.2.1.symm.trans hc'.2.2.1)

theorem under_before {a m : α} (hu : L.Under T a m) : a = m ∨ Before T a m := by
  induction hu with
  | refl => exact Or.inl rfl
  | tail _ hc ih =>
    have hlt := h.child_later _ _ hc
    rcases ih with rfl | ih
    · exact Or.inr hlt
    · exact Or.inr (lt_trans ih hlt)

theorem under_le {a m : α} (hu : L.Under T a m) : T.idxOf a ≤ T.idxOf m := by
  rcases h.under_before hu with rfl | hlt
  · exact le_refl _
  · exact le_of_lt hlt

theorem under_antisymm {a b : α} (hab : L.Under T a b) (hba : L.Under T b a) : a = b := by
  rcases h.under_before hab with he | hlt
  · exact he
  · have hle := h.under_le hba
    unfold Before at hlt
    omega

theorem under_point {a m : α} (hu : L.Under T a m) : L.point a <+: L.point m := by
  induction hu with
  | refl => exact List.prefix_rfl
  | tail _ hc ih => exact ih.trans (h.child_point _ _ hc)

theorem point_between {a b m : α} (hab : L.Under T a b) (hbm : L.Under T b m)
    (he : L.point a = L.point m) : L.point b = L.point m := by
  have hle := (h.under_point hab).length_le
  rw [he] at hle
  exact (h.under_point hbm).eq_of_length_le hle

theorem ancestors_comparable {a b m : α} (ha : L.Under T a m) (hb : L.Under T b m) :
    L.Under T a b ∨ L.Under T b a := by
  induction ha with
  | refl => exact Or.inr hb
  | tail ha hc ih =>
    rcases Relation.ReflTransGen.cases_tail hb with rfl | ⟨c', hb', hc'⟩
    · exact Or.inl (Relation.ReflTransGen.tail ha hc)
    · obtain rfl := h.parent_unique hc hc'
      exact ih hb'

theorem root_under {m : α} (hm : m ∈ T) : ∃ r ∈ T.head?, L.Under T r m := by
  induction hn : T.idxOf m using Nat.strong_induction_on generalizing m with
  | _ n ih =>
    by_cases hroot : m ∈ T.head?
    · exact ⟨m, hroot, Under.refl m⟩
    · obtain ⟨c, hc⟩ := h.exists_parent m hm hroot
      have hlt := h.child_later c m hc
      unfold Before at hlt
      obtain ⟨r, hr, hu⟩ := ih (T.idxOf c) (by omega) hc.1 rfl
      exact ⟨r, hr, hu.trans hc.under⟩

theorem root_under_all {r m : α} (hr : r ∈ T.head?) (hm : m ∈ T) : L.Under T r m := by
  obtain ⟨r', hr', hu⟩ := h.root_under hm
  obtain rfl : r' = r := Option.mem_unique hr' hr
  exact hu

/-- Two mounts lie on one line, or their lines part at two siblings. -/
theorem comparable_or_branch {u v : α} (hu : u ∈ T) (hv : v ∈ T) :
    L.Under T u v ∨ L.Under T v u ∨ ∃ c a b, L.Child T c a ∧ L.Child T c b ∧ a ≠ b ∧
      L.Under T a u ∧ L.Under T b v := by
  obtain ⟨r, hr, hru⟩ := h.root_under hu
  have hrv := h.root_under_all hr hv
  induction hru with
  | refl => exact Or.inl hrv
  | tail _ hc ih =>
    rename_i c d _
    rcases ih hc.1 with hcv | hvc | ⟨e, a, b, ha, hb, hne, hac, hbv⟩
    · rcases Relation.ReflTransGen.cases_head hcv with rfl | ⟨b, hb, hbv⟩
      · exact Or.inr (Or.inl hc.under)
      · by_cases hdb : d = b
        · exact Or.inl (hdb ▸ hbv)
        · exact Or.inr (Or.inr ⟨c, d, b, hc, hb, hdb, Under.refl d, hbv⟩)
    · exact Or.inr (Or.inl (hvc.trans hc.under))
    · exact Or.inr (Or.inr ⟨e, a, b, ha, hb, hne, hac.trans hc.under, hbv⟩)

/-- Two mounts on one path lie on one line, or an ancestor of one covers the other. -/
theorem comparable_or_covers {u v : α} {p : List κ} (hu : u ∈ T) (hv : v ∈ T)
    (hpu : L.point u <+: p) (hpv : L.point v <+: p) :
    L.Under T u v ∨ L.Under T v u ∨ (∃ a, L.Under T a u ∧ L.Covers T a v) ∨
      ∃ b, L.Under T b v ∧ L.Covers T b u := by
  rcases h.comparable_or_branch hu hv with huv | hvu | ⟨c, a, b, ha, hb, hne, hau, hbv⟩
  · exact Or.inl huv
  · exact Or.inr (Or.inl hvu)
  · have hpa := (h.under_point hau).trans hpu
    have hpb := (h.under_point hbv).trans hpv
    rcases sibling_covers ha hb hne hau hbv hpa hpb with hc | hc
    · exact Or.inr (Or.inr (Or.inl ⟨a, hau, hc⟩))
    · exact Or.inr (Or.inr (Or.inr ⟨b, hbv, hc⟩))

end IsTree

theorem isTree_of_forall (hnd : (T.map L.id).Nodup) (hroot : ∀ r ∈ T.head?, L.point r = [])
    (hparent : ∀ d ∈ T, d ∉ T.head? → ∃ c ∈ T, L.parent d = L.id c ∧ L.id d ≠ L.id c)
    (hchild : ∀ c ∈ T, ∀ d ∈ T, L.parent d = L.id c ∧ L.id d ≠ L.id c →
      T.idxOf c < T.idxOf d ∧ L.point c <+: L.point d) : L.IsTree T where
  nodup := hnd
  root_point := hroot
  exists_parent d hd hne := by
    obtain ⟨c, hc, hp⟩ := hparent d hd hne
    exact ⟨c, hc, hd, hp⟩
  child_later c d hcd := (hchild c hcd.1 d hcd.2.1 hcd.2.2).1
  child_point c d hcd := (hchild c hcd.1 d hcd.2.1 hcd.2.2).2

/-- Where no two mounts are siblings, nothing is covered. -/
theorem coveredFirst_of_line
    (hline : ∀ c ∈ T, ∀ a ∈ T, ∀ n ∈ T, L.parent a = L.id c ∧ L.id a ≠ L.id c →
      L.parent n = L.id c ∧ L.id n ≠ L.id c → n = a) : L.CoveredFirst T := by
  rintro n m ⟨c, a, ha, hn, hne, _⟩
  exact absurd (hline c ha.1 a ha.2.1 n hn.2.1 ha.2.2 hn.2.2) hne

end Layout

end MountTree
