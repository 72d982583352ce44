import Mathlib.Data.List.Nodup

/-!
# Words built from a table of flags

A row gives a name its flag. A word is built from the rows whose names are
shown, and where each row has a bit of its own the word says which they were.
-/

namespace FlagTable

universe u

variable {ι : Type u} {w : Nat}

def build (base : BitVec w) (rows : List (ι × BitVec w)) (shown : ι → Bool) : BitVec w :=
  rows.foldl (fun flags row => if shown row.1 then flags ||| row.2 else flags) base

/-- Each row has a bit that neither the base nor a row of another name sets. -/
def Separate (base : BitVec w) (rows : List (ι × BitVec w)) : Prop :=
  ∀ row ∈ rows, ∃ i, row.2.getLsbD i = true ∧ base.getLsbD i = false ∧
    ∀ other ∈ rows, other.2.getLsbD i = true → other.1 = row.1

theorem build_cons (base : BitVec w) (row : ι × BitVec w) (rows : List (ι × BitVec w))
    (shown : ι → Bool) : build base (row :: rows) shown =
      build (if shown row.1 then base ||| row.2 else base) rows shown := rfl

theorem build_append (base : BitVec w) (rows rest : List (ι × BitVec w)) (shown : ι → Bool) :
    build base (rows ++ rest) shown = build (build base rows shown) rest shown :=
  List.foldl_append

theorem getLsbD_build (base : BitVec w) (rows : List (ι × BitVec w)) (shown : ι → Bool) (i : Nat) :
    (build base rows shown).getLsbD i =
      (base.getLsbD i || rows.any fun row => shown row.1 && row.2.getLsbD i) := by
  induction rows generalizing base with
  | nil => simp [build]
  | cons row rows ih =>
    rw [build_cons, ih, List.any_cons, ← Bool.or_assoc]
    congr 1
    cases shown row.1 <;> simp

/-- The order of the rows is free. -/
theorem build_perm {rows rows' : List (ι × BitVec w)} (h : rows.Perm rows') (base : BitVec w)
    (shown : ι → Bool) : build base rows shown = build base rows' shown := by
  apply BitVec.eq_of_getLsbD_eq
  intro i _
  rw [getLsbD_build, getLsbD_build, h.any_eq]

theorem build_congr {rows : List (ι × BitVec w)} {shown shown' : ι → Bool}
    (h : ∀ row ∈ rows, shown row.1 = shown' row.1) (base : BitVec w) :
    build base rows shown = build base rows shown' := by
  induction rows generalizing base with
  | nil => rfl
  | cons row rows ih =>
    rw [build_cons, build_cons, h row List.mem_cons_self]
    exact ih (fun other ho => h other (List.mem_cons_of_mem row ho)) _

theorem build_none {rows : List (ι × BitVec w)} {shown : ι → Bool}
    (h : ∀ row ∈ rows, shown row.1 = false) (base : BitVec w) : build base rows shown = base := by
  induction rows with
  | nil => rfl
  | cons row rows ih =>
    rw [build_cons, h row List.mem_cons_self]
    exact ih fun other ho => h other (List.mem_cons_of_mem row ho)

theorem Separate.shown_eq {base : BitVec w} {rows : List (ι × BitVec w)} (h : Separate base rows)
    {row : ι × BitVec w} (hrow : row ∈ rows) :
    ∃ i, ∀ shown : ι → Bool, (build base rows shown).getLsbD i = shown row.1 := by
  obtain ⟨i, hbit, hbase, hown⟩ := h row hrow
  refine ⟨i, fun shown => ?_⟩
  rw [getLsbD_build, hbase, Bool.false_or, Bool.eq_iff_iff, List.any_eq_true]
  constructor
  · rintro ⟨other, ho, hs⟩
    rw [Bool.and_eq_true] at hs
    rw [← hown other ho hs.2]
    exact hs.1
  · intro hs
    exact ⟨row, hrow, by rw [hs, hbit]; rfl⟩

theorem Separate.build_inj {base : BitVec w} {rows : List (ι × BitVec w)} (h : Separate base rows)
    {shown shown' : ι → Bool} : build base rows shown = build base rows shown' ↔
      ∀ row ∈ rows, shown row.1 = shown' row.1 := by
  refine ⟨fun heq row hrow => ?_, fun hall => build_congr hall base⟩
  obtain ⟨i, hi⟩ := h.shown_eq hrow
  rw [← hi shown, ← hi shown', heq]

/-- A table without some of the rows builds the same word only if these are not shown. -/
theorem Separate.build_suffix_iff [DecidableEq ι] {base : BitVec w} {extra rows : List (ι × BitVec w)}
    (h : Separate base (extra ++ rows)) (hd : ∀ row ∈ extra, row.1 ∉ rows.map Prod.fst)
    {shown shown' : ι → Bool} : build base rows shown = build base (extra ++ rows) shown' ↔
      (∀ row ∈ extra, shown' row.1 = false) ∧ ∀ row ∈ rows, shown row.1 = shown' row.1 := by
  let kept : ι → Bool := fun name => decide (name ∈ rows.map Prod.fst) && shown name
  have hextra : ∀ row ∈ extra, kept row.1 = false := by
    intro row hrow
    have hkept : kept row.1 = (decide (row.1 ∈ rows.map Prod.fst) && shown row.1) := rfl
    rw [hkept, decide_eq_false (hd row hrow), Bool.false_and]
  have hrows : ∀ row ∈ rows, shown row.1 = kept row.1 := by
    intro row hrow
    have hkept : kept row.1 = (decide (row.1 ∈ rows.map Prod.fst) && shown row.1) := rfl
    rw [hkept, decide_eq_true (List.mem_map_of_mem hrow), Bool.true_and]
  have hkept : build base rows shown = build base (extra ++ rows) kept := by
    rw [build_append, build_none hextra, build_congr hrows]
  rw [hkept, h.build_inj]
  constructor
  · intro hall
    exact ⟨fun row hrow => by
        rw [← hall row (List.mem_append_left rows hrow), hextra row hrow],
      fun row hrow => by rw [hrows row hrow, hall row (List.mem_append_right extra hrow)]⟩
  · rintro ⟨hno, hsame⟩ row hrow
    obtain hrow | hrow := List.mem_append.mp hrow
    · rw [hextra row hrow, hno row hrow]
    · rw [← hrows row hrow, hsame row hrow]

end FlagTable
