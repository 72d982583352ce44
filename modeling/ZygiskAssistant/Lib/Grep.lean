import Mathlib.Data.List.Infix

/-!
# Matching parts of a line

Expressions that are sequences of literals, `.` and `.*`, and `grep -o` on one
line: the leftmost match, as long as possible, and then the next one behind it.
-/

namespace Grep

universe u

variable {α : Type u}

inductive Atom (α : Type u)
  | lit (c : α)
  | any
  | anyStar

def lits (w : List α) : List (Atom α) := w.map .lit

variable [DecidableEq α]

/-- The expression matches the whole text. -/
def accepts : List (Atom α) → List α → Bool
  | [], s => s.isEmpty
  | .lit _ :: _, [] => false
  | .lit c :: p, d :: s => decide (d = c) && accepts p s
  | .any :: _, [] => false
  | .any :: p, _ :: s => accepts p s
  | .anyStar :: p, s => s.tails.any (accepts p)

/-- The length of the longest match at the start of the text. -/
def longest (p : List (Atom α)) (s : List α) : Option Nat :=
  (List.range (s.length + 1)).reverse.find? fun n => accepts p (s.take n)

/-- The matches, with `skip` characters left of the one before. Empty ones are not printed. -/
def onlyMatching (p : List (Atom α)) : Nat → List α → List (List α)
  | _, [] => []
  | skip + 1, _ :: s => onlyMatching p skip s
  | 0, c :: s =>
    match longest p (c :: s) with
    | some (n + 1) => (c :: s).take (n + 1) :: onlyMatching p n s
    | _ => onlyMatching p 0 s

theorem accepts_append {p q : List (Atom α)} {s : List α} :
    accepts (p ++ q) s = true ↔
      ∃ a b, s = a ++ b ∧ accepts p a = true ∧ accepts q b = true := by
  induction p generalizing s with
  | nil =>
    rw [List.nil_append]
    constructor
    · exact fun h => ⟨[], s, rfl, rfl, h⟩
    · rintro ⟨a, b, rfl, ha, hb⟩
      obtain rfl : a = [] := by simpa [accepts] using ha
      exact hb
  | cons atom p ih =>
    cases atom with
    | lit c =>
      constructor
      · intro h
        cases s with
        | nil => cases h
        | cons d s =>
          rw [List.cons_append, accepts, Bool.and_eq_true, ih] at h
          obtain ⟨hc, a, b, rfl, ha, hb⟩ := h
          exact ⟨d :: a, b, rfl, by rw [accepts, hc, ha]; rfl, hb⟩
      · rintro ⟨a, b, rfl, ha, hb⟩
        cases a with
        | nil => cases ha
        | cons d a =>
          rw [accepts, Bool.and_eq_true] at ha
          rw [List.cons_append, List.cons_append, accepts, Bool.and_eq_true, ih]
          exact ⟨ha.1, a, b, rfl, ha.2, hb⟩
    | any =>
      constructor
      · intro h
        cases s with
        | nil => cases h
        | cons d s =>
          rw [List.cons_append, accepts, ih] at h
          obtain ⟨a, b, rfl, ha, hb⟩ := h
          exact ⟨d :: a, b, rfl, ha, hb⟩
      · rintro ⟨a, b, rfl, ha, hb⟩
        cases a with
        | nil => cases ha
        | cons d a =>
          rw [List.cons_append, List.cons_append, accepts, ih]
          exact ⟨a, b, rfl, ha, hb⟩
    | anyStar =>
      simp only [List.cons_append, accepts, List.any_eq_true, List.mem_tails]
      constructor
      · rintro ⟨t, ⟨pre, rfl⟩, ht⟩
        obtain ⟨a, b, rfl, ha, hb⟩ := ih.mp ht
        exact ⟨pre ++ a, b, (List.append_assoc pre a b).symm, ⟨a, List.suffix_append pre a, ha⟩, hb⟩
      · rintro ⟨_, b, rfl, ⟨a, ⟨pre, rfl⟩, ha⟩, hb⟩
        exact ⟨a ++ b, ⟨pre, (List.append_assoc pre a b).symm⟩, ih.mpr ⟨a, b, rfl, ha, hb⟩⟩

theorem accepts_lits {w s : List α} : accepts (lits w) s = true ↔ s = w := by
  induction w generalizing s with
  | nil => simp [lits, accepts]
  | cons c w ih =>
    cases s with
    | nil => simp [lits, accepts]
    | cons d s =>
      have hcons : accepts (lits (c :: w)) (d :: s) = (decide (d = c) && accepts (lits w) s) := rfl
      rw [hcons, Bool.and_eq_true, decide_eq_true_iff, ih, List.cons.injEq]

theorem suffix_of_accepts {p : List (Atom α)} {w s : List α} (h : accepts (p ++ lits w) s = true) :
    w <:+ s := by
  obtain ⟨a, b, rfl, _, hb⟩ := accepts_append.mp h
  rw [accepts_lits.mp hb]
  exact List.suffix_append a w

theorem longest_eq_some {p : List (Atom α)} {s : List α} {n : Nat} (hn : n ≤ s.length)
    (h : accepts p (s.take n) = true)
    (hmax : ∀ m, n < m → m ≤ s.length → accepts p (s.take m) = false) : longest p s = some n := by
  have hsplit : List.range (s.length + 1) =
      List.range n ++ n :: (List.range (s.length - n)).map (n + 1 + ·) := by
    have hlen : s.length + 1 = n + 1 + (s.length - n) := by omega
    rw [hlen, List.range_add, List.range_succ, List.append_assoc, List.singleton_append]
  have hnone : (((List.range (s.length - n)).map (n + 1 + ·)).reverse.find?
      fun n => accepts p (s.take n)) = none := by
    rw [List.find?_eq_none]
    intro m hm
    obtain ⟨k, hk, rfl⟩ := List.mem_map.mp (List.mem_reverse.mp hm)
    have hlt := List.mem_range.mp hk
    rw [hmax (n + 1 + k) (by omega) (by omega)]
    exact Bool.false_ne_true
  rw [longest, hsplit, List.reverse_append, List.reverse_cons, List.append_assoc,
    List.find?_append, hnone, Option.none_or, List.singleton_append, List.find?_cons, h]

theorem accepts_of_longest {p : List (Atom α)} {s : List α} {n : Nat} (h : longest p s = some n) :
    accepts p (s.take n) = true := by
  have hfound := List.find?_some h
  exact hfound

theorem onlyMatching_skip (p : List (Atom α)) (c : α) {s : List α}
    (h : ∀ n, accepts p (c :: s.take n) = false) :
    onlyMatching p 0 (c :: s) = onlyMatching p 0 s := by
  rw [onlyMatching]
  split
  · rename_i n hn
    have hacc := accepts_of_longest hn
    rw [List.take_succ_cons, h n] at hacc
    cases hacc
  · rfl

theorem mem_onlyMatching_of_longest {p : List (Atom α)} {s : List α} {n : Nat}
    (h : longest p s = some (n + 1)) : s.take (n + 1) ∈ onlyMatching p 0 s := by
  cases s with
  | nil =>
    have hmem := List.mem_of_find?_eq_some h
    simp at hmem
  | cons c s =>
    rw [onlyMatching, h]
    exact List.mem_cons_self

/-- What is printed is a part of the line that the expression matches. -/
theorem mem_onlyMatching {p : List (Atom α)} {s mid : List α} {skip : Nat}
    (h : mid ∈ onlyMatching p skip s) :
    ∃ pre post, s = pre ++ mid ++ post ∧ accepts p mid = true ∧ mid ≠ [] := by
  induction s generalizing skip with
  | nil => cases skip <;> cases h
  | cons c s ih =>
    have hlater : ∀ k, mid ∈ onlyMatching p k s →
        ∃ pre post, c :: s = pre ++ mid ++ post ∧ accepts p mid = true ∧ mid ≠ [] := by
      intro k hk
      obtain ⟨pre, post, rfl, hacc⟩ := ih hk
      exact ⟨c :: pre, post, rfl, hacc⟩
    cases skip with
    | succ skip => exact hlater skip h
    | zero =>
      rw [onlyMatching] at h
      split at h
      · rename_i n hn
        obtain rfl | h := List.mem_cons.mp h
        · exact ⟨[], (c :: s).drop (n + 1), (List.take_append_drop (n + 1) (c :: s)).symm,
            accepts_of_longest hn, by simp⟩
        · exact hlater n h
      · exact hlater 0 h

end Grep
