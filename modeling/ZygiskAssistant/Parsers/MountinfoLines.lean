import Mathlib.Order.Bounds.Basic
import ZygiskAssistant.Parsers.MountinfoLine

/-!
# Which mountinfo lines are accepted

Texts whose lines have a head of four numbers, or of text in their place, and
then any tokens. A line gives an entry exactly when its numbers fit and its
tokens have a separator, from the fourth on, with three tokens behind it; the
other lines are dropped and leave no trace.
-/

namespace ZygiskAssistant.Parsers

open InputStream InputStream.IStream

/-- Each token comes with the blanks before it. -/
structure HeadedLine where
  head : LineHead
  tokens : List (Str × Str)
  trail : Str
  tokens_spaced : ∀ t ∈ tokens, Blank t.1 ∧ t.2 ≠ [] ∧ ∀ c ∈ t.2, isSpace c = false
  trail_blank : ∀ c ∈ trail, isSpace c = true

namespace HeadedLine

def text (l : HeadedLine) : Str :=
  l.head.text (l.tokens.flatMap (fun t => t.1 ++ t.2) ++ l.trail)

def fields (l : HeadedLine) : List Str := l.tokens.map Prod.snd

/-- Tokens are counted from one. -/
def token (l : HeadedLine) (j : Nat) : Str := l.fields.getD (j - 1) []

/-- The first `-` from the fourth token on. -/
def separator (l : HeadedLine) : Nat := 4 + (l.fields.drop 3).findIdx (· == ['-'])

def good (l : HeadedLine) : Bool := l.head.fits && decide (l.separator + 3 ≤ l.fields.length)

def entry (l : HeadedLine) : MountinfoEntry :=
  mountinfoEntry l.head.mountId.value l.head.parentId.value
    (makedev l.head.major.value l.head.minor.value) (l.token 1) (l.token 2) (l.token 3)
    (((l.fields.drop 3).take (l.separator - 4)).flatMap (' ' :: ·)) (l.token (l.separator + 1))
    (l.token (l.separator + 2)) (l.token (l.separator + 3))

theorem isLeast_separator {l : HeadedLine} (h : l.separator ≤ l.fields.length) :
    IsLeast {j | 4 ≤ j ∧ l.fields[j - 1]? = some ['-']} l.separator := by
  have hlt : (l.fields.drop 3).findIdx (· == ['-']) < (l.fields.drop 3).length := by
    unfold separator at h
    rw [List.length_drop]
    omega
  constructor
  · refine ⟨Nat.le_add_right 4 _, ?_⟩
    have hat := List.findIdx_getElem (w := hlt)
    rw [beq_iff_eq] at hat
    have hget := List.getElem?_eq_some_iff.mpr ⟨hlt, hat⟩
    rwa [List.getElem?_drop, show 3 + (l.fields.drop 3).findIdx (· == ['-']) = l.separator - 1 by
      unfold separator; omega] at hget
  · rintro j ⟨hj, hat⟩
    by_contra hbefore
    have hidx : j - 4 < (l.fields.drop 3).findIdx (· == ['-']) := by
      unfold separator at hbefore
      omega
    have hpos : 3 + (j - 4) = j - 1 := by omega
    have hget : (l.fields.drop 3)[j - 4]? = some ['-'] := by rw [List.getElem?_drop, hpos, hat]
    obtain ⟨hin, heq⟩ := List.getElem?_eq_some_iff.mp hget
    have hnot := List.not_of_lt_findIdx hidx
    simp [heq] at hnot

/-- A line is good when its numbers fit and a separator stands at a fourth or later token
with three more behind it. -/
theorem good_iff (l : HeadedLine) : l.good = true ↔ l.head.fits = true ∧
    IsLeast {j | 4 ≤ j ∧ l.fields[j - 1]? = some ['-']} l.separator ∧
    l.separator + 3 ≤ l.fields.length := by
  rw [good, Bool.and_eq_true, decide_eq_true_iff]
  constructor
  · rintro ⟨hfits, hlen⟩
    exact ⟨hfits, isLeast_separator (by omega), hlen⟩
  · rintro ⟨hfits, _, hlen⟩
    exact ⟨hfits, hlen⟩

theorem entryOfWords_fields (l : HeadedLine) :
    entryOfWords l.head.mountId.value l.head.parentId.value
      (makedev l.head.major.value l.head.minor.value) l.fields =
      if l.separator + 3 ≤ l.fields.length then some l.entry else none := by
  unfold entry separator token
  by_cases hshort : l.fields.length < 3
  · rw [entryOfWords_short hshort, if_neg (by omega)]
  · obtain ⟨root, mountPoint, mountOptions, rest, hfields⟩ := three_of_length hshort
    have hsplit : rest.dropWhile (· != ['-']) = rest.drop (rest.findIdx (· == ['-'])) := by
      simp [List.dropWhile_eq_drop_findIdx_not, bne]
    have htext : rest.takeWhile (· != ['-']) = rest.take (rest.findIdx (· == ['-'])) := by
      simp [List.takeWhile_eq_take_findIdx_not, bne]
    rw [hfields]
    simp only [entryOfWords, optionalText, hsplit, htext, List.drop_succ_cons, List.drop_zero,
      List.length_cons]
    generalize rest.findIdx (· == ['-']) = i
    have hget : ∀ n, (rest.drop i)[n]? = rest[i + n]? := fun n => List.getElem?_drop
    have hlen : (rest.drop i).length = rest.length - i := List.length_drop
    by_cases hend : (rest.drop i).length < 4
    · rw [if_neg (by omega)]
      generalize rest.drop i = after at hend ⊢
      obtain _ | ⟨_, _ | ⟨_, _ | ⟨_, _ | ⟨_, _⟩⟩⟩⟩ := after
      · rfl
      · rfl
      · rfl
      · rfl
      · simp only [List.length_cons] at hend
        omega
    · rw [if_pos (by omega)]
      obtain ⟨sep, after, hd⟩ : ∃ sep after, rest.drop i = sep :: after :=
        List.exists_cons_of_ne_nil fun hnil => hend (by simp [hnil])
      rw [hd] at hget hend ⊢
      obtain ⟨filesystemType, mountSource, superOptions, _, rfl⟩ :
          ∃ a b c tail, after = a :: b :: c :: tail := three_of_length (by simpa using hend)
      have h₁ : rest[i + 1]? = some filesystemType := (hget 1).symm
      have h₂ : rest[i + 2]? = some mountSource := (hget 2).symm
      have h₃ : rest[i + 3]? = some superOptions := (hget 3).symm
      simp [Nat.add_comm 4 i, h₁, h₂, h₃]

theorem parseMountinfoLine_headed (l : HeadedLine) :
    parseMountinfoLine l.text = if l.good then some l.entry else none := by
  have hend : Boundary l.trail := fun c hc => l.trail_blank c (List.mem_of_mem_head? hc)
  have htrail : words l.trail = [] := by
    have hw := words_blank_append l.trail_blank []
    rwa [List.append_nil] at hw
  obtain ⟨hb, hw⟩ := words_spaced l.tokens_spaced hend
  rw [text, LineHead.parseMountinfoLine_text l.head hb, hw, htrail, List.append_nil, good]
  cases l.head.fits with
  | false => rfl
  | true =>
    rw [if_pos rfl]
    exact (entryOfWords_fields l).trans (by simp)

end HeadedLine

def plainHead : LineHead where
  mountId := .numeral (.ofInt 36)
  parentId := .numeral (.ofInt 35)
  major := .numeral (.ofInt 98)
  minor := .numeral (.ofInt 0)
  gap₁ := [' ']
  gap₂ := [' ']
  gap₁_blank := ⟨by simp, by simp [isSpace]⟩
  gap₂_blank := ⟨by simp, by simp [isSpace]⟩

def plainLine : HeadedLine where
  head := plainHead
  tokens := ["/", "/mnt", "rw", "master:1", "-", "ext3", "/dev/root", "rw"].map
    fun token => ([' '], token.toList)
  trail := []
  tokens_spaced := by
    simp [isSpace]
    exact ⟨by simp, by simp [isSpace]⟩
  trail_blank := by simp

def overflowLine : HeadedLine :=
  { plainLine with head := { plainHead with minor := .numeral (.ofInt 4294967296) } }

end ZygiskAssistant.Parsers
