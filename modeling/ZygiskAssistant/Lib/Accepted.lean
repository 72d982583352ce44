import ZygiskAssistant.Lib.Numerals

/-!
# What an extraction has accepted

The rules of the stream read backwards: an extraction that has not failed
started on a stream that had not, has read some of its text, and has left a
value in range. So the tables that a line by line parser can give are known
from the entries that single lines can give.
-/

namespace InputStream

universe u

theorem mem_segments {delim : Char} {s l : List Char} (h : l ∈ segments delim s) :
    delim ∉ l ∧ ∀ c ∈ l, c ∈ s := by
  induction s generalizing l with
  | nil => cases h
  | cons c cs ih =>
    unfold segments at h
    split at h
    · obtain rfl | hl := List.mem_cons.mp h
      · exact ⟨List.not_mem_nil, fun d hd => absurd hd List.not_mem_nil⟩
      · exact ⟨(ih hl).1, fun d hd => List.mem_cons_of_mem c ((ih hl).2 d hd)⟩
    · rename_i hc
      cases hs : segments delim cs with
      | nil =>
        rw [hs] at h
        obtain rfl := List.mem_singleton.mp h
        exact ⟨by simpa using Ne.symm hc, by simp⟩
      | cons m ms =>
        rw [hs] at h ih
        obtain rfl | hl := List.mem_cons.mp h
        · obtain ⟨hno, hsub⟩ := ih List.mem_cons_self
          refine ⟨by simp [Ne.symm hc, hno], fun d hd => ?_⟩
          obtain rfl | hd := List.mem_cons.mp hd
          · exact List.mem_cons_self
          · exact List.mem_cons_of_mem c (hsub d hd)
        · obtain ⟨hno, hsub⟩ := ih (List.mem_cons_of_mem m hl)
          exact ⟨hno, fun d hd => List.mem_cons_of_mem c (hsub d hd)⟩

theorem mem_words {s w : List Char} (h : w ∈ words s) : w ≠ [] ∧ ∀ c ∈ w, isSpace c = false := by
  induction hn : s.length using Nat.strong_induction_on generalizing s with
  | _ n ih =>
    obtain ⟨_, hw⟩ | ⟨v, r, hd, hne, hv, _, hw⟩ := words_cases s
    · rw [hw] at h
      cases h
    · rw [hw] at h
      obtain rfl | hr := List.mem_cons.mp h
      · exact ⟨hne, hv⟩
      · have hlen : (v ++ r).length ≤ s.length := hd ▸ List.length_dropWhile_le _ _
        have hpos := List.length_pos_iff.mpr hne
        rw [List.length_append] at hlen
        exact ih r.length (by omega) hr rfl

/-- The tables that can be read from some text are those of which every entry can be read
from some line. -/
theorem exists_text_iff {β : Type u} {delim : Char} {parse : List Char → Option β} {es : List β} :
    (∃ text, (segments delim text).filterMap parse = es) ↔
      ∀ e ∈ es, ∃ line, delim ∉ line ∧ parse line = some e := by
  constructor
  · rintro ⟨text, rfl⟩ e he
    obtain ⟨line, hline, hparse⟩ := List.mem_filterMap.mp he
    exact ⟨line, (mem_segments hline).1, hparse⟩
  · intro h
    induction es with
    | nil => exact ⟨[], rfl⟩
    | cons e es ih =>
      obtain ⟨line, hno, hparse⟩ := h e List.mem_cons_self
      obtain ⟨text, htext⟩ := ih fun f hf => h f (List.mem_cons_of_mem e hf)
      refine ⟨line ++ delim :: text, ?_⟩
      rw [segments_line hno, List.filterMap_cons_some hparse, htext]

namespace IStream

/-- The stream had not failed, and can go on with what is left of it. -/
structure Continues (is next : IStream) : Prop where
  started : is.fail = false
  live : Live next
  suffix : next.rest <:+ is.rest

theorem Continues.trans {is next last : IStream} (h : Continues is next) (h' : Continues next last) :
    Continues is last := ⟨h.started, h'.live, h'.suffix.trans h.suffix⟩

theorem skipws_accepted {is : IStream} (h : is.skipws.fail = false) :
    is.fail = false ∧ is.skipws.rest <:+ is.rest := by
  have hstart : is.fail = false := by
    rw [← Bool.not_eq_true]
    intro hf
    rw [skipws_fail hf] at h
    cases h
  refine ⟨hstart, ?_⟩
  have hsuffix := List.dropWhile_suffix isSpace (l := is.rest)
  unfold skipws
  split
  · split
    · exact List.nil_suffix
    · rename_i hd
      rwa [hd] at hsuffix
  · exact List.suffix_rfl

theorem skipws_rest {is : IStream} (h : is.skipws.fail = false) :
    ∃ c cs, is.skipws.rest = c :: cs ∧ isSpace c = false := by
  unfold skipws at h ⊢
  split at h
  · rename_i hg
    rw [if_pos hg]
    cases hd : is.rest.dropWhile isSpace with
    | nil =>
      rw [hd] at h
      cases h
    | cons c cs =>
      have hc := List.dropWhile_get_zero_not isSpace is.rest (by simp [hd])
      simp only [hd, List.get_eq_getElem, List.getElem_cons_zero, Bool.not_eq_true] at hc
      exact ⟨c, cs, rfl, hc⟩
  · cases h

theorem splitSign_suffix (s : List Char) : (splitSign s).2 <:+ s := by
  unfold splitSign
  split
  · exact List.suffix_cons _ _
  · exact List.suffix_cons _ _
  · exact List.suffix_rfl

theorem extractInt_accepted {is : IStream} {n : Int} (h : (is.extractInt n).2.fail = false) :
    Continues is (is.extractInt n).2 ∧ intMin ≤ (is.extractInt n).1 ∧
      (is.extractInt n).1 ≤ intMax := by
  unfold extractInt at h ⊢
  dsimp only at h ⊢
  split at h
  · rename_i hskip
    rw [hskip] at h
    cases h
  · rename_i hskip
    obtain ⟨hstart, hsuffix⟩ := skipws_accepted (Bool.eq_false_iff.mpr hskip)
    rw [if_neg hskip]
    have hrest := (List.dropWhile_suffix Char.isDigit (l := (splitSign is.skipws.rest).2)).trans
      ((splitSign_suffix _).trans hsuffix)
    split at h
    · cases h
    · rename_i hdigits
      rw [if_neg hdigits]
      generalize (ite ((splitSign is.skipws.rest).1 = true) _ _ : Int) = v at h ⊢
      split at h
      · cases h
      · rename_i hmin
        rw [if_neg hmin]
        split at h
        · cases h
        · rename_i hmax
          rw [if_neg hmax]
          exact ⟨⟨hstart, live_mk _, hrest⟩, Int.not_lt.mp hmin, Int.not_lt.mp hmax⟩

theorem extractChar_accepted {is : IStream} {c : Char} (h : (is.extractChar c).2.fail = false) :
    Continues is (is.extractChar c).2 := by
  unfold extractChar at h ⊢
  dsimp only at h ⊢
  split at h
  · rename_i hskip
    rw [hskip] at h
    cases h
  · rename_i hskip
    obtain ⟨hstart, hsuffix⟩ := skipws_accepted (Bool.eq_false_iff.mpr hskip)
    rw [if_neg hskip]
    cases hr : is.skipws.rest with
    | nil =>
      rw [hr] at h
      cases h
    | cons d cs =>
      rw [hr] at hsuffix
      exact ⟨hstart, live_false cs, (List.suffix_cons d cs).trans hsuffix⟩

theorem extractString_accepted {is : IStream} {str : List Char}
    (h : (is.extractString str).2.fail = false) : Continues is (is.extractString str).2 ∧
      (is.extractString str).1 ≠ [] ∧ ∀ c ∈ (is.extractString str).1, isSpace c = false := by
  unfold extractString at h ⊢
  dsimp only at h ⊢
  split at h
  · rename_i hskip
    rw [hskip] at h
    cases h
  · rename_i hskip
    have hlive := Bool.eq_false_iff.mpr hskip
    obtain ⟨hstart, hsuffix⟩ := skipws_accepted hlive
    obtain ⟨c, cs, hr, hc⟩ := skipws_rest hlive
    rw [if_neg hskip]
    refine ⟨⟨hstart, live_mk _, (List.dropWhile_suffix _).trans hsuffix⟩, ?_, fun d hd => ?_⟩
    · simp [hr, hc]
    · simpa using List.mem_takeWhile_imp hd

theorem splitPrefix_suffix (base : Nat) (s : List Char) : (splitPrefix base s).2 <:+ s := by
  unfold splitPrefix
  split
  · split
    · exact ((List.suffix_cons _ _).trans (List.suffix_cons _ _))
    · exact List.suffix_rfl
  · split
    · exact ((List.suffix_cons _ _).trans (List.suffix_cons _ _))
    · exact List.suffix_rfl
  · exact List.suffix_rfl

theorem extractNumber_accepted {α : Type} {base : Nat} {zero n : α}
    {convert : Bool → Nat → α × Bool} {is : IStream}
    (h : (is.extractNumber base zero convert n).2.fail = false) :
    Continues is (is.extractNumber base zero convert n).2 ∧
      ∃ negative v, convert negative v = ((is.extractNumber base zero convert n).1, false) := by
  unfold extractNumber at h ⊢
  dsimp only at h ⊢
  split at h
  · rename_i hskip
    rw [hskip] at h
    cases h
  · rename_i hskip
    obtain ⟨hstart, hsuffix⟩ := skipws_accepted (Bool.eq_false_iff.mpr hskip)
    rw [if_neg hskip]
    have hrest := (List.dropWhile_suffix (isDigitOf base)).trans ((splitPrefix_suffix base _).trans
      ((splitSign_suffix _).trans hsuffix))
    split at h
    · cases h
    · rename_i hdigits
      rw [if_neg hdigits]
      dsimp only at h ⊢
      rw [h]
      exact ⟨⟨hstart, live_mk _, hrest⟩, _, _, Prod.ext rfl h⟩

theorem toUnsigned_accepted {bits v n : Nat} {negative : Bool}
    (h : toUnsigned bits negative v = (n, false)) : n < 2 ^ bits := by
  unfold toUnsigned at h
  split at h
  · cases (Prod.mk.inj h).2
  · rename_i hfit
    rw [← (Prod.mk.inj h).1]
    split
    · exact Nat.mod_lt _ (Nat.two_pow_pos bits)
    · exact Nat.not_le.mp hfit

theorem toInt_accepted {v : Nat} {n : Int} {negative : Bool} (h : toInt negative v = (n, false)) :
    intMin ≤ n ∧ n ≤ intMax := by
  unfold toInt at h
  dsimp only at h
  generalize (if negative = true then -(v : Int) else v) = signed at h
  split at h
  · cases (Prod.mk.inj h).2
  · rename_i hmin
    split at h
    · cases (Prod.mk.inj h).2
    · rename_i hmax
      rw [← (Prod.mk.inj h).1]
      exact ⟨Int.not_lt.mp hmin, Int.not_lt.mp hmax⟩

theorem extractUnsigned_accepted {base bits n : Nat} {is : IStream}
    (h : (is.extractUnsigned base bits n).2.fail = false) :
    Continues is (is.extractUnsigned base bits n).2 ∧
      (is.extractUnsigned base bits n).1 < 2 ^ bits := by
  obtain ⟨hc, _, _, hv⟩ := extractNumber_accepted h
  exact ⟨hc, toUnsigned_accepted hv⟩

theorem extractHexInt_accepted {n : Int} {is : IStream}
    (h : (is.extractHexInt n).2.fail = false) : Continues is (is.extractHexInt n).2 ∧
      intMin ≤ (is.extractHexInt n).1 ∧ (is.extractHexInt n).1 ≤ intMax := by
  obtain ⟨hc, _, _, hv⟩ := extractNumber_accepted h
  exact ⟨hc, toInt_accepted hv⟩

end IStream

end InputStream
