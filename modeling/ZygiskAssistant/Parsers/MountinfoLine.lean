import ZygiskAssistant.Lib.Numerals
import ZygiskAssistant.Parsers.Mountinfo

/-!
# A mountinfo line as words

After the numbers at its head, a line is read word by word. `entryOfWords`
says what the parser makes of these words, and the main theorem that it makes
just that of every line with a numeric head, however its words are spaced.
-/

namespace ZygiskAssistant.Parsers

open InputStream InputStream.IStream

def optionalText (fields : List Str) : Str :=
  (fields.takeWhile (· != ['-'])).flatMap (' ' :: ·)

/-- What the parser makes of the words after the device number. -/
def entryOfWords (mountId parentId : Int) (device : DevT) : List Str → Option MountinfoEntry
  | root :: mountPoint :: mountOptions :: fields =>
    match fields.dropWhile (· != ['-']) with
    | _ :: filesystemType :: mountSource :: superOptions :: _ =>
      some (mountinfoEntry mountId parentId device root mountPoint mountOptions
        (optionalText fields) filesystemType mountSource superOptions)
    | _ => none
  | _ => none

theorem length_words_le (s : Str) : (words s).length ≤ s.length := by
  induction hn : s.length using Nat.strong_induction_on generalizing s with
  | _ n ih =>
    rcases words_cases s with ⟨_, hw⟩ | ⟨w, r, hd, hne, _, _, hw⟩
    · simp [hw]
    · have hlen : (w ++ r).length ≤ s.length := hd ▸ List.length_dropWhile_le _ _
      have hpos : 0 < w.length := List.length_pos_of_ne_nil hne
      rw [List.length_append] at hlen
      have hr := ih r.length (by omega) r rfl
      rw [hw, List.length_cons]
      omega

theorem optionalText_cons {field : Str} (h : field ≠ ['-']) (fields : List Str) :
    optionalText (field :: fields) = ' ' :: field ++ optionalText fields := by
  simp [optionalText, h]

theorem readOptionalFields_words (fuel : Nat) {iss : IStream} (hl : Live iss) {fields : List Str}
    (hw : words iss.rest = fields) (hf : fields.length < fuel) (acc : Str) :
    ∃ next, readOptionalFields fuel iss acc = (acc ++ optionalText fields, next) ∧
      match fields.dropWhile (· != ['-']) with
      | [] => next.fail = true
      | _ :: after => Live next ∧ words next.rest = after := by
  induction fuel generalizing iss fields acc with
  | zero => omega
  | succ fuel ih =>
    cases fields with
    | nil =>
      have hfail := extractString_nil hw []
      refine ⟨(iss.extractString []).2, ?_, hfail⟩
      simp [readOptionalFields, hfail, optionalText]
    | cons field fields =>
      obtain ⟨next, hext, hlive, hrest⟩ := extractString_cons hl hw []
      by_cases hsep : field = ['-']
      · subst hsep
        refine ⟨next, ?_, by simpa using ⟨hlive, hrest⟩⟩
        simp [readOptionalFields, hext, optionalText]
      · obtain ⟨last, hread, hlast⟩ := ih hlive hrest (by simpa using hf) (acc ++ ' ' :: field)
        refine ⟨last, ?_, by simpa [hsep] using hlast⟩
        rw [optionalText_cons hsep]
        simpa [readOptionalFields, hext, hlive.1, hsep] using hread

theorem extractString_words {iss : IStream} (hl : Live iss) :
    (∃ w next ws, words iss.rest = w :: ws ∧ iss.extractString [] = (w, next) ∧ Live next ∧
      words next.rest = ws) ∨
      (words iss.rest = [] ∧ (iss.extractString []).2.fail = true) := by
  cases hw : words iss.rest with
  | nil => exact Or.inr ⟨rfl, extractString_nil hw []⟩
  | cons w ws =>
    obtain ⟨next, hext, hlive, hrest⟩ := extractString_cons hl hw []
    exact Or.inl ⟨w, next, ws, rfl, hext, hlive, hrest⟩

def parseWords (fuel : Nat) (mountId parentId : Int) (device : DevT) (iss : IStream) :
    Option MountinfoEntry :=
  let (root, iss) := iss.extractString []
  let (mountPoint, iss) := iss.extractString []
  let (mountOptions, iss) := iss.extractString []
  if iss.fail then none
  else
    let (optionalFields, iss) := readOptionalFields fuel iss []
    if iss.fail then none
    else
      let (filesystemType, iss) := iss.extractString []
      let (mountSource, iss) := iss.extractString []
      let (superOptions, iss) := iss.extractString []
      if iss.fail then none
      else some (mountinfoEntry mountId parentId device root mountPoint mountOptions
        optionalFields filesystemType mountSource superOptions)

theorem extract_three_fail {iss : IStream} (hl : Live iss) (h : (words iss.rest).length < 3) :
    (((iss.extractString []).2.extractString []).2.extractString []).2.fail = true := by
  rcases extractString_words hl with ⟨_, i₁, ws, hw, he₁, hl₁, hr₁⟩ | ⟨_, hf⟩
  · rw [he₁]
    rcases extractString_words hl₁ with ⟨_, i₂, ws₂, hw₂, he₂, hl₂, hr₂⟩ | ⟨_, hf⟩
    · rw [he₂]
      have hnil : words i₂.rest = [] := by
        rw [hw, ← hr₁, hw₂] at h
        rw [hr₂]
        simp only [List.length_cons] at h
        exact List.length_eq_zero_iff.mp (by omega)
      exact extractString_nil hnil []
    · exact extractString_fail hf []
  · exact extractString_fail (extractString_fail hf []) []

theorem extract_three {iss : IStream} (hl : Live iss) {a b c : Str} {ws : List Str}
    (h : words iss.rest = a :: b :: c :: ws) : ∃ i₁ i₂ i₃,
      iss.extractString [] = (a, i₁) ∧ i₁.extractString [] = (b, i₂) ∧
      i₂.extractString [] = (c, i₃) ∧ Live i₃ ∧ words i₃.rest = ws := by
  obtain ⟨i₁, h₁, hl₁, hr₁⟩ := extractString_cons hl h []
  obtain ⟨i₂, h₂, hl₂, hr₂⟩ := extractString_cons hl₁ hr₁ []
  obtain ⟨i₃, h₃, hl₃, hr₃⟩ := extractString_cons hl₂ hr₂ []
  exact ⟨i₁, i₂, i₃, h₁, h₂, h₃, hl₃, hr₃⟩

theorem entryOfWords_short {mountId parentId : Int} {device : DevT} {ws : List Str}
    (h : ws.length < 3) : entryOfWords mountId parentId device ws = none := by
  match ws, h with
  | [], _ => rfl
  | [_], _ => rfl
  | [_, _], _ => rfl

theorem three_of_length {ws : List Str} (h : ¬ ws.length < 3) :
    ∃ a b c rest, ws = a :: b :: c :: rest := by
  match ws, h with
  | [], h => exact absurd (by decide) h
  | [_], h => exact absurd (by simp) h
  | [_, _], h => exact absurd (by simp) h
  | a :: b :: c :: rest, _ => exact ⟨a, b, c, rest, rfl⟩

theorem parseWords_eq (mountId parentId : Int) (device : DevT) {iss : IStream} (hl : Live iss)
    {fuel : Nat} (hf : (words iss.rest).length < fuel) :
    parseWords fuel mountId parentId device iss =
      entryOfWords mountId parentId device (words iss.rest) := by
  by_cases hshort : (words iss.rest).length < 3
  · rw [entryOfWords_short hshort, parseWords]
    simp only [extract_three_fail hl hshort, if_true]
  · obtain ⟨root, mountPoint, mountOptions, fields, hw⟩ := three_of_length hshort
    obtain ⟨i₁, i₂, i₃, h₁, h₂, h₃, hl₃, hr₃⟩ := extract_three hl hw
    have hlen : fields.length < fuel := by
      rw [hw] at hf
      simp only [List.length_cons] at hf
      omega
    obtain ⟨i₄, hopt, hafter⟩ := readOptionalFields_words fuel hl₃ hr₃ hlen []
    simp only [parseWords, h₁, h₂, h₃, hl₃.1, Bool.false_eq_true, if_false, hopt, hw, entryOfWords,
      List.nil_append]
    cases hd : fields.dropWhile (· != ['-']) with
    | nil =>
      rw [hd] at hafter
      simp [hafter]
    | cons sep after =>
      rw [hd] at hafter
      obtain ⟨hl₄, hr₄⟩ := hafter
      rw [if_neg (by simp [hl₄.1])]
      by_cases htail : after.length < 3
      · rw [← hr₄] at htail
        simp only [extract_three_fail hl₄ htail, if_true]
        rw [hr₄] at htail
        match after, htail with
        | [], _ => rfl
        | [_], _ => rfl
        | [_, _], _ => rfl
      · obtain ⟨filesystemType, mountSource, superOptions, ws, rfl⟩ := three_of_length htail
        obtain ⟨i₅, i₆, i₇, h₅, h₆, h₇, hl₇, _⟩ := extract_three hl₄ hr₄
        simp only [h₅, h₆, h₇, hl₇.1, Bool.false_eq_true, if_false]

structure Blank (b : Str) : Prop where
  ne_nil : b ≠ []
  blank : ∀ c ∈ b, isSpace c = true

theorem Blank.not_digit {b : Str} (h : Blank b) (r : Str) : ∀ c ∈ (b ++ r).head?, c.isDigit = false := by
  obtain ⟨c, cs, rfl⟩ := List.exists_cons_of_ne_nil h.ne_nil
  intro d hd
  obtain rfl : c = d := by simpa using hd
  rw [Bool.eq_false_iff]
  intro hdig
  have hs := h.blank c List.mem_cons_self
  rw [not_isSpace_of_isDigit hdig] at hs
  cases hs

def InInt (n : Int) : Prop := intMin ≤ n ∧ n ≤ intMax

instance (n : Int) : Decidable (InInt n) := inferInstanceAs (Decidable (intMin ≤ n ∧ n ≤ intMax))

/-- One of the four numbers, or what stands in its place. -/
inductive HeadNumber
  | numeral (n : Numeral)
  | other (c : Char) (cs : Str) (first : c.isDigit = false ∧ c ≠ '-' ∧ c ≠ '+' ∧ isSpace c = false)

namespace HeadNumber

def text : HeadNumber → Str
  | numeral n => n.text
  | other c cs _ => c :: cs

def fits : HeadNumber → Bool
  | numeral n => decide (InInt n.value)
  | other _ _ _ => false

def value : HeadNumber → Int
  | numeral n => n.value
  | other _ _ _ => 0

theorem dropWhile_text (s : HeadNumber) {b : Str} (hb : ∀ c ∈ b, isSpace c = true) (r : Str) :
    (b ++ (s.text ++ r)).dropWhile isSpace = s.text ++ r := by
  apply dropWhile_blanks hb
  cases s with
  | numeral n =>
    obtain ⟨c, cs, hc, hsp⟩ := n.text_cons
    simp [text, hc, hsp]
  | other c cs first => simp [text, first.2.2.2]

theorem extractInt_fits {s : HeadNumber} (h : s.fits = true) {iss : IStream} (hl : Live iss) {b r : Str}
    (hb : ∀ c ∈ b, isSpace c = true) (hrest : iss.rest = b ++ (s.text ++ r))
    (hr : ∀ c ∈ r.head?, c.isDigit = false) :
    iss.extractInt 0 = (s.value, ⟨r, r.isEmpty, false⟩) := by
  have hdrop := s.dropWhile_text hb r
  rw [← hrest] at hdrop
  cases s with
  | numeral n => exact (extractInt_numeral hl hdrop hr 0).1 (of_decide_eq_true h)
  | other c cs first => cases h

theorem extractInt_misfit {s : HeadNumber} (h : s.fits = false) {iss : IStream} (hl : Live iss)
    {b r : Str} (hb : ∀ c ∈ b, isSpace c = true) (hrest : iss.rest = b ++ (s.text ++ r))
    (hr : ∀ c ∈ r.head?, c.isDigit = false) : (iss.extractInt 0).2.fail = true := by
  have hdrop := s.dropWhile_text hb r
  rw [← hrest] at hdrop
  cases s with
  | numeral n => exact (extractInt_numeral hl hdrop hr 0).2 (of_decide_eq_false h)
  | other c cs first => exact extractInt_other hl hdrop first.1 first.2.1 first.2.2.1 0

end HeadNumber

def readHead (iss : IStream) : Int × Int × DevT × IStream :=
  let (mountId, iss) := iss.extractInt 0
  let (parentId, iss) := iss.extractInt 0
  let (major, iss) := iss.extractInt 0
  let (_colon, iss) := iss.extractChar '\x00'
  let (minor, iss) := iss.extractInt 0
  (mountId, parentId, makedev major minor, iss)

theorem parseMountinfoLine_eq (line : Str) : parseMountinfoLine line =
    let (mountId, parentId, device, iss) := readHead (ofString line)
    parseWords (line.length + 1) mountId parentId device iss := rfl

theorem parseWords_fail {iss : IStream} (h : iss.fail = true) (fuel : Nat) (mountId parentId : Int)
    (device : DevT) : parseWords fuel mountId parentId device iss = none := by
  have hfail := extractString_fail (extractString_fail (extractString_fail h []) []) []
  rw [parseWords]
  simp only [hfail, if_true]

structure LineHead where
  mountId : HeadNumber
  parentId : HeadNumber
  major : HeadNumber
  minor : HeadNumber
  gap₁ : Str
  gap₂ : Str
  gap₁_blank : Blank gap₁
  gap₂_blank : Blank gap₂

namespace LineHead

def text (l : LineHead) (tail : Str) : Str :=
  l.mountId.text ++ (l.gap₁ ++ (l.parentId.text ++ (l.gap₂ ++ (l.major.text ++
    (':' :: (l.minor.text ++ tail))))))

def fits (l : LineHead) : Bool := l.mountId.fits && l.parentId.fits && l.major.fits && l.minor.fits

theorem boundary_stops {r : Str} (h : Boundary r) : ∀ c ∈ r.head?, c.isDigit = false := by
  intro c hc
  rw [Bool.eq_false_iff]
  intro hdig
  have hs := h c hc
  rw [not_isSpace_of_isDigit hdig] at hs
  cases hs

theorem blank_nil : ∀ c ∈ ([] : Str), isSpace c = true := by simp

section

variable {l : LineHead} {tail : Str}

theorem readHead_fits (h : l.fits = true) (hb : Boundary tail) :
    readHead (ofString (l.text tail)) = (l.mountId.value, l.parentId.value,
      makedev l.major.value l.minor.value, ⟨tail, tail.isEmpty, false⟩) := by
  simp only [fits, Bool.and_eq_true] at h
  obtain ⟨⟨⟨h₁, h₂⟩, h₃⟩, h₄⟩ := h
  have hcolon : ∀ c ∈ (':' :: (l.minor.text ++ tail)).head?, c.isDigit = false := by simp
  have e₁ := HeadNumber.extractInt_fits h₁ (live_ofString (l.text tail)) blank_nil rfl
    (l.gap₁_blank.not_digit _)
  have e₂ := HeadNumber.extractInt_fits h₂ (live_mk _) l.gap₁_blank.blank rfl
    (l.gap₂_blank.not_digit (l.major.text ++ (':' :: (l.minor.text ++ tail))))
  have e₃ := HeadNumber.extractInt_fits h₃ (live_mk _) l.gap₂_blank.blank rfl hcolon
  have e₄ := extractChar_cons (live_mk (':' :: (l.minor.text ++ tail))) rfl '\x00'
  have e₅ := HeadNumber.extractInt_fits h₄ (live_false (l.minor.text ++ tail)) blank_nil rfl
    (boundary_stops hb)
  simp only [readHead, e₁, e₂, e₃, e₄, e₅]

/-- The first number that does not fit fails the stream, and it stays failed. -/
theorem readHead_misfit (h : l.fits = false) (hb : Boundary tail) :
    (readHead (ofString (l.text tail))).2.2.2.fail = true := by
  have hcolon : ∀ c ∈ (':' :: (l.minor.text ++ tail)).head?, c.isDigit = false := by simp
  have hstop₁ := l.gap₁_blank.not_digit
    (l.parentId.text ++ (l.gap₂ ++ (l.major.text ++ (':' :: (l.minor.text ++ tail)))))
  have hstop₂ := l.gap₂_blank.not_digit (l.major.text ++ (':' :: (l.minor.text ++ tail)))
  cases h₁ : l.mountId.fits with
  | false =>
    have f₁ := HeadNumber.extractInt_misfit h₁ (live_ofString (l.text tail)) blank_nil rfl hstop₁
    exact extractInt_fail (extractChar_fail (extractInt_fail (extractInt_fail f₁ 0) 0) _) 0
  | true =>
    have e₁ := HeadNumber.extractInt_fits h₁ (live_ofString (l.text tail)) blank_nil rfl hstop₁
    simp only [readHead, e₁]
    cases h₂ : l.parentId.fits with
    | false =>
      have f₂ := HeadNumber.extractInt_misfit h₂ (live_mk _) l.gap₁_blank.blank rfl hstop₂
      exact extractInt_fail (extractChar_fail (extractInt_fail f₂ 0) _) 0
    | true =>
      have e₂ := HeadNumber.extractInt_fits h₂ (live_mk _) l.gap₁_blank.blank rfl hstop₂
      simp only [e₂]
      cases h₃ : l.major.fits with
      | false =>
        have f₃ := HeadNumber.extractInt_misfit h₃ (live_mk _) l.gap₂_blank.blank rfl hcolon
        exact extractInt_fail (extractChar_fail f₃ _) 0
      | true =>
        have h₄ : l.minor.fits = false := by simpa [fits, h₁, h₂, h₃] using h
        have e₃ := HeadNumber.extractInt_fits h₃ (live_mk _) l.gap₂_blank.blank rfl hcolon
        have e₄ := extractChar_cons (live_mk (':' :: (l.minor.text ++ tail))) rfl '\x00'
        simp only [e₃, e₄]
        exact HeadNumber.extractInt_misfit h₄ (live_false (l.minor.text ++ tail)) blank_nil rfl
          (boundary_stops hb)

/-- A line with this head gives the entry of its remaining words if its numbers fit, and
none otherwise. -/
theorem parseMountinfoLine_text (l : LineHead) (hb : Boundary tail) :
    parseMountinfoLine (l.text tail) =
      if l.fits then entryOfWords l.mountId.value l.parentId.value
        (makedev l.major.value l.minor.value) (words tail)
      else none := by
  rw [parseMountinfoLine_eq]
  cases h : l.fits with
  | false => exact parseWords_fail (readHead_misfit h hb) _ _ _ _
  | true =>
    have hfuel : (words tail).length < (l.text tail).length + 1 := by
      have hle := length_words_le tail
      simp only [text, List.length_append, List.length_cons]
      omega
    rw [readHead_fits h hb]
    exact parseWords_eq _ _ _ (live_mk tail) hfuel

end

end LineHead

theorem Blank.boundary {b : Str} (h : Blank b) (r : Str) : Boundary (b ++ r) := by
  obtain ⟨c, cs, rfl⟩ := List.exists_cons_of_ne_nil h.ne_nil
  exact boundary_cons (h.blank c List.mem_cons_self) _

theorem words_spaced {tokens : List (Str × Str)}
    (h : ∀ t ∈ tokens, Blank t.1 ∧ t.2 ≠ [] ∧ ∀ c ∈ t.2, isSpace c = false) {s : Str}
    (hs : Boundary s) : Boundary (tokens.flatMap (fun t => t.1 ++ t.2) ++ s) ∧
      words (tokens.flatMap (fun t => t.1 ++ t.2) ++ s) = tokens.map Prod.snd ++ words s := by
  induction tokens with
  | nil => exact ⟨hs, rfl⟩
  | cons t tokens ih =>
    obtain ⟨hb, hw⟩ := ih fun u hu => h u (List.mem_cons_of_mem _ hu)
    obtain ⟨hgap, hne, hsp⟩ := h t List.mem_cons_self
    rw [List.flatMap_cons, List.append_assoc, List.append_assoc]
    refine ⟨hgap.boundary _, ?_⟩
    rw [words_blank_append hgap.blank, words_word hne hsp hb, hw]
    rfl

/-- A line with a numeric head gives the entry of its remaining words. -/
theorem parseMountinfoLine_head {mountId parentId major minor : Int} (hid : InInt mountId)
    (hparent : InInt parentId) (hmajor : InInt major) (hminor : InInt minor) {b₁ b₂ b₃ : Str}
    (h₁ : Blank b₁) (h₂ : Blank b₂) (h₃ : Blank b₃) (tail : Str) :
    parseMountinfoLine (decimal mountId ++ (b₁ ++ (decimal parentId ++ (b₂ ++ (decimal major ++
        (':' :: (decimal minor ++ (b₃ ++ tail)))))))) =
      entryOfWords mountId parentId (makedev major minor) (words tail) := by
  have hline := LineHead.parseMountinfoLine_text
    ⟨.numeral (.ofInt mountId), .numeral (.ofInt parentId), .numeral (.ofInt major),
      .numeral (.ofInt minor), b₁, b₂, h₁, h₂⟩ (h₃.boundary tail)
  simpa [LineHead.text, LineHead.fits, HeadNumber.text, HeadNumber.fits, HeadNumber.value,
    Numeral.text_ofInt, Numeral.value_ofInt, hid, hparent, hmajor, hminor,
    words_blank_append h₃.blank tail] using hline

end ZygiskAssistant.Parsers
