import Mathlib.Data.List.TakeWhile

/-!
# Formatted input from a character stream

The part of the C++ input stream that line and token parsers use: the state
bits, `getline`, and the extraction of words, characters and `int`s. An
operation takes the old value of its target, which it returns unchanged when
its sentry fails. The loops over a stream are given fuel and shown to need no
more than the length of the input.
-/

namespace InputStream

universe u v

/-- `std::isspace` in the classic locale. -/
def isSpace (c : Char) : Bool :=
  c == ' ' || c == '\t' || c == '\n' || c == '\x0b' || c == '\x0c' || c == '\r'

structure IStream where
  rest : List Char
  eof : Bool
  fail : Bool
deriving DecidableEq, Repr

namespace IStream

def ofString (s : List Char) : IStream := ⟨s, false, false⟩

def good (is : IStream) : Bool := !is.eof && !is.fail

def setFail (is : IStream) : IStream := { is with fail := true }

/-- The sentry of a formatted extraction: skip blanks, and fail at the end. -/
def skipws (is : IStream) : IStream :=
  if is.good then
    match is.rest.dropWhile isSpace with
    | [] => ⟨[], true, true⟩
    | c :: cs => ⟨c :: cs, false, false⟩
  else is.setFail

/-- `std::getline(is, str, delim)`. -/
def getline (is : IStream) (str : List Char) (delim : Char) : List Char × IStream :=
  if is.good then
    let line := is.rest.takeWhile (· != delim)
    match is.rest.dropWhile (· != delim) with
    | [] => (line, ⟨[], true, line.isEmpty⟩)
    | _ :: cs => (line, ⟨cs, false, false⟩)
  else (str, is.setFail)

/-- `is >> str` for a string. -/
def extractString (is : IStream) (str : List Char) : List Char × IStream :=
  let is := is.skipws
  if is.fail then (str, is)
  else
    let rest := is.rest.dropWhile (fun c => !isSpace c)
    (is.rest.takeWhile (fun c => !isSpace c), ⟨rest, rest.isEmpty, false⟩)

/-- `is >> c` for a character. -/
def extractChar (is : IStream) (c : Char) : Char × IStream :=
  let is := is.skipws
  if is.fail then (c, is)
  else
    match is.rest with
    | [] => (c, is.setFail)
    | d :: cs => (d, ⟨cs, false, false⟩)

def intMin : Int := -2147483648
def intMax : Int := 2147483647

def splitSign : List Char → Bool × List Char
  | '-' :: cs => (true, cs)
  | '+' :: cs => (false, cs)
  | cs => (false, cs)

/-- `is >> n` for an `int` in base ten. A number that does not fit leaves the
nearest bound and fails, and text that is no number leaves zero and fails. -/
def extractInt (is : IStream) (n : Int) : Int × IStream :=
  let is := is.skipws
  if is.fail then (n, is)
  else
    let (negative, body) := splitSign is.rest
    let digits := body.takeWhile Char.isDigit
    let rest := body.dropWhile Char.isDigit
    if digits.isEmpty then (0, ⟨rest, rest.isEmpty, true⟩)
    else
      let v : Int := if negative then -Nat.ofDigitChars 10 digits 0 else Nat.ofDigitChars 10 digits 0
      if v < intMin then (intMin, ⟨rest, rest.isEmpty, true⟩)
      else if intMax < v then (intMax, ⟨rest, rest.isEmpty, true⟩)
      else (v, ⟨rest, rest.isEmpty, false⟩)

/-- The lines read by `while (std::getline(is, line, delim))`. -/
def getlines (delim : Char) : Nat → IStream → List (List Char)
  | 0, _ => []
  | fuel + 1, is =>
    let (line, is) := is.getline [] delim
    if is.fail then [] else line :: getlines delim fuel is

end IStream

/-- The pieces between delimiters; text that ends with a delimiter has no piece after it. -/
def segments (delim : Char) : List Char → List (List Char)
  | [] => []
  | c :: cs =>
    if c = delim then [] :: segments delim cs
    else
      match segments delim cs with
      | [] => [[c]]
      | l :: ls => (c :: l) :: ls

theorem segments_cons_delim (delim : Char) (s : List Char) :
    segments delim (delim :: s) = [] :: segments delim s := by
  simp [segments]

theorem segments_line {delim : Char} {line : List Char} (h : delim ∉ line) (s : List Char) :
    segments delim (line ++ delim :: s) = line :: segments delim s := by
  induction line with
  | nil => exact segments_cons_delim delim s
  | cons c cs ih =>
    have hc : c ≠ delim := fun he => h (he ▸ List.mem_cons_self)
    rw [List.cons_append, segments, if_neg hc, ih (fun hm => h (List.mem_cons_of_mem c hm))]

theorem segments_last {delim : Char} {line : List Char} (hne : line ≠ []) (h : delim ∉ line) :
    segments delim line = [line] := by
  induction line with
  | nil => exact absurd rfl hne
  | cons c cs ih =>
    have hc : c ≠ delim := fun he => h (he ▸ List.mem_cons_self)
    rw [segments, if_neg hc]
    cases cs with
    | nil => rfl
    | cons d ds => rw [ih (by simp) (fun hm => h (List.mem_cons_of_mem c hm))]

/-- Printed line by line, a text is read in the same lines. -/
theorem segments_lines {α : Type u} {delim : Char} {line : α → List Char} {xs : List α}
    (h : ∀ x ∈ xs, delim ∉ line x) :
    segments delim (xs.flatMap fun x => line x ++ [delim]) = xs.map line := by
  induction xs with
  | nil => rfl
  | cons x xs ih =>
    rw [List.flatMap_cons, List.append_assoc, List.singleton_append,
      segments_line (h x List.mem_cons_self), ih fun y hy => h y (List.mem_cons_of_mem x hy)]
    rfl

/-- A loop over lines with a `continue` keeps the entries of the good ones. -/
theorem filterMap_lines {α : Type u} {β : Type v} {line : α → List Char}
    {parse : List Char → Option β} {good : α → Bool} {entry : α → β} {xs : List α}
    (h : ∀ x ∈ xs, parse (line x) = if good x then some (entry x) else none) :
    (xs.map line).filterMap parse = (xs.filter good).map entry := by
  induction xs with
  | nil => rfl
  | cons x xs ih =>
    rw [List.map_cons, List.filterMap_cons, h x List.mem_cons_self,
      ih fun y hy => h y (List.mem_cons_of_mem x hy)]
    cases hg : good x with
    | true => simp [hg]
    | false => simp [hg]

theorem takeWhile_stop {p : Char → Bool} {w r : List Char} (hw : ∀ c ∈ w, p c = true)
    (hr : ∀ c ∈ r.head?, p c = false) : (w ++ r).takeWhile p = w := by
  rw [List.takeWhile_append_of_pos hw]
  cases r with
  | nil => simp
  | cons c cs => simp [hr c rfl]

theorem dropWhile_stop {p : Char → Bool} {w r : List Char} (hw : ∀ c ∈ w, p c = true)
    (hr : ∀ c ∈ r.head?, p c = false) : (w ++ r).dropWhile p = r := by
  rw [List.dropWhile_append_of_pos hw]
  cases r with
  | nil => rfl
  | cons c cs => simp [hr c rfl]

namespace IStream

theorem getline_line {is : IStream} {line cs : List Char} {delim : Char} (hg : is.good = true)
    (hr : is.rest = line ++ delim :: cs) (h : delim ∉ line) (str : List Char) :
    is.getline str delim = (line, ⟨cs, false, false⟩) := by
  have hw : ∀ c ∈ line, (c != delim) = true := fun c hc =>
    bne_iff_ne.mpr fun he => h (he ▸ hc)
  have hd : ∀ c ∈ (delim :: cs).head?, (c != delim) = false := by simp
  unfold getline
  rw [if_pos hg, hr, takeWhile_stop hw hd, dropWhile_stop hw hd]

theorem getline_last {is : IStream} {delim : Char} (hg : is.good = true) (h : delim ∉ is.rest)
    (str : List Char) : is.getline str delim = (is.rest, ⟨[], true, is.rest.isEmpty⟩) := by
  have hw : ∀ c ∈ is.rest, (c != delim) = true := fun c hc =>
    bne_iff_ne.mpr fun he => h (he ▸ hc)
  unfold getline
  rw [if_pos hg, List.takeWhile_eq_self_iff.mpr hw, List.dropWhile_eq_nil_iff.mpr hw]

theorem getline_not_good {is : IStream} (hg : is.good = false) (str : List Char) (delim : Char) :
    is.getline str delim = (str, is.setFail) := by
  simp [getline, hg]

theorem getlines_eof (delim : Char) (fuel : Nat) (is : IStream) (hg : is.good = false) :
    getlines delim fuel is = [] := by
  cases fuel with
  | zero => rfl
  | succ fuel => simp [getlines, getline_not_good hg, setFail]

/-- Each line read consumes a character, so the loop ends before the fuel does. -/
theorem getlines_eq_segments (delim : Char) (fuel : Nat) (s : List Char) (hf : s.length < fuel) :
    getlines delim fuel (ofString s) = segments delim s := by
  induction fuel generalizing s with
  | zero => omega
  | succ fuel ih =>
    by_cases hm : delim ∈ s
    · obtain ⟨line, cs, rfl, hn⟩ := List.eq_append_cons_of_mem hm
      have hl : (ofString (line ++ delim :: cs)).getline [] delim = (line, ⟨cs, false, false⟩) :=
        getline_line rfl rfl hn []
      rw [List.length_append, List.length_cons] at hf
      rw [getlines, hl, segments_line hn]
      exact congrArg (line :: ·) (ih cs (by omega))
    · have hl : (ofString s).getline [] delim = (s, ⟨[], true, s.isEmpty⟩) := getline_last rfl hm []
      rw [getlines, hl]
      cases s with
      | nil => rfl
      | cons c cs =>
        rw [segments_last (by simp) hm]
        exact congrArg ((c :: cs) :: ·) (getlines_eof delim fuel _ rfl)

end IStream

def words (s : List Char) : List (List Char) :=
  (s.splitOnP isSpace).filter (fun w => !w.isEmpty)

/-- Text at which a word ends: none, or a blank. -/
def Boundary (r : List Char) : Prop := ∀ c ∈ r.head?, isSpace c = true

theorem boundary_cons {c : Char} (h : isSpace c = true) (r : List Char) : Boundary (c :: r) := by
  simpa [Boundary] using h

@[simp]
theorem words_nil : words [] = [] := rfl

@[simp]
theorem words_cons_space {c : Char} (h : isSpace c = true) (cs : List Char) :
    words (c :: cs) = words cs := by
  have hs : (c :: cs).splitOnP isSpace = [] :: cs.splitOnP isSpace :=
    List.splitOnP_append_cons_of_forall_mem (fun _ hx => absurd hx List.not_mem_nil) c h cs
  simp [words, hs]

theorem words_blank_append {b : List Char} (hb : ∀ c ∈ b, isSpace c = true) (r : List Char) :
    words (b ++ r) = words r := by
  induction b with
  | nil => rfl
  | cons c cs ih =>
    rw [List.cons_append, words_cons_space (hb c List.mem_cons_self)]
    exact ih fun d hd => hb d (List.mem_cons_of_mem c hd)

theorem words_word {w r : List Char} (hne : w ≠ []) (hw : ∀ c ∈ w, isSpace c = false)
    (hr : Boundary r) : words (w ++ r) = w :: words r := by
  cases r with
  | nil =>
    rw [List.append_nil, words, List.splitOnP_eq_singleton hw]
    simp [hne]
  | cons c cs =>
    have hc : isSpace c = true := hr c rfl
    rw [words_cons_space hc, words, List.splitOnP_append_cons_of_forall_mem hw c hc cs]
    simp [hne, words]

/-- Every text is a run of blanks, then either nothing or a word with its boundary. -/
theorem words_cases (s : List Char) :
    (s.dropWhile isSpace = [] ∧ words s = []) ∨
      ∃ w r, s.dropWhile isSpace = w ++ r ∧ w ≠ [] ∧ (∀ c ∈ w, isSpace c = false) ∧
        Boundary r ∧ words s = w :: words r := by
  have hs := words_blank_append (b := s.takeWhile isSpace)
    (fun c hc => List.mem_takeWhile_imp hc) (s.dropWhile isSpace)
  rw [List.takeWhile_append_dropWhile] at hs
  rw [hs]
  cases hd : s.dropWhile isSpace with
  | nil => exact Or.inl ⟨rfl, rfl⟩
  | cons c cs =>
    have hc : isSpace c = false := by
      simpa [hd] using List.dropWhile_get_zero_not isSpace s (by simp [hd])
    have hsplit := List.takeWhile_append_dropWhile (p := fun c => !isSpace c) (l := c :: cs)
    have hne : (c :: cs).takeWhile (fun c => !isSpace c) ≠ [] := by simp [hc]
    have hw : ∀ d ∈ (c :: cs).takeWhile (fun c => !isSpace c), isSpace d = false := fun d hd => by
      simpa using List.mem_takeWhile_imp hd
    have hb : Boundary ((c :: cs).dropWhile (fun c => !isSpace c)) := by
      intro d hd
      have hz := List.dropWhile_get_zero_not (fun c => !isSpace c) (c :: cs)
      cases hr : (c :: cs).dropWhile (fun c => !isSpace c) with
      | nil => simp [hr] at hd
      | cons e es =>
        rw [hr] at hd
        obtain rfl : e = d := by simpa using hd
        simpa [hr] using hz
    have hwords := words_word hne hw hb
    rw [hsplit] at hwords
    exact Or.inr ⟨_, _, hsplit.symm, hne, hw, hb, hwords⟩

namespace IStream

/-- Extraction can go on: no failure, and the end was met only by reading everything. -/
def Live (is : IStream) : Prop := is.fail = false ∧ (is.eof = true → is.rest = [])

theorem live_ofString (s : List Char) : Live (ofString s) := by simp [Live, ofString]

theorem live_mk (r : List Char) : Live ⟨r, r.isEmpty, false⟩ := by simp [Live]

theorem live_false (r : List Char) : Live ⟨r, false, false⟩ := by simp [Live]

theorem skipws_fail {is : IStream} (h : is.fail = true) : is.skipws.fail = true := by
  simp [skipws, good, h, setFail]

theorem skipws_blank {is : IStream} (h : is.rest.dropWhile isSpace = []) :
    is.skipws.fail = true := by
  unfold skipws
  split
  · simp [h]
  · rfl

theorem skipws_live {is : IStream} {c : Char} {cs : List Char} (hl : Live is)
    (h : is.rest.dropWhile isSpace = c :: cs) : is.skipws = ⟨c :: cs, false, false⟩ := by
  have hr : is.rest ≠ [] := by
    intro he
    simp [he] at h
  have hg : is.good = true := by
    have he : is.eof = false := Bool.eq_false_iff.mpr fun he => hr (hl.2 he)
    simp [good, he, hl.1]
  simp [skipws, hg, h]

theorem extractString_fail {is : IStream} (h : is.fail = true) (str : List Char) :
    (is.extractString str).2.fail = true := by
  simp [extractString, skipws_fail h]

theorem extractString_nil {is : IStream} (h : words is.rest = []) (str : List Char) :
    (is.extractString str).2.fail = true := by
  rcases words_cases is.rest with ⟨hd, _⟩ | ⟨w, r, _, _, _, _, hw⟩
  · simp [extractString, skipws_blank hd]
  · rw [h] at hw
    cases hw

theorem extractString_word {is : IStream} (hl : Live is) {w r : List Char}
    (h : is.rest.dropWhile isSpace = w ++ r) (hne : w ≠ []) (hw : ∀ c ∈ w, isSpace c = false)
    (hr : Boundary r) (str : List Char) : is.extractString str = (w, ⟨r, r.isEmpty, false⟩) := by
  have hp : ∀ d ∈ w, (!isSpace d) = true := fun d hd => by simp [hw d hd]
  have hb : ∀ d ∈ r.head?, (!isSpace d) = false := fun d hd => by simp [hr d hd]
  have hs : is.skipws = ⟨w ++ r, false, false⟩ := by
    obtain ⟨c, cs, rfl⟩ := List.exists_cons_of_ne_nil hne
    exact skipws_live hl h
  simp only [extractString, hs, Bool.false_eq_true, if_false]
  rw [takeWhile_stop hp hb, dropWhile_stop hp hb]

theorem extractString_cons {is : IStream} (hl : Live is) {w : List Char} {ws : List (List Char)}
    (h : words is.rest = w :: ws) (str : List Char) :
    ∃ next, is.extractString str = (w, next) ∧ Live next ∧ words next.rest = ws := by
  rcases words_cases is.rest with ⟨_, hw⟩ | ⟨v, r, hd, hne, hv, hr, hw⟩
  · rw [h] at hw
    cases hw
  · rw [h] at hw
    obtain ⟨rfl, rfl⟩ := List.cons.inj hw
    exact ⟨⟨r, r.isEmpty, false⟩, extractString_word hl hd hne hv hr str, live_mk r, rfl⟩

end IStream

def decimal (n : Int) : List Char :=
  if n < 0 then '-' :: Nat.toDigits 10 n.natAbs else Nat.toDigits 10 n.natAbs

theorem isDigit_toDigits {n : Nat} {c : Char} (h : c ∈ Nat.toDigits 10 n) : c.isDigit = true :=
  Nat.isDigit_of_mem_toDigits (by decide) (by decide) h

theorem not_isSpace_of_isDigit {c : Char} (h : c.isDigit = true) : isSpace c = false := by
  rw [Bool.eq_false_iff]
  intro hs
  simp only [isSpace, Bool.or_eq_true, beq_iff_eq] at hs
  rcases hs with ((((rfl | rfl) | rfl) | rfl) | rfl) | rfl <;> simp at h

theorem dropWhile_blanks {b w : List Char} (hb : ∀ c ∈ b, isSpace c = true)
    (hw : ∀ c ∈ w.head?, isSpace c = false) : (b ++ w).dropWhile isSpace = w :=
  dropWhile_stop hb hw

namespace IStream

theorem extractChar_cons {is : IStream} (hl : Live is) {c : Char} {cs : List Char}
    (h : is.rest.dropWhile isSpace = c :: cs) (old : Char) :
    is.extractChar old = (c, ⟨cs, false, false⟩) := by
  simp [extractChar, skipws_live hl h]

theorem extractInt_fail {is : IStream} (h : is.fail = true) (n : Int) :
    (is.extractInt n).2.fail = true := by
  simp [extractInt, skipws_fail h]

theorem extractChar_fail {is : IStream} (h : is.fail = true) (c : Char) :
    (is.extractChar c).2.fail = true := by
  simp [extractChar, skipws_fail h]

end IStream

end InputStream
