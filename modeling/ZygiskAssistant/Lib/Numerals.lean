import Mathlib.Algebra.Group.Nat.Defs
import ZygiskAssistant.Lib.InputStream

/-!
# Numbers in a base, of a given width

The extraction of `int` and of unsigned integers in base ten or sixteen. A
number that does not fit its type leaves the nearest bound and fails; so does
text that holds no digit, with zero. The main rules read a run of digits back,
and say that a stream that has failed stays failed.
-/

namespace InputStream

def digitVal (c : Char) : Nat :=
  if '0' ≤ c ∧ c ≤ '9' then c.toNat - 48
  else if 'a' ≤ c ∧ c ≤ 'f' then c.toNat - 87
  else if 'A' ≤ c ∧ c ≤ 'F' then c.toNat - 55
  else 16

def isDigitOf (base : Nat) (c : Char) : Bool := decide (digitVal c < base)

def digitsVal (base : Nat) (ds : List Char) : Nat := ds.foldl (fun n c => base * n + digitVal c) 0

/-- In base sixteen a numeral may start with `0x`. -/
def splitPrefix (base : Nat) : List Char → Bool × List Char
  | '0' :: 'x' :: cs => if base = 16 then (true, cs) else (false, '0' :: 'x' :: cs)
  | '0' :: 'X' :: cs => if base = 16 then (true, cs) else (false, '0' :: 'X' :: cs)
  | cs => (false, cs)

namespace IStream

/-- `std::ws`. -/
def ws (is : IStream) : IStream :=
  if is.good then
    match is.rest.dropWhile isSpace with
    | [] => ⟨[], true, false⟩
    | c :: cs => ⟨c :: cs, false, false⟩
  else is.setFail

/-- The common part of `is >> n` for integers. `convert` stores the sign and the
magnitude, and says whether they were out of range. -/
def extractNumber {α : Type} (base : Nat) (zero : α) (convert : Bool → Nat → α × Bool) (is : IStream)
    (n : α) : α × IStream :=
  let is := is.skipws
  if is.fail then (n, is)
  else
    let (negative, body) := splitSign is.rest
    let (_, body) := splitPrefix base body
    let digits := body.takeWhile (isDigitOf base)
    let rest := body.dropWhile (isDigitOf base)
    if digits.isEmpty then (zero, ⟨rest, rest.isEmpty, true⟩)
    else
      let (v, outOfRange) := convert negative (digitsVal base digits)
      (v, ⟨rest, rest.isEmpty, outOfRange⟩)

def toInt (negative : Bool) (v : Nat) : Int × Bool :=
  let v : Int := if negative then -v else v
  if v < intMin then (intMin, true) else if intMax < v then (intMax, true) else (v, false)

/-- A negative numeral stands for its value modulo the width. -/
def toUnsigned (bits : Nat) (negative : Bool) (v : Nat) : Nat × Bool :=
  if 2 ^ bits ≤ v then (2 ^ bits - 1, true)
  else (if negative then (2 ^ bits - v) % 2 ^ bits else v, false)

/-- `is >> std::hex >> n` for an `int`. -/
def extractHexInt (is : IStream) (n : Int) : Int × IStream := is.extractNumber 16 0 toInt n

def extractUnsigned (base bits : Nat) (is : IStream) (n : Nat) : Nat × IStream :=
  is.extractNumber base 0 (toUnsigned bits) n

end IStream

theorem digitVal_digitChar {n : Nat} (h : n < 16) : digitVal n.digitChar = n := by
  have hall : ∀ m < 16, digitVal m.digitChar = m := by decide
  exact hall n h

theorem digitsVal_append_singleton (base : Nat) (ds : List Char) (c : Char) :
    digitsVal base (ds ++ [c]) = base * digitsVal base ds + digitVal c := by
  simp [digitsVal]

theorem digitsVal_zeros (base k : Nat) (ds : List Char) :
    digitsVal base (List.replicate k '0' ++ ds) = digitsVal base ds := by
  induction k with
  | zero => rfl
  | succ k ih =>
    rw [List.replicate_succ, List.cons_append, ← ih]
    have hz : digitVal '0' = 0 := rfl
    simp [digitsVal, hz]

theorem digitsVal_toDigits {base : Nat} (h : 1 < base) (hb : base ≤ 16) (n : Nat) :
    digitsVal base (Nat.toDigits base n) = n := by
  induction n using Nat.strong_induction_on with
  | _ n ih =>
    rcases Nat.lt_or_ge n base with hn | hn
    · rw [Nat.toDigits_of_lt_base hn]
      simp [digitsVal, digitVal_digitChar (by omega : n < 16)]
    · have hlt : n % base < base := Nat.mod_lt n (by omega)
      rw [Nat.toDigits_of_base_le h hn, digitsVal_append_singleton,
        ih (n / base) (Nat.div_lt_self (by omega) h), digitVal_digitChar (by omega)]
      exact Nat.div_add_mod n base

theorem isDigitOf_toDigits {base : Nat} (h : 1 < base) (hb : base ≤ 16) (n : Nat) :
    ∀ c ∈ Nat.toDigits base n, isDigitOf base c = true := by
  induction n using Nat.strong_induction_on with
  | _ n ih =>
    intro c hc
    rcases Nat.lt_or_ge n base with hn | hn
    · rw [Nat.toDigits_of_lt_base hn] at hc
      obtain rfl := List.mem_singleton.mp hc
      simpa [isDigitOf, digitVal_digitChar (by omega : n < 16)] using hn
    · have hlt : n % base < base := Nat.mod_lt n (by omega)
      rw [Nat.toDigits_of_base_le h hn] at hc
      rcases List.mem_append.mp hc with hc | hc
      · exact ih (n / base) (Nat.div_lt_self (by omega) h) c hc
      · obtain rfl := List.mem_singleton.mp hc
        simpa [isDigitOf, digitVal_digitChar (by omega : n % base < 16)] using hlt

theorem not_isSpace_of_isDigitOf {base : Nat} (hb : base ≤ 16) {c : Char}
    (h : isDigitOf base c = true) : isSpace c = false := by
  rw [Bool.eq_false_iff]
  intro hs
  have hlt : digitVal c < base := of_decide_eq_true h
  have hno : digitVal c = 16 := by
    simp only [isSpace, Bool.or_eq_true, beq_iff_eq] at hs
    rcases hs with ((((rfl | rfl) | rfl) | rfl) | rfl) | rfl <;> rfl
  omega

/-- What can stand behind a numeral without being read as part of it. -/
def Stops (base : Nat) (r : List Char) : Prop :=
  ∀ c ∈ r.head?, isDigitOf base c = false ∧ c ≠ 'x' ∧ c ≠ 'X'

theorem stops_cons {base : Nat} {c : Char}
    (h : isDigitOf base c = false ∧ c ≠ 'x' ∧ c ≠ 'X') (r : List Char) : Stops base (c :: r) := by
  intro d hd
  obtain rfl : c = d := by simpa using hd
  exact h

theorem splitSign_digit {base : Nat} (hb : base ≤ 16) {c : Char} (h : isDigitOf base c = true)
    (cs : List Char) : IStream.splitSign (c :: cs) = (false, c :: cs) := by
  have hlt : digitVal c < base := of_decide_eq_true h
  unfold IStream.splitSign
  split
  · rename_i heq
    obtain ⟨rfl, _⟩ := List.cons.inj heq
    have hv : digitVal '-' = 16 := rfl
    omega
  · rename_i heq
    obtain ⟨rfl, _⟩ := List.cons.inj heq
    have hv : digitVal '+' = 16 := rfl
    omega
  · rfl

theorem splitPrefix_digits {base : Nat} (hb : base ≤ 16) {ds r : List Char} (hne : ds ≠ [])
    (hd : ∀ c ∈ ds, isDigitOf base c = true) (hr : Stops base r) :
    splitPrefix base (ds ++ r) = (false, ds ++ r) := by
  have hsecond : ∀ d x tail, ds ++ r = d :: x :: tail → x ≠ 'x' ∧ x ≠ 'X' := by
    intro d x tail heq
    match ds, hne with
    | [_], _ =>
      obtain ⟨_, rfl⟩ := List.cons.inj heq
      exact (hr x rfl).2
    | _ :: y :: _, _ =>
      obtain ⟨_, htail⟩ := List.cons.inj heq
      obtain ⟨rfl, _⟩ := List.cons.inj htail
      have hlt : digitVal y < base := of_decide_eq_true (hd y (by simp))
      constructor
      · rintro rfl
        have hv : digitVal 'x' = 16 := rfl
        omega
      · rintro rfl
        have hv : digitVal 'X' = 16 := rfl
        omega
  unfold splitPrefix
  split
  · rename_i heq
    exact absurd rfl (hsecond _ _ _ heq).1
  · rename_i heq
    exact absurd rfl (hsecond _ _ _ heq).2
  · rfl

namespace IStream

theorem extractNumber_digits {α : Type} {base : Nat} (hb : base ≤ 16) {is : IStream} (hl : Live is)
    {ds r : List Char} (h : is.rest.dropWhile isSpace = ds ++ r) (hne : ds ≠ [])
    (hd : ∀ c ∈ ds, isDigitOf base c = true) (hr : Stops base r) (zero : α)
    (convert : Bool → Nat → α × Bool) (old : α) :
    is.extractNumber base zero convert old = ((convert false (digitsVal base ds)).1,
      ⟨r, r.isEmpty, (convert false (digitsVal base ds)).2⟩) := by
  have hsplit := splitPrefix_digits hb hne hd hr
  have hstop : ∀ c ∈ r.head?, isDigitOf base c = false := fun c hc => (hr c hc).1
  obtain ⟨d, ds, rfl⟩ := List.exists_cons_of_ne_nil hne
  have hs : is.skipws = ⟨d :: ds ++ r, false, false⟩ := skipws_live hl h
  have hsign : splitSign (d :: ds ++ r) = (false, d :: ds ++ r) :=
    splitSign_digit hb (hd d List.mem_cons_self) (ds ++ r)
  simp only [extractNumber, hs, Bool.false_eq_true, if_false, hsign, hsplit]
  rw [takeWhile_stop hd hstop, dropWhile_stop hd hstop, if_neg (by simp)]

theorem extractNumber_fail {α : Type} {is : IStream} (h : is.fail = true) (base : Nat) (zero : α)
    (convert : Bool → Nat → α × Bool) (old : α) :
    (is.extractNumber base zero convert old).2.fail = true := by
  simp [extractNumber, skipws_fail h]

theorem extractHexInt_fail {is : IStream} (h : is.fail = true) (n : Int) :
    (is.extractHexInt n).2.fail = true := extractNumber_fail h 16 0 toInt n

theorem extractUnsigned_fail {is : IStream} (h : is.fail = true) (base bits n : Nat) :
    (is.extractUnsigned base bits n).2.fail = true := extractNumber_fail h base 0 (toUnsigned bits) n

theorem ws_nonblank {is : IStream} (hg : is.good = true) {c : Char} {cs : List Char}
    (h : is.rest.dropWhile isSpace = c :: cs) : is.ws = ⟨c :: cs, false, false⟩ := by
  simp [ws, hg, h]

theorem ws_blank {is : IStream} (h : is.rest.dropWhile isSpace = []) : is.ws.good = false := by
  unfold ws
  split
  · simp [h, good]
  · simp [setFail, good]

end IStream

/-- The digits of a number in a base, leading zeros allowed. -/
structure Reads (base : Nat) (ds : List Char) (n : Nat) : Prop where
  ne_nil : ds ≠ []
  digits : ∀ c ∈ ds, isDigitOf base c = true
  value : digitsVal base ds = n

theorem reads_toDigits {base : Nat} (h : 1 < base) (hb : base ≤ 16) (n : Nat) :
    Reads base (Nat.toDigits base n) n :=
  ⟨Nat.toDigits_ne_nil, isDigitOf_toDigits h hb n, digitsVal_toDigits h hb n⟩

theorem Reads.leftpad {base n : Nat} {ds : List Char} (h : Reads base ds n) (hpos : 0 < base)
    (width : Nat) : Reads base (ds.leftpad width '0') n := by
  refine ⟨by simp [List.leftpad, h.ne_nil], ?_, ?_⟩
  · intro c hc
    rcases List.mem_append.mp hc with hc | hc
    · rw [(List.mem_replicate.mp hc).2]
      exact decide_eq_true hpos
    · exact h.digits c hc
  · rw [List.leftpad, digitsVal_zeros, h.value]

theorem Reads.dropWhile {base n : Nat} {ds : List Char} (hb : base ≤ 16) (h : Reads base ds n)
    (r : List Char) : (ds ++ r).dropWhile isSpace = ds ++ r := by
  obtain ⟨d, ds, rfl⟩ := List.exists_cons_of_ne_nil h.ne_nil
  have hd := not_isSpace_of_isDigitOf hb (h.digits d List.mem_cons_self)
  simp [hd]

theorem Reads.notMem {base n : Nat} {ds : List Char} (hb : base ≤ 16) (h : Reads base ds n)
    {c : Char} (hc : isSpace c = true) : c ∉ ds := by
  intro hm
  have hs := not_isSpace_of_isDigitOf hb (h.digits c hm)
  rw [hc] at hs
  cases hs

namespace IStream

section

variable {base bits n : Nat} {is : IStream} {ds r : List Char}

theorem extractUnsigned_fits (hb : base ≤ 16) (hl : Live is) (hn : Reads base ds n)
    (h : is.rest.dropWhile isSpace = ds ++ r) (hr : Stops base r) (hfit : n < 2 ^ bits) (old : Nat) :
    is.extractUnsigned base bits old = (n, ⟨r, r.isEmpty, false⟩) := by
  rw [extractUnsigned, extractNumber_digits hb hl h hn.ne_nil hn.digits hr, hn.value, toUnsigned,
    if_neg (by omega)]
  rfl

theorem extractUnsigned_misfit (hb : base ≤ 16) (hl : Live is) (hn : Reads base ds n)
    (h : is.rest.dropWhile isSpace = ds ++ r) (hr : Stops base r) (hbig : ¬ n < 2 ^ bits)
    (old : Nat) : (is.extractUnsigned base bits old).2.fail = true := by
  rw [extractUnsigned, extractNumber_digits hb hl h hn.ne_nil hn.digits hr, hn.value, toUnsigned,
    if_pos (by omega)]

theorem extractHexInt_fits (hl : Live is) (hn : Reads 16 ds n)
    (h : is.rest.dropWhile isSpace = ds ++ r) (hr : Stops 16 r) (hfit : n ≤ 2147483647) (old : Int) :
    is.extractHexInt old = ((n : Int), ⟨r, r.isEmpty, false⟩) := by
  have hmin : ¬ (n : Int) < intMin := by
    unfold intMin
    omega
  have hmax : ¬ intMax < (n : Int) := by
    unfold intMax
    omega
  rw [extractHexInt, extractNumber_digits (Nat.le_refl 16) hl h hn.ne_nil hn.digits hr, hn.value]
  simp [toInt, hmin, hmax]

end

end IStream

/-- The text of a number, with or without a sign. -/
structure Numeral where
  sign : Option Char
  digits : List Char
  sign_mem : ∀ c ∈ sign, c = '-' ∨ c = '+'
  digits_ne : digits ≠ []
  digits_digit : ∀ c ∈ digits, c.isDigit = true

namespace Numeral

def text (n : Numeral) : List Char := n.sign.toList ++ n.digits

def value (n : Numeral) : Int :=
  if n.sign = some '-' then -Nat.ofDigitChars 10 n.digits 0 else Nat.ofDigitChars 10 n.digits 0

def ofInt (v : Int) : Numeral where
  sign := if v < 0 then some '-' else none
  digits := Nat.toDigits 10 v.natAbs
  sign_mem := by
    split <;> simp
  digits_ne := Nat.toDigits_ne_nil
  digits_digit _ hc := isDigit_toDigits hc

theorem text_ofInt (v : Int) : (ofInt v).text = decimal v := by
  unfold text ofInt decimal
  split <;> rfl

theorem value_ofInt (v : Int) : (ofInt v).value = v := by
  unfold value ofInt
  dsimp only
  rw [Nat.ofDigitChars_ten_toDigits]
  split
  · rename_i h
    rw [if_pos rfl]
    omega
  · rw [if_neg (by simp)]
    omega

theorem text_cons (n : Numeral) : ∃ c cs, n.text = c :: cs ∧ isSpace c = false := by
  obtain ⟨d, ds, hd⟩ := List.exists_cons_of_ne_nil n.digits_ne
  unfold text
  cases hs : n.sign with
  | none =>
    exact ⟨d, ds, hd, not_isSpace_of_isDigit (n.digits_digit d (hd ▸ List.mem_cons_self))⟩
  | some c =>
    refine ⟨c, n.digits, rfl, ?_⟩
    rcases n.sign_mem c hs with rfl | rfl <;> rfl

theorem splitSign_text (n : Numeral) (r : List Char) :
    IStream.splitSign (n.text ++ r) = (decide (n.sign = some '-'), n.digits ++ r) := by
  unfold text
  cases hs : n.sign with
  | none =>
    obtain ⟨d, ds, hd⟩ := List.exists_cons_of_ne_nil n.digits_ne
    have hdig := n.digits_digit d (hd ▸ List.mem_cons_self)
    rw [hd]
    unfold IStream.splitSign
    split
    · rename_i heq
      obtain ⟨rfl, _⟩ := List.cons.inj heq
      simp at hdig
    · rename_i heq
      obtain ⟨rfl, _⟩ := List.cons.inj heq
      simp at hdig
    · rfl
  | some c =>
    rcases n.sign_mem c hs with rfl | rfl <;> rfl

end Numeral

namespace IStream

/-- A numeral is read whole, and fails just when its value does not fit. -/
theorem extractInt_numeral {is : IStream} (hl : Live is) {n : Numeral} {r : List Char}
    (h : is.rest.dropWhile isSpace = n.text ++ r) (hr : ∀ c ∈ r.head?, c.isDigit = false)
    (old : Int) :
    (intMin ≤ n.value ∧ n.value ≤ intMax → is.extractInt old = (n.value, ⟨r, r.isEmpty, false⟩)) ∧
      (¬ (intMin ≤ n.value ∧ n.value ≤ intMax) → (is.extractInt old).2.fail = true) := by
  obtain ⟨d, ds, hd, _⟩ := n.text_cons
  have hs : is.skipws = ⟨n.text ++ r, false, false⟩ := by
    rw [hd] at h ⊢
    exact skipws_live hl h
  have hv : (if decide (n.sign = some '-') = true then
      (-Nat.ofDigitChars 10 n.digits 0 : Int) else Nat.ofDigitChars 10 n.digits 0) = n.value := by
    simp [Numeral.value]
  simp only [extractInt, hs, Bool.false_eq_true, if_false, Numeral.splitSign_text]
  rw [takeWhile_stop n.digits_digit hr, dropWhile_stop n.digits_digit hr, hv,
    if_neg (by simpa using n.digits_ne)]
  constructor
  · rintro ⟨hmin, hmax⟩
    rw [if_neg (by omega), if_neg (by omega)]
  · intro hout
    split
    · rfl
    · split
      · rfl
      · exact absurd ⟨by omega, by omega⟩ hout

/-- Text that does not even start like a number. -/
theorem extractInt_other {is : IStream} (hl : Live is) {c : Char} {cs : List Char}
    (h : is.rest.dropWhile isSpace = c :: cs) (hd : c.isDigit = false) (hm : c ≠ '-') (hp : c ≠ '+')
    (old : Int) : (is.extractInt old).2.fail = true := by
  have hsign : splitSign (c :: cs) = (false, c :: cs) := by
    unfold splitSign
    split
    · exact absurd (List.cons.inj ‹_›).1 hm
    · exact absurd (List.cons.inj ‹_›).1 hp
    · rfl
  simp [extractInt, skipws_live hl h, hsign, hd]

end IStream

end InputStream
