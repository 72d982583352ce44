import Mathlib.Data.List.TakeWhile

/-!
# NUL-terminated strings in buffers

The C string functions over buffers that are lists of characters. A read or a
write outside the buffer has no result, so a proof that a function returns is
a proof that it stays inside.
-/

namespace CString

def nul : Char := '\x00'

/-- What a buffer holds up to its first NUL. -/
def contents (buffer : List Char) : List Char := buffer.takeWhile (· != nul)

def strlen : List Char → Option Nat
  | [] => none
  | c :: cs => if c = nul then some 0 else (strlen cs).map (· + 1)

/-- `strnlen` on a buffer of at least `maxlen` characters. -/
def strnlen (s : List Char) (maxlen : Nat) : Nat := (contents (s.take maxlen)).length

def store (dest : List Char) (offset : Nat) (cs : List Char) : Option (List Char) :=
  if offset + cs.length ≤ dest.length then
    some (dest.take offset ++ cs ++ dest.drop (offset + cs.length))
  else none

def readUpTo : List Char → Nat → Option (List Char)
  | _, 0 => some []
  | [], _ + 1 => none
  | c :: cs, count + 1 => if c = nul then some [] else (readUpTo cs count).map (c :: ·)

def strncat (dest src : List Char) (count : Nat) : Option (List Char) := do
  let offset ← strlen dest
  let chunk ← readUpTo src count
  store dest offset (chunk ++ [nul])

theorem nul_notMem_contents (buffer : List Char) : nul ∉ contents buffer := fun h => by
  simpa using List.mem_takeWhile_imp h

theorem contents_append_nul {s : List Char} (h : nul ∉ s) (rest : List Char) :
    contents (s ++ nul :: rest) = s := by
  have hs : ∀ c ∈ s, (c != nul) = true := fun c hc => bne_iff_ne.mpr fun he => h (he ▸ hc)
  unfold contents
  rw [List.takeWhile_append_of_pos hs]
  simp

theorem contents_split {buffer : List Char} (h : nul ∈ buffer) :
    ∃ residue, buffer = contents buffer ++ nul :: residue := by
  obtain ⟨s, residue, rfl, hs⟩ := List.eq_append_cons_of_mem h
  exact ⟨residue, by rw [contents_append_nul hs]⟩

theorem contents_length_lt {buffer : List Char} (h : nul ∈ buffer) :
    (contents buffer).length < buffer.length := by
  obtain ⟨residue, hr⟩ := contents_split h
  have hl := congrArg List.length hr
  rw [List.length_append, List.length_cons] at hl
  omega

theorem strlen_append_nul {s : List Char} (h : nul ∉ s) (rest : List Char) :
    strlen (s ++ nul :: rest) = some s.length := by
  induction s with
  | nil => simp [strlen]
  | cons c cs ih =>
    have hc : c ≠ nul := fun he => h (he ▸ List.mem_cons_self)
    rw [List.cons_append, strlen, if_neg hc, ih fun hm => h (List.mem_cons_of_mem c hm)]
    rfl

theorem readUpTo_append_nul {s : List Char} (h : nul ∉ s) {count : Nat} (hc : s.length ≤ count)
    (rest : List Char) : readUpTo (s ++ nul :: rest) count = some s := by
  induction s generalizing count with
  | nil => cases count <;> simp [readUpTo]
  | cons c cs ih =>
    cases count with
    | zero => cases hc
    | succ count =>
      have hne : c ≠ nul := fun he => h (he ▸ List.mem_cons_self)
      rw [List.cons_append, readUpTo, if_neg hne,
        ih (fun hm => h (List.mem_cons_of_mem c hm)) (by simpa using hc)]
      rfl

theorem readUpTo_readable {src : List Char} {count : Nat} (h : count ≤ src.length) :
    readUpTo src count = some ((contents src).take count) := by
  induction src generalizing count with
  | nil =>
    obtain rfl : count = 0 := by simpa using h
    rfl
  | cons c cs ih =>
    cases count with
    | zero => rfl
    | succ count =>
      rw [readUpTo, contents]
      by_cases hc : c = nul
      · simp [hc]
      · rw [if_neg hc, ih (by simpa using h)]
        simp [hc, contents]

/-- Only the first `count` characters are read. -/
theorem readUpTo_take (src : List Char) {count size : Nat} (h : count ≤ size) :
    readUpTo (src.take size) count = readUpTo src count := by
  induction src generalizing count size with
  | nil => rw [List.take_nil]
  | cons c cs ih =>
    cases count with
    | zero => simp [readUpTo]
    | succ count =>
      obtain ⟨size, rfl⟩ := Nat.exists_eq_add_of_le' h
      rw [← Nat.add_assoc, List.take_succ_cons, readUpTo, readUpTo, ih (by omega)]

theorem contents_length (s : List Char) : (contents s).length = (s.findIdx? (· == nul)).getD s.length := by
  induction s with
  | nil => rfl
  | cons c cs ih =>
    unfold contents at ih ⊢
    by_cases hc : c = nul
    · simp [hc, List.findIdx?_cons]
    · simp [hc, ih, List.findIdx?_cons]

theorem nul_notMem_readUpTo {src chunk : List Char} {count : Nat}
    (h : readUpTo src count = some chunk) : nul ∉ chunk ∧ chunk.length ≤ count := by
  induction src generalizing chunk count with
  | nil => cases count <;> simp [readUpTo] at h; subst h; simp
  | cons c cs ih =>
    cases count with
    | zero =>
      simp [readUpTo] at h
      subst h
      simp
    | succ count =>
      rw [readUpTo] at h
      split at h
      · cases h
        simp
      · rename_i hc
        obtain ⟨tail, ht, rfl⟩ := Option.map_eq_some_iff.mp h
        obtain ⟨hn, hl⟩ := ih ht
        exact ⟨by simp [hn, Ne.symm hc], by simpa using hl⟩

end CString
