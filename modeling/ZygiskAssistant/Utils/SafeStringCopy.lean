import ZygiskAssistant.Lib.CString
import ZygiskAssistant.Parsers.Mountinfo

/-!
# The bounded string copy

`Utils::safeStringCopy` through `strncat`. The result is the new destination
buffer and the returned length; a read or write outside a buffer has none.
-/

namespace ZygiskAssistant.Utils

open CString

def safeStringCopy (dest src : Str) (destSize : Nat) : Option (Str × Nat) :=
  if destSize < 1 then some (dest, 0)
  else do
    let dest ← store dest 0 [nul]
    -- strncat may write count + 1 characters because of the terminator
    let dest ← strncat dest src (destSize - 1)
    let length ← strlen dest
    return (dest, length)

/-- Once the characters `strncat` reads are known, the copy is their text, a
terminator, and the rest of the destination as it was. -/
theorem safeStringCopy_eq {dest src chunk : Str} {destSize : Nat} (hpos : 0 < destSize)
    (hsize : destSize ≤ dest.length) (hread : readUpTo src (destSize - 1) = some chunk) :
    safeStringCopy dest src destSize =
      some (chunk ++ nul :: dest.drop (chunk.length + 1), chunk.length) := by
  obtain ⟨hn, hl⟩ := nul_notMem_readUpTo hread
  have hclear : store dest 0 [nul] = some (nul :: dest.drop 1) := by
    rw [store, if_pos (by simp; omega)]
    simp
  have hend : strlen (nul :: dest.drop 1) = some 0 := by simp [strlen]
  have hstore : store (nul :: dest.drop 1) 0 (chunk ++ [nul]) =
      some (chunk ++ nul :: dest.drop (chunk.length + 1)) := by
    rw [store, if_pos (by simp; omega)]
    simp
  simp only [safeStringCopy, if_neg (show ¬ destSize < 1 by omega), strncat, hclear, hend, hread,
    hstore, Option.bind_eq_bind, Option.bind_some, strlen_append_nul hn, Option.pure_def]

theorem safeStringCopy_terminated {dest src : Str} {destSize : Nat} (h : nul ∈ src)
    (hsize : destSize ≤ dest.length) (hfit : (contents src).length < destSize) :
    safeStringCopy dest src destSize =
      some (contents src ++ nul :: dest.drop ((contents src).length + 1),
        (contents src).length) := by
  obtain ⟨residue, hr⟩ := contents_split h
  apply safeStringCopy_eq (by omega) hsize
  rw [hr, contents_append_nul (nul_notMem_contents src)]
  exact readUpTo_append_nul (nul_notMem_contents src) (by omega) residue

/-- The number of characters that the contract lets through. -/
def copyLength (src : Str) (destSize : Nat) : Nat :=
  match src.findIdx? (· == nul) with
  | some i => min i (destSize - 1)
  | none => destSize - 1

theorem copyLength_eq {src : Str} {destSize : Nat} (hsrc : destSize ≤ src.length) :
    copyLength src destSize = ((contents src).take (destSize - 1)).length := by
  rw [List.length_take, contents_length, copyLength]
  cases src.findIdx? (· == nul) with
  | none =>
    show destSize - 1 = min (destSize - 1) src.length
    omega
  | some i => exact Nat.min_comm i _

theorem safeStringCopy_take (dest src : Str) (destSize : Nat) :
    safeStringCopy dest (src.take destSize) destSize = safeStringCopy dest src destSize := by
  simp only [safeStringCopy, strncat, readUpTo_take src (Nat.sub_le destSize 1)]

/-- The contract, for sources with and without a terminator. A source cut off at `destSize`
gives the same result, so nothing behind that index is read. -/
theorem safeStringCopy_contract {dest src : Str} {destSize : Nat} (hdest : destSize ≤ dest.length)
    (hsrc : destSize ≤ src.length) :
    safeStringCopy dest (src.take destSize) destSize = safeStringCopy dest src destSize ∧
      (destSize = 0 → safeStringCopy dest src destSize = some (dest, 0)) ∧
      (destSize ≠ 0 → ∃ copied,
        safeStringCopy dest src destSize = some (copied, copyLength src destSize) ∧
        copied.length = dest.length ∧
        copied.take (copyLength src destSize) = src.take (copyLength src destSize) ∧
        copied[copyLength src destSize]? = some nul ∧
        copied.drop (copyLength src destSize + 1) = dest.drop (copyLength src destSize + 1)) := by
  refine ⟨safeStringCopy_take dest src destSize, ?_, ?_⟩
  · rintro rfl
    rfl
  · intro hne
    have hread := readUpTo_readable (show destSize - 1 ≤ src.length by omega)
    have hcopy := safeStringCopy_eq (by omega) hdest hread
    have hle : ((contents src).take (destSize - 1)).length ≤ destSize - 1 := List.length_take_le _ _
    have hpre : (contents src).take (destSize - 1) <+: src :=
      (List.take_prefix _ _).trans (List.takeWhile_prefix _)
    rw [copyLength_eq hsrc]
    generalize (contents src).take (destSize - 1) = chunk at hcopy hle hpre
    refine ⟨_, hcopy, ?_, ?_, ?_, ?_⟩
    · simp only [List.length_append, List.length_cons, List.length_drop]
      omega
    · rw [List.take_left]
      exact List.prefix_iff_eq_take.mp hpre
    · simp
    · simp

theorem safeStringCopy_contract_unterminated :
    safeStringCopy "xxxxx".toList ("abcdef".toList.take 4) 4 =
        safeStringCopy "xxxxx".toList "abcdef".toList 4 ∧
      (4 = 0 → safeStringCopy "xxxxx".toList "abcdef".toList 4 = some ("xxxxx".toList, 0)) ∧
      (4 ≠ 0 → ∃ copied,
        safeStringCopy "xxxxx".toList "abcdef".toList 4 =
          some (copied, copyLength "abcdef".toList 4) ∧
        copied.length = "xxxxx".toList.length ∧
        copied.take (copyLength "abcdef".toList 4) =
          "abcdef".toList.take (copyLength "abcdef".toList 4) ∧
        copied[copyLength "abcdef".toList 4]? = some nul ∧
        copied.drop (copyLength "abcdef".toList 4 + 1) =
          "xxxxx".toList.drop (copyLength "abcdef".toList 4 + 1)) :=
  safeStringCopy_contract (by decide) (by decide)

end ZygiskAssistant.Utils
