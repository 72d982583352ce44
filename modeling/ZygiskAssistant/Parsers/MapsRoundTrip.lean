import ZygiskAssistant.Parsers.Maps
import ZygiskAssistant.Zygisk.Module

/-!
# The memory map as the kernel prints it

Mappings, the kernel's line format, and what the parser and the hook lookup
make of them. A mapping whose offset or inode does not fit the word of the ABI
is skipped; every other one is read back with all its fields.
-/

namespace ZygiskAssistant.Parsers

open InputStream InputStream.IStream Zygisk

structure Mapping (abi : Abi) where
  addressStart : Nat
  addressEnd : Nat
  perms : Str
  offset : Nat
  devMajor : Nat
  devMinor : Nat
  inode : Nat
  pathname : Str
  address_lt : addressStart < addressEnd ∧ addressEnd < 2 ^ abi.wordBits
  perms_four : perms.length = 4 ∧ ∀ c ∈ perms, isSpace c = false
  offset_lt : offset < 2 ^ 64
  device_lt : devMajor < 2 ^ 12 ∧ devMinor < 2 ^ 20
  inode_lt : inode < 2 ^ 64
  pathname_head : ∀ c ∈ pathname.head?, c = '/' ∨ c = '['
  pathname_line : '\n' ∉ pathname

def hexField (width n : Nat) : Str := (Nat.toDigits 16 n).leftpad width '0'

namespace Mapping

variable {abi : Abi}

/-- One blank, and then the padding up to the column of the pathname. -/
def afterInode (m : Mapping abi) (padding : Nat) : Str :=
  ' ' :: (List.replicate padding ' ' ++ m.pathname)

def afterMinor (m : Mapping abi) (padding : Nat) : Str :=
  ' ' :: (Nat.toDigits 10 m.inode ++ m.afterInode padding)

def afterMajor (m : Mapping abi) (padding : Nat) : Str :=
  ':' :: (hexField 2 m.devMinor ++ m.afterMinor padding)

def afterOffset (m : Mapping abi) (padding : Nat) : Str :=
  ' ' :: (hexField 2 m.devMajor ++ m.afterMajor padding)

def afterPerms (m : Mapping abi) (padding : Nat) : Str :=
  ' ' :: (hexField 8 m.offset ++ m.afterOffset padding)

def afterEnd (m : Mapping abi) (padding : Nat) : Str := ' ' :: (m.perms ++ m.afterPerms padding)

def afterStart (m : Mapping abi) (padding : Nat) : Str :=
  '-' :: (hexField 8 m.addressEnd ++ m.afterEnd padding)

def line (m : Mapping abi) (padding : Nat) : Str :=
  hexField 8 m.addressStart ++ m.afterStart padding

def fits (m : Mapping abi) : Bool :=
  decide (m.offset < 2 ^ abi.wordBits) && decide (m.inode < 2 ^ abi.wordBits)

def entry (m : Mapping abi) : MapEntry where
  addressStart := m.addressStart
  addressEnd := m.addressEnd
  offset := m.offset
  perms := m.perms
  pathname := m.pathname
  device := makedev m.devMajor m.devMinor
  inode := m.inode

end Mapping

def renderMaps {abi : Abi} (padding : Mapping abi → Nat) (ms : List (Mapping abi)) : Str :=
  ms.flatMap fun m => m.line (padding m) ++ ['\n']

theorem and_mask_of_lt {n : Nat} (h : n < 2 ^ 12) : n &&& 0xfffff000 = 0 := by
  apply Nat.eq_of_testBit_eq
  intro i
  rw [Nat.testBit_and, Nat.zero_testBit, show 0xfffff000 = 0xfffff <<< 12 from rfl,
    Nat.testBit_shiftLeft]
  by_cases hi : i < 12
  · simp [Nat.not_le.mpr hi]
  · rw [Nat.testBit_lt_two_pow (Nat.lt_of_lt_of_le h (Nat.pow_le_pow_right (by omega) (by omega)))]
    rfl

theorem makedev_lt {major minor : Nat} (hmajor : major < 2 ^ 12) (hminor : minor < 2 ^ 20) :
    (makedev major minor).toNat < 2 ^ 32 := by
  have hM : (BitVec.ofInt 64 major).toNat = major := by
    simp only [BitVec.ofInt_natCast, BitVec.toNat_ofNat]
    omega
  have hm : (BitVec.ofInt 64 minor).toNat = minor := by
    simp only [BitVec.ofInt_natCast, BitVec.toNat_ofNat]
    omega
  simp only [makedev, BitVec.toNat_or, BitVec.toNat_shiftLeft, BitVec.toNat_and, hM, hm,
    Nat.shiftLeft_eq]
  have h₁ : major &&& (0xfffff000#64).toNat = 0 := and_mask_of_lt hmajor
  have h₂ : major &&& (0xfff#64).toNat ≤ major := Nat.and_le_left
  have h₃ : minor &&& (0xffffff00#64).toNat ≤ minor := Nat.and_le_left
  have h₄ : minor &&& (0xff#64).toNat ≤ minor := Nat.and_le_left
  rw [h₁]
  refine Nat.or_lt_two_pow (Nat.or_lt_two_pow (Nat.or_lt_two_pow ?_ ?_) ?_) ?_ <;> omega

/-- The device numbers of the kernel lose nothing in a narrow `dev_t`. -/
theorem devT_makedev (abi : Abi) {major minor : Nat} (hmajor : major < 2 ^ 12)
    (hminor : minor < 2 ^ 20) : abi.devT (makedev major minor) = makedev major minor := by
  have hlt := makedev_lt hmajor hminor
  apply BitVec.eq_of_toNat_eq
  unfold Abi.devT
  rw [BitVec.toNat_setWidth, BitVec.toNat_setWidth]
  cases abi <;> simp only [Abi.wordBits] <;> omega

theorem reads_hexField (width n : Nat) : Reads 16 (hexField width n) n :=
  (reads_toDigits (by omega) (by omega) n).leftpad (by omega) width

theorem dropWhile_blank {base n : Nat} {ds : Str} (hb : base ≤ 16) (h : Reads base ds n) (r : Str) :
    (' ' :: (ds ++ r)).dropWhile isSpace = ds ++ r := by
  rw [List.dropWhile_cons_of_pos rfl]
  exact h.dropWhile hb r

theorem stops_blank {base : Nat} (hb : base ≤ 16) (r : Str) : Stops base (' ' :: r) := by
  refine stops_cons ⟨?_, by decide, by decide⟩ r
  have hv : digitVal ' ' = 16 := rfl
  simp [isDigitOf, hv, hb]

/-- The optional last field: what stands behind the blanks, if anything does. -/
theorem getline_pathname {abi : Abi} (m : Mapping abi) (padding : Nat) :
    ((⟨m.afterInode padding, (m.afterInode padding).isEmpty, false⟩ : IStream).ws.getline [] '\n').1 =
      m.pathname := by
  have hblank : ∀ c ∈ ' ' :: List.replicate padding ' ', isSpace c = true := by
    intro c hc
    rcases List.mem_cons.mp hc with rfl | hc
    · rfl
    · rw [(List.mem_replicate.mp hc).2]
      rfl
  have hhead : ∀ c ∈ m.pathname.head?, isSpace c = false := by
    intro c hc
    rcases m.pathname_head c hc with rfl | rfl <;> rfl
  have hdrop : (m.afterInode padding).dropWhile isSpace = m.pathname :=
    dropWhile_blanks (b := ' ' :: List.replicate padding ' ') hblank hhead
  cases hp : m.pathname with
  | nil =>
    rw [hp] at hdrop
    rw [getline_not_good (ws_blank hdrop)]
  | cons c cs =>
    rw [hp] at hdrop
    have hline : '\n' ∉ c :: cs := hp ▸ m.pathname_line
    rw [ws_nonblank rfl hdrop, getline_last rfl hline]

theorem parseMapsLine_line {abi : Abi} (m : Mapping abi) (padding : Nat) :
    parseMapsLine abi (m.line padding) = if m.fits then some m.entry else none := by
  obtain ⟨hlt, hend⟩ := m.address_lt
  obtain ⟨hmajor, hminor⟩ := m.device_lt
  obtain ⟨hfour, hperm⟩ := m.perms_four
  have hne : m.perms ≠ [] := by
    intro hnil
    simp [hnil] at hfour
  have hdash : Stops 16 (m.afterStart padding) := stops_cons ⟨by decide, by decide, by decide⟩ _
  have hcolon : Stops 16 (m.afterMajor padding) := stops_cons ⟨by decide, by decide, by decide⟩ _
  have hpermdrop : (m.afterEnd padding).dropWhile isSpace = m.perms ++ m.afterPerms padding := by
    obtain ⟨c, cs, hc⟩ := List.exists_cons_of_ne_nil hne
    have hsp := hperm c (hc ▸ List.mem_cons_self)
    rw [Mapping.afterEnd, List.dropWhile_cons_of_pos rfl, hc, List.cons_append,
      List.dropWhile_cons_of_neg (by simp [hsp])]
  have e₁ : (ofString (m.line padding)).extractUnsigned 16 abi.wordBits 0 = _ :=
    extractUnsigned_fits (by omega) (live_ofString _) (reads_hexField 8 m.addressStart)
      ((reads_hexField 8 m.addressStart).dropWhile (by omega) _) hdash (by omega) 0
  have e₂ := extractChar_cons (live_mk (m.afterStart padding)) rfl '\x00'
  have e₃ : IStream.extractUnsigned 16 abi.wordBits ⟨_, _, _⟩ 0 = _ :=
    extractUnsigned_fits (by omega) (live_false (hexField 8 m.addressEnd ++ m.afterEnd padding))
      (reads_hexField 8 m.addressEnd) ((reads_hexField 8 m.addressEnd).dropWhile (by omega) _)
      (stops_blank (by omega) _) hend 0
  have e₄ := extractString_word (live_mk (m.afterEnd padding)) hpermdrop hne hperm
    (boundary_cons rfl _) []
  simp only [parseMapsLine, e₁, e₂, e₃, e₄]
  by_cases hoff : m.offset < 2 ^ abi.wordBits
  · have e₅ : IStream.extractUnsigned 16 abi.wordBits ⟨_, _, _⟩ 0 = _ :=
      extractUnsigned_fits (by omega) (live_mk (m.afterPerms padding)) (reads_hexField 8 m.offset)
        (dropWhile_blank (by omega) (reads_hexField 8 m.offset) _) (stops_blank (by omega) _) hoff 0
    have e₆ := extractHexInt_fits (live_mk (m.afterOffset padding)) (reads_hexField 2 m.devMajor)
      (dropWhile_blank (by omega) (reads_hexField 2 m.devMajor) _) hcolon (by omega) 0
    have e₇ := extractChar_cons (live_mk (m.afterMajor padding)) rfl '\x00'
    have e₈ := extractHexInt_fits (live_false (hexField 2 m.devMinor ++ m.afterMinor padding))
      (reads_hexField 2 m.devMinor) ((reads_hexField 2 m.devMinor).dropWhile (by omega) _)
      (stops_blank (by omega) _) (by omega) 0
    have hinode : Reads 10 (Nat.toDigits 10 m.inode) m.inode :=
      reads_toDigits (by omega) (by omega) m.inode
    simp only [e₅, e₆, e₇, e₈]
    by_cases hino : m.inode < 2 ^ abi.wordBits
    · have e₉ : IStream.extractUnsigned 10 abi.wordBits ⟨_, _, _⟩ 0 = _ :=
        extractUnsigned_fits (by omega) (live_mk (m.afterMinor padding)) hinode
          (dropWhile_blank (by omega) hinode _) (stops_blank (by omega) _) hino 0
      have hfits : m.fits = true := by simp [Mapping.fits, hoff, hino]
      simp only [e₉, getline_pathname, devT_makedev abi hmajor hminor, hfits]
      rfl
    · have f₉ : (IStream.extractUnsigned 10 abi.wordBits ⟨_, _, _⟩ 0).2.fail = true :=
        extractUnsigned_misfit (by omega) (live_mk (m.afterMinor padding)) hinode
          (dropWhile_blank (by omega) hinode _) (stops_blank (by omega) _) hino 0
      have hfits : m.fits = false := by simp [Mapping.fits, hino]
      simp [f₉, hfits]
  · have f₅ : (IStream.extractUnsigned 16 abi.wordBits ⟨_, _, _⟩ 0).2.fail = true :=
      extractUnsigned_misfit (by omega) (live_mk (m.afterPerms padding)) (reads_hexField 8 m.offset)
        (dropWhile_blank (by omega) (reads_hexField 8 m.offset) _) (stops_blank (by omega) _) hoff 0
    have f₉ := extractUnsigned_fail (extractHexInt_fail (extractChar_fail (extractHexInt_fail f₅ 0)
      '\x00') 0) 10 abi.wordBits 0
    have hfits : m.fits = false := by simp [Mapping.fits, hoff]
    simp [f₉, hfits]

theorem newline_notMem_line {abi : Abi} (m : Mapping abi) (padding : Nat) : '\n' ∉ m.line padding := by
  have hhex : ∀ width n, '\n' ∉ hexField width n := fun width n =>
    (reads_hexField width n).notMem (by omega) rfl
  have hinode : Reads 10 (Nat.toDigits 10 m.inode) m.inode :=
    reads_toDigits (by omega) (by omega) m.inode
  have hdec : '\n' ∉ Nat.toDigits 10 m.inode := hinode.notMem (by omega) rfl
  have hperm : '\n' ∉ m.perms := by
    intro h
    have hsp := m.perms_four.2 _ h
    simp [isSpace] at hsp
  simp [Mapping.line, Mapping.afterStart, Mapping.afterEnd, Mapping.afterPerms, Mapping.afterOffset,
    Mapping.afterMajor, Mapping.afterMinor, Mapping.afterInode, hhex, hdec, hperm, m.pathname_line]

theorem segments_renderMaps {abi : Abi} (padding : Mapping abi → Nat) (ms : List (Mapping abi)) :
    segments '\n' (renderMaps padding ms) = ms.map fun m => m.line (padding m) :=
  segments_lines fun m _ => newline_notMem_line m (padding m)

theorem parseSelfMaps_render {abi : Abi} {cached : Bool} {parserCache : List MapEntry}
    (h : (cached && !parserCache.isEmpty) = false) (padding : Mapping abi → Nat)
    (ms : List (Mapping abi)) :
    parseSelfMaps abi cached (some (renderMaps padding ms)) parserCache =
      (ms.filter Mapping.fits).map Mapping.entry := by
  unfold parseSelfMaps
  simp only [h, Bool.false_eq_true, if_false]
  rw [getlines_eq_segments _ _ _ (Nat.lt_succ_self _), segments_renderMaps]
  exact filterMap_lines fun m _ => parseMapsLine_line m (padding m)

theorem filter_fits_wide {abi : Abi} (h : abi.wordBits = 64) (ms : List (Mapping abi)) :
    ms.filter Mapping.fits = ms := by
  rw [List.filter_eq_self]
  intro m _
  rw [Mapping.fits, h, decide_eq_true m.offset_lt, decide_eq_true m.inode_lt]
  rfl

/-- What stands behind the last slash. -/
def basename (pathname : Str) : Option Str :=
  if '/' ∈ pathname then some (pathname.reverse.takeWhile (· != '/')).reverse else none

theorem basename_append {libName : Str} (h : '/' ∉ libName) (directory : Str) :
    basename (directory ++ '/' :: libName) = some libName := by
  have hlib : ∀ c ∈ libName.reverse, (c != '/') = true := by
    intro c hc
    rw [bne_iff_ne]
    rintro rfl
    exact h (List.mem_reverse.mp hc)
  rw [basename, if_pos (by simp), List.reverse_append, List.reverse_cons, List.append_assoc,
    takeWhile_stop hlib (by simp), List.reverse_reverse]

theorem endsWith_iff_basename {libName : Str} (h : '/' ∉ libName) (pathname : Str) :
    ('/' :: libName).isSuffixOf pathname = true ↔ basename pathname = some libName := by
  rw [List.isSuffixOf_iff_suffix]
  constructor
  · rintro ⟨directory, rfl⟩
    exact basename_append h directory
  · intro hb
    have hmem : '/' ∈ pathname.reverse := by
      rw [List.mem_reverse]
      by_contra hno
      rw [basename, if_neg hno] at hb
      cases hb
    obtain ⟨last, directory, hsplit, hlast⟩ := List.eq_append_cons_of_mem hmem
    have hpath : pathname = directory.reverse ++ '/' :: last.reverse := by
      rw [← List.reverse_reverse pathname, hsplit]
      simp
    rw [hpath, basename_append (by simpa using hlast)] at hb
    rw [hpath, ← Option.some.inj hb]
    exact List.suffix_append _ _

theorem findLibrary_map_entry {abi : Abi} {libName : Str} (h : '/' ∉ libName)
    (ms : List (Mapping abi)) : findLibrary (ms.map Mapping.entry) libName =
      (ms.find? fun m => basename m.pathname = some libName).map Mapping.entry := by
  rw [findLibrary, List.find?_map]
  congr 2
  funext m
  rw [Bool.eq_iff_iff, Function.comp_apply, decide_eq_true_iff]
  exact endsWith_iff_basename h m.pathname

/-- One entry for each mapping that fits, in order and with its fields, on a 64-bit ABI for
each mapping; and the hook of a library goes to the first of these with its basename. -/
theorem maps_decoded {abi : Abi} (padding : Mapping abi → Nat) (ms : List (Mapping abi)) :
    (∀ parserCache, parseSelfMaps abi false (some (renderMaps padding ms)) parserCache =
        (ms.filter Mapping.fits).map Mapping.entry) ∧
      (abi.wordBits = 64 → ms.filter Mapping.fits = ms) ∧
      ∀ libName, '/' ∉ libName → ∀ symbolName hookFunc origFunc p,
        Utils.hookPLTByName (parseSelfMaps abi true (some (renderMaps padding ms)) []) libName
            symbolName hookFunc origFunc p =
          match (ms.filter Mapping.fits).find? fun m => basename m.pathname = some libName with
          | some m => (true, p.pltHookRegister
              ⟨makedev m.devMajor m.devMinor, m.inode, symbolName, hookFunc, origFunc⟩)
          | none => (false, p) := by
  refine ⟨fun _ => parseSelfMaps_render rfl padding ms, fun h => filter_fits_wide h ms, ?_⟩
  intro libName hlib symbolName hookFunc origFunc p
  rw [parseSelfMaps_render rfl, Utils.hookPLTByName, findLibrary_map_entry hlib]
  cases (ms.filter Mapping.fits).find? fun m => basename m.pathname = some libName with
  | none => rfl
  | some m => rfl

def runtimeMapping (inode : Nat) (h : inode < 2 ^ 64) : Mapping .armeabiV7a where
  addressStart := 0x7a000000
  addressEnd := 0x7a001000
  perms := "r--p".toList
  offset := 0
  devMajor := 253
  devMinor := 5
  inode := inode
  pathname := "/system/lib/libandroid_runtime.so".toList
  address_lt := by decide
  perms_four := by decide
  offset_lt := by decide
  device_lt := by decide
  inode_lt := h
  pathname_head := by simp
  pathname_line := by decide

/-- On a 32-bit ABI an inode of 2 ^ 32 drops the mapping, and the library is not found. -/
theorem maps_not_decoded :
    (¬ ∀ (abi : Abi) (padding : Mapping abi → Nat) (ms : List (Mapping abi)),
      parseSelfMaps abi false (some (renderMaps padding ms)) [] = ms.map Mapping.entry) ∧
    basename (runtimeMapping (2 ^ 32) (by decide)).pathname = some libandroidRuntime ∧
    findLibrary (parseSelfMaps .armeabiV7a true
      (some (renderMaps (fun _ => 10) [runtimeMapping (2 ^ 32) (by decide)])) []) libandroidRuntime =
      none := by
  have hnone : parseSelfMaps .armeabiV7a false
      (some (renderMaps (fun _ => 10) [runtimeMapping (2 ^ 32) (by decide)])) [] = [] := by decide
  refine ⟨?_, by decide, by decide⟩
  intro h
  have hone := h .armeabiV7a (fun _ => 10) [runtimeMapping (2 ^ 32) (by decide)]
  rw [hnone] at hone
  cases hone

end ZygiskAssistant.Parsers
