import ZygiskAssistant.Parsers.MapsRoundTrip

/-!
# Clearing the error flag in libnativebridge.so

`doHideZygisk`, the library as the linker maps it, and the layouts for which the
code searches its `.bss`. The code takes the first `r--p` mapping of a file of
that name for the page of the ELF header, whatever that mapping holds. Memory is
total: what matters is the range that is searched, also where a read there would
fault.
-/

namespace ZygiskAssistant.Modules

open Parsers

abbrev Memory := Nat → UInt8

structure Section where
  name : Str
  address : Nat
  size : Nat

def findBss (sections : List Section) : Option Section :=
  sections.find? fun sec => sec.name = ".bss".toList

def memchr (memory : Memory) (c : UInt8) : Nat → Nat → Option Nat
  | _, 0 => none
  | s, n + 1 => if memory s = c then some s else memchr memory c (s + 1) n

/-- The arguments of the search, if it is reached, and memory afterwards. -/
structure HideRun where
  searched : Option (Nat × Nat)
  memory : Memory

def libnativebridge : Str := "/libnativebridge.so".toList
def readOnly : Str := "r--p".toList

def resetFirst (memory : Memory) (address size : Nat) : Memory :=
  match memchr memory 1 address size with
  | none => memory
  | some hadError => Function.update memory hadError 0

def isHeader (pathname perms : Str) : Bool :=
  libnativebridge.isSuffixOf pathname && perms == readOnly

/-- What follows the loop. `load` is what the ELF reader makes of the file at a path, `none` where
it cannot load it; an address of zero stands for one that was not found. -/
def resetHadError (abi : Abi) (load : Str → Option (List Section)) (filePath : Str)
    (startAddress : Nat) (memory : Memory) : HideRun :=
  if startAddress = 0 then ⟨none, memory⟩
  else
    match load filePath with
    | none => ⟨none, memory⟩
    | some sections =>
      match findBss sections with
      | none => ⟨none, memory⟩
      | some sec =>
        let bssAddress := (startAddress + sec.address) % 2 ^ abi.wordBits
        let bssSize := sec.size % 2 ^ abi.wordBits
        if bssAddress = 0 then ⟨none, memory⟩
        else ⟨some (bssAddress, bssSize), resetFirst memory bssAddress bssSize⟩

def doHideZygisk (abi : Abi) (load : Str → Option (List Section)) (maps : List Zygisk.MapEntry)
    (memory : Memory) : HideRun :=
  match maps.find? fun map => isHeader map.pathname map.perms with
  | none => resetHadError abi load [] 0 memory
  -- First ro page should be the ELF header
  | some map => resetHadError abi load map.pathname map.addressStart memory

structure Segment where
  vaddr : Nat
  filesz : Nat
  perms : Str

/-- `relro` is the address and the size of `PT_GNU_RELRO`. -/
structure ElfImage where
  segments : List Segment
  relro : Option (Nat × Nat)
  sections : List Section

def pageStart (pageSize v : Nat) : Nat := v / pageSize * pageSize

def onPages (pageSize start size v : Nat) : Bool :=
  decide (pageStart pageSize start ≤ v) && decide (v < pageStart pageSize (start + size + pageSize - 1))

/-- The permissions of the file's page at a virtual address. A segment is mapped over the ones
before it, and in the end the linker makes `relro` read-only. -/
def ElfImage.permsAt (image : ElfImage) (pageSize v : Nat) : Option Str :=
  (image.segments.reverse.find? fun seg => onPages pageSize seg.vaddr seg.filesz v).map fun seg =>
    if image.relro.any fun r => onPages pageSize r.1 r.2 v then readOnly else seg.perms

structure Loaded (abi : Abi) where
  image : ElfImage
  pageSize : Nat
  path : Str
  inode : Nat
  bias : Int
  path_suffix : libnativebridge.isSuffixOf path = true
  mapped : ∀ v, (image.permsAt pageSize v).isSome → v < 2 ^ abi.wordBits ∧ 0 ≤ bias + v
  bss_live : ∀ sec ∈ findBss image.sections,
    0 ≤ bias + sec.address ∧ bias + sec.address + sec.size ≤ 2 ^ abi.wordBits

namespace Loaded

variable {abi : Abi}

def InBss (l : Loaded abi) (a : Nat) : Prop :=
  ∃ sec ∈ findBss l.image.sections,
    l.bias + sec.address ≤ a ∧ (a : Int) < l.bias + sec.address + sec.size

def FirstReadOnly (l : Loaded abi) (v : Nat) : Prop :=
  l.image.permsAt l.pageSize v = some readOnly ∧
    ∀ u < v, l.image.permsAt l.pageSize u ≠ some readOnly

end Loaded

/-- The listing in which the library is mapped, with any mappings of other files in between. -/
structure Listing {abi : Abi} (l : Loaded abi) (ms : List (Mapping abi)) : Prop where
  ascending : ms.Pairwise fun m m' => m.addressEnd ≤ m'.addressStart
  file : ∀ m ∈ ms, m.pathname = l.path → m.inode = l.inode ∧ m.offset < 2 ^ abi.wordBits
  pages : ∀ (a : Nat) (perms : Str),
    (∃ m ∈ ms, m.pathname = l.path ∧ m.addressStart ≤ a ∧ a < m.addressEnd ∧ m.perms = perms) ↔
      ∃ v : Nat, (a : Int) = l.bias + v ∧ l.image.permsAt l.pageSize v = some perms

/-- What a run may do: it searches the `.bss` or nothing, and clears the first byte of one
there, or nothing, where a search finds no such byte. -/
structure WritesOnlyBss {abi : Abi} (l : Loaded abi) (ms : List (Mapping abi)) (memory : Memory)
    (run : HideRun) : Prop where
  range : ∀ r ∈ run.searched, ∀ a, r.1 ≤ a ∧ a < r.1 + r.2 ↔ l.InBss a
  write : (run.memory = memory ∧ (run.searched.isSome → ∀ a, l.InBss a → memory a ≠ 1)) ∨
    ∃ a, l.InBss a ∧ memory a = 1 ∧ (∀ b < a, l.InBss b → memory b ≠ 1) ∧
      run.memory = Function.update memory a 0
  missing : findBss l.image.sections = none ∨ (∀ m ∈ ms, m.pathname ≠ l.path) →
    run.searched = none ∧ run.memory = memory

theorem memchr_eq_none {memory : Memory} {c : UInt8} {s n : Nat}
    (h : memchr memory c s n = none) : ∀ b, s ≤ b → b < s + n → memory b ≠ c := by
  induction n generalizing s with
  | zero => intro b hs hb; omega
  | succ n ih =>
    rw [memchr] at h
    split at h
    · cases h
    · rename_i hne
      intro b hs hb
      obtain rfl | hlt := Nat.eq_or_lt_of_le hs
      · exact hne
      · exact ih h b hlt (by omega)

theorem memchr_eq_some {memory : Memory} {c : UInt8} {s n a : Nat}
    (h : memchr memory c s n = some a) :
    s ≤ a ∧ a < s + n ∧ memory a = c ∧ ∀ b, s ≤ b → b < a → memory b ≠ c := by
  induction n generalizing s with
  | zero => cases h
  | succ n ih =>
    rw [memchr] at h
    split at h
    · rename_i heq
      obtain rfl := Option.some.inj h
      exact ⟨le_rfl, by omega, heq, fun b hs hb => by omega⟩
    · rename_i hne
      obtain ⟨hs, ha, hc, hfirst⟩ := ih h
      refine ⟨by omega, by omega, hc, fun b hb hba => ?_⟩
      obtain rfl | hlt := Nat.eq_or_lt_of_le hb
      · exact hne
      · exact hfirst b hlt hba

theorem resetFirst_cases (memory : Memory) (address size : Nat) :
    (resetFirst memory address size = memory ∧
        ∀ a, address ≤ a ∧ a < address + size → memory a ≠ 1) ∨
      ∃ a, (address ≤ a ∧ a < address + size) ∧ memory a = 1 ∧
        (∀ b < a, address ≤ b ∧ b < address + size → memory b ≠ 1) ∧
        resetFirst memory address size = Function.update memory a 0 := by
  unfold resetFirst
  cases hm : memchr memory 1 address size with
  | none => exact .inl ⟨rfl, fun a ha => memchr_eq_none hm a ha.1 ha.2⟩
  | some a =>
    obtain ⟨hs, ha, hc, hfirst⟩ := memchr_eq_some hm
    exact .inr ⟨a, ⟨hs, ha⟩, hc, fun b hb hr => hfirst b hr.1 hb, rfl⟩

def firstHeader {abi : Abi} (ms : List (Mapping abi)) : Option (Mapping abi) :=
  (ms.filter Mapping.fits).find? fun m => isHeader m.pathname m.perms

namespace Listing

variable {abi : Abi} {l : Loaded abi} {ms : List (Mapping abi)}

theorem fits_iff (h : Listing l ms) {m : Mapping abi} (hm : m ∈ ms) (hpath : m.pathname = l.path) :
    m.fits = true ↔ l.inode < 2 ^ abi.wordBits := by
  obtain ⟨hinode, hoffset⟩ := h.file m hm hpath
  unfold Mapping.fits
  rw [hinode, decide_eq_true hoffset, Bool.true_and, decide_eq_true_iff]

theorem starts_at_first (h : Listing l ms) {m : Mapping abi} (hm : firstHeader ms = some m)
    (hpath : m.pathname = l.path) :
    ∃ v : Nat, l.FirstReadOnly v ∧ (m.addressStart : Int) = l.bias + v := by
  obtain ⟨hheader, pre, post, hms, hpre⟩ := List.find?_eq_some_iff_append.mp hm
  have hin : ∀ m' ∈ pre ++ m :: post, m' ∈ ms ∧ m'.fits = true := fun m' hm' =>
    List.mem_filter.mp (hms ▸ hm')
  obtain ⟨hmem, hfits⟩ := hin m (by simp)
  have hperms : m.perms = readOnly := beq_iff_eq.mp (Bool.and_eq_true_iff.mp hheader).2
  obtain ⟨v, hv, hperm⟩ := (h.pages m.addressStart readOnly).mp
    ⟨m, hmem, hpath, le_rfl, m.address_lt.1, hperms⟩
  refine ⟨v, ⟨hperm, fun u hu hro => ?_⟩, hv⟩
  -- the mapping of a lower read-only page would be found before this one
  obtain ⟨_, hpos⟩ := l.mapped u (by rw [hro]; rfl)
  obtain ⟨a, ha⟩ := Int.eq_ofNat_of_zero_le hpos
  obtain ⟨m', hmem', hpath', hstart, hend, hperms'⟩ := (h.pages a readOnly).mpr ⟨u, ha.symm, hro⟩
  have hheader' : isHeader m'.pathname m'.perms = true := by
    rw [isHeader, hpath', hperms', l.path_suffix]
    rfl
  have hfits' := (h.fits_iff hmem' hpath').mpr ((h.fits_iff hmem hpath).mp hfits)
  have hread : m' ∈ pre ++ m :: post := hms ▸ List.mem_filter.mpr ⟨hmem', hfits'⟩
  have hasc : (pre ++ m :: post).Pairwise fun m m' => m.addressEnd ≤ m'.addressStart :=
    hms ▸ h.ascending.filter _
  obtain hin | hin := List.mem_append.mp hread
  · have hno := hpre m' hin
    rw [hheader'] at hno
    cases hno
  · obtain rfl | hin := List.mem_cons.mp hin
    · omega
    · have hle := (List.pairwise_cons.mp (List.pairwise_append.mp hasc).2.1).1 m' hin
      have hlt := m.address_lt.1
      omega

end Listing

theorem find_entries {abi : Abi} (ms : List (Mapping abi)) :
    (((ms.filter Mapping.fits).map Mapping.entry).find?
      fun map => isHeader map.pathname map.perms) = (firstHeader ms).map Mapping.entry :=
  List.find?_map ..

/-- Where a search is reached, the lowest read-only page of the library is at virtual address
zero. The last two cases are addresses that the code takes for not found. -/
def HeaderReadOnly {abi : Abi} (l : Loaded abi) (load : Str → Option (List Section)) : Prop :=
  ∀ v sec, l.FirstReadOnly v → (load l.path).isSome → findBss l.image.sections = some sec →
    v = 0 ∨ sec.size = 0 ∨ l.bias + v = 0 ∨
      (2 ^ abi.wordBits : Int) ∣ l.bias + v + sec.address

/-- Where a search is reached from a mapping of another file, the `.bss` of that file, counted
from the mapping, is that of the library, or both are empty. -/
def SameBss {abi : Abi} (l : Loaded abi) (load : Str → Option (List Section))
    (ms : List (Mapping abi)) (m : Mapping abi) : Prop :=
  ∀ sections sec, load m.pathname = some sections → findBss sections = some sec →
    m.addressStart = 0 ∨ (m.addressStart + sec.address) % 2 ^ abi.wordBits = 0 ∨
      (∃ m' ∈ ms, m'.pathname = l.path) ∧ ∃ own, findBss l.image.sections = some own ∧
        (sec.size % 2 ^ abi.wordBits = 0 ∧ own.size = 0 ∨
          (((m.addressStart + sec.address) % 2 ^ abi.wordBits : Nat) : Int) =
              l.bias + own.address ∧ sec.size % 2 ^ abi.wordBits = own.size)

theorem Loaded.FirstReadOnly.unique {abi : Abi} {l : Loaded abi} {u v : Nat}
    (hu : l.FirstReadOnly u) (hv : l.FirstReadOnly v) : u = v := by
  obtain hlt | heq | hlt := Nat.lt_trichotomy u v
  · exact absurd hu.1 (hv.2 u hlt)
  · exact heq
  · exact absurd hv.1 (hu.2 v hlt)

/-- The computed interval of addresses is the live one only for a header at zero, or if both
are empty. -/
theorem interval_iff {N start address size v : Nat} {bias : Int} (hstart : (start : Int) = bias + v)
    (hv : v < N) (hlive : 0 ≤ bias + address ∧ bias + address + size ≤ N)
    (hne : (start + address) % N ≠ 0) :
    (∀ a : Nat, (start + address) % N ≤ a ∧ a < (start + address) % N + size % N ↔
        bias + address ≤ a ∧ (a : Int) < bias + address + size) ↔ v = 0 ∨ size = 0 := by
  obtain ⟨live, hl⟩ := Int.eq_ofNat_of_zero_le hlive.1
  have hsum : start + address = live + v := by omega
  have hend : live + size ≤ N := by omega
  rw [hsum] at hne ⊢
  rw [hl]
  constructor
  · intro h
    by_contra hno
    obtain ⟨hv0, hs0⟩ := not_or.mp hno
    have hlow := (h live).mpr (by omega)
    have hhigh := (h ((live + v) % N)).mp (by omega)
    have heq : (live + v) % N = live := by omega
    have hmod : (live + v) % N = live % N := by rw [heq, Nat.mod_eq_of_lt (by omega)]
    have hzero := Nat.sub_mod_eq_zero_of_mod_eq hmod
    rw [Nat.add_sub_cancel_left, Nat.mod_eq_of_lt hv] at hzero
    exact hv0 hzero
  · rintro (rfl | rfl) a
    · rw [Nat.add_zero] at hne ⊢
      have hlt : live < N := by
        obtain hlt | heq := Nat.lt_or_eq_of_le (by omega : live ≤ N)
        · exact hlt
        · rw [heq, Nat.mod_self] at hne
          exact absurd rfl hne
      rw [Nat.mod_eq_of_lt hlt] at hne ⊢
      rw [Nat.mod_eq_of_lt (by omega)]
      omega
    · rw [Nat.zero_mod]
      omega

theorem WritesOnlyBss.quiet {abi : Abi} (l : Loaded abi) (ms : List (Mapping abi))
    (memory : Memory) : WritesOnlyBss l ms memory ⟨none, memory⟩ where
  range := by simp
  write := .inl ⟨rfl, by simp⟩
  missing _ := ⟨rfl, rfl⟩

theorem WritesOnlyBss.of_range {abi : Abi} {l : Loaded abi} {ms : List (Mapping abi)}
    {m : Mapping abi} (hm : m ∈ ms) (hpath : m.pathname = l.path) {sec : Section}
    (hbss : findBss l.image.sections = some sec) {address size : Nat}
    (hrange : ∀ a, address ≤ a ∧ a < address + size ↔ l.InBss a) (memory : Memory) :
    WritesOnlyBss l ms memory ⟨some (address, size), resetFirst memory address size⟩ where
  range := by
    rintro _ ⟨⟩
    exact hrange
  write := by
    obtain ⟨hsame, hnone⟩ | ⟨a, ha, hone, hfirst, hset⟩ := resetFirst_cases memory address size
    · exact .inl ⟨hsame, fun _ a ha => hnone a ((hrange a).mpr ha)⟩
    · exact .inr ⟨a, (hrange a).mp ha, hone, fun b hb hin => hfirst b hb ((hrange b).mpr hin), hset⟩
  missing hno := by
    obtain hno | hno := hno
    · rw [hbss] at hno
      cases hno
    · exact absurd hpath (hno m hm)

theorem Loaded.inBss_iff {abi : Abi} {l : Loaded abi} {sec : Section}
    (hbss : findBss l.image.sections = some sec) (a : Nat) : l.InBss a ↔
      l.bias + sec.address ≤ a ∧ (a : Int) < l.bias + sec.address + sec.size := by
  unfold InBss
  rw [hbss]
  simp

theorem mod_eq_zero_iff {abi : Abi} {start address v : Nat} {bias : Int}
    (hstart : (start : Int) = bias + v) : (start + address) % 2 ^ abi.wordBits = 0 ↔
      (2 ^ abi.wordBits : Int) ∣ bias + v + address := by
  rw [← Nat.dvd_iff_mod_eq_zero, ← Int.natCast_dvd_natCast]
  push_cast [hstart]
  exact Iff.rfl

theorem searched_iff {abi : Abi} {l : Loaded abi} {ms : List (Mapping abi)} {m : Mapping abi}
    (hm : m ∈ ms) (hpath : m.pathname = l.path) {sec : Section}
    (hbss : findBss l.image.sections = some sec) {v : Nat} (hv : v < 2 ^ abi.wordBits)
    (hstart : (m.addressStart : Int) = l.bias + v)
    (hne : (m.addressStart + sec.address) % 2 ^ abi.wordBits ≠ 0) (memory : Memory) :
    WritesOnlyBss l ms memory
        ⟨some ((m.addressStart + sec.address) % 2 ^ abi.wordBits, sec.size % 2 ^ abi.wordBits),
          resetFirst memory ((m.addressStart + sec.address) % 2 ^ abi.wordBits)
            (sec.size % 2 ^ abi.wordBits)⟩ ↔
      v = 0 ∨ sec.size = 0 := by
  have hiff := interval_iff hstart hv (l.bss_live sec hbss) hne
  constructor
  · intro hw
    exact hiff.mp fun a => (hw.range _ rfl a).trans (Loaded.inBss_iff hbss a)
  · intro hsafe
    have hrange := hiff.mpr hsafe
    exact .of_range hm hpath hbss (fun a => (hrange a).trans (Loaded.inBss_iff hbss a).symm) memory

/-- A run that searches nothing is safe, and any other is as safe as its search. -/
theorem resetHadError_reached_iff {abi : Abi} (l : Loaded abi) (ms : List (Mapping abi))
    (load : Str → Option (List Section)) (filePath : Str) (startAddress : Nat) (memory : Memory) :
    WritesOnlyBss l ms memory (resetHadError abi load filePath startAddress memory) ↔
      ∀ sections sec, load filePath = some sections → findBss sections = some sec →
        startAddress = 0 ∨ (startAddress + sec.address) % 2 ^ abi.wordBits = 0 ∨
          WritesOnlyBss l ms memory
            ⟨some ((startAddress + sec.address) % 2 ^ abi.wordBits, sec.size % 2 ^ abi.wordBits),
              resetFirst memory ((startAddress + sec.address) % 2 ^ abi.wordBits)
                (sec.size % 2 ^ abi.wordBits)⟩ := by
  unfold resetHadError
  split
  · rename_i hzero
    exact iff_of_true (.quiet l ms memory) fun _ _ _ _ => .inl hzero
  · rename_i hbase
    cases hl : load filePath with
    | none => exact iff_of_true (.quiet l ms memory) fun _ _ hs => by cases hs
    | some sections =>
      dsimp only
      cases hbss : findBss sections with
      | none =>
        refine iff_of_true (.quiet l ms memory) ?_
        rintro _ sec ⟨⟩ hsec
        rw [hbss] at hsec
        cases hsec
      | some sec =>
        dsimp only
        split
        · rename_i hzero
          refine iff_of_true (.quiet l ms memory) ?_
          rintro _ sec' ⟨⟩ hsec
          obtain rfl := Option.some.inj (hbss.symm.trans hsec)
          exact .inr (.inl hzero)
        · rename_i hne
          constructor
          · rintro hsafe _ sec' ⟨⟩ hsec
            obtain rfl := Option.some.inj (hbss.symm.trans hsec)
            exact .inr (.inr hsafe)
          · intro hall
            exact ((hall sections sec rfl hbss).resolve_left hbase).resolve_left hne

theorem resetHadError_iff {abi : Abi} (l : Loaded abi) {ms : List (Mapping abi)} {m : Mapping abi}
    (hm : m ∈ ms) (hpath : m.pathname = l.path) {load : Str → Option (List Section)}
    (hload : ∀ sections ∈ load l.path, sections = l.image.sections) {v : Nat}
    (hv : v < 2 ^ abi.wordBits) (hstart : (m.addressStart : Int) = l.bias + v) (memory : Memory) :
    WritesOnlyBss l ms memory (resetHadError abi load l.path m.addressStart memory) ↔
      ∀ sec, (load l.path).isSome → findBss l.image.sections = some sec →
        v = 0 ∨ sec.size = 0 ∨ l.bias + v = 0 ∨
          (2 ^ abi.wordBits : Int) ∣ l.bias + v + sec.address := by
  have hzero : m.addressStart = 0 ↔ l.bias + v = 0 := by omega
  rw [resetHadError_reached_iff]
  constructor
  · intro hall sec hsome hbss
    obtain ⟨sections, hl⟩ := Option.isSome_iff_exists.mp hsome
    obtain rfl := hload sections hl
    by_cases hdvd : (2 ^ abi.wordBits : Int) ∣ l.bias + v + sec.address
    · exact .inr (.inr (.inr hdvd))
    · have hne := mt (mod_eq_zero_iff hstart).mp hdvd
      obtain h0 | h0 | hsafe := hall _ sec hl hbss
      · exact .inr (.inr (.inl (hzero.mp h0)))
      · exact absurd h0 hne
      · exact ((searched_iff hm hpath hbss hv hstart hne memory).mp hsafe).imp_right .inl
  · intro hall sections sec hl hbss
    obtain rfl := hload sections hl
    by_cases hne : (m.addressStart + sec.address) % 2 ^ abi.wordBits = 0
    · exact .inr (.inl hne)
    · have hsearch := searched_iff hm hpath hbss hv hstart hne memory
      obtain hv0 | hs0 | hsum | hdvd := hall sec (hl ▸ rfl) hbss
      · exact .inr (.inr (hsearch.mpr (.inl hv0)))
      · exact .inr (.inr (hsearch.mpr (.inr hs0)))
      · exact .inl (hzero.mpr hsum)
      · exact absurd ((mod_eq_zero_iff hstart).mpr hdvd) hne

theorem interval_eq_iff {s n t k : Nat} : (∀ a, s ≤ a ∧ a < s + n ↔ t ≤ a ∧ a < t + k) ↔
    (n = 0 ∧ k = 0) ∨ (s = t ∧ n = k) := by
  constructor
  · intro h
    have hs := h s
    have ht := h t
    have hlast := h (s + n - 1)
    have hlast' := h (t + k - 1)
    omega
  · rintro (⟨rfl, rfl⟩ | ⟨rfl, rfl⟩) a
    · omega
    · exact Iff.rfl

/-- A search of any interval stays in the `.bss` only if it is the interval of the `.bss`. -/
theorem searched_other_iff {abi : Abi} {l : Loaded abi} {ms : List (Mapping abi)}
    (start size : Nat) (memory : Memory) :
    WritesOnlyBss l ms memory ⟨some (start, size), resetFirst memory start size⟩ ↔
      (∃ m' ∈ ms, m'.pathname = l.path) ∧ ∃ own, findBss l.image.sections = some own ∧
        (size = 0 ∧ own.size = 0 ∨ (start : Int) = l.bias + own.address ∧ size = own.size) := by
  have hlive : ∀ own, findBss l.image.sections = some own →
      ((∀ a, start ≤ a ∧ a < start + size ↔ l.InBss a) ↔
        (size = 0 ∧ own.size = 0 ∨ (start : Int) = l.bias + own.address ∧ size = own.size)) := by
    intro own hown
    obtain ⟨live, hl⟩ := Int.eq_ofNat_of_zero_le (l.bss_live own hown).1
    have hin : ∀ a, l.InBss a ↔ live ≤ a ∧ a < live + own.size := by
      intro a
      rw [Loaded.inBss_iff hown]
      omega
    simp only [hin]
    rw [interval_eq_iff]
    omega
  constructor
  · intro hw
    have hmapped : ∃ m' ∈ ms, m'.pathname = l.path := by
      by_contra hno
      have hquiet := hw.missing (.inr fun m' hm' he => hno ⟨m', hm', he⟩)
      cases hquiet.1
    cases hbss : findBss l.image.sections with
    | none =>
      have hquiet := hw.missing (.inl hbss)
      cases hquiet.1
    | some own => exact ⟨hmapped, own, rfl, (hlive own hbss).mp (hw.range _ rfl)⟩
  · rintro ⟨⟨m', hm', hpath⟩, own, hown, hsame⟩
    exact .of_range hm' hpath hown ((hlive own hown).mpr hsame) memory

/-- Once a mapping of another file was found, its own `.bss` decides. -/
theorem resetHadError_other_iff {abi : Abi} (l : Loaded abi) (ms : List (Mapping abi))
    (m : Mapping abi) (load : Str → Option (List Section)) (memory : Memory) :
    WritesOnlyBss l ms memory (resetHadError abi load m.pathname m.addressStart memory) ↔
      SameBss l load ms m := by
  rw [resetHadError_reached_iff, SameBss]
  simp only [searched_other_iff]

def bssSection : Section := ⟨".bss".toList, 0x7100, 0x20⟩

/-- A library with its headers in a read-only or in an executable segment, and a writable
segment that begins with `relro`. -/
def sampleImage (header : Str) : ElfImage where
  segments := [⟨0, 0x4f00, header⟩, ⟨0x6000, 0x1100, "rw-p".toList⟩]
  relro := some (0x6000, 0x1000)
  sections := [⟨".text".toList, 0x1000, 0x3000⟩, bssSection]

theorem onPages_eq {pageSize start size first last : Nat} (hfirst : pageStart pageSize start = first)
    (hlast : pageStart pageSize (start + size + pageSize - 1) = last) (v : Nat) :
    onPages pageSize start size v = decide (first ≤ v ∧ v < last) := by
  rw [onPages, hfirst, hlast, Bool.decide_and]

theorem sampleImage_permsAt (header : Str) (v : Nat) : (sampleImage header).permsAt 4096 v =
    if v < 0x5000 then some header
    else if v < 0x6000 then none
    else if v < 0x7000 then some readOnly
    else if v < 0x8000 then some "rw-p".toList
    else none := by
  have htext : onPages 4096 0 0x4f00 v = decide (0 ≤ v ∧ v < 0x5000) := onPages_eq rfl rfl v
  have hdata : onPages 4096 0x6000 0x1100 v = decide (0x6000 ≤ v ∧ v < 0x8000) :=
    onPages_eq rfl rfl v
  have hrelro : onPages 4096 0x6000 0x1000 v = decide (0x6000 ≤ v ∧ v < 0x7000) :=
    onPages_eq rfl rfl v
  have hperms : (sampleImage header).permsAt 4096 v =
      ([⟨0x6000, 0x1100, "rw-p".toList⟩, ⟨0, 0x4f00, header⟩].find? fun seg : Segment =>
        onPages 4096 seg.vaddr seg.filesz v).map fun seg =>
          if onPages 4096 0x6000 0x1000 v then readOnly else seg.perms := rfl
  rw [hperms, List.find?_cons, List.find?_cons, htext, hdata, hrelro]
  simp only [decide_eq_true_iff]
  split_ifs <;> first
    | omega
    | simp (disch := omega) only [decide_eq_true, decide_eq_false]
      rfl

def header : Bool → Str
  | true => readOnly
  | false => "r-xp".toList

def artLibrary : Str := "/apex/com.android.art/lib64/libnativebridge.so".toList

def sampleLoaded (headerReadOnly : Bool) : Loaded .arm64V8a where
  image := sampleImage (header headerReadOnly)
  pageSize := 4096
  path := artLibrary
  inode := 77
  bias := 0x70000000
  path_suffix := by decide
  mapped v hv := by
    have hlt : v < 0x8000 := by
      by_contra hno
      rw [sampleImage_permsAt] at hv
      split_ifs at hv <;> first | omega | cases hv
    refine ⟨hlt.trans (by decide), ?_⟩
    omega
  bss_live := by
    rintro sec hsec
    obtain rfl : bssSection = sec := Option.some.inj hsec
    decide

def sampleMapping (addressStart addressEnd offset inode : Nat) (perms pathname : Str)
    (h : addressStart < addressEnd ∧ addressEnd < 2 ^ 64 ∧ offset < 2 ^ 64 ∧ inode < 2 ^ 64)
    (hperms : perms.length = 4 ∧ ∀ c ∈ perms, InputStream.isSpace c = false)
    (hpath : pathname.head? = some '/' ∧ '\n' ∉ pathname) :
    Mapping .arm64V8a where
  addressStart := addressStart
  addressEnd := addressEnd
  perms := perms
  offset := offset
  devMajor := 254
  devMinor := 12
  inode := inode
  pathname := pathname
  address_lt := ⟨h.1, h.2.1⟩
  perms_four := hperms
  offset_lt := h.2.2.1
  device_lt := by decide
  inode_lt := h.2.2.2
  pathname_head := by
    rw [hpath.1]
    rintro c ⟨⟩
    exact .inl rfl
  pathname_line := hpath.2

def sampleMappings (headerReadOnly : Bool) : List (Mapping .arm64V8a) :=
  [sampleMapping 0x6ff00000 0x6ff01000 0 78 readOnly "/system/lib64/libc.so".toList
      (by decide) (by decide) (by decide),
    sampleMapping 0x70000000 0x70005000 0 77 (header headerReadOnly) artLibrary
      (by decide) (by cases headerReadOnly <;> decide) (by decide),
    sampleMapping 0x70006000 0x70007000 0x5000 77 readOnly artLibrary
      (by decide) (by decide) (by decide),
    sampleMapping 0x70007000 0x70008000 0x6000 77 "rw-p".toList artLibrary
      (by decide) (by decide) (by decide)]

theorem mem_sampleMappings {headerReadOnly : Bool} {m : Mapping .arm64V8a}
    (hm : m ∈ sampleMappings headerReadOnly) (hpath : m.pathname = artLibrary) :
    m.inode = 77 ∧
      ((m.addressStart = 0x70000000 ∧ m.addressEnd = 0x70005000 ∧ m.perms = header headerReadOnly) ∨
        (m.addressStart = 0x70006000 ∧ m.addressEnd = 0x70007000 ∧ m.perms = readOnly) ∨
        m.addressStart = 0x70007000 ∧ m.addressEnd = 0x70008000 ∧ m.perms = "rw-p".toList) := by
  simp only [sampleMappings, List.mem_cons, List.not_mem_nil, or_false] at hm
  obtain rfl | rfl | rfl | rfl := hm
  · have hother : "/system/lib64/libc.so".toList ≠ artLibrary := by decide
    exact absurd hpath hother
  · exact ⟨rfl, .inl ⟨rfl, rfl, rfl⟩⟩
  · exact ⟨rfl, .inr (.inl ⟨rfl, rfl, rfl⟩)⟩
  · exact ⟨rfl, .inr (.inr ⟨rfl, rfl, rfl⟩)⟩

theorem sampleMappings_listing (headerReadOnly : Bool) :
    Listing (sampleLoaded headerReadOnly) (sampleMappings headerReadOnly) := by
  refine ⟨?_, ?_, ?_⟩
  · cases headerReadOnly <;> decide
  · intro m hm hpath
    exact ⟨(mem_sampleMappings hm hpath).1, m.offset_lt⟩
  · intro a perms
    have hperms : ∀ v, (sampleLoaded headerReadOnly).image.permsAt
        (sampleLoaded headerReadOnly).pageSize v = _ :=
      sampleImage_permsAt (header headerReadOnly)
    have hbias : (sampleLoaded headerReadOnly).bias = 0x70000000 := rfl
    rw [hbias]
    constructor
    · rintro ⟨m, hm, hpath, hlow, hhigh, rfl⟩
      obtain ⟨_, hpages⟩ := mem_sampleMappings hm hpath
      refine ⟨a - 0x70000000, by omega, ?_⟩
      rw [hperms]
      obtain ⟨hs, he, hp⟩ | ⟨hs, he, hp⟩ | ⟨hs, he, hp⟩ := hpages <;>
        rw [hp] <;>
        simp (disch := omega) only [if_pos, if_neg]
    · rintro ⟨v, ha, hv⟩
      rw [hperms] at hv
      split_ifs at hv with h5 h6 h7 h8
      · obtain rfl := Option.some.inj hv
        have hin : 0x70000000 ≤ a ∧ a < 0x70005000 := by omega
        exact ⟨_, .tail _ (.head _), rfl, hin.1, hin.2, rfl⟩
      · obtain rfl := Option.some.inj hv
        have hin : 0x70006000 ≤ a ∧ a < 0x70007000 := by omega
        exact ⟨_, .tail _ (.tail _ (.head _)), rfl, hin.1, hin.2, rfl⟩
      · obtain rfl := Option.some.inj hv
        have hin : 0x70007000 ≤ a ∧ a < 0x70008000 := by omega
        exact ⟨_, .tail _ (.tail _ (.tail _ (.head _))), rfl, hin.1, hin.2, rfl⟩

def loadSample (headerReadOnly : Bool) (path : Str) : Option (List Section) :=
  if path = artLibrary then some (sampleLoaded headerReadOnly).image.sections else none

theorem loadSample_true (headerReadOnly : Bool) :
    ∀ sections ∈ loadSample headerReadOnly (sampleLoaded headerReadOnly).path,
      sections = (sampleLoaded headerReadOnly).image.sections := by
  rintro _ ⟨⟩
  rfl

def markedAt (address : Nat) : Memory := fun a => if a = address then 1 else 0

def otherFile : Mapping .arm64V8a :=
  sampleMapping 0x60000000 0x60001000 0 79 readOnly "/data/local/libnativebridge.so".toList
    (by decide) (by decide) (by decide)

/-- Another file of that name is mapped below the library, and its own `.bss` is searched. -/
example : (doHideZygisk .arm64V8a (fun _ => some [bssSection])
    ((otherFile :: sampleMappings true).map Mapping.entry) (markedAt 0x60007104)).searched =
      some (0x60007100, 0x20) := rfl

end ZygiskAssistant.Modules
