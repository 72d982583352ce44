import ZygiskAssistant.Lib.FlagTable
import ZygiskAssistant.Parsers.Mountinfo

/-!
# Restoring the error behaviour of /data

`doRemount` and `getExtErrorsBehavior`, what a run should do to the effective
`/data` mount, and the tables on which it does. The code reads the first entry
of `/data` where `mount` acts on the last one, and its table of flags has no
rows for four of the attributes that a mount can show.
-/

namespace ZygiskAssistant

/-- The contents of the files that can be opened. -/
abbrev Files := Str → Option (List UInt8)

namespace Utils

open Parsers

/-- `seekg` and a `read` of a `uint16_t`, and then `le16toh`. -/
def readLe16 (file : List UInt8) (pos : Nat) : Option UInt16 :=
  match file[pos]?, file[pos + 1]? with
  | some low, some high => some (low.toUInt16 ||| (high.toUInt16 <<< 8))
  | _, _ => none

def extSuperblockOffset : Nat := 0x400
def extMagicOffset : Nat := 0x38
def extErrorsOffset : Nat := 0x3C
def extMagic : UInt16 := 0xEF53

def errorsName (errors : UInt16) : Option Str :=
  if errors = 1 then some "continue".toList
  else if errors = 2 then some "remount-ro".toList
  else if errors = 3 then some "panic".toList
  else none

def getExtErrorsBehavior (files : Files) (entry : MountinfoEntry) : Option Str :=
  let fsType := entry.filesystemType
  if fsType ≠ "ext2".toList ∧ fsType ≠ "ext3".toList ∧ fsType ≠ "ext4".toList then none
  else
    (files entry.mountSource).bind fun file =>
      (readLe16 file (extSuperblockOffset + extMagicOffset)).bind fun magic =>
        if magic ≠ extMagic then none
        else (readLe16 file (extSuperblockOffset + extErrorsOffset)).bind errorsName

end Utils

namespace Modules

open Parsers Utils FlagTable

def msRdonly : BitVec 64 := 1
def msNosuid : BitVec 64 := 2
def msNodev : BitVec 64 := 4
def msNoexec : BitVec 64 := 8
def msSynchronous : BitVec 64 := 16
def msRemount : BitVec 64 := 32
def msDirsync : BitVec 64 := 128
def msNosymfollow : BitVec 64 := 256
def msNoatime : BitVec 64 := 1024
def msNodiratime : BitVec 64 := 2048
def msRelatime : BitVec 64 := 0x200000
def msLazytime : BitVec 64 := 0x2000000

/-- An `unordered_map`: the loop over it may visit the rows in another order. -/
def mountFlagsProcfs : List (Str × BitVec 64) :=
  [("nosuid".toList, msNosuid), ("nodev".toList, msNodev), ("noexec".toList, msNoexec),
    ("noatime".toList, msNoatime), ("nodiratime".toList, msNodiratime),
    ("relatime".toList, msRelatime), ("nosymfollow".toList, msNosymfollow)]

def dataDir : Str := "/data".toList
def errorsKey : Str := "errors".toList

def contains (options : StrMap) (key : Str) : Bool := (options.lookup key).isSome

/-- `mount(NULL, target, NULL, flags, data)`. -/
structure MountCall where
  target : Str
  flags : BitVec 64
  data : Str
deriving DecidableEq

def remountFlags (mountOptions : StrMap) : BitVec 64 :=
  build msRemount mountFlagsProcfs (contains mountOptions)

/-- The body of the loop for an entry of `/data`. -/
def remountCall (files : Files) (mount : MountinfoEntry) : Option MountCall :=
  match mount.superOptions.lookup errorsKey with
  | none => none
  | some errors =>
    match getExtErrorsBehavior files mount with
    | none => none
    | some sbErrors =>
      if errors = sbErrors then none
      else some ⟨dataDir, remountFlags mount.mountOptions, "errors=".toList ++ sbErrors⟩

/-- The calls of `mount`, in order. -/
def doRemount (files : Files) : List MountinfoEntry → List MountCall
  | [] => []
  | mount :: mounts =>
    -- every way through the body ends the loop
    if mount.mountPoint = dataDir then (remountCall files mount).toList else doRemount files mounts

/-- The two bytes at the offset hold the value, the low one first. -/
def HoldsLe16 (bytes : List UInt8) (offset value : Nat) : Prop :=
  ∃ low high, bytes[offset]? = some low ∧ bytes[offset + 1]? = some high ∧
    low.toNat + 256 * high.toNat = value

def behaviors : List (Nat × Str) :=
  [(1, "continue".toList), (2, "remount-ro".toList), (3, "panic".toList)]

/-- The behaviour that the superblock on the backing device of an ext mount names. -/
def SuperblockErrors (files : Files) (mount : MountinfoEntry) (behavior : Str) : Prop :=
  mount.filesystemType ∈ ["ext2".toList, "ext3".toList, "ext4".toList] ∧
    ∃ bytes ∈ files mount.mountSource, HoldsLe16 bytes 0x438 0xEF53 ∧
      ∃ errors, HoldsLe16 bytes 0x43C errors ∧ (errors, behavior) ∈ behaviors

def ErrorsDiffer (files : Files) (mount : MountinfoEntry) (behavior : Str) : Prop :=
  SuperblockErrors files mount behavior ∧
    ∃ errors ∈ mount.superOptions.lookup errorsKey, errors ≠ behavior

/-- The mount on which `mount(2)` acts: the last one at `/data`. -/
def effective (mounts : List MountinfoEntry) : Option MountinfoEntry :=
  mounts.reverse.find? fun mount => mount.mountPoint = dataDir

def unrestoredAttributes : List (Str × BitVec 64) :=
  [("ro".toList, msRdonly), ("sync".toList, msSynchronous), ("dirsync".toList, msDirsync),
    ("lazytime".toList, msLazytime)]

def restoredAttributes : List (Str × BitVec 64) :=
  [("nosuid".toList, msNosuid), ("nodev".toList, msNodev), ("noexec".toList, msNoexec),
    ("noatime".toList, msNoatime), ("nodiratime".toList, msNodiratime),
    ("relatime".toList, msRelatime), ("nosymfollow".toList, msNosymfollow)]

def shown (mount : MountinfoEntry) (name : Str) : Bool :=
  contains mount.mountOptions name || contains mount.superOptions name

def requiredFlags (mount : MountinfoEntry) : BitVec 64 :=
  build msRemount (unrestoredAttributes ++ restoredAttributes) (shown mount)

/-- An entry before and after the error behaviour of the target's file system was set. -/
structure Updated (target : MountinfoEntry) (behavior : Str) (before after : MountinfoEntry) :
    Prop where
  device : after.device = before.device
  mountPoint : after.mountPoint = before.mountPoint
  filesystemType : after.filesystemType = before.filesystemType
  mountSource : after.mountSource = before.mountSource
  set : before.device = target.device →
    ∀ errors ∈ after.superOptions.lookup errorsKey, errors = behavior
  kept : before.device ≠ target.device → after.superOptions = before.superOptions

def Remounted (files : Files) (mounts mounts' : List MountinfoEntry) : Prop :=
  ∃ target ∈ effective mounts, ∃ behavior, SuperblockErrors files target behavior ∧
    List.Forall₂ (Updated target behavior) mounts mounts'

/-- A run restores the error behaviour of the effective mount and changes nothing else. -/
structure RestoresErrors (files : Files) (mounts : List MountinfoEntry) : Prop where
  atMostOne : (doRemount files mounts).length ≤ 1
  issued : doRemount files mounts ≠ [] ↔
    ∃ mount ∈ effective mounts, ∃ behavior, ErrorsDiffer files mount behavior
  call : ∀ call ∈ doRemount files mounts, ∀ mount ∈ effective mounts,
    call.target = dataDir ∧ call.flags = requiredFlags mount ∧
      ∀ behavior, SuperblockErrors files mount behavior → call.data = "errors=".toList ++ behavior
  settled : doRemount files mounts ≠ [] →
    ∀ mounts', Remounted files mounts mounts' → doRemount files mounts' = []

theorem toNat_le16 (low high : UInt8) :
    (low.toUInt16 ||| (high.toUInt16 <<< 8)).toNat = low.toNat + 256 * high.toNat := by
  have hl := low.toNat_lt
  have hh := high.toNat_lt
  have h8 : (8 : UInt16).toNat % 16 = 8 := by decide
  have hshift : high.toNat <<< 8 % 2 ^ 16 = high.toNat <<< 8 := by
    rw [Nat.shiftLeft_eq]
    omega
  rw [UInt16.toNat_or, UInt16.toNat_shiftLeft, UInt8.toNat_toUInt16, UInt8.toNat_toUInt16, h8,
    hshift, Nat.or_comm, ← Nat.shiftLeft_add_eq_or_of_lt (by omega), Nat.shiftLeft_eq]
  omega

theorem readLe16_eq_some_iff {file : List UInt8} {pos : Nat} {value : UInt16} :
    readLe16 file pos = some value ↔ HoldsLe16 file pos value.toNat := by
  unfold readLe16
  constructor
  · intro h
    split at h
    · rename_i low high hlow hhigh
      obtain rfl := Option.some.inj h
      exact ⟨low, high, hlow, hhigh, (toNat_le16 low high).symm⟩
    · cases h
  · rintro ⟨low, high, hlow, hhigh, hvalue⟩
    rw [hlow, hhigh]
    exact congrArg some (UInt16.toNat_inj.mp ((toNat_le16 low high).trans hvalue))

theorem HoldsLe16.lt {bytes : List UInt8} {offset value : Nat} (h : HoldsLe16 bytes offset value) :
    value < 2 ^ 16 := by
  obtain ⟨low, high, _, _, rfl⟩ := h
  have hl := low.toNat_lt
  have hh := high.toNat_lt
  omega

theorem errorsName_eq_some_iff {errors : UInt16} {behavior : Str} :
    errorsName errors = some behavior ↔ (errors.toNat, behavior) ∈ behaviors := by
  have hof : ∀ n : Nat, n < 2 ^ 16 → (errors.toNat = n ↔ errors = UInt16.ofNat n) := by
    intro n hn
    rw [← UInt16.toNat_inj, UInt16.toNat_ofNat', Nat.mod_eq_of_lt hn]
  unfold errorsName behaviors
  simp only [List.mem_cons, Prod.mk.injEq, List.not_mem_nil, or_false, hof 1 (by decide),
    hof 2 (by decide), hof 3 (by decide)]
  split
  · rename_i h
    subst h
    simp [eq_comm]
  · split
    · rename_i h
      subst h
      simp [eq_comm]
    · split
      · rename_i h
        subst h
        simp [eq_comm]
      · simp_all

theorem getExtErrorsBehavior_eq_some_iff {files : Files} {mount : MountinfoEntry}
    {behavior : Str} :
    getExtErrorsBehavior files mount = some behavior ↔ SuperblockErrors files mount behavior := by
  unfold getExtErrorsBehavior SuperblockErrors
  dsimp only
  split
  · rename_i hfs
    refine ⟨fun h => absurd h (by simp), fun h => absurd h.1 ?_⟩
    simpa using hfs
  · rename_i hfs
    have hmem : mount.filesystemType ∈ ["ext2".toList, "ext3".toList, "ext4".toList] := by
      by_contra hno
      exact hfs (by simpa using hno)
    simp only [Option.bind_eq_some_iff]
    constructor
    · rintro ⟨file, hfile, magic, hmagic, hrest⟩
      split at hrest
      · cases hrest
      · rename_i hm
        obtain rfl := not_not.mp hm
        obtain ⟨errors, herrors, hname⟩ := Option.bind_eq_some_iff.mp hrest
        exact ⟨hmem, file, hfile, readLe16_eq_some_iff.mp hmagic, errors.toNat,
          readLe16_eq_some_iff.mp herrors, errorsName_eq_some_iff.mp hname⟩
    · rintro ⟨_, file, hfile, hmagic, errors, herrors, hname⟩
      have hof : (UInt16.ofNat errors).toNat = errors := by
        rw [UInt16.toNat_ofNat', Nat.mod_eq_of_lt herrors.lt]
      refine ⟨file, hfile, extMagic, readLe16_eq_some_iff.mpr hmagic, ?_⟩
      rw [if_neg (by simp)]
      refine Option.bind_eq_some_iff.mpr ⟨UInt16.ofNat errors, readLe16_eq_some_iff.mpr ?_,
        errorsName_eq_some_iff.mpr ?_⟩
      · rw [hof]
        exact herrors
      · rw [hof]
        exact hname

theorem SuperblockErrors.unique {files : Files} {mount : MountinfoEntry} {behavior behavior' : Str}
    (h : SuperblockErrors files mount behavior) (h' : SuperblockErrors files mount behavior') :
    behavior = behavior' := by
  rw [← getExtErrorsBehavior_eq_some_iff] at h h'
  exact Option.some.inj (h.symm.trans h')

theorem ErrorsDiffer.remountCall_eq {files : Files} {mount : MountinfoEntry} {behavior : Str}
    (h : ErrorsDiffer files mount behavior) : remountCall files mount =
      some ⟨dataDir, remountFlags mount.mountOptions, "errors=".toList ++ behavior⟩ := by
  obtain ⟨hsb, errors, herrors, hne⟩ := h
  unfold remountCall
  rw [Option.mem_def.mp herrors, getExtErrorsBehavior_eq_some_iff.mpr hsb]
  exact if_neg hne

theorem remountCall_eq_none_iff {files : Files} {mount : MountinfoEntry} :
    remountCall files mount = none ↔ ∀ behavior, ¬ ErrorsDiffer files mount behavior := by
  constructor
  · intro h behavior hd
    rw [hd.remountCall_eq] at h
    cases h
  · intro h
    unfold remountCall
    split
    · rfl
    · rename_i errors herrors
      split
      · rfl
      · rename_i behavior hsb
        rw [getExtErrorsBehavior_eq_some_iff] at hsb
        split
        · rfl
        · rename_i hne
          exact absurd ⟨hsb, errors, herrors, hne⟩ (h behavior)

/-- Without its errors option, or with the one of its superblock, an entry needs no call. -/
theorem remountCall_eq_none {files : Files} {mount : MountinfoEntry} {behavior : Str}
    (hsb : SuperblockErrors files mount behavior)
    (hset : ∀ errors ∈ mount.superOptions.lookup errorsKey, errors = behavior) :
    remountCall files mount = none := by
  rw [remountCall_eq_none_iff]
  rintro behavior' ⟨hsb', errors, herrors, hne⟩
  exact hne ((hset errors herrors).trans (hsb.unique hsb'))

/-- The entry that the loop reads. -/
def firstData (mounts : List MountinfoEntry) : Option MountinfoEntry :=
  mounts.find? fun mount => mount.mountPoint = dataDir

theorem doRemount_eq (files : Files) (mounts : List MountinfoEntry) :
    doRemount files mounts = ((firstData mounts).bind (remountCall files)).toList := by
  induction mounts with
  | nil => rfl
  | cons mount mounts ih =>
    unfold doRemount firstData
    rw [List.find?_cons]
    by_cases h : mount.mountPoint = dataDir
    · simp [h]
    · simp [h, ih, firstData]

theorem doRemount_length_le (files : Files) (mounts : List MountinfoEntry) :
    (doRemount files mounts).length ≤ 1 := by
  rw [doRemount_eq]
  cases (firstData mounts).bind (remountCall files) <;> simp

theorem firstData_isSome (mounts : List MountinfoEntry) :
    (firstData mounts).isSome = (effective mounts).isSome := by
  unfold firstData effective
  rw [Bool.eq_iff_iff, List.find?_isSome, List.find?_isSome]
  simp

/-- A remount of the file system leaves the places of the entries as they are. -/
theorem firstData_forall₂ {R : MountinfoEntry → MountinfoEntry → Prop}
    (hR : ∀ m m', R m m' → m'.mountPoint = m.mountPoint) {mounts mounts' : List MountinfoEntry}
    (h : List.Forall₂ R mounts mounts') {first : MountinfoEntry}
    (hfirst : firstData mounts = some first) :
    ∃ first', firstData mounts' = some first' ∧ R first first' := by
  induction h with
  | nil => cases hfirst
  | @cons m m' _ _ hm _ ih =>
    unfold firstData at hfirst ih ⊢
    rw [List.find?_cons] at hfirst ⊢
    rw [hR m m' hm]
    by_cases hdata : m.mountPoint = dataDir
    · rw [decide_eq_true hdata] at hfirst ⊢
      obtain rfl := Option.some.inj hfirst
      exact ⟨m', rfl, hm⟩
    · rw [decide_eq_false hdata] at hfirst ⊢
      exact ih hfirst

theorem mountFlagsProcfs_eq : mountFlagsProcfs = restoredAttributes := rfl

/-- The loop over the map may visit the rows in any order. -/
theorem remountFlags_perm {rows : List (Str × BitVec 64)} (h : rows.Perm mountFlagsProcfs)
    (mountOptions : StrMap) :
    build msRemount rows (contains mountOptions) = remountFlags mountOptions :=
  build_perm h msRemount (contains mountOptions)

theorem attributes_separate : Separate msRemount (unrestoredAttributes ++ restoredAttributes) := by
  -- every flag is a power of two, and no two are the same one
  have h : ∀ row ∈ unrestoredAttributes ++ restoredAttributes,
      row.2.getLsbD row.2.toNat.log2 = true ∧ msRemount.getLsbD row.2.toNat.log2 = false ∧
        ∀ other ∈ unrestoredAttributes ++ restoredAttributes,
          other.2.getLsbD row.2.toNat.log2 = true → other.1 = row.1 := by decide +kernel
  exact fun row hrow => ⟨row.2.toNat.log2, h row hrow⟩

theorem remountFlags_eq_iff {mountOptions : StrMap} {mount : MountinfoEntry} :
    remountFlags mountOptions = requiredFlags mount ↔
      (∀ row ∈ unrestoredAttributes, shown mount row.1 = false) ∧
        ∀ row ∈ restoredAttributes, contains mountOptions row.1 = shown mount row.1 := by
  unfold remountFlags requiredFlags
  rw [mountFlagsProcfs_eq]
  exact attributes_separate.build_suffix_iff (by decide)

/-- Neither the first nor the effective entry of `/data` needs a call, or both need the same
one and have one device, and the first shows as mount options what the effective one shows. -/
def Restorable (files : Files) (mounts : List MountinfoEntry) : Prop :=
  ∀ first ∈ firstData mounts, ∀ last ∈ effective mounts,
    (∀ behavior, ¬ ErrorsDiffer files first behavior ∧ ¬ ErrorsDiffer files last behavior) ∨
    ∃ behavior, ErrorsDiffer files first behavior ∧ ErrorsDiffer files last behavior ∧
      first.device = last.device ∧ (∀ row ∈ unrestoredAttributes, shown last row.1 = false) ∧
      ∀ row ∈ restoredAttributes, contains first.mountOptions row.1 = shown last row.1

/-- A remount after which the option is no longer listed. -/
def dropErrors (device : DevT) (mount : MountinfoEntry) : MountinfoEntry :=
  if mount.device = device then { mount with superOptions := mount.superOptions.erase errorsKey }
  else mount

theorem updated_dropErrors (target : MountinfoEntry) (behavior : Str) (mount : MountinfoEntry) :
    Updated target behavior mount (dropErrors target.device mount) := by
  unfold dropErrors
  split
  · rename_i hdev
    exact ⟨rfl, rfl, rfl, rfl, fun _ errors h => by simp at h, fun hne => absurd hdev hne⟩
  · rename_i hdev
    exact ⟨rfl, rfl, rfl, rfl, fun heq => absurd heq hdev, fun _ => rfl⟩

theorem remounted_dropErrors {files : Files} {mounts : List MountinfoEntry}
    {target : MountinfoEntry} (ht : effective mounts = some target) {behavior : Str}
    (hsb : SuperblockErrors files target behavior) :
    Remounted files mounts (mounts.map (dropErrors target.device)) := by
  refine ⟨target, ht, behavior, hsb, ?_⟩
  rw [List.forall₂_map_right_iff, List.forall₂_same]
  exact fun mount _ => updated_dropErrors target behavior mount

theorem SuperblockErrors.updated {files : Files} {target before after : MountinfoEntry}
    {behavior sbErrors : Str} (h : SuperblockErrors files before sbErrors)
    (hu : Updated target behavior before after) : SuperblockErrors files after sbErrors := by
  unfold SuperblockErrors at h ⊢
  rw [hu.filesystemType, hu.mountSource]
  exact h

theorem ErrorsDiffer.kept {files : Files} {target before after : MountinfoEntry}
    {behavior sbErrors : Str} (h : ErrorsDiffer files before sbErrors)
    (hu : Updated target behavior before after) (hdev : before.device ≠ target.device) :
    ErrorsDiffer files after sbErrors := by
  refine ⟨h.1.updated hu, ?_⟩
  rw [hu.kept hdev]
  exact h.2

/-- The second run is silent, whatever the remount made of the option. -/
theorem doRemount_remounted {files : Files} {mounts mounts' : List MountinfoEntry}
    {first target : MountinfoEntry} (hfirst : firstData mounts = some first)
    (ht : effective mounts = some target) {behavior : Str}
    (hf : SuperblockErrors files first behavior) (hsb : SuperblockErrors files target behavior)
    (hdev : first.device = target.device) (h : Remounted files mounts mounts') :
    doRemount files mounts' = [] := by
  obtain ⟨target', ht', behavior', hsb', hall⟩ := h
  obtain rfl : target = target' := Option.some.inj (ht.symm.trans ht')
  obtain rfl := hsb.unique hsb'
  obtain ⟨first', hfirst', hu⟩ := firstData_forall₂ (fun _ _ hu => hu.mountPoint) hall hfirst
  rw [doRemount_eq, hfirst', Option.bind_some,
    remountCall_eq_none (hf.updated hu) (hu.set hdev), Option.toList_none]

theorem Restorable.of_restores {files : Files} {mounts : List MountinfoEntry}
    (hr : RestoresErrors files mounts) : Restorable files mounts := by
  intro first hfirst last hlast
  have hcalls : doRemount files mounts = (remountCall files first).toList := by
    rw [doRemount_eq, Option.mem_def.mp hfirst, Option.bind_some]
  by_cases hneed : ∃ behavior, ErrorsDiffer files first behavior
  · obtain ⟨behavior, hf⟩ := hneed
    rw [hf.remountCall_eq] at hcalls
    have hsome : doRemount files mounts ≠ [] := by simp [hcalls]
    obtain ⟨last', hlast', behavior', hl⟩ := hr.issued.mp hsome
    obtain rfl : last = last' := Option.some.inj (hlast.symm.trans hlast')
    obtain ⟨_, hflags, hdata⟩ := hr.call _ (by rw [hcalls]; exact List.mem_cons_self) last hlast
    obtain rfl : behavior = behavior' := List.append_cancel_left (hdata behavior' hl.1)
    have hdev : first.device = last.device := by
      by_contra hne
      have hquiet := hr.settled hsome _ (remounted_dropErrors hlast hl.1)
      obtain ⟨first', hfirst', hu⟩ := firstData_forall₂ (fun _ _ hu => hu.mountPoint)
        (List.forall₂_map_right_iff.mpr (List.forall₂_same.mpr fun mount _ =>
          updated_dropErrors last behavior mount)) hfirst
      rw [doRemount_eq, hfirst', Option.bind_some, (hf.kept hu hne).remountCall_eq] at hquiet
      cases hquiet
    exact .inr ⟨behavior, hf, hl, hdev, remountFlags_eq_iff.mp hflags⟩
  · left
    intro behavior
    have hnone := remountCall_eq_none_iff.mpr (not_exists.mp hneed)
    refine ⟨not_exists.mp hneed behavior, fun hl => ?_⟩
    exact hr.issued.mpr ⟨last, hlast, behavior, hl⟩ (by rw [hcalls, hnone]; rfl)

theorem RestoresErrors.of_quiet {files : Files} {mounts : List MountinfoEntry}
    (hquiet : doRemount files mounts = [])
    (hno : ∀ mount ∈ effective mounts, ∀ behavior, ¬ ErrorsDiffer files mount behavior) :
    RestoresErrors files mounts where
  atMostOne := doRemount_length_le files mounts
  issued := by
    refine ⟨fun hcall => absurd hquiet hcall, ?_⟩
    rintro ⟨mount, hmount, behavior, hd⟩
    exact absurd hd (hno mount hmount behavior)
  call := by simp [hquiet]
  settled hcall := absurd hquiet hcall

theorem Restorable.restores {files : Files} {mounts : List MountinfoEntry}
    (h : Restorable files mounts) : RestoresErrors files mounts := by
  have hsome : (firstData mounts).isSome = (effective mounts).isSome := firstData_isSome mounts
  cases hfirst : firstData mounts with
  | none =>
    rw [hfirst, Option.isSome_none, eq_comm, Option.isSome_eq_false_iff, Option.isNone_iff_eq_none]
      at hsome
    refine .of_quiet ?_ ?_
    · rw [doRemount_eq, hfirst]
      rfl
    · rw [hsome]
      rintro mount ⟨⟩
  | some first =>
    rw [hfirst, Option.isSome_some, eq_comm, Option.isSome_iff_exists] at hsome
    obtain ⟨last, hlast⟩ := hsome
    obtain hno | ⟨behavior, hf, hl, hdev, hattr⟩ := h first hfirst last hlast
    · refine .of_quiet ?_ ?_
      · rw [doRemount_eq, hfirst, Option.bind_some,
          remountCall_eq_none_iff.mpr fun behavior => (hno behavior).1, Option.toList_none]
      · rw [hlast]
        rintro mount ⟨⟩ behavior
        exact (hno behavior).2
    · have hcalls : doRemount files mounts = [⟨dataDir, remountFlags first.mountOptions,
          "errors=".toList ++ behavior⟩] := by
        rw [doRemount_eq, hfirst, Option.bind_some, hf.remountCall_eq, Option.toList_some]
      refine ⟨doRemount_length_le files mounts, ?_, ?_, ?_⟩
      · simp only [hcalls, ne_eq, List.cons_ne_self, not_false_eq_true, true_iff]
        exact ⟨last, hlast, behavior, hl⟩
      · intro call hcall mount hmount
        rw [hcalls, List.mem_singleton] at hcall
        obtain rfl := hcall
        obtain rfl : last = mount := Option.some.inj (hlast.symm.trans hmount)
        refine ⟨rfl, remountFlags_eq_iff.mpr hattr, fun behavior' hsb => ?_⟩
        rw [hl.1.unique hsb]
      · exact fun _ mounts' hr => doRemount_remounted hfirst hlast hf.1 hl.1 hdev hr

/-- A run does what it should exactly on these tables. -/
theorem doRemount_restores_iff (files : Files) (mounts : List MountinfoEntry) :
    RestoresErrors files mounts ↔ Restorable files mounts :=
  ⟨Restorable.of_restores, Restorable.restores⟩

/-- A device whose superblock names `continue`. -/
def continueImage : List UInt8 := List.replicate 0x438 0 ++ [0x53, 0xEF, 0, 0, 1, 0]

def dataDevice : Files := fun path =>
  if path = "/dev/block/dm-5".toList then some continueImage else none

def readOnlyTable : List MountinfoEntry :=
  parseSelfMountinfo false
    (some "30 1 254:5 / /data ro,nosuid - ext4 /dev/block/dm-5 ro,errors=panic\n".toList) []

theorem continueImage_tail (i : Nat) :
    continueImage[0x438 + i]? = ([0x53, 0xEF, 0, 0, 1, 0] : List UInt8)[i]? := by
  have hlen : (List.replicate 0x438 (0 : UInt8)).length = 0x438 := List.length_replicate
  rw [continueImage, List.getElem?_append_right (by rw [hlen]; omega), hlen,
    Nat.add_sub_cancel_left]

theorem continueImage_holds :
    HoldsLe16 continueImage 0x438 0xEF53 ∧ HoldsLe16 continueImage 0x43C 1 :=
  ⟨⟨0x53, 0xEF, continueImage_tail 0, continueImage_tail 1, by decide⟩,
    ⟨1, 0, continueImage_tail 4, continueImage_tail 5, by decide⟩⟩

/-- A read-only `/data` is remounted without `MS_RDONLY`. -/
theorem doRemount_not_restoring : ¬ RestoresErrors dataDevice readOnlyTable := by
  intro h
  have hlast : ∃ mount, effective readOnlyTable = some mount ∧
      firstData readOnlyTable = some mount ∧ mount.filesystemType = "ext4".toList ∧
      mount.mountSource = "/dev/block/dm-5".toList ∧
      mount.superOptions.lookup errorsKey = some "panic".toList ∧
      shown mount "ro".toList = true := by
    refine ⟨(firstData readOnlyTable).get (by decide), ?_⟩
    decide
  obtain ⟨mount, hlast, hfirst, hfs, hsource, herrors, hro⟩ := hlast
  have hdiff : ErrorsDiffer dataDevice mount "continue".toList := by
    refine ⟨⟨by simp [hfs], continueImage, ?_, continueImage_holds.1, 1, continueImage_holds.2,
      by decide⟩, "panic".toList, herrors, by decide⟩
    rw [hsource]
    rfl
  obtain hno | ⟨_, _, _, _, hhidden, _⟩ := Restorable.of_restores h mount hfirst mount hlast
  · exact (hno _).1 hdiff
  · exact absurd (hhidden _ List.mem_cons_self) (by rw [hro]; decide)

end Modules

end ZygiskAssistant
