import ZygiskAssistant.Parsers.Mountinfo

/-!
# Selecting the mounts to detach

`shouldUnmount` of `modules.cpp`, the policy its comments describe, and the
exact inputs on which the two agree. The code compares text prefixes and sees
only the start of `lowerdir`; the policy compares whole path components and
looks at every layer.
-/

namespace ZygiskAssistant.Modules

open Parsers

def mountdirList : List Str := ["/data/adb".toList, "/debug_ramdisk".toList]

def fsnameList : List Str := ["KSU".toList, "APatch".toList, "magisk".toList, "worker".toList]

def overlay : Str := "overlay".toList
def tmpfs : Str := "tmpfs".toList
def lowerdir : Str := "lowerdir".toList
def upperdir : Str := "upperdir".toList
def workdir : Str := "workdir".toList

def startsWith (s mountdir : Str) : Bool := mountdir.isPrefixOf s

/-- `options.contains(key) && options.at(key).starts_with(mountdir)`. -/
def optionStartsWith (options : StrMap) (key mountdir : Str) : Bool :=
  (options.lookup key).any (startsWith · mountdir)

def matchesMountdir (mount : MountinfoEntry) (trueRoot mountdir : Str) : Bool :=
  (startsWith trueRoot mountdir || startsWith mount.mountPoint mountdir) ||
    (mount.filesystemType == overlay &&
      (optionStartsWith mount.superOptions lowerdir mountdir ||
        optionStartsWith mount.superOptions upperdir mountdir ||
        optionStartsWith mount.superOptions workdir mountdir))

def shouldUnmount (mount : MountinfoEntry) (rootResolver : MountinfoRootResolver) : Bool :=
  let trueRoot := rootResolver.resolveRootOf mount
  mountdirList.any (matchesMountdir mount trueRoot) ||
    ((mount.filesystemType == overlay || mount.filesystemType == tmpfs) &&
      fsnameList.contains mount.mountSource)

/-- The path is a listed directory or lies below one. -/
def Listed (path : Str) : Prop := ∃ dir ∈ mountdirList, path = dir ∨ dir ++ ['/'] <+: path

def BeginsListed (path : Str) : Prop := ∃ dir ∈ mountdirList, dir <+: path

def layers (lowerdir : Str) : List Str := lowerdir.splitOn ':'

def NamedSource (mount : MountinfoEntry) : Prop :=
  (mount.filesystemType = overlay ∨ mount.filesystemType = tmpfs) ∧ mount.mountSource ∈ fsnameList

def Policy (trueRoot : Str) (mount : MountinfoEntry) : Prop :=
  (Listed trueRoot ∨ Listed mount.mountPoint) ∨
  (mount.filesystemType = overlay ∧
    ((∃ dir ∈ mount.superOptions.lookup upperdir, Listed dir) ∨
      (∃ dir ∈ mount.superOptions.lookup workdir, Listed dir) ∨
      ∃ dirs ∈ mount.superOptions.lookup lowerdir, ∃ layer ∈ layers dirs, Listed layer)) ∨
  NamedSource mount

instance (path : Str) : Decidable (Listed path) :=
  inferInstanceAs (Decidable (∃ dir ∈ mountdirList, path = dir ∨ dir ++ ['/'] <+: path))

instance (path : Str) : Decidable (BeginsListed path) :=
  inferInstanceAs (Decidable (∃ dir ∈ mountdirList, dir <+: path))

instance (mount : MountinfoEntry) : Decidable (NamedSource mount) :=
  inferInstanceAs (Decidable (_ ∧ _))

instance (trueRoot : Str) (mount : MountinfoEntry) : Decidable (Policy trueRoot mount) :=
  inferInstanceAs (Decidable ((Listed trueRoot ∨ Listed mount.mountPoint) ∨
    (mount.filesystemType = overlay ∧ (_ ∨ _ ∨ _)) ∨ NamedSource mount))

/-- The paths of the entry that `shouldUnmount` compares: of `lowerdir`, the first layer. -/
def ownPaths (mount : MountinfoEntry) : List Str :=
  mount.mountPoint ::
    (if mount.filesystemType = overlay then
      ((mount.superOptions.lookup lowerdir).map fun dirs => (layers dirs).headD []).toList ++
        (mount.superOptions.lookup upperdir).toList ++ (mount.superOptions.lookup workdir).toList
    else [])

def testedPaths (trueRoot : Str) (mount : MountinfoEntry) : List Str := trueRoot :: ownPaths mount

def laterLayers (mount : MountinfoEntry) : List Str :=
  if mount.filesystemType = overlay then
    (mount.superOptions.lookup lowerdir).elim [] fun dirs => (layers dirs).tail
  else []

/-- When the code and the policy agree: the source or a tested path settles the
matter, or a misleading prefix and a listed later layer come together or not at all. -/
def AgreesWithPolicy (trueRoot : Str) (mount : MountinfoEntry) : Prop :=
  NamedSource mount ∨ (∃ path ∈ testedPaths trueRoot mount, Listed path) ∨
    ((∃ path ∈ testedPaths trueRoot mount, BeginsListed path) ↔
      ∃ layer ∈ laterLayers mount, Listed layer)

theorem Listed.beginsListed {path : Str} (h : Listed path) : BeginsListed path := by
  obtain ⟨dir, hdir, rfl | hp⟩ := h
  · exact ⟨_, hdir, List.prefix_rfl⟩
  · exact ⟨dir, hdir, (List.prefix_append dir ['/']).trans hp⟩

theorem mountdir_no_colon {dir : Str} (h : dir ∈ mountdirList) : ':' ∉ dir := by
  revert dir
  decide

/-- A text without the separator is a prefix of the whole iff of its first piece. -/
theorem prefix_iff_prefix_head_splitOn {sep : Char} {dir : Str} (h : sep ∉ dir) (s : Str) :
    dir <+: s ↔ dir <+: (s.splitOn sep).headD [] := by
  induction s generalizing dir with
  | nil => simp
  | cons c cs ih =>
    cases dir with
    | nil => simp
    | cons d ds =>
      obtain ⟨hd, hds⟩ := not_or.mp (mt List.mem_cons.mpr h)
      rw [List.splitOn_cons_eq_if_modifyHead]
      by_cases hc : c = sep
      · subst hc
        simp [List.cons_prefix_cons, Ne.symm hd]
      · obtain ⟨l, ls, hl⟩ := List.exists_cons_of_ne_nil (List.splitOn_ne_nil sep cs)
        have hi := ih hds
        rw [hl] at hi
        simpa [hl, hc, List.cons_prefix_cons] using fun _ => hi

theorem startsWith_iff (s dir : Str) : startsWith s dir = true ↔ dir <+: s :=
  List.isPrefixOf_iff_prefix

theorem exists_beginsListed_tested (trueRoot : Str) (mount : MountinfoEntry) :
    mountdirList.any (matchesMountdir mount trueRoot) = true ↔
      ∃ path ∈ testedPaths trueRoot mount, BeginsListed path := by
  have hfirst : ∀ dir ∈ mountdirList, ∀ dirs : Str,
      dir <+: dirs ↔ dir <+: (layers dirs).headD [] := fun dir hdir dirs =>
    prefix_iff_prefix_head_splitOn (mountdir_no_colon hdir) dirs
  simp only [List.any_eq_true, matchesMountdir, optionStartsWith, Bool.or_eq_true,
    Bool.and_eq_true, beq_iff_eq, Option.any_eq_true, startsWith_iff]
  constructor
  · rintro ⟨dir, hdir, (h | h) | ⟨ht, (⟨dirs, hl, h⟩ | ⟨d, hu, h⟩) | ⟨d, hw, h⟩⟩⟩
    · exact ⟨trueRoot, by simp [testedPaths], dir, hdir, h⟩
    · exact ⟨mount.mountPoint, by simp [testedPaths, ownPaths], dir, hdir, h⟩
    · exact ⟨(layers dirs).headD [], by simp [testedPaths, ownPaths, ht, hl], dir, hdir,
        (hfirst dir hdir dirs).mp h⟩
    · exact ⟨d, by simp [testedPaths, ownPaths, ht, hu], dir, hdir, h⟩
    · exact ⟨d, by simp [testedPaths, ownPaths, ht, hw], dir, hdir, h⟩
  · rintro ⟨path, hp, dir, hdir, h⟩
    refine ⟨dir, hdir, ?_⟩
    simp only [testedPaths, ownPaths, List.mem_cons] at hp
    rcases hp with rfl | rfl | hp
    · exact Or.inl (Or.inl h)
    · exact Or.inl (Or.inr h)
    · split at hp
      · rename_i ht
        simp only [List.mem_append, Option.mem_toList, Option.map_eq_some_iff] at hp
        rcases hp with (⟨dirs, hl, rfl⟩ | hu) | hw
        · exact Or.inr ⟨ht, Or.inl (Or.inl ⟨dirs, hl, (hfirst dir hdir dirs).mpr h⟩)⟩
        · exact Or.inr ⟨ht, Or.inl (Or.inr ⟨path, hu, h⟩)⟩
        · exact Or.inr ⟨ht, Or.inr ⟨path, hw, h⟩⟩
      · cases hp

theorem shouldUnmount_iff (mount : MountinfoEntry) (rootResolver : MountinfoRootResolver) :
    shouldUnmount mount rootResolver = true ↔
      (∃ path ∈ testedPaths (rootResolver.resolveRootOf mount) mount, BeginsListed path) ∨
        NamedSource mount := by
  unfold shouldUnmount NamedSource
  rw [Bool.or_eq_true, exists_beginsListed_tested]
  simp

theorem policy_iff (trueRoot : Str) (mount : MountinfoEntry) :
    Policy trueRoot mount ↔ (∃ path ∈ testedPaths trueRoot mount, Listed path) ∨
      (∃ layer ∈ laterLayers mount, Listed layer) ∨ NamedSource mount := by
  have hlayers : ∀ dirs : Str, ∃ l ls, layers dirs = l :: ls := fun dirs =>
    List.exists_cons_of_ne_nil (List.splitOn_ne_nil ':' dirs)
  unfold Policy testedPaths ownPaths laterLayers
  by_cases ht : mount.filesystemType = overlay
  · cases hl : mount.superOptions.lookup lowerdir with
    | none => simp [ht]; grind
    | some dirs =>
      obtain ⟨l, ls, he⟩ := hlayers dirs
      simp [ht, he]
      grind
  · simp [ht, or_assoc]

theorem verdict_iff_iff {begins listed later named : Prop} (h : listed → begins) :
    ((begins ∨ named) ↔ (listed ∨ later ∨ named)) ↔ named ∨ listed ∨ (begins ↔ later) := by
  by_cases hn : named <;> by_cases hl : listed <;> simp [hn, hl, h]

theorem shouldUnmount_iff_policy_iff (mount : MountinfoEntry)
    (rootResolver : MountinfoRootResolver) :
    (shouldUnmount mount rootResolver = true ↔ Policy (rootResolver.resolveRootOf mount) mount) ↔
      AgreesWithPolicy (rootResolver.resolveRootOf mount) mount := by
  rw [shouldUnmount_iff, policy_iff, AgreesWithPolicy]
  apply verdict_iff_iff
  rintro ⟨path, hp, h⟩
  exact ⟨path, hp, h.beginsListed⟩

def adbfooMount : MountinfoEntry :=
  mountinfoEntry 40 25 (makedev 254 1) "/".toList "/data/adbfoo".toList "rw".toList []
    "ext4".toList "/dev/block/dm-1".toList "rw".toList

def secondLayerMount : MountinfoEntry :=
  mountinfoEntry 41 25 (makedev 0 30) "/".toList "/system".toList "ro".toList []
    "overlay".toList "overlay".toList "ro,lowerdir=/system:/data/adb/modules/m".toList

/-- The first mount is selected against the policy, the second escapes it. -/
theorem shouldUnmount_ne_policy :
    ¬ (shouldUnmount adbfooMount ⟨∅⟩ = true ↔
        Policy (MountinfoRootResolver.resolveRootOf ⟨∅⟩ adbfooMount) adbfooMount) ∧
      ¬ (shouldUnmount secondLayerMount ⟨∅⟩ = true ↔
        Policy (MountinfoRootResolver.resolveRootOf ⟨∅⟩ secondLayerMount) secondLayerMount) := by
  decide

end ZygiskAssistant.Modules
