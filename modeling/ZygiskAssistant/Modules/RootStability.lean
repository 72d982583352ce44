import ZygiskAssistant.Modules.ShouldUnmount

/-!
# Root resolution under another mount of a filesystem root

The resolver keeps the last mount point at which the root of a device is
mounted, and judges every entry of the device by it. One more mount of that
root moves the judgement of all of them; this file says exactly when no
verdict changes.
-/

namespace ZygiskAssistant.Modules

open Parsers

def lastRootMount (mountInfos : List MountinfoEntry) (device : DevT) : Option Str :=
  ((mountInfos.filter fun m => m.root == ['/'] && m.device == device).getLast?).map
    MountinfoEntry.mountPoint

def joinRoot (mountRoot root : Str) : Str :=
  if mountRoot ≠ ['/'] then mountRoot ++ root else root

/-- The verdict of `shouldUnmount` that needs no true root. -/
def SelectedByItself (mount : MountinfoEntry) : Prop :=
  (∃ path ∈ ownPaths mount, BeginsListed path) ∨ NamedSource mount

theorem lookup_addMount (resolver : MountinfoRootResolver) (e : MountinfoEntry) (device : DevT) :
    (resolver.addMount e).deviceMountMap.lookup device =
      if e.root = ['/'] ∧ e.device = device then some e.mountPoint
      else resolver.deviceMountMap.lookup device := by
  unfold MountinfoRootResolver.addMount
  by_cases hr : e.root = ['/']
  · by_cases hd : e.device = device
    · subst hd
      simp [hr]
    · simp [hr, hd, Finmap.lookup_insert_of_ne _ (Ne.symm hd)]
  · simp [hr]

theorem lastRootMount_append (T : List MountinfoEntry) (e : MountinfoEntry) (device : DevT) :
    lastRootMount (T ++ [e]) device =
      if e.root = ['/'] ∧ e.device = device then some e.mountPoint
      else lastRootMount T device := by
  unfold lastRootMount
  rw [List.filter_append]
  by_cases h : e.root = ['/'] ∧ e.device = device
  · rw [if_pos h, List.filter_cons_of_pos (by simpa using h)]
    simp
  · rw [if_neg h, List.filter_cons_of_neg (by simpa using h)]
    simp

theorem lookup_mountinfoRootResolver (T : List MountinfoEntry) (device : DevT) :
    (mountinfoRootResolver T).deviceMountMap.lookup device = lastRootMount T device := by
  induction T using List.reverseRecOn with
  | nil => rfl
  | append_singleton T e ih =>
    rw [lastRootMount_append, ← ih, ← lookup_addMount]
    simp [mountinfoRootResolver]

theorem resolveRootOf_eq (T : List MountinfoEntry) (m : MountinfoEntry) :
    (mountinfoRootResolver T).resolveRootOf m =
      (lastRootMount T m.device).elim m.root fun mountRoot => joinRoot mountRoot m.root := by
  unfold MountinfoRootResolver.resolveRootOf joinRoot
  rw [lookup_mountinfoRootResolver]
  cases lastRootMount T m.device <;> rfl

theorem shouldUnmount_iff_self (mount : MountinfoEntry) (rootResolver : MountinfoRootResolver) :
    shouldUnmount mount rootResolver = true ↔
      BeginsListed (rootResolver.resolveRootOf mount) ∨ SelectedByItself mount := by
  rw [shouldUnmount_iff, SelectedByItself]
  simp [testedPaths, or_assoc]

/-- An entry of the device of `e` keeps its verdict when it needs no true root, or
when both root mounts place it among the listed directories or both do not. -/
def KeepsVerdict (T : List MountinfoEntry) (e m : MountinfoEntry) : Prop :=
  ∀ mountRoot ∈ lastRootMount T e.device, SelectedByItself m ∨
    (BeginsListed (joinRoot mountRoot m.root) ↔ BeginsListed (joinRoot e.mountPoint m.root))

theorem exists_lastRootMount {T : List MountinfoEntry} {device : DevT}
    (h : ∃ m ∈ T, m.device = device ∧ m.root = ['/']) : ∃ mountRoot,
      lastRootMount T device = some mountRoot := by
  obtain ⟨m, hm, hd, hr⟩ := h
  have hf : m ∈ T.filter fun m => m.root == ['/'] && m.device == device := by
    simp [hm, hd, hr]
  obtain ⟨l, hl⟩ := Option.isSome_iff_exists.mp
    (List.getLast?_isSome.mpr (List.ne_nil_of_mem hf))
  exact ⟨l.mountPoint, by simp [lastRootMount, hl]⟩

theorem verdict_eq_iff {T : List MountinfoEntry} {e m : MountinfoEntry} (he : e.root = ['/'])
    (hd : m.device = e.device) {mountRoot : Str} (hr : lastRootMount T e.device = some mountRoot) :
    shouldUnmount m (mountinfoRootResolver T) = shouldUnmount m (mountinfoRootResolver (T ++ [e])) ↔
      KeepsVerdict T e m := by
  have hbefore : (mountinfoRootResolver T).resolveRootOf m = joinRoot mountRoot m.root := by
    rw [resolveRootOf_eq, hd, hr]
    rfl
  have hafter : (mountinfoRootResolver (T ++ [e])).resolveRootOf m =
      joinRoot e.mountPoint m.root := by
    rw [resolveRootOf_eq, lastRootMount_append, if_pos ⟨he, hd.symm⟩]
    rfl
  rw [Bool.eq_iff_iff, shouldUnmount_iff_self, shouldUnmount_iff_self, hbefore, hafter,
    KeepsVerdict, hr]
  simp only [Option.mem_def, Option.some.injEq, forall_eq']
  by_cases hs : SelectedByItself m <;> simp [hs]

/-- No verdict in the table changes exactly when every entry of the device keeps its own. -/
theorem rootMount_keeps_verdicts_iff (T : List MountinfoEntry) (e : MountinfoEntry)
    (hT : ∃ m ∈ T, m.device = e.device ∧ m.root = ['/']) (he : e.root = ['/']) :
    (∀ m ∈ T, shouldUnmount m (mountinfoRootResolver T) =
        shouldUnmount m (mountinfoRootResolver (T ++ [e]))) ↔
      ∀ m ∈ T, m.device = e.device → KeepsVerdict T e m := by
  obtain ⟨mountRoot, hr⟩ := exists_lastRootMount hT
  constructor
  · intro h m hm hd
    exact (verdict_eq_iff he hd hr).mp (h m hm)
  · intro h m hm
    by_cases hd : m.device = e.device
    · exact (verdict_eq_iff he hd hr).mpr (h m hm hd)
    · have hsame : (mountinfoRootResolver (T ++ [e])).resolveRootOf m =
          (mountinfoRootResolver T).resolveRootOf m := by
        rw [resolveRootOf_eq, resolveRootOf_eq, lastRootMount_append,
          if_neg (fun hc => hd hc.2.symm)]
      rw [Bool.eq_iff_iff, shouldUnmount_iff_self, shouldUnmount_iff_self, hsame]

def dataTable : List MountinfoEntry :=
  [mountinfoEntry 30 1 (makedev 254 9) "/".toList "/data".toList "rw".toList []
      "ext4".toList "/dev/block/dm-9".toList "rw".toList,
    mountinfoEntry 31 1 (makedev 254 9) "/adb/modules/m/bin".toList "/system/bin".toList
      "ro".toList [] "ext4".toList "/dev/block/dm-9".toList "rw".toList]

def rootMountAt (mountPoint : String) : MountinfoEntry :=
  mountinfoEntry 32 1 (makedev 254 9) "/".toList mountPoint.toList "rw".toList []
    "ext4".toList "/dev/block/dm-9".toList "rw".toList

theorem rootMount_keeps_verdicts_data :
    (∀ m ∈ dataTable, shouldUnmount m (mountinfoRootResolver dataTable) =
        shouldUnmount m (mountinfoRootResolver (dataTable ++ [rootMountAt "/data"]))) ↔
      ∀ m ∈ dataTable, m.device = (rootMountAt "/data").device →
        KeepsVerdict dataTable (rootMountAt "/data") m :=
  rootMount_keeps_verdicts_iff dataTable (rootMountAt "/data") (by decide) (by decide)

/-- Mounted below `/debug_ramdisk` as well, the root makes the genuine `/data` selected;
mounted below `/mnt`, it lets the module directory escape. -/
theorem rootMount_changes_verdicts :
    (∃ m ∈ dataTable, m.mountPoint = "/data".toList ∧
      shouldUnmount m (mountinfoRootResolver dataTable) = false ∧
      shouldUnmount m (mountinfoRootResolver
        (dataTable ++ [rootMountAt "/debug_ramdisk/data"])) = true) ∧
    ∃ m ∈ dataTable, m.mountPoint = "/system/bin".toList ∧
      shouldUnmount m (mountinfoRootResolver dataTable) = true ∧
      shouldUnmount m (mountinfoRootResolver (dataTable ++ [rootMountAt "/mnt"])) = false := by
  decide

end ZygiskAssistant.Modules
