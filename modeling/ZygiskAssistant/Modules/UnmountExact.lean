import ZygiskAssistant.Lib.MountDue
import ZygiskAssistant.Modules.DoUnmount

/-!
# What the unmount loop removes

The entries of the table as a mount tree, `umount2` with `MNT_DETACH` on it,
and the trees on which the loop removes exactly what it selected. Selection is
by entry but removal is by path, so a mount that is not selected may be taken
in place of the selected one below it on the same mount point, and a path may
be tried while another mount still covers it.
-/

namespace ZygiskAssistant.Modules

open Parsers MountTree

def components (path : Str) : List Str := (path.splitOn '/').filter fun name => !name.isEmpty

def mountLayout : Layout MountinfoEntry Int Str where
  id := MountinfoEntry.mountId
  parent := MountinfoEntry.parentId
  point m := components m.mountPoint

def umount2 (mounts : List MountinfoEntry) (path : Str) : List MountinfoEntry :=
  mountLayout.umount mounts (components path)

def selected (T : List MountinfoEntry) (m : MountinfoEntry) : Bool :=
  shouldUnmount m (mountinfoRootResolver T)

theorem doUnmount_eq_unmountSelected (T : List MountinfoEntry) :
    doUnmount umount2 T T = mountLayout.unmountSelected (selected T) T T := rfl

/-- The loop leaves nothing selected and keeps all that lies below nothing selected, exactly
on the trees in which the paths it tries pay for all that is due and for nothing that stays. -/
theorem doUnmount_exact_iff {T : List MountinfoEntry} (hT : mountLayout.IsTree T) :
    mountLayout.Exact (selected T) T (doUnmount umount2 T T) ↔
      mountLayout.Settled (selected T) T := by
  rw [doUnmount_eq_unmountSelected]
  exact Layout.unmountSelected_exact_iff_settled hT

def rootEntry : MountinfoEntry :=
  mountinfoEntry 20 1 (makedev 254 1) "/".toList "/".toList "ro".toList [] "ext4".toList
    "/dev/block/dm-1".toList "ro".toList

def moduleOverlay : MountinfoEntry :=
  mountinfoEntry 30 20 (makedev 0 40) "/".toList "/system".toList "ro".toList []
    "overlay".toList "KSU".toList "ro".toList

def binOverlay : MountinfoEntry :=
  mountinfoEntry 32 20 (makedev 0 43) "/".toList "/system/bin".toList "ro".toList []
    "overlay".toList "KSU".toList "ro".toList

def plainTmpfs (mountPoint : String) : MountinfoEntry :=
  mountinfoEntry 31 30 (makedev 0 41) "/".toList mountPoint.toList "rw".toList []
    "tmpfs".toList "tmpfs".toList "rw".toList

def nestedTable : List MountinfoEntry := [rootEntry, moduleOverlay, plainTmpfs "/system/bin"]

def stackedTable : List MountinfoEntry := [rootEntry, moduleOverlay, plainTmpfs "/system"]

/-- The second overlay is covered by the first, which is listed before it. -/
def buriedTable : List MountinfoEntry := [rootEntry, moduleOverlay, binOverlay]

theorem nestedTable_isTree : mountLayout.IsTree nestedTable :=
  Layout.isTree_of_forall (by decide) (by decide) (by decide) (by decide)

theorem stackedTable_isTree : mountLayout.IsTree stackedTable :=
  Layout.isTree_of_forall (by decide) (by decide) (by decide) (by decide)

theorem buriedTable_isTree : mountLayout.IsTree buriedTable :=
  Layout.isTree_of_forall (by decide) (by decide) (by decide) (by decide)

theorem nestedTable_under : ∀ m ∈ nestedTable, m ≠ rootEntry →
    mountLayout.Under nestedTable moduleOverlay m := by
  intro m hm hne
  have hchild : m = moduleOverlay ∨ mountLayout.parent m = mountLayout.id moduleOverlay ∧
      mountLayout.id m ≠ mountLayout.id moduleOverlay := by
    revert m
    decide
  rcases hchild with rfl | hchild
  · exact .refl _
  · exact Layout.Child.under ⟨by decide, hm, hchild⟩

theorem doUnmount_exact_nested : mountLayout.Settled (selected nestedTable) nestedTable ∧
    ¬ mountLayout.Settled (selected buriedTable) buriedTable := by
  constructor
  · refine (doUnmount_exact_iff nestedTable_isTree).mp ⟨by decide, ?_⟩
    intro m hm hk
    by_cases hroot : m = rootEntry
    · rw [hroot]
      decide
    · have hoverlay : selected nestedTable moduleOverlay = true := by decide
      exact absurd hk (Layout.not_kept_of_selected hoverlay (nestedTable_under m hm hroot))
  · intro hs
    have hgone := ((doUnmount_exact_iff buriedTable_isTree).mpr hs).gone binOverlay (by decide)
    revert hgone
    decide

/-- On a mount tree with an unselected mount over the overlay, the overlay is left. -/
theorem doUnmount_not_exact : mountLayout.IsTree stackedTable ∧
    moduleOverlay ∈ doUnmount umount2 stackedTable stackedTable ∧
    ¬ mountLayout.Exact (selected stackedTable) stackedTable
      (doUnmount umount2 stackedTable stackedTable) := by
  have hleft : moduleOverlay ∈ doUnmount umount2 stackedTable stackedTable := by decide
  refine ⟨stackedTable_isTree, hleft, fun he => ?_⟩
  have hno := he.gone moduleOverlay hleft
  revert hno
  decide

end ZygiskAssistant.Modules
