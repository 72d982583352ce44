import ZygiskAssistant.Modules.ShouldUnmount

/-!
# The unmount loop

`doUnmount` walks the table of mounts from its end and detaches the mount point
of every selected entry. `umount2` is a parameter: what it does to the state is
said where the loop is used.
-/

namespace ZygiskAssistant.Modules

open Parsers

universe u

variable {σ : Type u}

def doUnmount (umount2 : σ → Str → σ) (mountInfos : List MountinfoEntry) (s : σ) : σ :=
  let rootResolver := mountinfoRootResolver mountInfos
  mountInfos.reverse.foldl
    (fun s it => if shouldUnmount it rootResolver then umount2 s it.mountPoint else s) s

def selectedEntries (mountInfos : List MountinfoEntry) : List MountinfoEntry :=
  mountInfos.filter fun it => shouldUnmount it (mountinfoRootResolver mountInfos)

/-- The paths that the loop passes to `umount2`, in order. -/
def umountPaths (mountInfos : List MountinfoEntry) : List Str :=
  (selectedEntries mountInfos).reverse.map MountinfoEntry.mountPoint

theorem doUnmount_eq_foldl (umount2 : σ → Str → σ) (mountInfos : List MountinfoEntry) (s : σ) :
    doUnmount umount2 mountInfos s = (umountPaths mountInfos).foldl umount2 s := by
  unfold doUnmount umountPaths selectedEntries
  rw [← List.filter_reverse, List.foldl_map, List.foldl_filter]

end ZygiskAssistant.Modules
