import ZygiskAssistant.Lib.MountLoop
import ZygiskAssistant.Modules.RootStability
import ZygiskAssistant.Modules.UnmountExact

/-!
# `doUnmount` after a `doUnmount` that did not finish

The loop reads the table anew, so what an earlier one has left undone is done
by the next, as long as the mounts that are left are judged as before. They
are, where every entry that needs its true root is judged by a mount that
stays, or that does not go before it.
-/

namespace ZygiskAssistant.Modules

open Parsers MountTree

def rootMountOf (mountInfos : List MountinfoEntry) (device : DevT) : Option MountinfoEntry :=
  (mountInfos.filter fun m => m.root == ['/'] && m.device == device).getLast?

/-- Every entry is selected by itself, or judged by a root mount that stays, or by one that
does not go before it. -/
def Anchored (T : List MountinfoEntry) : Prop :=
  ∀ m ∈ T, SelectedByItself m ∨ ∀ r ∈ rootMountOf T m.device,
    mountLayout.Kept (selected T) T r ∨ mountLayout.Under T r m

/-- Of no device are there two mounts, of which one stands for its root. -/
theorem anchored_of_self {T : List MountinfoEntry}
    (hself : ∀ m ∈ T, ∀ r ∈ rootMountOf T m.device, r = m) : Anchored T := by
  intro m hm
  right
  intro r hr
  rw [hself m hm r hr]
  exact Or.inr (Layout.Under.refl m)

theorem getLast?_of_sublist {α : Type} {l l' : List α} {a : α} (hsub : l.Sublist l')
    (hnd : l'.Nodup) (ha : a ∈ l) (hlast : l'.getLast? = some a) : l.getLast? = some a := by
  obtain ⟨front, rfl⟩ := List.getLast?_eq_some_iff.mp hlast
  obtain ⟨l₁, l₂, rfl, hfront, hend⟩ := List.sublist_append_iff.mp hsub
  have hnot : a ∉ l₁ := fun hm =>
    (List.nodup_append.mp hnd).2.2 a (hfront.subset hm) a List.mem_cons_self rfl
  rcases List.mem_append.mp ha with hm | hm
  · exact absurd hm hnot
  · obtain rfl : l₂ = [a] := hend.eq_of_length_le (List.length_pos_of_mem hm)
    rw [List.getLast?_append]
    rfl

section Part

variable {T X : List MountinfoEntry} (hT : mountLayout.IsTree T) (hanch : Anchored T)
variable (hX : mountLayout.Remainder (selected T) T X)

include hT hanch hX

theorem selected_part {m : MountinfoEntry} (hm : m ∈ X) : selected X m = selected T m := by
  unfold selected
  rw [Bool.eq_iff_iff, shouldUnmount_iff_self, shouldUnmount_iff_self]
  rcases hanch m (hX.closed.mem hm) with hself | hjudged
  · exact ⟨fun _ => Or.inr hself, fun _ => Or.inr hself⟩
  · have hsub := hX.closed.sublist.filter fun e => e.root == ['/'] && e.device == m.device
    have hsame : lastRootMount X m.device = lastRootMount T m.device := by
      unfold lastRootMount
      cases hr : (T.filter fun e => e.root == ['/'] && e.device == m.device).getLast? with
      | none =>
        rw [List.getLast?_eq_none_iff] at hr
        rw [hr] at hsub
        rw [List.sublist_nil.mp hsub]
        rfl
      | some r =>
        have hrT := List.mem_of_getLast? hr
        obtain ⟨hrmem, hrroot⟩ := List.mem_filter.mp hrT
        have hrX : r ∈ X := by
          rcases hjudged r hr with hk | hu
          · exact hX.kept r hrmem hk
          · exact hX.closed.under_mem hu hm
        have hnd := (hT.nodup.of_map (f := mountLayout.id)).filter
          fun e => e.root == ['/'] && e.device == m.device
        rw [getLast?_of_sublist hsub hnd (List.mem_filter.mpr ⟨hrX, hrroot⟩) hr]
    rw [resolveRootOf_eq, resolveRootOf_eq, hsame]

theorem umountPaths_part : umountPaths X =
    (X.filter (selected T)).reverse.map MountinfoEntry.mountPoint := by
  have hsame : selectedEntries X = X.filter (selected T) :=
    List.filter_congr fun m hm => selected_part hT hanch hX hm
  rw [umountPaths, hsame]

theorem doUnmount_remainder (hord : mountLayout.CoveredFirst T)
    (hclear : ∀ m, mountLayout.Outermost (selected T) T m → mountLayout.Clear (selected T) T m) :
    doUnmount umount2 X X = doUnmount umount2 T T := by
  have hsame : doUnmount umount2 X X = mountLayout.unmountSelected (selected T) X X := by
    rw [doUnmount_eq_foldl, umountPaths_part hT hanch hX, List.foldl_map,
      ← List.filter_reverse, List.foldl_filter]
    rfl
  rw [hsame, doUnmount_eq_unmountSelected]
  exact hX.unmountSelected_eq hT hord hclear

end Part

def attempt (mounts : List MountinfoEntry) (call : Str × Bool) : List MountinfoEntry :=
  if call.2 then umount2 mounts call.1 else mounts

/-- Tables that loops over `T` leave that were broken off, one after the other. -/
inductive Interrupted (T : List MountinfoEntry) : List MountinfoEntry → Prop
  | none : Interrupted T T
  | loop {X : List MountinfoEntry} {calls : List (Str × Bool)} : Interrupted T X →
      calls.map Prod.fst <+: umountPaths X → Interrupted T (calls.foldl attempt X)

/-- The loop over `T` has come to `X`, with these paths to come; some calls may have failed. -/
def LoopAt (sel : MountinfoEntry → Bool) (T X : List MountinfoEntry) (rest : List Str) : Prop :=
  ∃ todo, rest = todo.map MountinfoEntry.mountPoint ∧ mountLayout.Faltering sel T X todo

theorem LoopAt.attempt {sel : MountinfoEntry → Bool} {T X : List MountinfoEntry} {path : Str}
    {rest : List Str} (hT : mountLayout.IsTree T) (hord : mountLayout.CoveredFirst T)
    (hclear : ∀ m, mountLayout.Outermost sel T m → mountLayout.Clear sel T m)
    (h : LoopAt sel T X (path :: rest)) (ok : Bool) :
    LoopAt sel T (Modules.attempt X (path, ok)) rest := by
  obtain ⟨todo, htodo, hf⟩ := h
  obtain ⟨s, todo, rfl, rfl, rfl⟩ := List.map_eq_cons_iff.mp htodo.symm
  cases ok with
  | true => exact ⟨todo, rfl, hf.umount hT hord hclear⟩
  | false => exact ⟨todo, rfl, hf.miss hT⟩

theorem LoopAt.foldl {sel : MountinfoEntry → Bool} {T X : List MountinfoEntry}
    (hT : mountLayout.IsTree T) (hord : mountLayout.CoveredFirst T)
    (hclear : ∀ m, mountLayout.Outermost sel T m → mountLayout.Clear sel T m)
    {calls : List (Str × Bool)} {rest : List Str}
    (h : LoopAt sel T X (calls.map Prod.fst ++ rest)) :
    LoopAt sel T (calls.foldl Modules.attempt X) rest := by
  induction calls generalizing X with
  | nil => exact h
  | cons call calls ih => exact ih (h.attempt hT hord hclear call.2)

theorem Interrupted.remainder {T X : List MountinfoEntry} (h : Interrupted T X)
    (hT : mountLayout.IsTree T) (hord : mountLayout.CoveredFirst T) (hanch : Anchored T)
    (hclear : ∀ m, mountLayout.Outermost (selected T) T m → mountLayout.Clear (selected T) T m) :
    mountLayout.Remainder (selected T) T X := by
  induction h with
  | none => exact .refl T
  | @loop X calls _ hcalls hX =>
    obtain ⟨rest, hrest⟩ := hcalls
    have hpart := hX.closed.isTree hT
    have hclear' : ∀ m, mountLayout.Outermost (selected T) X m →
        mountLayout.Clear (selected T) X m := fun m hm =>
      hX.closed.clear hT (hclear m (hX.closed.outermost hm))
    have hstart : LoopAt (selected T) X X (calls.map Prod.fst ++ rest) := by
      rw [hrest, umountPaths_part hT hanch hX]
      exact ⟨_, rfl, .start⟩
    have hord' := hX.closed.coveredFirst hT hord
    obtain ⟨_, _, hend⟩ := hstart.foldl hpart hord' hclear'
    exact hX.trans hend.remainder

/-- Where the covered is listed first: whatever part of their calls some loops have made before
they were broken off, and whichever of the calls failed, nothing is gone that is to stay, and one
more loop leaves exactly what a single one leaves. -/
theorem doUnmount_interrupted {T X : List MountinfoEntry} (hT : mountLayout.IsTree T)
    (hord : mountLayout.CoveredFirst T) (hanch : Anchored T)
    (hclear : ∀ m, mountLayout.Outermost (selected T) T m → mountLayout.Clear (selected T) T m)
    (h : Interrupted T X) : mountLayout.Remainder (selected T) T X ∧
      doUnmount umount2 X X = doUnmount umount2 T T := by
  have hX := h.remainder hT hord hanch hclear
  exact ⟨hX, doUnmount_remainder hT hanch hX hord hclear⟩

def vendorOverlay : MountinfoEntry :=
  mountinfoEntry 31 20 (makedev 0 42) "/".toList "/vendor".toList "ro".toList []
    "overlay".toList "KSU".toList "ro".toList

def overlaysTable : List MountinfoEntry := [rootEntry, moduleOverlay, vendorOverlay]

theorem overlaysTable_beside : mountLayout.Beside overlaysTable := by
  unfold Layout.Beside
  decide

theorem overlaysTable_isTree : mountLayout.IsTree overlaysTable :=
  Layout.isTree_of_forall (by decide) (by decide) (by decide) (by decide)

theorem overlaysTable_clear {m : MountinfoEntry}
    (hm : mountLayout.Outermost (selected overlaysTable) overlaysTable m) :
    mountLayout.Clear (selected overlaysTable) overlaysTable m :=
  overlaysTable_beside.clear overlaysTable_isTree (by decide) hm

theorem overlaysTable_anchored : Anchored overlaysTable := anchored_of_self (by decide)

/-- The loop is broken off after the first of its two calls. -/
theorem doUnmount_interrupted_overlays :
    mountLayout.Remainder (selected overlaysTable) overlaysTable [rootEntry, moduleOverlay] ∧
      doUnmount umount2 [rootEntry, moduleOverlay] [rootEntry, moduleOverlay] =
        doUnmount umount2 overlaysTable overlaysTable := by
  have hcalls : [("/vendor".toList, true)].foldl attempt overlaysTable =
      [rootEntry, moduleOverlay] := by decide
  have hprefix : [("/vendor".toList, true)].map Prod.fst <+: umountPaths overlaysTable := by decide
  have hleft : Interrupted overlaysTable [rootEntry, moduleOverlay] :=
    hcalls ▸ Interrupted.none.loop hprefix
  exact doUnmount_interrupted overlaysTable_isTree overlaysTable_beside.coveredFirst
    overlaysTable_anchored
    (fun _ hm => overlaysTable_clear hm) hleft

end ZygiskAssistant.Modules
