import ZygiskAssistant.Lib.MountMap
import ZygiskAssistant.Modules.Remount
import ZygiskAssistant.Modules.UnmountAgain

/-!
# Unmounting and remounting in one namespace

The companion runs `doUnmount` and then `doRemount`, and the app may run a
`doUnmount` of its own at the same time or later. Each of them reads the table
anew. A remount changes options only, and of these the verdicts read no more
than the layers of overlays, so it does not matter how the loops and the
remounts follow one another.
-/

namespace ZygiskAssistant.Modules

open Parsers MountTree

/-- A change of the entries that leaves what `doUnmount` reads of them. -/
structure LeavesMounts (f : MountinfoEntry → MountinfoEntry) : Prop where
  mountId : ∀ m, (f m).mountId = m.mountId
  parentId : ∀ m, (f m).parentId = m.parentId
  device : ∀ m, (f m).device = m.device
  root : ∀ m, (f m).root = m.root
  mountPoint : ∀ m, (f m).mountPoint = m.mountPoint
  filesystemType : ∀ m, (f m).filesystemType = m.filesystemType
  mountSource : ∀ m, (f m).mountSource = m.mountSource
  layers : ∀ m, ∀ key ∈ [lowerdir, upperdir, workdir],
    (f m).superOptions.lookup key = m.superOptions.lookup key

namespace LeavesMounts

variable {f g : MountinfoEntry → MountinfoEntry}

protected theorem id : LeavesMounts id where
  mountId _ := rfl
  parentId _ := rfl
  device _ := rfl
  root _ := rfl
  mountPoint _ := rfl
  filesystemType _ := rfl
  mountSource _ := rfl
  layers _ _ _ := rfl

theorem comp (hg : LeavesMounts g) (hf : LeavesMounts f) : LeavesMounts (g ∘ f) where
  mountId m := (hg.mountId (f m)).trans (hf.mountId m)
  parentId m := (hg.parentId (f m)).trans (hf.parentId m)
  device m := (hg.device (f m)).trans (hf.device m)
  root m := (hg.root (f m)).trans (hf.root m)
  mountPoint m := (hg.mountPoint (f m)).trans (hf.mountPoint m)
  filesystemType m := (hg.filesystemType (f m)).trans (hf.filesystemType m)
  mountSource m := (hg.mountSource (f m)).trans (hf.mountSource m)
  layers m key hkey := (hg.layers (f m) key hkey).trans (hf.layers m key hkey)

theorem carries (hf : LeavesMounts f) : mountLayout.Carries mountLayout f where
  id := hf.mountId
  parent := hf.parentId
  point m := congrArg components (hf.mountPoint m)

theorem ownPaths_eq (hf : LeavesMounts f) (m : MountinfoEntry) : ownPaths (f m) = ownPaths m := by
  have hlayers := hf.layers m
  unfold ownPaths
  rw [hf.mountPoint, hf.filesystemType, hlayers lowerdir (by simp), hlayers upperdir (by simp),
    hlayers workdir (by simp)]

theorem lastRootMount_map (hf : LeavesMounts f) (T : List MountinfoEntry) (device : DevT) :
    lastRootMount (T.map f) device = lastRootMount T device := by
  unfold lastRootMount
  rw [List.filter_map, List.getLast?_map, Option.map_map]
  have hread : ((fun m : MountinfoEntry => m.root == ['/'] && m.device == device) ∘ f) =
      fun m => m.root == ['/'] && m.device == device := by
    funext m
    simp only [Function.comp_apply, hf.root, hf.device]
  have hpoint : MountinfoEntry.mountPoint ∘ f = MountinfoEntry.mountPoint := by
    funext m
    exact hf.mountPoint m
  rw [hread, hpoint]

theorem selected_map (hf : LeavesMounts f) (T : List MountinfoEntry) (m : MountinfoEntry) :
    selected (T.map f) (f m) = selected T m := by
  have hroot : (mountinfoRootResolver (T.map f)).resolveRootOf (f m) =
      (mountinfoRootResolver T).resolveRootOf m := by
    rw [resolveRootOf_eq, resolveRootOf_eq, hf.device, hf.root, hf.lastRootMount_map]
  unfold selected
  rw [Bool.eq_iff_iff, shouldUnmount_iff_self, shouldUnmount_iff_self, hroot, SelectedByItself,
    SelectedByItself, NamedSource, NamedSource, hf.ownPaths_eq, hf.filesystemType, hf.mountSource]

theorem doUnmount_map (hf : LeavesMounts f) (T : List MountinfoEntry) :
    doUnmount umount2 (T.map f) (T.map f) = (doUnmount umount2 T T).map f := by
  rw [doUnmount_eq_unmountSelected, doUnmount_eq_unmountSelected]
  exact hf.carries.unmountSelected (fun m _ => hf.selected_map T m) T

theorem umountPaths_map (hf : LeavesMounts f) (T : List MountinfoEntry) :
    umountPaths (T.map f) = umountPaths T := by
  have hselected : selectedEntries (T.map f) = (selectedEntries T).map f := by
    unfold selectedEntries
    rw [List.filter_map]
    congr 2
    funext m
    exact hf.selected_map T m
  rw [umountPaths, hselected, ← List.map_reverse, List.map_map, umountPaths]
  congr 1
  funext m
  exact hf.mountPoint m

theorem foldl_attempt_map (hf : LeavesMounts f) (done : List (Str × Bool))
    (X : List MountinfoEntry) :
    done.foldl attempt (X.map f) = (done.foldl attempt X).map f := by
  induction done generalizing X with
  | nil => rfl
  | cons call done ih =>
    rw [List.foldl_cons, List.foldl_cons, ← ih]
    congr 1
    unfold attempt
    split
    · exact hf.carries.umount X (components call.1)
    · rfl

theorem firstData_map (hf : LeavesMounts f) (T : List MountinfoEntry) :
    firstData (T.map f) = (firstData T).map f := by
  unfold firstData
  rw [List.find?_map]
  congr 2
  funext m
  simp only [Function.comp_apply, hf.mountPoint]

theorem effective_map (hf : LeavesMounts f) (T : List MountinfoEntry) :
    effective (T.map f) = (effective T).map f := by
  unfold effective
  rw [← List.map_reverse, List.find?_map]
  congr 2
  funext m
  simp only [Function.comp_apply, hf.mountPoint]

theorem superblockErrors (hf : LeavesMounts f) {files : Files} {m : MountinfoEntry}
    {behavior : Str} : SuperblockErrors files (f m) behavior ↔ SuperblockErrors files m behavior := by
  unfold SuperblockErrors
  rw [hf.filesystemType, hf.mountSource]

end LeavesMounts

/-- Every mount of `/data` stays, and they are mounts of one device. -/
structure DataStays (T : List MountinfoEntry) : Prop where
  kept : ∀ m ∈ T, m.mountPoint = dataDir → mountLayout.Kept (selected T) T m
  device : ∀ m ∈ T, m.mountPoint = dataDir → ∀ m' ∈ T, m'.mountPoint = dataDir →
    m.device = m'.device

theorem firstData_spec {T : List MountinfoEntry} {m : MountinfoEntry}
    (h : firstData T = some m) : m ∈ T ∧ m.mountPoint = dataDir := by
  unfold firstData at h
  have hpoint := List.find?_some h
  exact ⟨List.mem_of_find?_eq_some h, of_decide_eq_true hpoint⟩

theorem effective_spec {T : List MountinfoEntry} {m : MountinfoEntry}
    (h : effective T = some m) : m ∈ T ∧ m.mountPoint = dataDir := by
  unfold effective at h
  have hpoint := List.find?_some h
  exact ⟨List.mem_reverse.mp (List.mem_of_find?_eq_some h), of_decide_eq_true hpoint⟩

section Part

variable {T X : List MountinfoEntry} (hT : mountLayout.IsTree T) (hdata : DataStays T)
variable (hX : mountLayout.Remainder (selected T) T X)

include hT hdata hX

theorem filter_data : (X.filter fun m => m.mountPoint = dataDir) =
    T.filter fun m => m.mountPoint = dataDir := by
  have hnd : T.Nodup := hT.nodup.of_map
  refine (hX.closed.sublist.filter _).eq_of_length_le ?_
  refine (List.subperm_of_subset (hnd.filter _) ?_).length_le
  intro m hm
  obtain ⟨hmT, hpoint⟩ := List.mem_filter.mp hm
  exact List.mem_filter.mpr ⟨hX.kept m hmT (hdata.kept m hmT (of_decide_eq_true hpoint)), hpoint⟩

theorem firstData_part : firstData X = firstData T := by
  unfold firstData
  rw [← List.head?_filter, ← List.head?_filter, filter_data hT hdata hX]

theorem effective_part : effective X = effective T := by
  unfold effective
  rw [← List.head?_filter, ← List.head?_filter, List.filter_reverse, List.filter_reverse,
    filter_data hT hdata hX]

end Part

/-- What a `mount` did that set the errors option of the file system of `target`. -/
structure SetsErrors (target : MountinfoEntry) (behavior : Str)
    (g : MountinfoEntry → MountinfoEntry) : Prop extends LeavesMounts g where
  updated : ∀ m, Updated target behavior m (g m)

/-- From `T`, some loops and some remounts have led to `X`. A loop may be broken off and its
calls may fail; `f` is what the remounts did, and `calls` are those of them that succeeded. -/
inductive Passes (files : Files) (T : List MountinfoEntry) :
    List MountinfoEntry → (MountinfoEntry → MountinfoEntry) → List MountCall → Prop
  | start : Passes files T T id []
  | unmount {X : List MountinfoEntry} {f : MountinfoEntry → MountinfoEntry}
      {calls : List MountCall} {done : List (Str × Bool)} : Passes files T X f calls →
      done.map Prod.fst <+: umountPaths X → Passes files T (done.foldl attempt X) f calls
  | remount {X : List MountinfoEntry} {f g : MountinfoEntry → MountinfoEntry}
      {calls : List MountCall} {call : MountCall} {target : MountinfoEntry} {behavior : Str} :
      Passes files T X f calls → call ∈ doRemount files X → effective X = some target →
      call.data = "errors=".toList ++ behavior → SetsErrors target behavior g →
      Passes files T (X.map g) (g ∘ f) (calls ++ [call])

variable {files : Files} {T X : List MountinfoEntry} {f : MountinfoEntry → MountinfoEntry}
variable {calls : List MountCall}

theorem Passes.leavesMounts (h : Passes files T X f calls) : LeavesMounts f := by
  induction h with
  | start => exact .id
  | unmount _ _ ih => exact ih
  | remount _ _ _ _ hg ih => exact hg.toLeavesMounts.comp ih

/-- The remounts aside, the loops have led where they lead. -/
theorem Passes.interrupted (h : Passes files T X f calls) :
    ∃ Y, Interrupted T Y ∧ X = Y.map f := by
  induction h with
  | start => exact ⟨T, .none, (List.map_id T).symm⟩
  | @unmount _ f _ done hX hdone ih =>
    obtain ⟨Y, hY, rfl⟩ := ih
    have hf := hX.leavesMounts
    rw [hf.umountPaths_map] at hdone
    exact ⟨done.foldl attempt Y, hY.loop hdone, hf.foldl_attempt_map done Y⟩
  | @remount _ f g _ _ _ _ _ _ _ _ _ ih =>
    obtain ⟨Y, hY, rfl⟩ := ih
    exact ⟨Y, hY, List.map_map⟩

theorem doRemount_call {call : MountCall} {m : MountinfoEntry} {behavior : Str}
    (hcall : call ∈ remountCall files m) (hb : call.data = "errors=".toList ++ behavior) :
    SuperblockErrors files m behavior := by
  have hdiff : ∃ behavior, ErrorsDiffer files m behavior := by
    by_contra hno
    rw [remountCall_eq_none_iff.mpr (not_exists.mp hno)] at hcall
    cases hcall
  obtain ⟨sbErrors, hd⟩ := hdiff
  rw [hd.remountCall_eq] at hcall
  obtain rfl := Option.some.inj hcall
  obtain rfl := List.append_cancel_left hb
  exact hd.1

section Ordered

variable (hT : mountLayout.IsTree T) (hord : mountLayout.CoveredFirst T) (hanch : Anchored T)
variable (hdata : DataStays T)
variable (hclear : ∀ m, mountLayout.Outermost (selected T) T m →
  mountLayout.Clear (selected T) T m)

include hT hord hanch hdata hclear

theorem Passes.firstData_eq (h : Passes files T X f calls) :
    firstData X = (firstData T).map f := by
  obtain ⟨Y, hY, rfl⟩ := h.interrupted
  rw [h.leavesMounts.firstData_map, firstData_part hT hdata (hY.remainder hT hord hanch hclear)]

theorem Passes.effective_eq (h : Passes files T X f calls) :
    effective X = (effective T).map f := by
  obtain ⟨Y, hY, rfl⟩ := h.interrupted
  rw [h.leavesMounts.effective_map, effective_part hT hdata (hY.remainder hT hord hanch hclear)]

/-- The first remount that succeeds settles the matter. -/
theorem Passes.settled (h : Passes files T X f calls) :
    calls = [] ∨ calls.length = 1 ∧ doRemount files X = [] := by
  induction h with
  | start => exact Or.inl rfl
  | @unmount X f calls done hX hdone ih =>
    refine ih.imp_right fun ⟨hone, hquiet⟩ => ⟨hone, ?_⟩
    rw [doRemount_eq, (hX.unmount hdone).firstData_eq hT hord hanch hdata hclear,
      ← hX.firstData_eq hT hord hanch hdata hclear, ← doRemount_eq]
    exact hquiet
  | @remount X f g calls call target behavior hX hcall htarget hb hg ih =>
    have hnone : calls = [] := by
      refine ih.resolve_right fun ⟨_, hquiet⟩ => ?_
      rw [hquiet] at hcall
      cases hcall
    refine Or.inr ⟨by rw [hnone]; rfl, ?_⟩
    rw [doRemount_eq] at hcall ⊢
    rw [hg.firstData_map]
    cases hfirst : firstData X with
    | none => rfl
    | some first =>
      rw [hfirst] at hcall
      have hsb := doRemount_call (Option.mem_toList.mp hcall) hb
      have hdev : first.device = target.device := by
        rw [hX.firstData_eq hT hord hanch hdata hclear] at hfirst
        rw [hX.effective_eq hT hord hanch hdata hclear] at htarget
        obtain ⟨m, hm, rfl⟩ := Option.map_eq_some_iff.mp hfirst
        obtain ⟨m', hm', rfl⟩ := Option.map_eq_some_iff.mp htarget
        obtain ⟨hmT, hpoint⟩ := firstData_spec hm
        obtain ⟨hmT', hpoint'⟩ := effective_spec hm'
        have hf := hX.leavesMounts
        rw [hf.device, hf.device]
        exact hdata.device m hmT hpoint m' hmT' hpoint'
      have hset := remountCall_eq_none (hg.superblockErrors.mpr hsb) ((hg.updated first).set hdev)
      rw [Option.map_some, Option.bind_some, hset]
      rfl

/-- Where the covered is listed first, in whatever order loops, broken off or not, and remounts
have run: one more loop leaves
what a single one leaves, with the options that the remounts have set; a remount sees what
it sees where no loop has run; and no more than one call of `mount` succeeds in all. -/
theorem passes_in_any_order (h : Passes files T X f calls) :
    doUnmount umount2 X X = (doUnmount umount2 T T).map f ∧
      doRemount files X = doRemount files (T.map f) ∧
      calls.length ≤ 1 ∧ (calls ≠ [] → doRemount files X = []) := by
  refine ⟨?_, ?_, ?_, ?_⟩
  · obtain ⟨Y, hY, rfl⟩ := h.interrupted
    rw [h.leavesMounts.doUnmount_map, (doUnmount_interrupted hT hord hanch hclear hY).2]
  · rw [doRemount_eq, doRemount_eq, h.firstData_eq hT hord hanch hdata hclear,
      h.leavesMounts.firstData_map]
  · obtain hnone | ⟨hone, _⟩ := h.settled hT hord hanch hdata hclear
    · rw [hnone]
      exact Nat.zero_le 1
    · exact hone.le
  · intro hcalls
    obtain hnone | ⟨_, hquiet⟩ := h.settled hT hord hanch hdata hclear
    · exact absurd hnone hcalls
    · exact hquiet

end Ordered

def dataEntry : MountinfoEntry :=
  mountinfoEntry 25 20 (makedev 254 5) "/".toList "/data".toList "rw,nosuid".toList []
    "ext4".toList "/dev/block/dm-5".toList "rw,errors=panic".toList

def phoneTable : List MountinfoEntry := [rootEntry, dataEntry, moduleOverlay, vendorOverlay]

def setContinue (m : MountinfoEntry) : MountinfoEntry :=
  if m.device = dataEntry.device then
    { m with superOptions := m.superOptions.insert errorsKey "continue".toList }
  else m

theorem setContinue_setsErrors : SetsErrors dataEntry "continue".toList setContinue := by
  have hkeys : ∀ key ∈ [lowerdir, upperdir, workdir], key ≠ errorsKey := by decide
  constructor
  · constructor
    all_goals
      intro m
      unfold setContinue
      split
    any_goals rfl
    · intro key hkey
      exact Finmap.lookup_insert_of_ne _ (hkeys key hkey)
    · exact fun _ _ => rfl
  · intro m
    unfold setContinue
    split
    · rename_i hdev
      refine ⟨rfl, rfl, rfl, rfl, fun _ errors herrors => ?_, fun hne => absurd hdev hne⟩
      exact (Option.some.inj ((Finmap.lookup_insert _).symm.trans herrors)).symm
    · rename_i hdev
      exact ⟨rfl, rfl, rfl, rfl, fun h => absurd h hdev, fun _ => rfl⟩

theorem dataEntry_differs : ErrorsDiffer dataDevice dataEntry "continue".toList := by
  refine ⟨⟨by decide, continueImage, ?_, continueImage_holds.1, 1, continueImage_holds.2,
    by decide⟩, "panic".toList, by decide, by decide⟩
  exact if_pos rfl

theorem phoneTable_beside : mountLayout.Beside phoneTable := by
  unfold Layout.Beside
  decide

theorem phoneTable_isTree : mountLayout.IsTree phoneTable :=
  Layout.isTree_of_forall (by decide) (by decide) (by decide) (by decide)

theorem phoneTable_clear {m : MountinfoEntry}
    (hm : mountLayout.Outermost (selected phoneTable) phoneTable m) :
    mountLayout.Clear (selected phoneTable) phoneTable m :=
  phoneTable_beside.clear phoneTable_isTree (by decide) hm

theorem phoneTable_anchored : Anchored phoneTable := anchored_of_self (by decide)

theorem phoneTable_dataStays : DataStays phoneTable := by
  have honly : ∀ m ∈ phoneTable, m.mountPoint = dataDir → m = dataEntry := by decide
  constructor
  · intro m hm hpoint
    rw [honly m hm hpoint]
    exact Layout.kept_of_forall phoneTable_isTree (by decide) (by decide)
  · intro m hm hpoint m' hm' hpoint'
    rw [honly m hm hpoint, honly m' hm' hpoint']

/-- The loop is broken off after the first of its calls, and then `/data` is remounted. -/
theorem passes_in_any_order_phone :
    let X := [rootEntry, dataEntry, moduleOverlay].map setContinue
    doUnmount umount2 X X = (doUnmount umount2 phoneTable phoneTable).map setContinue ∧
      doRemount dataDevice X = doRemount dataDevice (phoneTable.map setContinue) ∧
      doRemount dataDevice X = [] := by
  have hcalls : [("/vendor".toList, true)].foldl attempt phoneTable =
      [rootEntry, dataEntry, moduleOverlay] := by decide
  have hprefix : [("/vendor".toList, true)].map Prod.fst <+: umountPaths phoneTable := by decide
  have hfirst : firstData [rootEntry, dataEntry, moduleOverlay] = some dataEntry := by decide
  have hlast : effective [rootEntry, dataEntry, moduleOverlay] = some dataEntry := by decide
  have hloop := (@Passes.start dataDevice phoneTable).unmount hprefix
  rw [hcalls] at hloop
  have hcall : ⟨dataDir, remountFlags dataEntry.mountOptions, "errors=continue".toList⟩ ∈
      doRemount dataDevice [rootEntry, dataEntry, moduleOverlay] := by
    rw [doRemount_eq, hfirst, Option.bind_some, dataEntry_differs.remountCall_eq]
    exact List.mem_singleton_self _
  have hremount := hloop.remount hcall hlast rfl setContinue_setsErrors
  obtain ⟨hunmount, hsees, _, hsettled⟩ := passes_in_any_order phoneTable_isTree
    phoneTable_beside.coveredFirst phoneTable_anchored phoneTable_dataStays
    (fun _ hm => phoneTable_clear hm) hremount
  exact ⟨hunmount, hsees, hsettled (List.cons_ne_nil _ _)⟩

end ZygiskAssistant.Modules
