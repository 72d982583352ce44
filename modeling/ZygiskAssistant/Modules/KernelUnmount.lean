import ZygiskAssistant.Lib.MountMissed
import ZygiskAssistant.Modules.MountinfoRoundTrip
import ZygiskAssistant.Modules.UnmountExact

/-!
# The unmount loop against the kernel's own table

The kernel keeps records and prints them; the loop reads the text, judges the
entries and hands spelled mount points back to the kernel, which resolves them
through its records. A mount point that needs an escape comes back as another
path, so such a mount is never found.
-/

namespace ZygiskAssistant.Modules

open Parsers MountTree

deriving instance DecidableEq for MountRecord

def recordLayout : Layout MountRecord Int Str where
  id := MountRecord.mountId
  parent := MountRecord.parentId
  point r := components r.mountPoint

def kernelUmount2 (rs : List MountRecord) (path : Str) : List MountRecord :=
  recordLayout.umount rs (components path)

/-- What the loop reads of the table. -/
def printedEntries (rs : List MountRecord) : List MountinfoEntry :=
  parseSelfMountinfo false (some (render rs)) []

def unmountRecords (rs : List MountRecord) : List MountRecord :=
  doUnmount kernelUmount2 (printedEntries rs) rs

/-- The record has an entry, and the loop judges that it should be unmounted. -/
def selectedRecord (rs : List MountRecord) (r : MountRecord) : Bool :=
  r.complete && shouldUnmount r.entry (mountinfoRootResolver (printedEntries rs))

def MountRecord.plain (r : MountRecord) : Bool := escape r.mountPoint == r.mountPoint

/-- No escaped spelling of a selected mount point is the mount point of another mount. -/
def Unaliased (rs : List MountRecord) : Prop :=
  ∀ r ∈ rs, selectedRecord rs r = true → r.plain = false →
    ∀ q ∈ rs, recordLayout.point q ≠ components (escape r.mountPoint)

theorem mem_splitOn_iff (sep c : Char) (s : Str) :
    (∃ w ∈ s.splitOn sep, c ∈ w) ↔ c ∈ s ∧ c ≠ sep := by
  induction s with
  | nil => simp
  | cons d ds ih =>
    simp only [List.splitOn_cons_eq_if_modifyHead, beq_iff_eq]
    obtain ⟨w, ws, hw⟩ := List.exists_cons_of_ne_nil (List.splitOn_ne_nil sep ds)
    rw [hw] at ih ⊢
    by_cases hd : d = sep
    · subst hd
      have hskip : (∃ v ∈ [] :: w :: ws, c ∈ v) ↔ ∃ v ∈ w :: ws, c ∈ v := by simp
      rw [if_pos rfl, hskip, ih, List.mem_cons]
      constructor
      · exact fun hc => ⟨Or.inr hc.1, hc.2⟩
      · exact fun hc => ⟨hc.1.resolve_left hc.2, hc.2⟩
    · have hhead : (∃ v ∈ (d :: w) :: ws, c ∈ v) ↔ c = d ∨ ∃ v ∈ w :: ws, c ∈ v := by
        simp [or_assoc]
      rw [if_neg hd, List.modifyHead_cons, hhead, ih, List.mem_cons, or_and_right]
      refine or_congr_left ⟨?_, And.left⟩
      rintro rfl
      exact ⟨rfl, hd⟩

theorem mem_components_iff (c : Char) (path : Str) :
    (∃ w ∈ components path, c ∈ w) ↔ c ∈ path ∧ c ≠ '/' := by
  rw [← mem_splitOn_iff '/' c path]
  constructor
  · rintro ⟨w, hw, hc⟩
    exact ⟨w, List.mem_of_mem_filter hw, hc⟩
  · rintro ⟨w, hw, hc⟩
    refine ⟨w, List.mem_filter.mpr ⟨hw, ?_⟩, hc⟩
    simpa using List.ne_nil_of_mem hc

theorem escape_eq_self_iff_components (path : Str) :
    escape path = path ↔ ∀ w ∈ components path, ∀ c ∈ w, ¬ NeedsEscape c := by
  rw [escape_eq_self_iff]
  constructor
  · intro h w hw c hc
    exact h c ((mem_components_iff c path).mp ⟨w, hw, hc⟩).1
  · intro h c hc
    by_cases hslash : c = '/'
    · subst hslash
      simp [NeedsEscape]
    · obtain ⟨w, hw, hcw⟩ := (mem_components_iff c path).mpr ⟨hc, hslash⟩
      exact h w hw c hcw

theorem plain_of_point {a b : MountRecord} (h : recordLayout.point a = recordLayout.point b) :
    a.plain = b.plain := by
  have hpoint : components a.mountPoint = components b.mountPoint := h
  rw [Bool.eq_iff_iff, MountRecord.plain, MountRecord.plain, beq_iff_eq, beq_iff_eq,
    escape_eq_self_iff_components, escape_eq_self_iff_components, hpoint]

theorem unmountRecords_eq {rs : List MountRecord} (h : ∀ r ∈ rs, Readable r) :
    unmountRecords rs = rs.reverse.foldl (fun X r =>
      if selectedRecord rs r then recordLayout.umount X (components (escape r.mountPoint)) else X)
      rs := by
  have hentries : printedEntries rs = (rs.filter MountRecord.complete).map MountRecord.entry :=
    parseSelfMountinfo_render h []
  change (printedEntries rs).reverse.foldl (fun X m =>
    if shouldUnmount m (mountinfoRootResolver (printedEntries rs)) then
      kernelUmount2 X m.mountPoint else X) rs = _
  unfold selectedRecord
  generalize mountinfoRootResolver (printedEntries rs) = rootResolver
  rw [hentries, ← List.map_reverse, List.foldl_map, ← List.filter_reverse, List.foldl_filter]
  congr 1
  funext X r
  cases r.complete with
  | false => rfl
  | true => rfl

/-- Where the covered is listed first and no path is mistaken for another: exactly the selected
records are removed, and all below nothing selected are kept, when every outermost selected
record is clear and its mount point needs no escape. -/
theorem unmountRecords_exact_iff {rs : List MountRecord} (h : ∀ r ∈ rs, Readable r)
    (hT : recordLayout.IsTree rs) (hord : recordLayout.CoveredFirst rs) (hu : Unaliased rs) :
    recordLayout.Exact (selectedRecord rs) rs (unmountRecords rs) ↔
      ∀ r, recordLayout.Outermost (selectedRecord rs) rs r →
        recordLayout.Clear (selectedRecord rs) rs r ∧ escape r.mountPoint = r.mountPoint := by
  have hrun : unmountRecords rs =
      recordLayout.unmountSelected (Layout.reached (selectedRecord rs) MountRecord.plain) rs rs := by
    rw [unmountRecords_eq h]
    refine Layout.foldl_paths_eq (fun _ hm => hm) ?_ hu fun _ hm => List.mem_reverse.mp hm
    intro r hr
    exact congrArg components (beq_iff_eq.mp hr)
  rw [hrun, Layout.unmountSelected_reached_exact_iff hT hord fun _ _ => plain_of_point]
  constructor
  · intro hall r hr
    obtain ⟨hclear, hplain⟩ := hall r hr
    exact ⟨hclear, beq_iff_eq.mp hplain⟩
  · intro hall r hr
    obtain ⟨hclear, hplain⟩ := hall r hr
    exact ⟨hclear, beq_iff_eq.mpr hplain⟩

def rootRecord : MountRecord :=
  { plainRecord with mountPoint := plainRecord.root, mountPoint_ne := plainRecord.root_ne }

def hiddenRecord : MountRecord :=
  { spaceRecord with
    mountId := 40
    parentId := 36
    ids_int := by decide
    filesystemType := "tmpfs".toList
    filesystemType_ne := by decide
    source := "magisk".toList }

def hiddenRecords : List MountRecord := [rootRecord, hiddenRecord]

theorem hiddenRecords_readable : ∀ r ∈ hiddenRecords, Readable r := by
  intro r hr
  simp only [hiddenRecords, List.mem_cons, List.not_mem_nil, or_false] at hr
  rcases hr with rfl | rfl
  · exact ⟨by decide, by decide, by decide, by decide, by decide, by decide⟩
  · exact ⟨by decide, by decide, by decide, by decide, by decide, by decide⟩

theorem unmountRecords_exact_hidden :
    recordLayout.Exact (selectedRecord hiddenRecords) hiddenRecords
        (unmountRecords hiddenRecords) ↔
      ∀ r, recordLayout.Outermost (selectedRecord hiddenRecords) hiddenRecords r →
        recordLayout.Clear (selectedRecord hiddenRecords) hiddenRecords r ∧
          escape r.mountPoint = r.mountPoint := by
  refine unmountRecords_exact_iff hiddenRecords_readable ?_ ?_ ?_
  · exact Layout.isTree_of_forall (by decide) (by decide) (by decide) (by decide)
  · exact Layout.coveredFirst_of_line (by decide)
  · have hno : ∀ r ∈ hiddenRecords, r.plain = false → ∀ q ∈ hiddenRecords,
        recordLayout.point q ≠ components (escape r.mountPoint) := by decide
    exact fun r hr _ => hno r hr

/-- The mount is selected, and the space in its mount point keeps it. -/
example : selectedRecord hiddenRecords hiddenRecord = true ∧
    unmountRecords hiddenRecords = hiddenRecords := by
  decide +kernel

end ZygiskAssistant.Modules
