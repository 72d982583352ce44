import Mathlib.Data.List.Nodup
import Mathlib.Data.List.Perm.Basic
import ZygiskAssistant.Modules.ShouldUnmount
import ZygiskAssistant.Utils.SafeStringCopy

/-!
# Scrubbing system properties

`shouldResetProperty` and `doMrProp` of `modules.cpp`. The property library is
a parameter: `Documented` states what the code relies on. The records are
visited in any order, each once, and the local copy buffer starts with any
contents.
-/

namespace ZygiskAssistant.Modules

open CString Utils

def propValueMax : Nat := 92

structure PropInfo where
  name : Str
  value : Str
  serial : BitVec 32
  size_value : value.length = propValueMax
  terminated : nul ∈ value
deriving DecidableEq

/-- The property library as `doMrProp` calls it. `visited n` is the order in
which `__system_property_foreach` visits an area of `n` records. -/
structure SystemProperties where
  init : Int
  isLong : PropInfo → Bool
  visited : Nat → List Nat
  update : PropInfo → Str → Nat → PropInfo

def readOnlyPrefix : Str := "ro.".toList

structure SystemProperties.Documented (sp : SystemProperties) : Prop where
  init_ok : sp.init ≠ -1
  isLong_eq : ∀ pi, sp.isLong pi = pi.serial.getLsbD 16
  visited_perm : ∀ n, (sp.visited n).Perm (List.range n)
  update_short : ∀ pi v n, startsWith pi.name readOnlyPrefix = true → sp.isLong pi = false →
    n < propValueMax → n ≤ v.length → (sp.update pi v n).name = pi.name ∧
      (sp.update pi v n).value = v.take n ++ List.replicate (propValueMax - n) nul ∧
      (sp.update pi v n).serial = BitVec.ofNat 32 n <<< 24

def shouldResetProperty (sp : SystemProperties) (pi : PropInfo) : Bool :=
  -- Read-write properties or properties with long values should not be reset
  if !startsWith pi.name readOnlyPrefix || sp.isLong pi then false
  else if pi.serial &&& 0xFFFFFF#32 != 0#32 then true
  else
    let length := strnlen pi.value propValueMax
    ((pi.value.take propValueMax).drop length).any (· != nul)

structure MrPropState where
  isInitialized : Bool
  resetCount : Nat
  area : List PropInfo
deriving DecidableEq

/-- The callback of `__system_property_foreach`, at one record of the area. -/
def resetProperty (sp : SystemProperties) (buffer : Str) (s : MrPropState) (i : Nat) :
    Option MrPropState :=
  match s.area[i]? with
  | none => some s
  | some pi =>
    if shouldResetProperty sp pi then do
      let (buffer, length) ← safeStringCopy buffer pi.value propValueMax
      return { s with
        resetCount := s.resetCount + 1
        area := s.area.set i (sp.update pi buffer length) }
    else some s

def doMrProp (sp : SystemProperties) (buffer : Str) (s : MrPropState) : Option MrPropState :=
  if !s.isInitialized && sp.init == -1 then some s
  else (sp.visited s.area.length).foldlM (resetProperty sp buffer) { s with isInitialized := true }

def scrub (sp : SystemProperties) (pi : PropInfo) : PropInfo :=
  if shouldResetProperty sp pi then sp.update pi (contents pi.value) (contents pi.value).length
  else pi

/-- Nothing shows a modification: no serial count and no residue after the value. -/
def LooksUnmodified (pi : PropInfo) : Prop :=
  pi.serial &&& 0xFFFFFF#32 = 0#32 ∧ ∀ c ∈ pi.value.drop (contents pi.value).length, c = nul

theorem shouldResetProperty_iff (sp : SystemProperties) (pi : PropInfo) :
    shouldResetProperty sp pi = true ↔
      startsWith pi.name readOnlyPrefix = true ∧ sp.isLong pi = false ∧ ¬ LooksUnmodified pi := by
  have htake : pi.value.take propValueMax = pi.value :=
    List.take_of_length_le (by rw [pi.size_value])
  unfold shouldResetProperty LooksUnmodified strnlen
  rw [htake]
  cases startsWith pi.name readOnlyPrefix with
  | false => simp
  | true =>
    cases sp.isLong pi with
    | true => simp
    | false =>
      by_cases hs : pi.serial &&& 0xFFFFFF#32 = 0#32 <;> simp [hs]

theorem contents_value_lt (pi : PropInfo) : (contents pi.value).length < propValueMax := by
  have h := contents_length_lt pi.terminated
  rwa [pi.size_value] at h

theorem serial_shift_clean (n : Nat) :
    (BitVec.ofNat 32 n <<< 24) &&& 0xFFFFFF#32 = 0#32 := by
  apply BitVec.eq_of_toNat_eq
  rw [BitVec.toNat_and, BitVec.toNat_shiftLeft, Nat.shiftLeft_eq]
  change (BitVec.ofNat 32 n).toNat * 2 ^ 24 % 2 ^ 32 &&& (2 ^ 24 - 1) = 0
  rw [Nat.and_two_pow_sub_one_eq_mod]
  omega

section Documented

variable {sp : SystemProperties} (h : sp.Documented)
include h

theorem update_contents {pi : PropInfo} (hr : startsWith pi.name readOnlyPrefix = true)
    (hl : sp.isLong pi = false) {v : Str} (hv : v.take (contents pi.value).length = contents pi.value) :
    sp.update pi v (contents pi.value).length =
      sp.update pi (contents pi.value) (contents pi.value).length := by
  have hlen : (contents pi.value).length ≤ v.length := by
    have hle := congrArg List.length hv
    rw [List.length_take] at hle
    omega
  obtain ⟨hn, hval, hser⟩ := h.update_short pi v _ hr hl (contents_value_lt pi) hlen
  obtain ⟨hn', hval', hser'⟩ := h.update_short pi (contents pi.value) _ hr hl (contents_value_lt pi)
    le_rfl
  rw [hv] at hval
  rw [List.take_length] at hval'
  generalize sp.update pi v (contents pi.value).length = a at *
  generalize sp.update pi (contents pi.value) (contents pi.value).length = b at *
  cases a
  cases b
  simp_all

theorem scrub_spec (pi : PropInfo) :
    (scrub sp pi).name = pi.name ∧ contents (scrub sp pi).value = contents pi.value ∧
      shouldResetProperty sp (scrub sp pi) = false := by
  unfold scrub
  cases hres : shouldResetProperty sp pi with
  | false => simp [hres]
  | true =>
    obtain ⟨hr, hl, _⟩ := (shouldResetProperty_iff sp pi).mp hres
    obtain ⟨hn, hval, hser⟩ := h.update_short pi (contents pi.value) _ hr hl (contents_value_lt pi)
      le_rfl
    have hlt := contents_value_lt pi
    obtain ⟨k, hk⟩ : ∃ k, propValueMax - (contents pi.value).length = k + 1 :=
      ⟨propValueMax - (contents pi.value).length - 1, by omega⟩
    rw [List.take_length, hk, List.replicate_succ] at hval
    have hc : contents (sp.update pi (contents pi.value) (contents pi.value).length).value =
        contents pi.value := by
      rw [hval, contents_append_nul (nul_notMem_contents pi.value)]
    refine ⟨by simpa using hn, by simpa using hc, ?_⟩
    rw [if_pos rfl, Bool.eq_false_iff, ne_eq, shouldResetProperty_iff]
    rintro ⟨_, _, hm⟩
    refine hm ⟨by rw [hser]; exact serial_shift_clean _, ?_⟩
    rw [hc, hval, List.drop_left]
    intro c hcm
    rcases List.mem_cons.mp hcm with rfl | hcm
    · rfl
    · exact List.eq_of_mem_replicate hcm

theorem resetProperty_eq {buffer : Str} (hb : buffer.length = propValueMax) {s : MrPropState}
    {i : Nat} {pi : PropInfo} (hi : s.area[i]? = some pi) :
    ∃ s', resetProperty sp buffer s i = some s' ∧ s'.area = s.area.set i (scrub sp pi) ∧
      s'.isInitialized = s.isInitialized ∧
      (shouldResetProperty sp pi = false → s' = s) := by
  unfold resetProperty scrub
  simp only [hi]
  cases hres : shouldResetProperty sp pi with
  | false =>
    refine ⟨s, by simp, ?_, rfl, fun _ => rfl⟩
    obtain ⟨hlt, hget⟩ := List.getElem?_eq_some_iff.mp hi
    simp [← hget]
  | true =>
    obtain ⟨hr, hl, _⟩ := (shouldResetProperty_iff sp pi).mp hres
    have hcopy := safeStringCopy_terminated pi.terminated (Nat.le_of_eq hb.symm)
      (contents_value_lt pi)
    refine ⟨{ s with
      resetCount := s.resetCount + 1
      area := s.area.set i (sp.update pi (contents pi.value) (contents pi.value).length) },
      ?_, by simp, rfl, fun hf => by cases hf⟩
    rw [if_pos rfl, hcopy]
    exact congrArg (fun r => some { s with resetCount := s.resetCount + 1, area := s.area.set i r })
      (update_contents h hr hl List.take_left)

/-- The loop over distinct records scrubs each of them and leaves the others. -/
theorem foldlM_resetProperty {buffer : Str} (hb : buffer.length = propValueMax) (is : List Nat)
    (hnd : is.Nodup) (s : MrPropState) : ∃ s', is.foldlM (resetProperty sp buffer) s = some s' ∧
      (∀ j, s'.area[j]? = if j ∈ is then s.area[j]?.map (scrub sp) else s.area[j]?) ∧
      s'.isInitialized = s.isInitialized ∧
      ((∀ pi ∈ s.area, shouldResetProperty sp pi = false) → s' = s) := by
  induction is generalizing s with
  | nil => exact ⟨s, rfl, by simp, rfl, fun _ => rfl⟩
  | cons i is ih =>
    obtain ⟨hi, hnd⟩ := List.nodup_cons.mp hnd
    cases hget : s.area[i]? with
    | none =>
      obtain ⟨s', hs', harea, hinit, hsame⟩ := ih hnd s
      refine ⟨s', ?_, ?_, hinit, hsame⟩
      · rw [List.foldlM_cons, resetProperty, hget]
        exact hs'
      · intro j
        rw [harea j]
        by_cases hj : j = i
        · subst hj
          simp [hget]
        · simp [hj]
    | some pi =>
      obtain ⟨t, ht, htarea, htinit, htsame⟩ := resetProperty_eq h hb hget
      obtain ⟨s', hs', harea, hinit, hsame⟩ := ih hnd t
      refine ⟨s', ?_, ?_, hinit.trans htinit, ?_⟩
      · rw [List.foldlM_cons, ht]
        exact hs'
      · intro j
        rw [harea j, htarea]
        by_cases hj : j = i
        · subst hj
          obtain ⟨hlt, _⟩ := List.getElem?_eq_some_iff.mp hget
          simp [hi, hget, List.getElem?_set_self hlt]
        · simp [hj, List.getElem?_set_ne (Ne.symm hj)]
      · intro hall
        have hts := htsame (hall pi (List.mem_of_getElem? hget))
        rw [hts] at hsame
        exact hsame hall

theorem doMrProp_eq {buffer : Str} (hb : buffer.length = propValueMax) (s : MrPropState) :
    ∃ s', doMrProp sp buffer s = some s' ∧ s'.area = s.area.map (scrub sp) ∧
      s'.isInitialized = true ∧
      ((∀ pi ∈ s.area, shouldResetProperty sp pi = false) →
        s' = { s with isInitialized := true }) := by
  have hperm := h.visited_perm s.area.length
  obtain ⟨s', hs', harea, hinit, hsame⟩ := foldlM_resetProperty h hb (sp.visited s.area.length)
    (hperm.nodup_iff.mpr List.nodup_range) { s with isInitialized := true }
  refine ⟨s', ?_, ?_, hinit, hsame⟩
  · rw [doMrProp, if_neg (by simp [h.init_ok])]
    exact hs'
  · apply List.ext_getElem?
    intro j
    rw [harea j, List.getElem?_map]
    by_cases hj : j < s.area.length
    · rw [if_pos (hperm.mem_iff.mpr (List.mem_range.mpr hj))]
    · simp [List.getElem?_eq_none (not_lt.mp hj)]

/-- Scrubbing keeps every value, removes every trace, leaves unmodified, read-write and
long properties as they are, and finds nothing to do the second time. -/
theorem doMrProp_scrubs {buffer buffer' : Str} (hb : buffer.length = propValueMax)
    (hb' : buffer'.length = propValueMax) (s : MrPropState) :
    ∃ s', doMrProp sp buffer s = some s' ∧
      s'.area.map (fun pi => (pi.name, contents pi.value)) =
        s.area.map (fun pi => (pi.name, contents pi.value)) ∧
      (∀ pi ∈ s'.area, shouldResetProperty sp pi = false) ∧
      (∀ (i : Nat) (pi : PropInfo), s.area[i]? = some pi →
        (startsWith pi.name readOnlyPrefix = false ∨ sp.isLong pi = true ∨ LooksUnmodified pi) →
        s'.area[i]? = some pi) ∧
      doMrProp sp buffer' s' = some s' := by
  obtain ⟨s', hs', harea, hinit, _⟩ := doMrProp_eq h hb s
  have hclean : ∀ pi ∈ s'.area, shouldResetProperty sp pi = false := by
    rw [harea]
    intro pi hpi
    obtain ⟨old, _, rfl⟩ := List.mem_map.mp hpi
    exact (scrub_spec h old).2.2
  refine ⟨s', hs', ?_, hclean, ?_, ?_⟩
  · rw [harea, List.map_map]
    apply List.map_congr_left
    intro pi _
    obtain ⟨hn, hc, _⟩ := scrub_spec h pi
    exact Prod.ext hn hc
  · intro i pi hi hkeep
    have hno : ¬ shouldResetProperty sp pi = true := by
      rw [shouldResetProperty_iff]
      rintro ⟨hr, hl, hm⟩
      rcases hkeep with hk | hk | hk
      · simp [hr] at hk
      · simp [hl] at hk
      · exact hm hk
    rw [harea, List.getElem?_map, hi, Option.map_some, scrub, if_neg hno]
  · obtain ⟨s'', hs'', _, _, hsame⟩ := doMrProp_eq h hb' s'
    have hst : s'' = s' := by
      rw [hsame hclean, ← hinit]
    rw [hs'', hst]

end Documented

/-- A library that behaves as documented and visits the area from its end. -/
def zeroFillingProperties : SystemProperties where
  init := 0
  isLong pi := pi.serial.getLsbD 16
  visited n := (List.range n).reverse
  update pi v n :=
    { name := pi.name
      value := v.take (min n 91) ++ List.replicate (propValueMax - (v.take (min n 91)).length) nul
      serial := BitVec.ofNat 32 n <<< 24
      size_value := by
        simp [propValueMax]
      terminated := List.mem_append_right _ (List.mem_replicate.mpr
        ⟨by simp only [propValueMax, List.length_take]; omega, rfl⟩) }

theorem zeroFillingProperties_documented : zeroFillingProperties.Documented where
  init_ok := by decide
  isLong_eq _ := rfl
  visited_perm n := List.reverse_perm _
  update_short pi v n _ _ hn hv := by
    have hm : min n 91 = n := by
      unfold propValueMax at hn
      omega
    have hlen : (v.take n).length = n := by
      rw [List.length_take, Nat.min_eq_left hv]
    exact ⟨rfl, by simp only [zeroFillingProperties, hm, hlen], rfl⟩

/-- A property set twice: its serial counts the change and an old value shows behind the new. -/
def changedProperty : PropInfo where
  name := "ro.debuggable".toList
  value := "0".toList ++ nul :: "userdebug".toList ++ List.replicate 81 nul
  serial := 0x01000002#32
  size_value := by decide
  terminated := by decide

theorem doMrProp_scrubs_changedProperty : ∃ s',
    doMrProp zeroFillingProperties (List.replicate 92 'x') ⟨false, 0, [changedProperty]⟩ = some s' ∧
      s'.area.map (fun pi => (pi.name, contents pi.value)) =
        [changedProperty].map (fun pi => (pi.name, contents pi.value)) ∧
      (∀ pi ∈ s'.area, shouldResetProperty zeroFillingProperties pi = false) ∧
      (∀ (i : Nat) (pi : PropInfo), [changedProperty][i]? = some pi →
        (startsWith pi.name readOnlyPrefix = false ∨ zeroFillingProperties.isLong pi = true ∨
          LooksUnmodified pi) → s'.area[i]? = some pi) ∧
      doMrProp zeroFillingProperties (List.replicate 92 'y') s' = some s' :=
  doMrProp_scrubs zeroFillingProperties_documented (by decide) (by decide)
    ⟨false, 0, [changedProperty]⟩

end ZygiskAssistant.Modules
