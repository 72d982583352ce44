import ZygiskAssistant.Lib.Grep
import ZygiskAssistant.Lib.ShellWords
import ZygiskAssistant.Parsers.Mountinfo

/-!
# The discovery loops of post-fs-data.sh

The two loops over the properties whose names end in `build.tags` and
`build.type`, the names that they should rewrite, and when they do. The names
are searched in lines that hold the values too, so a match can run from a name
into a value, and the words of it are then taken for names.
-/

namespace ZygiskAssistant.Template

open Grep ShellWords InputStream

/-- Names and values, in the order in which `resetprop` lists them. -/
abbrev Props := List (Str × Str)

def line (prop : Str × Str) : Str := '[' :: prop.1 ++ ("]: [".toList ++ prop.2 ++ [']'])

def listing (props : Props) : Str := props.flatMap fun prop => line prop ++ ['\n']

/-- The output of `resetprop NAME`. -/
def resetprop (props : Props) (name : Str) : Str :=
  match props.find? fun prop => prop.1 = name with
  | some prop => prop.2 ++ ['\n']
  | none => []

/-- `resetprop -n NAME VALUE`. -/
def resetpropN (props : Props) (name value : Str) : Props :=
  if props.any fun prop => prop.1 = name then
    props.map fun prop => if prop.1 = name then (name, value) else prop
  else props ++ [(name, value)]

/-- `resetprop_if_diff` with these arguments. -/
def resetpropIfDiff (props : Props) (args : List Str) : Props :=
  let name := args.getD 0 []
  let expected := args.getD 1 []
  let current := substituted (resetprop props name)
  if current.isEmpty || current == expected then props else resetpropN props name expected

def grepO (pattern : List (Atom Char)) (text : Str) : Str :=
  (segments '\n' text).flatMap fun l => (onlyMatching pattern 0 l).flatMap fun m => m ++ ['\n']

def forWords (pattern : List (Atom Char)) (props : Props) : List Str :=
  fields (substituted (grepO pattern (listing props)))

/-- `for PROP in $(resetprop | grep -oE pattern); do resetprop_if_diff $PROP value; done`. -/
def discoveryLoop (pattern : List (Atom Char)) (value : Str) (props : Props) : Props :=
  (forWords pattern props).foldl
    (fun props prop => resetpropIfDiff props (fields prop ++ [value])) props

/-- `ro.*.build.` and then the last word. -/
def buildPattern (last : Str) : List (Atom Char) :=
  lits "ro".toList ++ .anyStar :: .any :: (lits "build".toList ++ .any :: lits last)

def tagsPattern : List (Atom Char) := buildPattern "tags".toList
def typePattern : List (Atom Char) := buildPattern "type".toList

def releaseKeys : Str := "release-keys".toList
def user : Str := "user".toList

def discoveryLoops (props : Props) : Props :=
  discoveryLoop typePattern user (discoveryLoop tagsPattern releaseKeys props)

def rewrittenValue (name value : Str) : Str :=
  if value = [] then value
  else if accepts tagsPattern name then releaseKeys
  else if accepts typePattern name then user
  else value

def rewritten (props : Props) : Props := props.map fun prop => (prop.1, rewrittenValue prop.1 prop.2)

/-- The targets are rewritten and nothing else, and another run changes nothing. -/
def Exact (props : Props) : Prop :=
  discoveryLoops props = rewritten props ∧
    discoveryLoops (discoveryLoops props) = discoveryLoops props

structure PropStore where
  props : Props
  names_nodup : (props.map Prod.fst).Nodup
  name_plain : ∀ prop ∈ props, Plain prop.1 ∧ '[' ∉ prop.1 ∧ ']' ∉ prop.1
  value_line : ∀ prop ∈ props, '\n' ∉ prop.2

def PropStore.overwrite (s : PropStore) (f : Str × Str → Str)
    (hf : ∀ prop ∈ s.props, '\n' ∉ f prop) : PropStore where
  props := s.props.map fun prop => (prop.1, f prop)
  names_nodup := by
    rw [List.map_map]
    exact s.names_nodup
  name_plain := by
    intro _ h
    obtain ⟨prop, hprop, rfl⟩ := List.mem_map.mp h
    exact s.name_plain prop hprop
  value_line := by
    intro _ h
    obtain ⟨prop, hprop, rfl⟩ := List.mem_map.mp h
    exact hf prop hprop

theorem newline_notMem_line (s : PropStore) {prop : Str × Str} (h : prop ∈ s.props) :
    '\n' ∉ line prop := by
  have hname : '\n' ∉ prop.1 := fun hc => by
    have hplain := (s.name_plain prop h).1 '\n' hc
    cases hplain
  simp [line, hname, s.value_line prop h]

theorem segments_listing (s : PropStore) : segments '\n' (listing s.props) = s.props.map line :=
  segments_lines fun _ h => newline_notMem_line s h

/-- A word of a match in the line of a property. -/
def Named (pattern : List (Atom Char)) (props : Props) (name : Str) : Prop :=
  ∃ prop ∈ props, ∃ m ∈ onlyMatching pattern 0 (line prop), name ∈ fields m

theorem mem_forWords (pattern : List (Atom Char)) (s : PropStore) (name : Str) :
    name ∈ forWords pattern s.props ↔ Named pattern s.props name := by
  rw [forWords, fields_substituted, grepO, segments_listing, ← List.flatMap_assoc, fields_lines,
    List.flatMap_map]
  simp only [List.mem_flatMap, Named]
  constructor
  · rintro ⟨m, ⟨prop, hprop, hm⟩, hname⟩
    exact ⟨prop, hprop, m, hm, hname⟩
  · rintro ⟨prop, hprop, m, hm, hname⟩
    exact ⟨m, ⟨prop, hprop, hm⟩, hname⟩

theorem plain_of_mem_forWords {pattern : List (Atom Char)} {props : Props} {name : Str}
    (h : name ∈ forWords pattern props) : fields name = [name] := by
  obtain ⟨hne, hplain⟩ := plain_of_mem_fields h
  exact fields_plain hne hplain

theorem PropStore.eq_of_name (s : PropStore) {p q : Str × Str} (hp : p ∈ s.props)
    (hq : q ∈ s.props) (h : p.1 = q.1) : p = q := List.inj_on_of_nodup_map s.names_nodup hp hq h

theorem substituted_resetprop (s : PropStore) {q : Str × Str} (hq : q ∈ s.props) :
    substituted (resetprop s.props q.1) = q.2 := by
  have hfind : (s.props.find? fun prop => prop.1 = q.1) = some q := by
    obtain ⟨p, hp⟩ := Option.isSome_iff_exists.mp
      (List.find?_isSome.mpr ⟨q, hq, decide_eq_true rfl⟩ :
        (s.props.find? fun prop => prop.1 = q.1).isSome = true)
    have hname : p.1 = q.1 := by simpa using List.find?_some hp
    rw [hp, s.eq_of_name (List.mem_of_find?_eq_some hp) hq hname]
  rw [resetprop, hfind]
  exact substituted_plain (s.value_line q hq)

theorem resetprop_absent {props : Props} {name : Str} (h : ∀ prop ∈ props, prop.1 ≠ name) :
    resetprop props name = [] := by
  have hfind : (props.find? fun prop => prop.1 = name) = none := by
    rw [List.find?_eq_none]
    simpa using h
  rw [resetprop, hfind]

theorem resetpropIfDiff_eq (s : PropStore) (name value : Str) :
    resetpropIfDiff s.props [name, value] = s.props.map fun prop =>
      (prop.1, if prop.1 = name ∧ prop.2 ≠ [] then value else prop.2) := by
  have hsame : (∀ prop ∈ s.props, prop.1 = name → prop.2 = [] ∨ prop.2 = value) →
      s.props = s.props.map fun prop =>
        (prop.1, if prop.1 = name ∧ prop.2 ≠ [] then value else prop.2) := by
    intro h
    refine ((List.map_congr_left fun prop hprop => ?_).trans (List.map_id s.props)).symm
    split_ifs with hw
    · rw [← (h prop hprop hw.1).resolve_left hw.2]
      rfl
    · rfl
  change (if (substituted (resetprop s.props name)).isEmpty ||
      substituted (resetprop s.props name) == value then s.props
    else resetpropN s.props name value) = _
  by_cases hex : ∃ q ∈ s.props, q.1 = name
  · obtain ⟨q, hq, rfl⟩ := hex
    have honly : ∀ prop ∈ s.props, prop.1 = q.1 → prop = q := fun prop hprop =>
      s.eq_of_name hprop hq
    rw [substituted_resetprop s hq]
    split
    · rename_i hskip
      rw [Bool.or_eq_true, List.isEmpty_iff, beq_iff_eq] at hskip
      exact hsame fun prop hprop hname => by rw [honly prop hprop hname]; exact hskip
    · rename_i hset
      rw [Bool.or_eq_true, List.isEmpty_iff, not_or] at hset
      have hany : (s.props.any fun prop => prop.1 = q.1) = true :=
        List.any_eq_true.mpr ⟨q, hq, decide_eq_true rfl⟩
      rw [resetpropN, if_pos hany]
      refine List.map_congr_left fun prop hprop => ?_
      by_cases hname : prop.1 = q.1
      · obtain rfl := honly prop hprop hname
        rw [if_pos hname, if_pos ⟨hname, hset.1⟩]
      · rw [if_neg hname, if_neg fun h => hname h.1]
  · have hno : ∀ prop ∈ s.props, prop.1 ≠ name := fun prop hprop hname => hex ⟨prop, hprop, hname⟩
    rw [resetprop_absent hno]
    exact hsame fun prop hprop hname => absurd hname (hno prop hprop)

theorem foldl_resetprop (words : List Str) (h : ∀ w ∈ words, fields w = [w]) (value : Str)
    (hvalue : '\n' ∉ value) (s : PropStore) :
    words.foldl (fun props prop => resetpropIfDiff props (fields prop ++ [value])) s.props =
      s.props.map fun prop =>
        (prop.1, if prop.1 ∈ words ∧ prop.2 ≠ [] then value else prop.2) := by
  induction words generalizing s with
  | nil => simp
  | cons w words ih =>
    have hstep : resetpropIfDiff s.props (fields w ++ [value]) =
        (s.overwrite (fun prop => if prop.1 = w ∧ prop.2 ≠ [] then value else prop.2)
          (fun prop hprop => by
            split_ifs
            · exact hvalue
            · exact s.value_line prop hprop)).props := by
      rw [h w List.mem_cons_self]
      exact resetpropIfDiff_eq s w value
    rw [List.foldl_cons, hstep, ih fun w' hw => h w' (List.mem_cons_of_mem w hw)]
    dsimp only [PropStore.overwrite]
    rw [List.map_map]
    refine List.map_congr_left fun prop _ => ?_
    by_cases hw : prop.1 = w
    · by_cases hv : prop.2 = []
      · simp [hv]
      · simp [hw, hv]
    · simp [hw]

/-- A loop gives its value to the non-empty properties that a word of a match names. -/
theorem discoveryLoop_eq (pattern : List (Atom Char)) {value : Str} (hvalue : '\n' ∉ value)
    (s : PropStore) : discoveryLoop pattern value s.props = s.props.map fun prop =>
      (prop.1, if prop.1 ∈ forWords pattern s.props ∧ prop.2 ≠ [] then value else prop.2) :=
  foldl_resetprop _ (fun _ hw => plain_of_mem_forWords hw) value hvalue s

end ZygiskAssistant.Template
