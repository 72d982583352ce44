import ZygiskAssistant.Lib.KeyedUpdates
import ZygiskAssistant.Template.PostFsData

/-!
# The functions of common_func.sh

`resetprop_if_match` and `delprop_if_exist` beside `resetprop_if_diff`, the
commands that the two scripts make of them, and what a list of commands does:
each value meets the commands of its own name, and no name is added.
-/

namespace ZygiskAssistant.Template

open ShellWords KeyedUpdates

/-- `resetprop_if_match` with these arguments. -/
def resetpropIfMatch (props : Props) (args : List Str) : Props :=
  let name := args.getD 0 []
  let contains := args.getD 1 []
  let value := args.getD 2 []
  if contains <:+: substituted (resetprop props name) then resetpropN props name value else props

/-- `resetprop --delete NAME`. -/
def resetpropDelete (props : Props) (name : Str) : Props :=
  props.filter fun prop => !(prop.1 == name)

/-- `delprop_if_exist` with this argument. -/
def delpropIfExist (props : Props) (args : List Str) : Props :=
  let name := args.getD 0 []
  if (substituted (resetprop props name)).isEmpty then props else resetpropDelete props name

inductive Command
  | resetpropIfDiff (name expected : Str)
  | resetpropIfMatch (name contains value : Str)
  | delpropIfExist (name : Str)
deriving DecidableEq

namespace Command

def run (props : Props) : Command → Props
  | .resetpropIfDiff name expected => Template.resetpropIfDiff props [name, expected]
  | .resetpropIfMatch name contains value => Template.resetpropIfMatch props [name, contains, value]
  | .delpropIfExist name => Template.delpropIfExist props [name]

def name : Command → Str
  | .resetpropIfDiff name _ => name
  | .resetpropIfMatch name _ _ => name
  | .delpropIfExist name => name

/-- What becomes of a value of the command's name. -/
def change : Command → Str → Option Str
  | .resetpropIfDiff _ expected, value => some (if value = [] then value else expected)
  | .resetpropIfMatch _ contains written, value =>
    some (if contains <:+: value then written else value)
  | .delpropIfExist _, value => if value = [] then some value else none

/-- The value that the command may write. -/
def written : Command → List Str
  | .resetpropIfDiff _ expected => [expected]
  | .resetpropIfMatch _ _ value => [value]
  | .delpropIfExist _ => []

def effect (c : Command) : Effect Str Str := Effect.at c.name c.change

/-- What it looks for is not empty: the value of no property is. -/
def LooksForText : Command → Prop
  | .resetpropIfMatch _ contains _ => contains ≠ []
  | _ => True

instance : (c : Command) → Decidable c.LooksForText
  | .resetpropIfDiff _ _ => inferInstanceAs (Decidable True)
  | .resetpropIfMatch _ contains _ => inferInstanceAs (Decidable (contains ≠ []))
  | .delpropIfExist _ => inferInstanceAs (Decidable True)

structure Proper (c : Command) : Prop where
  looksForText : c.LooksForText
  written_line : ∀ value ∈ c.written, '\n' ∉ value

instance (c : Command) : Decidable c.Proper :=
  decidable_of_iff (c.LooksForText ∧ ∀ value ∈ c.written, '\n' ∉ value)
    ⟨fun h => ⟨h.1, h.2⟩, fun h => ⟨h.looksForText, h.written_line⟩⟩

theorem change_cases {c : Command} {v w : Str} (h : c.change v = some w) :
    w = v ∨ w ∈ c.written := by
  cases c with
  | resetpropIfDiff _ expected =>
    obtain rfl := Option.some.inj h
    dsimp only [written]
    split
    · exact Or.inl rfl
    · exact Or.inr List.mem_cons_self
  | resetpropIfMatch _ contains value =>
    obtain rfl := Option.some.inj h
    dsimp only [written]
    split
    · exact Or.inr List.mem_cons_self
    · exact Or.inl rfl
  | delpropIfExist _ =>
    dsimp only [change] at h
    split at h
    · exact Or.inl (Option.some.inj h).symm
    · cases h

end Command

/-- Values replaced or removed under the same names. -/
def PropStore.update (s : PropStore) (f : Effect Str Str)
    (hf : ∀ k v w, '\n' ∉ v → f k v = some w → '\n' ∉ w) : PropStore where
  props := KeyedUpdates.update f s.props
  names_nodup := s.names_nodup.sublist (keys_update_sublist f s.props)
  name_plain := by
    rintro ⟨k, v⟩ h
    obtain ⟨u, hu, _⟩ := mem_update.mp h
    exact s.name_plain (k, u) hu
  value_line := by
    rintro ⟨k, v⟩ h
    obtain ⟨u, hu, hfu⟩ := mem_update.mp h
    exact hf k u v (s.value_line (k, u) hu) hfu

theorem update_eq_self {f : Effect Str Str} {props : Props}
    (h : ∀ prop ∈ props, f prop.1 prop.2 = some prop.2) : update f props = props := by
  rw [update_congr (g := Effect.skip) h, update_skip]

theorem update_of_absent {props : Props} {name : Str} (change : Str → Option Str)
    (h : ∀ prop ∈ props, prop.1 ≠ name) : update (Effect.at name change) props = props :=
  update_eq_self fun prop hprop => if_neg (h prop hprop)

theorem resetpropN_eq (s : PropStore) {q : Str × Str} (hq : q ∈ s.props) (value : Str) :
    resetpropN s.props q.1 value = update (Effect.at q.1 fun _ => some value) s.props := by
  have hany : (s.props.any fun prop => prop.1 = q.1) = true :=
    List.any_eq_true.mpr ⟨q, hq, decide_eq_true rfl⟩
  rw [resetpropN, if_pos hany, KeyedUpdates.update, ← List.filterMap_eq_map]
  apply List.filterMap_congr
  intro prop _
  rw [Effect.at, Function.comp_apply]
  split_ifs with hname
  · rw [hname]
    rfl
  · rfl

theorem resetpropDelete_eq (props : Props) (name : Str) :
    resetpropDelete props name = update (Effect.at name fun _ => none) props := by
  rw [resetpropDelete, KeyedUpdates.update, ← List.filterMap_eq_filter]
  apply List.filterMap_congr
  intro prop _
  rw [Effect.at, Option.guard]
  by_cases hname : prop.1 = name
  · simp [hname]
  · simp [hname]

/-- All that a command can find under its name. -/
theorem PropStore.value_cases (s : PropStore) (name : Str) :
    (∃ q ∈ s.props, q.1 = name ∧ substituted (resetprop s.props name) = q.2 ∧
      ∀ prop ∈ s.props, prop.1 = name → prop.2 = q.2) ∨
    (substituted (resetprop s.props name) = [] ∧ ∀ prop ∈ s.props, prop.1 ≠ name) := by
  by_cases hex : ∃ q ∈ s.props, q.1 = name
  · obtain ⟨q, hq, rfl⟩ := hex
    refine Or.inl ⟨q, hq, rfl, substituted_resetprop s hq, ?_⟩
    intro prop hprop hname
    rw [s.eq_of_name hprop hq hname]
  · have hno : ∀ prop ∈ s.props, prop.1 ≠ name := fun prop hprop hname => hex ⟨prop, hprop, hname⟩
    refine Or.inr ⟨?_, hno⟩
    rw [resetprop_absent hno]
    rfl

theorem Command.run_eq (s : PropStore) {c : Command} (hc : c.Proper) :
    c.run s.props = update c.effect s.props := by
  cases c with
  | resetpropIfDiff name expected =>
    change Template.resetpropIfDiff s.props [name, expected] = _
    rw [resetpropIfDiff_eq, KeyedUpdates.update, ← List.filterMap_eq_map]
    apply List.filterMap_congr
    intro prop _
    unfold effect Effect.at Command.name change
    by_cases hname : prop.1 = name
    · by_cases hvalue : prop.2 = []
      · simp [hname, hvalue]
      · simp [hname, hvalue]
    · simp [hname]
  | resetpropIfMatch name contains value =>
    change (if contains <:+: substituted (resetprop s.props name) then
      resetpropN s.props name value else s.props) = _
    obtain ⟨q, hq, rfl, hcurrent, hsame⟩ | ⟨hcurrent, hno⟩ := s.value_cases name
    · rw [hcurrent]
      split
      · rename_i hcontains
        rw [resetpropN_eq s hq]
        apply update_congr
        intro prop hprop
        unfold effect Effect.at Command.name change
        dsimp only
        split_ifs with hname hmatch
        · rfl
        · rw [hsame prop hprop hname] at hmatch
          exact absurd hcontains hmatch
        · rfl
      · rename_i hcontains
        refine (update_eq_self fun prop hprop => ?_).symm
        unfold effect Effect.at Command.name change
        dsimp only
        split_ifs with hname hmatch
        · rw [hsame prop hprop hname] at hmatch
          exact absurd hmatch hcontains
        · rfl
        · rfl
    · rw [hcurrent, if_neg fun h => hc.looksForText (List.infix_nil.mp h)]
      exact (update_of_absent _ hno).symm
  | delpropIfExist name =>
    change (if (substituted (resetprop s.props name)).isEmpty then s.props
      else resetpropDelete s.props name) = _
    obtain ⟨q, hq, rfl, hcurrent, hsame⟩ | ⟨hcurrent, hno⟩ := s.value_cases name
    · rw [hcurrent]
      split
      · rename_i hempty
        refine (update_eq_self fun prop hprop => ?_).symm
        unfold effect Effect.at Command.name change
        dsimp only
        split_ifs with hname hvalue
        · rfl
        · rw [hsame prop hprop hname, List.isEmpty_iff.mp hempty] at hvalue
          exact absurd rfl hvalue
        · rfl
      · rename_i hempty
        rw [resetpropDelete_eq]
        apply update_congr
        intro prop hprop
        unfold effect Effect.at Command.name change
        dsimp only
        split_ifs with hname hvalue
        · rw [hsame prop hprop hname] at hvalue
          exact absurd (List.isEmpty_iff.mpr hvalue) hempty
        · rfl
        · rfl
    · rw [hcurrent]
      exact (update_of_absent _ hno).symm

theorem Command.newline_notMem_effect {c : Command} (hc : c.Proper) {name value written : Str}
    (hvalue : '\n' ∉ value) (hw : c.effect name value = some written) : '\n' ∉ written := by
  unfold effect Effect.at at hw
  split at hw
  · obtain rfl | hwritten := change_cases hw
    · exact hvalue
    · exact hc.written_line written hwritten
  · exact Option.some.inj hw ▸ hvalue

def runCommands (commands : List Command) (props : Props) : Props :=
  commands.foldl Command.run props

theorem runCommands_eq {commands : List Command} (h : ∀ c ∈ commands, c.Proper) (s : PropStore) :
    runCommands commands s.props = update (Effect.all Command.effect commands) s.props := by
  induction commands generalizing s with
  | nil => exact (update_skip s.props).symm
  | cons c commands ih =>
    have hc := h c List.mem_cons_self
    have hrest := ih (fun c' hc' => h c' (List.mem_cons_of_mem c hc'))
      (s.update c.effect fun _ _ _ hv hw => c.newline_notMem_effect hc hv hw)
    change runCommands commands (c.run s.props) = _
    rw [c.run_eq s hc]
    exact hrest.trans (update_update _ _ _)

theorem newline_notMem_all {commands : List Command} (h : ∀ c ∈ commands, c.Proper)
    {name value written : Str} (hvalue : '\n' ∉ value)
    (hw : Effect.all Command.effect commands name value = some written) : '\n' ∉ written := by
  induction commands generalizing value with
  | nil => exact Option.some.inj hw ▸ hvalue
  | cons c commands ih =>
    obtain ⟨u, hu, hrest⟩ := Option.bind_eq_some_iff.mp hw
    have hline := c.newline_notMem_effect (h c List.mem_cons_self) hvalue hu
    exact ih (fun c' hc' => h c' (List.mem_cons_of_mem c hc')) hline hrest

/-- Commands under different names: a value meets the one of its own name. -/
theorem all_effect {commands : List Command} (hnames : (commands.map Command.name).Nodup)
    (name value : Str) : Effect.all Command.effect commands name value =
      (commands.find? fun c => c.name = name).elim (some value) fun c => c.change value :=
  all_at hnames name value

end ZygiskAssistant.Template
