import ZygiskAssistant.Lib.LabelledRun
import ZygiskAssistant.Template.CommonFunc

/-!
# service.sh beside the processes that set properties

The script reads a property in one step and writes it in another, and waits for
the end of the boot between its two lists of commands. Other processes set
properties at any moment, `sys.boot_completed` among them.
-/

namespace ZygiskAssistant.Template

open KeyedUpdates LabelledRun ShellWords

def earlyCommands (skipDelProp : Bool) : List Command :=
  [.resetpropIfMatch "ro.boot.mode".toList "recovery".toList "unknown".toList,
    .resetpropIfMatch "ro.bootmode".toList "recovery".toList "unknown".toList,
    .resetpropIfMatch "vendor.boot.mode".toList "recovery".toList "unknown".toList,
    .resetpropIfDiff "ro.boot.selinux".toList "enforcing".toList] ++
    if skipDelProp then [] else [.delpropIfExist "ro.build.selinux".toList]

def lateCommands : List Command :=
  [.resetpropIfDiff "ro.secureboot.lockstate".toList "locked".toList,
    .resetpropIfDiff "ro.boot.flash.locked".toList "1".toList,
    .resetpropIfDiff "ro.boot.realme.lockstate".toList "1".toList,
    .resetpropIfDiff "ro.boot.vbmeta.device_state".toList "locked".toList,
    .resetpropIfDiff "vendor.boot.verifiedbootstate".toList "green".toList,
    .resetpropIfDiff "ro.boot.verifiedbootstate".toList "green".toList,
    .resetpropIfDiff "ro.boot.veritymode".toList "enforcing".toList,
    .resetpropIfDiff "vendor.boot.vbmeta.device_state".toList "locked".toList,
    .resetpropIfDiff "sys.oem_unlock_allowed".toList "0".toList]

inductive Instruction
  | command (c : Command)
  | untilBooted
deriving DecidableEq

def serviceScript (skipDelProp : Bool) : List Instruction :=
  (earlyCommands skipDelProp).map .command ++ .untilBooted :: lateCommands.map .command

/-- What a command does once it has read the value of its name. -/
def Command.act (props : Props) (current : Str) : Command → Props
  | .resetpropIfDiff name expected =>
    if current.isEmpty || current == expected then props else resetpropN props name expected
  | .resetpropIfMatch name contains value =>
    if contains <:+: current then resetpropN props name value else props
  | .delpropIfExist name => if current.isEmpty then props else resetpropDelete props name

theorem Command.run_eq_act (c : Command) (props : Props) :
    c.run props = c.act props (substituted (resetprop props c.name)) := by
  cases c <;> rfl

def value? (props : Props) (name : Str) : Option Str :=
  (props.find? fun prop => prop.1 = name).map Prod.snd

/-- The output of `getprop NAME`. -/
def getprop (props : Props) (name : Str) : Str := (value? props name).getD [] ++ ['\n']

def bootCompleted : Str := "sys.boot_completed".toList

structure BootState where
  props : Props
  /-- What the script has still to do. -/
  rest : List Instruction
  /-- What the command under way has read. -/
  current : Option Str
deriving DecidableEq

inductive BootLabel
  | read
  | finish
  | poll
  /-- Another process. -/
  | set (name value : Str)
deriving DecidableEq

def bootStep (s : BootState) : BootLabel → Option BootState
  | .read =>
    match s.rest, s.current with
    | .command c :: _, none =>
      some { s with current := some (substituted (resetprop s.props c.name)) }
    | _, _ => none
  | .finish =>
    match s.rest, s.current with
    | .command c :: rest, some current =>
      some { props := c.act s.props current, rest := rest, current := none }
    | _, _ => none
  | .poll =>
    match s.rest with
    | .untilBooted :: rest =>
      if substituted (getprop s.props bootCompleted) = "1".toList then some { s with rest := rest }
      else some s
    | _ => none
  | .set name value => some { s with props := resetpropN s.props name value }

def serviceStart (skipDelProp : Bool) (props : Props) : BootState where
  props := props
  rest := serviceScript skipDelProp
  current := none

@[simp]
theorem value?_nil (name : Str) : value? [] name = none := rfl

theorem value?_cons (prop : Str × Str) (props : Props) (name : Str) :
    value? (prop :: props) name = if prop.1 = name then some prop.2 else value? props name := by
  unfold value?
  rw [List.find?_cons]
  split_ifs with h
  · rw [decide_eq_true h]
    rfl
  · rw [decide_eq_false h]

theorem resetprop_eq (props : Props) (name : Str) :
    resetprop props name = (value? props name).elim [] fun value => value ++ ['\n'] := by
  unfold resetprop value?
  cases props.find? fun prop => prop.1 = name with
  | none => rfl
  | some prop => rfl

theorem value?_map (props : Props) (name value key : Str) :
    value? (props.map fun prop => if prop.1 = name then (name, value) else prop) key =
      if key = name then (value? props key).map fun _ => value else value? props key := by
  induction props with
  | nil => simp
  | cons prop props ih =>
    rw [List.map_cons, value?_cons, value?_cons, ih]
    by_cases hkey : key = name
    · subst hkey
      by_cases hname : prop.1 = key
      · simp [hname]
      · simp [hname]
    · by_cases hname : prop.1 = name
      · simp [hname, hkey, Ne.symm hkey]
      · simp [hname, hkey]

theorem value?_append (props : Props) (name value key : Str) :
    value? (props ++ [(name, value)]) key =
      (value? props key).or (if name = key then some value else none) := by
  induction props with
  | nil => exact value?_cons _ [] key
  | cons prop props ih =>
    rw [List.cons_append, value?_cons, value?_cons, ih]
    split
    · rfl
    · rfl

theorem value?_isSome {props : Props} {name : Str} :
    (value? props name).isSome = props.any fun prop => prop.1 = name := by
  unfold value?
  rw [Option.isSome_map, Bool.eq_iff_iff, List.find?_isSome, List.any_eq_true]

theorem value?_resetpropN (props : Props) (name value key : Str) :
    value? (resetpropN props name value) key =
      if key = name then some value else value? props key := by
  unfold resetpropN
  split
  · rename_i hany
    rw [value?_map]
    split_ifs with hkey
    · rw [← value?_isSome, ← hkey] at hany
      obtain ⟨v, hv⟩ := Option.isSome_iff_exists.mp hany
      rw [hv]
      rfl
    · rfl
  · rename_i hany
    rw [value?_append]
    split_ifs with hname hkey hkey
    · rw [← value?_isSome, hname, Option.not_isSome_iff_eq_none] at hany
      rw [hany]
      rfl
    · exact absurd hname.symm hkey
    · exact absurd hkey.symm hname
    · exact Option.or_none

theorem value?_resetpropDelete (props : Props) (name key : Str) :
    value? (resetpropDelete props name) key = if key = name then none else value? props key := by
  unfold resetpropDelete
  induction props with
  | nil => simp
  | cons prop props ih =>
    rw [List.filter_cons]
    by_cases hprop : prop.1 = name
    · rw [if_neg (by simp [hprop]), ih, value?_cons]
      split_ifs with hkey hk
      · rfl
      · exact absurd (hk.symm.trans hprop) hkey
      · rfl
    · rw [if_pos (by simp [hprop]), value?_cons, value?_cons, ih]
      split_ifs with hk hkey
      · exact absurd (hk.trans hkey) hprop
      · rfl
      · rfl
      · rfl

theorem substituted_resetprop_eq {props : Props} {name : Str}
    (h : ∀ value ∈ value? props name, '\n' ∉ value) :
    substituted (resetprop props name) = (value? props name).getD [] := by
  rw [resetprop_eq]
  cases hvalue : value? props name with
  | none => rfl
  | some value => exact substituted_plain (h value hvalue)

/-- Other names keep their values, whatever was read. -/
theorem Command.value?_act_of_ne (c : Command) (props : Props) (current : Str) {name : Str}
    (h : name ≠ c.name) : value? (c.act props current) name = value? props name := by
  have hset : ∀ value, value? (resetpropN props c.name value) name = value? props name := by
    intro value
    rw [value?_resetpropN, if_neg h]
  cases c with
  | resetpropIfDiff _ expected =>
    dsimp only [act]
    split
    · rfl
    · exact hset expected
  | resetpropIfMatch _ _ value =>
    dsimp only [act]
    split
    · exact hset value
    · rfl
  | delpropIfExist deleted =>
    dsimp only [act]
    split
    · rfl
    · rw [value?_resetpropDelete]
      exact if_neg h

theorem Command.value?_act (c : Command) (hc : c.LooksForText) (props : Props) :
    value? (c.act props ((value? props c.name).getD [])) c.name =
      (value? props c.name).bind c.change := by
  cases c with
  | resetpropIfDiff name expected =>
    dsimp only [act, Command.name]
    cases hvalue : value? props name with
    | none => exact hvalue
    | some value =>
      dsimp only [Option.getD_some, Option.bind_some, change]
      split
      · rename_i hsame
        rw [hvalue]
        rw [Bool.or_eq_true, List.isEmpty_iff, beq_iff_eq] at hsame
        split_ifs with hempty
        · rfl
        · rw [hsame.resolve_left hempty]
      · rename_i hdiff
        rw [Bool.or_eq_true, List.isEmpty_iff, not_or] at hdiff
        rw [value?_resetpropN, if_pos rfl, if_neg hdiff.1]
  | resetpropIfMatch name contains written =>
    dsimp only [act, Command.name]
    cases hvalue : value? props name with
    | none =>
      rw [Option.getD_none, if_neg fun h => hc (List.infix_nil.mp h)]
      exact hvalue
    | some value =>
      dsimp only [Option.getD_some, Option.bind_some, change]
      split
      · rw [value?_resetpropN, if_pos rfl]
      · exact hvalue
  | delpropIfExist name =>
    dsimp only [act, Command.name]
    cases hvalue : value? props name with
    | none => exact hvalue
    | some value =>
      dsimp only [Option.getD_some, Option.bind_some, change]
      split
      · rename_i hempty
        rw [if_pos (List.isEmpty_iff.mp hempty)]
        exact hvalue
      · rename_i hempty
        rw [value?_resetpropDelete, if_pos rfl, if_neg fun h => hempty (List.isEmpty_iff.mpr h)]

def commandsOf (script : List Instruction) : List Command :=
  script.filterMap fun i =>
    match i with
    | .command c => some c
    | .untilBooted => none

/-- Where the script stands, seen from one name that no other process sets. -/
structure Kept (script : List Instruction) (start : Props) (name : Str) (s : BootState) :
    Prop where
  script_proper : ∀ c ∈ commandsOf script, c.Proper
  progress : ∃ done, script = done ++ s.rest ∧
    value? s.props name =
      (value? start name).bind (Effect.all Command.effect (commandsOf done) name)
  value_line : ∀ value ∈ value? s.props name, '\n' ∉ value
  current_eq : ∀ c rest, s.rest = .command c :: rest → c.name = name → ∀ current ∈ s.current,
    current = (value? s.props name).getD []
  waiting : ∀ rest, s.rest = .untilBooted :: rest → s.current = none

theorem commandsOf_append (is js : List Instruction) :
    commandsOf (is ++ js) = commandsOf is ++ commandsOf js := List.filterMap_append

theorem commandsOf_map (commands : List Command) :
    commandsOf (commands.map .command) = commands := by
  unfold commandsOf
  rw [List.filterMap_map]
  exact List.filterMap_some

variable {script : List Instruction} {start : Props} {name : Str} {s t : BootState}

theorem Kept.finish {c : Command} {rest : List Instruction} {current : Str}
    (h : Kept script start name s) (hrest : s.rest = .command c :: rest)
    (hcurrent : s.current = some current) :
    Kept script start name ⟨c.act s.props current, rest, none⟩ := by
  obtain ⟨done, hscript, hvalue⟩ := h.progress
  have hproper : c.Proper := by
    apply h.script_proper
    rw [hscript, commandsOf_append, hrest]
    exact List.mem_append_right _ List.mem_cons_self
  have hact : value? (c.act s.props current) name = (value? s.props name).bind (c.effect name) := by
    by_cases hname : name = c.name
    · have hread := h.current_eq c rest hrest hname.symm current hcurrent
      rw [hread, hname, c.value?_act hproper.looksForText]
      refine congrArg _ (funext fun v => ?_)
      exact (if_pos rfl).symm
    · rw [c.value?_act_of_ne s.props current hname]
      have hskip : c.effect name = some := funext fun v => if_neg hname
      rw [hskip, Option.bind_fun_some]
  refine ⟨h.script_proper, ⟨done ++ [.command c], ?_, ?_⟩, ?_, ?_, fun _ _ => rfl⟩
  · rw [hscript, hrest, List.append_assoc]
    rfl
  · have hlast : commandsOf [.command c] = [c] := rfl
    rw [hact, hvalue, Option.bind_assoc, commandsOf_append, all_append, hlast]
    refine congrArg _ (funext fun v => ?_)
    unfold Effect.andThen
    refine congrArg _ (funext fun w => ?_)
    exact (Option.bind_fun_some _).symm
  · intro value hv
    rw [hact] at hv
    obtain ⟨u, hu, hw⟩ := Option.bind_eq_some_iff.mp hv
    exact c.newline_notMem_effect hproper (h.value_line u hu) hw
  · intro _ _ _ _ _ hn
    cases hn

theorem Kept.booted {rest : List Instruction} (h : Kept script start name s)
    (hrest : s.rest = .untilBooted :: rest) :
    Kept script start name { s with rest := rest } := by
  obtain ⟨done, hscript, hvalue⟩ := h.progress
  have hcurrent := h.waiting rest hrest
  refine ⟨h.script_proper, ⟨done ++ [.untilBooted], ?_, ?_⟩, h.value_line, ?_, fun _ _ => hcurrent⟩
  · rw [hscript, hrest, List.append_assoc]
    rfl
  · have hsame : commandsOf (done ++ [.untilBooted]) = commandsOf done := by
      rw [commandsOf_append]
      exact List.append_nil _
    rw [hsame]
    exact hvalue
  · intro c rest' _ _ current hn
    cases hcurrent.symm.trans hn

theorem bootStep_kept (h : Kept script start name s) {l : BootLabel}
    (hl : ∀ value, l ≠ .set name value) (hstep : bootStep s l = some t) :
    Kept script start name t := by
  cases l with
  | read =>
    simp only [bootStep] at hstep
    split at hstep
    · rename_i c rest hrest _
      obtain rfl := Option.some.inj hstep
      refine ⟨h.script_proper, h.progress, h.value_line, ?_, ?_⟩
      · intro d rest' hrest' hname current hcurrent
        obtain ⟨hd, _⟩ := List.cons.inj (hrest.symm.trans hrest')
        obtain rfl := Option.some.inj hcurrent
        rw [Instruction.command.inj hd, hname]
        exact substituted_resetprop_eq h.value_line
      · intro rest' hrest'
        cases hrest.symm.trans hrest'
    · cases hstep
  | finish =>
    simp only [bootStep] at hstep
    split at hstep
    · rename_i c rest current hrest hcurrent
      obtain rfl := Option.some.inj hstep
      exact h.finish hrest hcurrent
    · cases hstep
  | poll =>
    simp only [bootStep] at hstep
    split at hstep
    · rename_i rest hrest
      split at hstep
      · obtain rfl := Option.some.inj hstep
        exact h.booted hrest
      · obtain rfl := Option.some.inj hstep
        exact h
    · cases hstep
  | set other value =>
    obtain rfl := Option.some.inj hstep
    have hother : name ≠ other := fun he => hl value (he ▸ rfl)
    have hsame : value? (resetpropN s.props other value) name = value? s.props name := by
      rw [value?_resetpropN, if_neg hother]
    refine ⟨h.script_proper, ?_, ?_, ?_, h.waiting⟩
    · dsimp only
      rw [hsame]
      exact h.progress
    · dsimp only
      rw [hsame]
      exact h.value_line
    · dsimp only
      rw [hsame]
      exact h.current_eq

theorem bootStep_untilBooted {l : BootLabel} (hs : Instruction.untilBooted ∈ s.rest)
    (ht : Instruction.untilBooted ∉ t.rest) (hstep : bootStep s l = some t) :
    l = .poll ∧ substituted (getprop s.props bootCompleted) = "1".toList := by
  cases l with
  | read =>
    simp only [bootStep] at hstep
    split at hstep
    · obtain rfl := Option.some.inj hstep
      exact absurd hs ht
    · cases hstep
  | finish =>
    simp only [bootStep] at hstep
    split at hstep
    · rename_i c rest current hrest _
      obtain rfl := Option.some.inj hstep
      rw [hrest] at hs
      obtain hc | hs := List.mem_cons.mp hs
      · cases hc
      · exact absurd hs ht
    · cases hstep
  | poll =>
    simp only [bootStep] at hstep
    split at hstep
    · split at hstep
      · rename_i hbooted
        exact ⟨rfl, hbooted⟩
      · obtain rfl := Option.some.inj hstep
        exact absurd hs ht
    · cases hstep
  | set name value =>
    obtain rfl := Option.some.inj hstep
    exact absurd hs ht

def serviceCommands (skipDelProp : Bool) : List Command := earlyCommands skipDelProp ++ lateCommands

/-- What becomes of a value that no other process sets. -/
def serviceValue (skipDelProp : Bool) : Effect Str Str := fun name value =>
  ((serviceCommands skipDelProp).find? fun c => c.name = name).elim (some value)
    fun c => c.change value

theorem commandsOf_serviceScript (skipDelProp : Bool) :
    commandsOf (serviceScript skipDelProp) = serviceCommands skipDelProp := by
  have hlate : commandsOf (.untilBooted :: lateCommands.map .command) = lateCommands :=
    commandsOf_map lateCommands
  rw [serviceScript, commandsOf_append, commandsOf_map, hlate, serviceCommands]

theorem serviceCommands_proper (skipDelProp : Bool) :
    ∀ c ∈ serviceCommands skipDelProp, c.Proper := by
  cases skipDelProp <;> decide

theorem serviceCommands_names_nodup (skipDelProp : Bool) :
    ((serviceCommands skipDelProp).map Command.name).Nodup := by
  cases skipDelProp <;> decide

theorem serviceCommands_not_bootCompleted (skipDelProp : Bool) :
    ∀ c ∈ serviceCommands skipDelProp, bootCompleted ≠ c.name := by
  cases skipDelProp <;> decide

theorem kept_start (skipDelProp : Bool) (s : PropStore) (name : Str) :
    Kept (serviceScript skipDelProp) s.props name (serviceStart skipDelProp s.props) where
  script_proper := by
    rw [commandsOf_serviceScript]
    exact serviceCommands_proper skipDelProp
  progress := ⟨[], rfl, (Option.bind_fun_some _).symm⟩
  value_line := by
    intro value hvalue
    obtain ⟨prop, hprop, rfl⟩ := Option.map_eq_some_iff.mp hvalue
    exact s.value_line prop (List.mem_of_find?_eq_some hprop)
  current_eq := fun _ _ _ _ _ hn => by cases hn
  waiting := fun _ _ => rfl

theorem run_kept {skipDelProp : Bool} {s : PropStore} {ls : List BootLabel}
    (hrun : run bootStep (serviceStart skipDelProp s.props) ls = some t)
    (hothers : ∀ value, .set name value ∉ ls) :
    Kept (serviceScript skipDelProp) s.props name t := by
  have hlabels : Meets bootStep (fun _ l => ∀ value, l ≠ .set name value)
      (serviceStart skipDelProp s.props) ls := by
    apply meets_of_forall
    rintro l hl _ value rfl
    exact hothers value hl
  exact run_meets_invariant (fun _ _ _ hs hl hstep => bootStep_kept hs hl hstep)
    (kept_start skipDelProp s name) hlabels hrun

/-- The commands done before the wait are early ones. -/
theorem commandsOf_done {skipDelProp : Bool} {done rest : List Instruction}
    (hscript : serviceScript skipDelProp = done ++ rest) (hrest : Instruction.untilBooted ∈ rest) :
    commandsOf done ⊆ earlyCommands skipDelProp := by
  obtain ⟨left, hdone, hlate⟩ | ⟨right, hearly, _⟩ := List.append_eq_append_iff.mp hscript
  · cases left with
    | nil =>
      rw [hdone, List.append_nil, commandsOf_map]
      exact List.Subset.refl _
    | cons i left =>
      obtain ⟨_, hlater⟩ := List.cons.inj hlate
      have hmem : Instruction.untilBooted ∈ lateCommands.map Instruction.command := by
        rw [hlater]
        exact List.mem_append_right left hrest
      obtain ⟨_, _, hc⟩ := List.mem_map.mp hmem
      cases hc
  · rw [← commandsOf_map (earlyCommands skipDelProp), hearly, commandsOf_append]
    exact List.subset_append_left _ _

/-- A script that need not wait comes to its end by steps of its own. -/
theorem exists_finishing_run {rest : List Instruction}
    (hrest : ∀ c ∈ commandsOf rest, bootCompleted ≠ c.name) {props : Props}
    (hbooted : substituted (getprop props bootCompleted) = "1".toList) (current : Option Str) :
    ∃ ms u, (∀ name value, BootLabel.set name value ∉ ms) ∧
      run bootStep ⟨props, rest, current⟩ ms = some u ∧ u.rest = [] := by
  induction rest generalizing props current with
  | nil => exact ⟨[], _, fun _ _ => List.not_mem_nil, rfl, rfl⟩
  | cons i rest ih =>
    cases i with
    | untilBooted =>
      obtain ⟨ms, u, hms, hrun, hu⟩ := ih hrest hbooted current
      refine ⟨.poll :: ms, u, fun name value h => ?_, ?_, hu⟩
      · obtain h | h := List.mem_cons.mp h
        · cases h
        · exact hms name value h
      · rw [run_cons, bootStep]
        dsimp only
        rw [if_pos hbooted]
        exact hrun
    | command c =>
      have hact : ∀ read, substituted (getprop (c.act props read) bootCompleted) = "1".toList := by
        intro read
        unfold getprop
        rw [c.value?_act_of_ne props read (hrest c List.mem_cons_self)]
        exact hbooted
      have hlater := fun read =>
        ih (fun d hd => hrest d (List.mem_cons_of_mem c hd)) (hact read) none
      cases current with
      | none =>
        obtain ⟨ms, u, hms, hrun, hu⟩ := hlater (substituted (resetprop props c.name))
        refine ⟨.read :: .finish :: ms, u, fun name value h => ?_, hrun, hu⟩
        simp only [List.mem_cons, reduceCtorEq, false_or] at h
        exact hms name value h
      | some read =>
        obtain ⟨ms, u, hms, hrun, hu⟩ := hlater read
        refine ⟨.finish :: ms, u, fun name value h => ?_, hrun, hu⟩
        simp only [List.mem_cons, reduceCtorEq, false_or] at h
        exact hms name value h

/-- In every run, for a name that no other process sets: a late one changes only after a poll has
found the boot completed, and the script ends with the value that its command makes of the first
one. Once the boot is completed the script can always end. -/
theorem service_timely (skipDelProp : Bool) (s : PropStore) {ls : List BootLabel} {t : BootState}
    (hrun : run bootStep (serviceStart skipDelProp s.props) ls = some t) {name : Str}
    (hothers : ∀ value, .set name value ∉ ls) :
    (name ∈ lateCommands.map Command.name → value? t.props name ≠ value? s.props name →
      ∃ before after u, ls = before ++ .poll :: after ∧
        run bootStep (serviceStart skipDelProp s.props) before = some u ∧
        substituted (getprop u.props bootCompleted) = "1".toList) ∧
    (t.rest = [] → value? t.props name =
      (value? s.props name).bind (serviceValue skipDelProp name)) ∧
    (substituted (getprop t.props bootCompleted) = "1".toList →
      ∃ ms u, (∀ name value, BootLabel.set name value ∉ ms) ∧ run bootStep t ms = some u ∧
        u.rest = []) := by
  obtain ⟨done, hscript, hvalue⟩ := (run_kept hrun hothers).progress
  refine ⟨fun hlate hchanged => ?_, fun hend => ?_, fun hbooted => ?_⟩
  · have hleft : Instruction.untilBooted ∉ t.rest := by
      intro hwaiting
      apply hchanged
      rw [hvalue]
      have hskip : Effect.all Command.effect (commandsOf done) name = some := by
        funext v
        apply all_of_skip
        intro c hc w
        apply if_neg
        rintro rfl
        have hdistinct : ∀ c ∈ earlyCommands skipDelProp,
            c.name ∉ lateCommands.map Command.name := by
          cases skipDelProp <;> decide
        exact hdistinct c (commandsOf_done hscript hwaiting hc) hlate
      rw [hskip, Option.bind_fun_some]
    have hstart : Instruction.untilBooted ∈ (serviceStart skipDelProp s.props).rest :=
      List.mem_append_right _ List.mem_cons_self
    obtain ⟨before, l, after, u, v, hls, hbefore, hstep, hu, hv⟩ :=
      run_crossing (P := fun s => Instruction.untilBooted ∈ s.rest) hstart hrun hleft
    obtain ⟨rfl, hbooted⟩ := bootStep_untilBooted hu hv hstep
    exact ⟨before, after, u, hls, hbefore, hbooted⟩
  · rw [hend, List.append_nil] at hscript
    rw [hvalue, ← hscript, commandsOf_serviceScript]
    refine congrArg _ (funext fun v => ?_)
    exact all_effect (serviceCommands_names_nodup skipDelProp) name v
  · refine exists_finishing_run (fun c hc => ?_) hbooted t.current
    apply serviceCommands_not_bootCompleted skipDelProp
    rw [← commandsOf_serviceScript, hscript, commandsOf_append]
    exact List.mem_append_right _ hc

def bootingStore : PropStore where
  props := [("ro.boot.mode".toList, "recovery".toList),
    ("ro.boot.flash.locked".toList, "0".toList)]
  names_nodup := by decide
  name_plain := by decide
  value_line := by decide

/-- The boot completes between two polls. -/
def bootingLabels : List BootLabel :=
  [.read, .finish, .read, .finish, .read, .finish, .read, .finish, .poll,
    .set bootCompleted "1".toList, .poll, .read, .finish, .read, .finish, .read, .finish,
    .read, .finish, .read, .finish, .read, .finish, .read, .finish, .read, .finish,
    .read, .finish]

def bootingEnd : BootState where
  props := [("ro.boot.mode".toList, "unknown".toList), ("ro.boot.flash.locked".toList, "1".toList),
    (bootCompleted, "1".toList)]
  rest := []
  current := none

theorem booting_run :
    run bootStep (serviceStart true bootingStore.props) bootingLabels = some bootingEnd := by
  decide +kernel

theorem flashLocked_set_notMem (value : Str) :
    BootLabel.set "ro.boot.flash.locked".toList value ∉ bootingLabels := by
  have hname : "ro.boot.flash.locked".toList ≠ bootCompleted := by decide
  simp only [bootingLabels, List.mem_cons, reduceCtorEq, false_or, BootLabel.set.injEq, or_false,
    List.not_mem_nil]
  exact fun h => hname h.1

/-- The locked state is written after the second poll, and the script ends. -/
theorem service_timely_booting :
    (∃ before after u, bootingLabels = before ++ .poll :: after ∧
      run bootStep (serviceStart true bootingStore.props) before = some u ∧
      substituted (getprop u.props bootCompleted) = "1".toList) ∧
    value? bootingEnd.props "ro.boot.flash.locked".toList =
      (value? bootingStore.props "ro.boot.flash.locked".toList).bind
        (serviceValue true "ro.boot.flash.locked".toList) ∧
    ∃ ms u, (∀ name value, BootLabel.set name value ∉ ms) ∧ run bootStep bootingEnd ms = some u ∧
      u.rest = [] := by
  obtain ⟨hlate, hend, hbooted⟩ := service_timely true bootingStore booting_run
    flashLocked_set_notMem
  exact ⟨hlate (by decide) (by decide), hend rfl, hbooted (by decide)⟩

end ZygiskAssistant.Template
