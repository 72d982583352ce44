import ZygiskAssistant.Template.CommonFunc
import ZygiskAssistant.Template.DiscoveryExact

/-!
# The whole of post-fs-data.sh

The commands before and after the discovery loops, and what the script makes of
a store on whose lines no match runs on into the value: each value is changed by
the one rule for its name, and a second run changes nothing.
-/

namespace ZygiskAssistant.Template

open Grep KeyedUpdates

def beforeLoops : List Command :=
  [.resetpropIfDiff "ro.boot.warranty_bit".toList "0".toList,
    .resetpropIfDiff "ro.vendor.boot.warranty_bit".toList "0".toList,
    .resetpropIfDiff "ro.vendor.warranty_bit".toList "0".toList,
    .resetpropIfDiff "ro.warranty_bit".toList "0".toList,
    .resetpropIfDiff "ro.boot.realmebootstate".toList "green".toList,
    .resetpropIfDiff "ro.is_ever_orange".toList "0".toList]

/-- `skipDelProp` tells that the module directory has a file `skipdelprop`. -/
def afterLoops (skipDelProp : Bool) : List Command :=
  .resetpropIfDiff "ro.adb.secure".toList "1".toList ::
    ((if skipDelProp then [] else
        [.delpropIfExist "ro.boot.verifiedbooterror".toList,
          .delpropIfExist "ro.boot.verifyerrorpart".toList]) ++
      [.resetpropIfDiff "ro.boot.veritymode.managed".toList "yes".toList,
        .resetpropIfDiff "ro.debuggable".toList "0".toList,
        .resetpropIfDiff "ro.force.debuggable".toList "0".toList,
        .resetpropIfDiff "ro.secure".toList "1".toList])

def postFsData (skipDelProp : Bool) (props : Props) : Props :=
  runCommands (afterLoops skipDelProp) (discoveryLoops (runCommands beforeLoops props))

/-- An empty value stays, the build properties are rewritten, and any other value meets the
command of its name. -/
def finalValue (skipDelProp : Bool) : Effect Str Str := fun name value =>
  if value = [] then some value
  else if accepts tagsPattern name then some releaseKeys
  else if accepts typePattern name then some user
  else ((beforeLoops ++ afterLoops skipDelProp).find? fun c => c.name = name).elim (some value)
    fun c => c.change value

theorem Command.change_settles (c : Command) {v w : Str} (h : c.change v = some w) :
    c.change w = some w := by
  cases c with
  | resetpropIfDiff _ expected =>
    obtain rfl := Option.some.inj h
    dsimp only [change]
    split
    · rfl
    · rw [ite_self]
  | resetpropIfMatch _ contains written =>
    obtain rfl := Option.some.inj h
    dsimp only [change]
    split
    · rw [ite_self]
    · rfl
  | delpropIfExist _ =>
    dsimp only [change] at h ⊢
    split at h
    · rename_i hv
      obtain rfl := Option.some.inj h
      exact if_pos hv
    · cases h

theorem finalValue_settles (skipDelProp : Bool) : (finalValue skipDelProp).Settles := by
  intro name v w h
  unfold finalValue at h ⊢
  by_cases hw : w = []
  · rw [if_pos hw]
  · rw [if_neg hw]
    split at h
    · rename_i hv
      exact absurd ((Option.some.inj h).symm.trans hv) hw
    · split at h
      · rename_i htags
        rwa [if_pos htags]
      · rename_i htags
        rw [if_neg htags]
        split at h
        · rename_i htype
          rwa [if_pos htype]
        · rename_i htype
          rw [if_neg htype]
          cases hfind : (beforeLoops ++ afterLoops skipDelProp).find? fun c => c.name = name with
          | none => rfl
          | some c =>
            rw [hfind] at h
            exact c.change_settles h

theorem confined_of_foreign (name : Str) {value : Str}
    (h : ∀ last ∈ ["tags".toList, "type".toList],
      ¬ last.drop 2 <:+: "]: [".toList ++ value ++ [']']) : Confined (name, value) := by
  intro last hlast pre mid post hline hacc
  obtain ⟨t, hpre, htail⟩ | ⟨t, hname, _⟩ := List.append_eq_append_iff.mp hline
  · have hends : last.drop 2 <:+ '[' :: name ++ t := by
      rw [← hpre]
      exact ((List.drop_suffix 2 last).trans (suffix_of_accepts_build hacc)).trans
        (List.suffix_append pre mid)
    cases t with
    | nil =>
      have hlen := congrArg List.length hpre
      rw [List.append_nil, List.length_append, List.length_cons] at hlen
      exact hlen.le
    | cons c t =>
      obtain hsuffix | hsuffix := List.suffix_or_suffix_of_suffix hends (List.suffix_append _ _)
      · have hinfix : last.drop 2 <:+: (c :: t) ++ post := hsuffix.isInfix.trans
          (List.prefix_append _ post).isInfix
        rw [← htail] at hinfix
        exact absurd hinfix (h last hlast)
      · have hc : c = ']' := by
          have hhead := congrArg List.head? htail
          exact (Option.some.inj hhead).symm
        have hmem : ']' ∈ last.drop 2 := hsuffix.subset (hc ▸ List.mem_cons_self)
        have hno : ∀ last ∈ ["tags".toList, "type".toList], ']' ∉ last.drop 2 := by decide
        exact absurd hmem (hno last hlast)
  · have hwhole : '[' :: name = pre ++ mid ++ t := hname
    have hlen := congrArg List.length hwhole
    rw [List.length_append, List.length_append, List.length_cons] at hlen
    dsimp only
    omega

def writtenValues : List Str :=
  ["0".toList, "green".toList, "1".toList, "yes".toList, releaseKeys, user]

theorem confined_of_written (name : Str) {value : Str} (h : value ∈ writtenValues) :
    Confined (name, value) := by
  apply confined_of_foreign
  revert value
  decide

theorem commands_written (skipDelProp : Bool) :
    ∀ c ∈ beforeLoops ++ afterLoops skipDelProp, ∀ value ∈ c.written, value ∈ writtenValues := by
  cases skipDelProp <;> decide

theorem finalValue_cases {skipDelProp : Bool} {name v w : Str}
    (h : finalValue skipDelProp name v = some w) : w = v ∨ w ∈ writtenValues := by
  unfold finalValue at h
  split at h
  · exact Or.inl (Option.some.inj h).symm
  · split at h
    · obtain rfl := Option.some.inj h
      exact Or.inr (by decide)
    · split at h
      · obtain rfl := Option.some.inj h
        exact Or.inr (by decide)
      · cases hfind : (beforeLoops ++ afterLoops skipDelProp).find? fun c => c.name = name with
        | none =>
          rw [hfind] at h
          exact Or.inl (Option.some.inj h).symm
        | some c =>
          rw [hfind] at h
          have hc := commands_written skipDelProp c (List.mem_of_find?_eq_some hfind)
          exact (Command.change_cases h).imp_right (hc w)

theorem commands_proper (skipDelProp : Bool) :
    ∀ c ∈ beforeLoops ++ afterLoops skipDelProp, c.Proper := by
  cases skipDelProp <;> decide

theorem commands_names_nodup (skipDelProp : Bool) :
    ((beforeLoops ++ afterLoops skipDelProp).map Command.name).Nodup := by
  cases skipDelProp <;> decide

theorem commands_not_build (skipDelProp : Bool) :
    ∀ c ∈ beforeLoops ++ afterLoops skipDelProp,
      accepts tagsPattern c.name = false ∧ accepts typePattern c.name = false := by
  cases skipDelProp <;> decide

theorem commands_empty (skipDelProp : Bool) :
    ∀ c ∈ beforeLoops ++ afterLoops skipDelProp, c.change [] = some [] := by
  cases skipDelProp <;> decide

/-- A build property is named by no command. -/
theorem all_of_build {skipDelProp : Bool} {commands : List Command}
    (hsub : commands ⊆ beforeLoops ++ afterLoops skipDelProp) {name : Str}
    (h : accepts tagsPattern name = true ∨ accepts typePattern name = true) (value : Str) :
    Effect.all Command.effect commands name value = some value := by
  apply all_of_skip
  intro c hc v
  apply if_neg
  rintro rfl
  obtain ⟨htags, htype⟩ := commands_not_build skipDelProp c (hsub hc)
  obtain h | h := h
  · rw [htags] at h
    cases h
  · rw [htype] at h
    cases h

/-- The commands before the loops, the loops, and the commands after them, on one value. -/
theorem finalValue_eq (skipDelProp : Bool) (name value : Str) :
    ((Effect.all Command.effect beforeLoops).andThen
      (Effect.andThen (fun name value => some (rewrittenValue name value))
        (Effect.all Command.effect (afterLoops skipDelProp)))) name value =
      finalValue skipDelProp name value := by
  have hbefore := List.subset_append_left beforeLoops (afterLoops skipDelProp)
  have hafter := List.subset_append_right beforeLoops (afterLoops skipDelProp)
  unfold finalValue
  by_cases hbuild : accepts tagsPattern name = true ∨ accepts typePattern name = true
  · unfold Effect.andThen
    rw [all_of_build hbefore hbuild, Option.bind_some, Option.bind_some,
      all_of_build hafter hbuild, rewrittenValue]
    split_ifs <;> simp_all
  · obtain ⟨htags, htype⟩ := not_or.mp hbuild
    have hsame : ∀ v, rewrittenValue name v = v := by
      intro v
      rw [rewrittenValue, if_neg htags, if_neg htype, ite_self]
    have hloops : ((Effect.all Command.effect beforeLoops).andThen
        (Effect.andThen (fun name value => some (rewrittenValue name value))
          (Effect.all Command.effect (afterLoops skipDelProp)))) name value =
        Effect.all Command.effect (beforeLoops ++ afterLoops skipDelProp) name value := by
      rw [all_append]
      unfold Effect.andThen
      simp only [hsame, Option.bind_some]
    rw [hloops, all_effect (commands_names_nodup skipDelProp), if_neg htags, if_neg htype]
    split
    · rename_i hempty
      cases hfind : (beforeLoops ++ afterLoops skipDelProp).find? fun c => c.name = name with
      | none => rfl
      | some c =>
        rw [hempty]
        exact commands_empty skipDelProp c (List.mem_of_find?_eq_some hfind)
    · rfl

theorem rewritten_eq_update (props : Props) :
    rewritten props = update (fun name value => some (rewrittenValue name value)) props := by
  unfold rewritten KeyedUpdates.update
  rw [← List.filterMap_eq_map]
  rfl

def PropStore.beforeLoops (s : PropStore) : PropStore :=
  s.update (Effect.all Command.effect Template.beforeLoops) fun _ _ _ hv hw =>
    newline_notMem_all (by decide) hv hw

theorem PropStore.confined_beforeLoops {s : PropStore} (h : ∀ prop ∈ s.props, Confined prop) :
    ∀ prop ∈ s.beforeLoops.props, Confined prop := by
  rintro ⟨name, w⟩ hw
  obtain ⟨v, hv, hall⟩ := mem_update.mp hw
  rw [all_effect (by decide)] at hall
  cases hfind : Template.beforeLoops.find? fun c => c.name = name with
  | none =>
    rw [hfind] at hall
    obtain rfl := Option.some.inj hall
    exact h _ hv
  | some c =>
    rw [hfind] at hall
    obtain rfl | hwritten := Command.change_cases hall
    · exact h _ hv
    · have hc := List.mem_append_left (afterLoops true) (List.mem_of_find?_eq_some hfind)
      exact confined_of_written name (commands_written true c hc w hwritten)

theorem postFsData_eq {s : PropStore} (h : ∀ prop ∈ s.props, Confined prop)
    (skipDelProp : Bool) : postFsData skipDelProp s.props =
      update (finalValue skipDelProp) s.props := by
  have hproper := commands_proper skipDelProp
  have hbefore : runCommands beforeLoops s.props = s.beforeLoops.props :=
    runCommands_eq (fun c hc => hproper c (List.mem_append_left _ hc)) s
  have hloops := (Exact.of_confined (s.confined_beforeLoops h)).1
  rw [postFsData, hbefore, hloops, ← s.beforeLoops.rewritten_props,
    runCommands_eq (fun c hc => hproper c (List.mem_append_right _ hc)),
    s.beforeLoops.rewritten_props, rewritten_eq_update]
  change update _ (update _ (update _ s.props)) = _
  rw [update_update, update_update]
  exact update_congr fun prop _ => finalValue_eq skipDelProp prop.1 prop.2

theorem confined_finalValue {s : PropStore} (h : ∀ prop ∈ s.props, Confined prop)
    (skipDelProp : Bool) : ∀ prop ∈ update (finalValue skipDelProp) s.props, Confined prop := by
  rintro ⟨name, w⟩ hw
  obtain ⟨v, hv, hfinal⟩ := mem_update.mp hw
  obtain rfl | hwritten := finalValue_cases hfinal
  · exact h _ hv
  · exact confined_of_written name hwritten

def PropStore.afterScript (s : PropStore) (skipDelProp : Bool) : PropStore :=
  s.update (finalValue skipDelProp) fun name v w hv hw => by
    obtain rfl | hwritten := finalValue_cases hw
    · exact hv
    · have hline : ∀ value ∈ writtenValues, '\n' ∉ value := by decide
      exact hline w hwritten

/-- On every store with confined lines the script makes of each property what the one rule for
its name makes of its value, adds none, and changes nothing when it runs again. -/
theorem postFsData_settles (s : PropStore) (h : ∀ prop ∈ s.props, Confined prop)
    (skipDelProp : Bool) :
    postFsData skipDelProp s.props = update (finalValue skipDelProp) s.props ∧
      postFsData skipDelProp (postFsData skipDelProp s.props) =
        postFsData skipDelProp s.props := by
  have honce := postFsData_eq h skipDelProp
  have htwice := postFsData_eq (s := s.afterScript skipDelProp) (confined_finalValue h skipDelProp)
    skipDelProp
  refine ⟨honce, ?_⟩
  rw [honce]
  exact htwice.trans (update_idempotent (finalValue_settles skipDelProp) s.props)

/-- A store on which the script rewrites, keeps, leaves empty and deletes. -/
def phoneStore : PropStore where
  props := [("ro.debuggable".toList, "1".toList), ("ro.product.model".toList, "My phone".toList),
    ("ro.vendor.build.tags".toList, "test-keys".toList), ("ro.secure".toList, []),
    ("ro.boot.verifyerrorpart".toList, "vbmeta".toList)]
  names_nodup := by decide
  name_plain := by decide
  value_line := by decide

theorem phoneStore_confined : ∀ prop ∈ phoneStore.props, Confined prop := by
  have hforeign : ∀ prop ∈ phoneStore.props, ∀ last ∈ ["tags".toList, "type".toList],
      ¬ last.drop 2 <:+: "]: [".toList ++ prop.2 ++ [']'] := by decide
  intro prop hprop
  exact confined_of_foreign prop.1 (hforeign prop hprop)

theorem postFsData_settles_phone :
    postFsData false phoneStore.props = update (finalValue false) phoneStore.props ∧
      postFsData false (postFsData false phoneStore.props) = postFsData false phoneStore.props :=
  postFsData_settles phoneStore phoneStore_confined false

example : (update (finalValue false) phoneStore.props).map Prod.snd =
    ["0".toList, "My phone".toList, releaseKeys, []] := by
  decide

end ZygiskAssistant.Template
