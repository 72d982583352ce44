import ZygiskAssistant.Template.PostFsData

/-!
# The property stores that are rewritten exactly

The loops rewrite their targets and nothing else exactly when the words that
they take for names are right. They are where no match of a line runs on into
the value.
-/

namespace ZygiskAssistant.Template

open Grep ShellWords

theorem suffix_of_accepts_build {last name : Str} (h : accepts (buildPattern last) name = true) :
    last <:+ name := by
  have hsplit : buildPattern last =
      (lits "ro".toList ++ .anyStar :: .any :: (lits "build".toList ++ [.any])) ++ lits last := by
    simp [buildPattern]
  rw [hsplit] at h
  exact suffix_of_accepts h

theorem type_of_tags {name : Str} (h : accepts tagsPattern name = true) :
    accepts typePattern name = false := by
  rw [← Bool.not_eq_true]
  intro htype
  have hsuffix := List.suffix_of_suffix_length_le (suffix_of_accepts_build h)
    (suffix_of_accepts_build htype) (by decide)
  exact absurd hsuffix (by decide)

theorem newline_notMem_rewrittenValue {name value : Str} (h : '\n' ∉ value) :
    '\n' ∉ rewrittenValue name value := by
  unfold rewrittenValue
  split_ifs
  · exact h
  · decide
  · decide
  · exact h

theorem rewrittenValue_idem (name value : Str) :
    rewrittenValue name (rewrittenValue name value) = rewrittenValue name value := by
  have hkeys : releaseKeys ≠ [] := by decide
  have huser : user ≠ [] := by decide
  unfold rewrittenValue
  split_ifs <;> simp_all

def PropStore.rewritten (s : PropStore) : PropStore :=
  s.overwrite (fun prop => rewrittenValue prop.1 prop.2) fun prop hprop =>
    newline_notMem_rewrittenValue (s.value_line prop hprop)

theorem PropStore.rewritten_props (s : PropStore) : s.rewritten.props = Template.rewritten s.props :=
  rfl

theorem rewritten_idem (props : Props) : rewritten (rewritten props) = rewritten props := by
  unfold rewritten
  rw [List.map_map]
  refine List.map_congr_left fun prop _ => ?_
  rw [Function.comp_apply, rewrittenValue_idem]

instance (pattern : List (Atom Char)) (props : Props) (name : Str) :
    Decidable (Named pattern props name) :=
  inferInstanceAs (Decidable (∃ prop ∈ props, ∃ m ∈ onlyMatching pattern 0 (line prop),
    name ∈ fields m))

def taggedValue (props : Props) (prop : Str × Str) : Str :=
  if Named tagsPattern props prop.1 ∧ prop.2 ≠ [] then releaseKeys else prop.2

/-- The listing that the second loop reads: every non-empty value whose name is a word of a tags
match gives way to `release-keys`. -/
def tagged (props : Props) : Props := props.map fun prop => (prop.1, taggedValue props prop)

/-- What a type match names is a target of it, or keeps the value that it is given; what only a
tags match names likewise; and a target that no match names has its value already. -/
def FoundRight (props : Props) : Prop :=
  ∀ prop ∈ props, prop.2 ≠ [] →
    (Named typePattern (tagged props) prop.1 →
      accepts typePattern prop.1 = true ∨ (accepts tagsPattern prop.1 = false ∧ prop.2 = user)) ∧
    (¬ Named typePattern (tagged props) prop.1 → Named tagsPattern props prop.1 →
      accepts tagsPattern prop.1 = true ∨
        (accepts typePattern prop.1 = false ∧ prop.2 = releaseKeys)) ∧
    (¬ Named typePattern (tagged props) prop.1 → ¬ Named tagsPattern props prop.1 →
      (accepts tagsPattern prop.1 = true → prop.2 = releaseKeys) ∧
        (accepts typePattern prop.1 = true → prop.2 = user))

theorem newline_notMem_taggedValue (s : PropStore) (prop : Str × Str) (hprop : prop ∈ s.props) :
    '\n' ∉ taggedValue s.props prop := by
  unfold taggedValue
  split_ifs
  · decide
  · exact s.value_line prop hprop

def PropStore.afterTags (s : PropStore) : PropStore :=
  s.overwrite (taggedValue s.props) (newline_notMem_taggedValue s)

theorem PropStore.afterTags_props (s : PropStore) : s.afterTags.props = tagged s.props := rfl

theorem discoveryLoop_tags (s : PropStore) :
    discoveryLoop tagsPattern releaseKeys s.props = tagged s.props := by
  rw [discoveryLoop_eq tagsPattern (by decide) s, tagged]
  refine List.map_congr_left fun prop _ => ?_
  simp only [mem_forWords, taggedValue]

theorem discoveryLoops_eq (s : PropStore) : discoveryLoops s.props = s.props.map fun prop =>
    (prop.1, if prop.2 = [] then prop.2
      else if Named typePattern (tagged s.props) prop.1 then user
      else if Named tagsPattern s.props prop.1 then releaseKeys
      else prop.2) := by
  have hkeys : releaseKeys ≠ [] := by decide
  rw [discoveryLoops, discoveryLoop_tags, ← s.afterTags_props,
    discoveryLoop_eq typePattern (by decide) s.afterTags]
  change (s.props.map _).map _ = _
  rw [List.map_map]
  refine List.map_congr_left fun prop _ => ?_
  simp only [Function.comp_apply, mem_forWords, taggedValue]
  by_cases hv : prop.2 = []
  · simp [hv]
  · by_cases htags : Named tagsPattern s.props prop.1
    · simp [hv, htags, hkeys]
    · simp [hv, htags]

theorem found_value_iff {tags type : Bool} (hdisjoint : tags = true → type = false)
    {found₁ found₂ : Prop} [Decidable found₁] [Decidable found₂] {value : Str} :
    (if found₂ then user else if found₁ then releaseKeys else value) =
        (if tags then releaseKeys else if type then user else value) ↔
      (found₂ → type = true ∨ (tags = false ∧ value = user)) ∧
      (¬ found₂ → found₁ → tags = true ∨ (type = false ∧ value = releaseKeys)) ∧
      (¬ found₂ → ¬ found₁ →
        (tags = true → value = releaseKeys) ∧ (type = true → value = user)) := by
  have hne : user ≠ releaseKeys := by decide
  by_cases h₂ : found₂
  · cases tags <;> cases type <;> simp_all [eq_comm]
  · by_cases h₁ : found₁
    · cases tags <;> cases type <;> simp_all [eq_comm]
    · cases tags <;> cases type <;> simp_all

theorem discoveryLoops_eq_iff (s : PropStore) :
    discoveryLoops s.props = rewritten s.props ↔ FoundRight s.props := by
  rw [discoveryLoops_eq, rewritten, List.map_inj_left, FoundRight]
  refine forall₂_congr fun prop _ => ?_
  rw [Prod.mk.injEq, rewrittenValue]
  by_cases hv : prop.2 = []
  · simp [hv]
  · rw [if_neg hv, if_neg hv, found_value_iff type_of_tags]
    exact ⟨fun h _ => h.2, fun h => ⟨rfl, h hv⟩⟩

theorem exact_iff (s : PropStore) :
    Exact s.props ↔ FoundRight s.props ∧ FoundRight (rewritten s.props) := by
  unfold Exact
  rw [discoveryLoops_eq_iff]
  refine and_congr_right fun h => ?_
  rw [(discoveryLoops_eq_iff s).mpr h, ← s.rewritten_props, ← discoveryLoops_eq_iff,
    s.rewritten_props, rewritten_idem]

/-- No match of either expression in the line ends behind the name. -/
def Confined (prop : Str × Str) : Prop :=
  ∀ last ∈ ["tags".toList, "type".toList], ∀ pre mid post,
    line prop = pre ++ mid ++ post → accepts (buildPattern last) mid = true →
      pre.length + mid.length ≤ prop.1.length + 1

theorem accepts_build_head {last mid : Str} (h : accepts (buildPattern last) mid = true) :
    ∃ rest, mid = 'r' :: rest := by
  cases mid with
  | nil => cases h
  | cons c rest =>
    have hcons : accepts (buildPattern last) (c :: rest) =
        (decide (c = 'r') && accepts (lits "o".toList ++
          .anyStar :: .any :: (lits "build".toList ++ .any :: lits last)) rest) := rfl
    rw [hcons, Bool.and_eq_true, decide_eq_true_iff] at h
    exact ⟨rest, by rw [h.1]⟩

theorem Confined.infix_name {prop : Str × Str} (h : Confined prop) {last : Str}
    (hlast : last ∈ ["tags".toList, "type".toList]) {pre mid post : Str}
    (hline : line prop = pre ++ mid ++ post) (hacc : accepts (buildPattern last) mid = true) :
    mid <:+: prop.1 := by
  have hlen := h last hlast pre mid post hline hacc
  obtain ⟨rest, rfl⟩ := accepts_build_head hacc
  cases pre with
  | nil =>
    rw [line, List.nil_append, List.cons_append, List.cons_append] at hline
    exact absurd (List.cons.inj hline).1 (by decide)
  | cons c pre =>
    rw [line, List.cons_append, List.cons_append, List.cons_append] at hline
    have htail := (List.cons.inj hline).2
    have hpre : pre ++ 'r' :: rest <+: prop.1 ++ ("]: [".toList ++ prop.2 ++ [']']) :=
      ⟨post, htail.symm⟩
    have hle : (pre ++ 'r' :: rest).length ≤ prop.1.length := by
      rw [List.length_cons] at hlen
      rw [List.length_append]
      omega
    obtain ⟨more, hmore⟩ := List.prefix_of_prefix_length_le hpre (List.prefix_append _ _) hle
    exact ⟨pre, more, hmore⟩

theorem plain_of_infix {w name : Str} (h : w <:+: name) (hp : Plain name) : Plain w :=
  fun c hc => hp c (h.subset hc)

theorem Confined.found {s : PropStore} (h : ∀ prop ∈ s.props, Confined prop) {last : Str}
    (hlast : last ∈ ["tags".toList, "type".toList]) {name : Str}
    (hname : Named (buildPattern last) s.props name) :
    accepts (buildPattern last) name = true := by
  obtain ⟨prop, hprop, m, hm, hfield⟩ := hname
  obtain ⟨pre, post, hline, hacc, hne⟩ := mem_onlyMatching hm
  have hplain := plain_of_infix ((h prop hprop).infix_name hlast hline hacc)
    (s.name_plain prop hprop).1
  rw [fields_plain hne hplain, List.mem_singleton] at hfield
  rw [hfield]
  exact hacc

theorem Confined.named {s : PropStore} {prop : Str × Str} (hprop : prop ∈ s.props)
    (h : Confined prop) {last : Str} (hlast : last ∈ ["tags".toList, "type".toList])
    (hacc : accepts (buildPattern last) prop.1 = true) :
    Named (buildPattern last) s.props prop.1 := by
  obtain ⟨rest, hrest⟩ := accepts_build_head hacc
  obtain ⟨tail, hline⟩ : ∃ tail, line prop = '[' :: (prop.1 ++ tail) := ⟨_, rfl⟩
  have hsize : prop.1.length = rest.length + 1 := by rw [hrest, List.length_cons]
  have hlongest : longest (buildPattern last) (prop.1 ++ tail) = some prop.1.length := by
    refine longest_eq_some (by simp) (by rw [List.take_left]; exact hacc) fun m hlt hm => ?_
    rw [← Bool.not_eq_true]
    intro hlong
    have hsplit : line prop = ['['] ++ (prop.1 ++ tail).take m ++ (prop.1 ++ tail).drop m := by
      rw [hline, List.append_assoc, List.take_append_drop, List.singleton_append]
    have hlen := h last hlast _ _ _ hsplit hlong
    rw [List.length_take, Nat.min_eq_left hm, List.length_singleton] at hlen
    omega
  refine ⟨prop, hprop, prop.1, ?_, ?_⟩
  · rw [hline, onlyMatching_skip]
    · rw [hsize] at hlongest
      have hmem := mem_onlyMatching_of_longest hlongest
      rw [← hsize, List.take_left] at hmem
      exact hmem
    · intro n
      rw [← Bool.not_eq_true]
      intro hbracket
      obtain ⟨_, hhead⟩ := accepts_build_head hbracket
      exact absurd (List.cons.inj hhead).1 (by decide)
  · rw [fields_plain (by rw [hrest]; simp) (s.name_plain prop hprop).1]
    exact List.mem_singleton_self _

/-- No part of `]: [value]` ends as one of the expressions does. -/
theorem written_tail {value last t : Str} (hvalue : value ∈ [releaseKeys, user])
    (hlast : last ∈ ["tags".toList, "type".toList]) (ht : t <+: "]: [".toList ++ value ++ [']'])
    (hne : t ≠ []) : ¬ t <:+ last.drop 2 ∧ ¬ last.drop 2 <:+ t := by
  have hall : ∀ value ∈ [releaseKeys, user], ∀ last ∈ ["tags".toList, "type".toList],
      ∀ t ∈ ("]: [".toList ++ value ++ [']']).inits, t ≠ [] →
        ¬ t <:+ last.drop 2 ∧ ¬ last.drop 2 <:+ t := by decide
  exact hall value hvalue last hlast t (List.mem_inits _ _ |>.mpr ht) hne

/-- The values that the loops write complete no match. -/
theorem confined_written (name : Str) {value : Str} (hvalue : value ∈ [releaseKeys, user]) :
    Confined (name, value) := by
  intro last hlast pre mid post hline hacc
  obtain ⟨t, hpre, htail⟩ | ⟨t, hname, _⟩ := List.append_eq_append_iff.mp hline
  · have hends : last.drop 2 <:+ '[' :: name ++ t := by
      rw [← hpre]
      exact ((List.drop_suffix 2 last).trans (suffix_of_accepts_build hacc)).trans
        (List.suffix_append pre mid)
    by_cases hne : t = []
    · have hlen := congrArg List.length hpre
      rw [hne, List.append_nil, List.length_append, List.length_cons] at hlen
      exact hlen.le
    · obtain ⟨hshort, hlong⟩ := written_tail hvalue hlast ⟨post, htail.symm⟩ hne
      obtain hsuffix | hsuffix := List.suffix_or_suffix_of_suffix hends (List.suffix_append _ t)
      · exact absurd hsuffix hlong
      · exact absurd hsuffix hshort
  · have hwhole : '[' :: name = pre ++ mid ++ t := hname
    have hlen := congrArg List.length hwhole
    rw [List.length_append, List.length_append, List.length_cons] at hlen
    dsimp only
    omega

theorem named_iff {s : PropStore} (h : ∀ prop ∈ s.props, Confined prop) {last : Str}
    (hlast : last ∈ ["tags".toList, "type".toList]) {name value : Str}
    (hprop : (name, value) ∈ s.props) :
    Named (buildPattern last) s.props name ↔ accepts (buildPattern last) name = true :=
  ⟨Confined.found h hlast, (h _ hprop).named hprop hlast⟩

theorem PropStore.confined_overwrite {s : PropStore} (h : ∀ prop ∈ s.props, Confined prop)
    {f : Str × Str → Str} (hf : ∀ prop ∈ s.props, '\n' ∉ f prop)
    (hcases : ∀ prop ∈ s.props, f prop = prop.2 ∨ f prop ∈ [releaseKeys, user]) :
    ∀ prop ∈ (s.overwrite f hf).props, Confined prop := by
  intro _ hmem
  obtain ⟨prop, hprop, rfl⟩ := List.mem_map.mp hmem
  obtain hsame | hwritten := hcases prop hprop
  · rw [hsame]
    exact h prop hprop
  · exact confined_written prop.1 hwritten

theorem FoundRight.of_confined {s : PropStore} (h : ∀ prop ∈ s.props, Confined prop) :
    FoundRight s.props := by
  have hafter : ∀ prop ∈ s.afterTags.props, Confined prop :=
    s.confined_overwrite h _ fun prop _ => by
      unfold taggedValue
      split_ifs
      · exact .inr List.mem_cons_self
      · exact .inl rfl
  intro prop hprop _
  have htags : Named tagsPattern s.props prop.1 ↔ accepts tagsPattern prop.1 = true :=
    named_iff h (by decide) hprop
  obtain ⟨value, hmem⟩ : ∃ value, (prop.1, value) ∈ s.afterTags.props :=
    ⟨_, List.mem_map.mpr ⟨prop, hprop, rfl⟩⟩
  have htype : Named typePattern (tagged s.props) prop.1 ↔ accepts typePattern prop.1 = true :=
    named_iff hafter (by decide) hmem
  refine ⟨fun hn => .inl (htype.mp hn), fun _ hn => .inl (htags.mp hn), fun hno₂ hno₁ => ?_⟩
  exact ⟨fun hacc => absurd (htags.mpr hacc) hno₁, fun hacc => absurd (htype.mpr hacc) hno₂⟩

theorem Exact.of_confined {s : PropStore} (h : ∀ prop ∈ s.props, Confined prop) :
    Exact s.props := by
  have hrewritten : ∀ prop ∈ s.rewritten.props, Confined prop :=
    s.confined_overwrite h _ fun prop _ => by
      unfold rewrittenValue
      split_ifs
      · exact .inl rfl
      · exact .inr List.mem_cons_self
      · exact .inr (List.mem_cons_of_mem _ List.mem_cons_self)
      · exact .inl rfl
  exact (exact_iff s).mpr ⟨.of_confined h, .of_confined hrewritten⟩

/-- The loops rewrite exactly their targets, also when they run again, if and only if the words
that they take for names are right in each run; and these are where matches stay in names. -/
theorem discoveryLoops_exact_iff (s : PropStore) :
    (Exact s.props ↔ FoundRight s.props ∧ FoundRight (rewritten s.props)) ∧
      ((∀ prop ∈ s.props, Confined prop) → Exact s.props) :=
  ⟨exact_iff s, Exact.of_confined⟩

/-- A value with the name of another property and the end of a match in it. -/
def strayStore : PropStore where
  props := [("ro.x".toList, "a ro.secure b.build.tags".toList), ("ro.secure".toList, "1".toList)]
  names_nodup := by decide
  name_plain := by decide
  value_line := by decide

def missedStore : PropStore where
  props := [("ro.a.build.tags".toList, "x.build.tags".toList)]
  names_nodup := by decide
  name_plain := by decide
  value_line := by decide

/-- A property that is no target is rewritten, and a target is not. -/
theorem discoveryLoops_not_exact :
    resetprop (discoveryLoops strayStore.props) "ro.secure".toList = "release-keys\n".toList ∧
      ¬ Exact strayStore.props ∧
      discoveryLoops missedStore.props = missedStore.props ∧ ¬ Exact missedStore.props :=
  ⟨by decide, fun h => absurd h.1 (by decide), by decide, fun h => absurd h.1 (by decide)⟩

end ZygiskAssistant.Template
