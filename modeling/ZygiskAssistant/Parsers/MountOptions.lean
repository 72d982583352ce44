import ZygiskAssistant.Parsers.Mountinfo

/-!
# Option strings and their maps

A list of options is written with commas, empty segments allowed, and read back
as a map. The last occurrence of a key wins, and since a value is read as a
line, it ends at its first newline.
-/

namespace ZygiskAssistant.Parsers

open InputStream InputStream.IStream

structure MountOption where
  key : Str
  value : Option Str
  key_ne : key ≠ []
  key_plain : ',' ∉ key ∧ '=' ∉ key
  value_plain : ∀ v ∈ value, ',' ∉ v

namespace MountOption

def text (o : MountOption) : Str :=
  match o.value with
  | none => o.key
  | some v => o.key ++ '=' :: v

/-- What the encoding says of the value. -/
def written (o : MountOption) : Str := o.value.getD []

def decoded (o : MountOption) : Str := o.written.takeWhile (· != '\n')

end MountOption

/-- `none` is an empty segment. -/
def renderOptions (segs : List (Option MountOption)) : Str :=
  [','].intercalate (segs.map fun seg => (seg.map MountOption.text).getD [])

def lastOption (opts : List MountOption) (key : Str) : Option MountOption :=
  opts.reverse.find? fun o => o.key = key

theorem MountOption.text_ne (o : MountOption) : o.text ≠ [] := by
  obtain ⟨c, cs, hk⟩ := List.exists_cons_of_ne_nil o.key_ne
  unfold MountOption.text
  split <;> simp [hk]

theorem MountOption.comma_notMem_text (o : MountOption) : ',' ∉ o.text := by
  unfold MountOption.text
  split
  · exact o.key_plain.1
  · rename_i v hv
    simp [o.key_plain.1, o.value_plain v hv]

/-- Empty segments change nothing, wherever they stand. -/
theorem foldl_insertOption_render (segs : List (Option MountOption)) (ret : StrMap) :
    (segments ',' (renderOptions segs)).foldl insertOption ret =
      (segs.reduceOption.map MountOption.text).foldl insertOption ret := by
  induction segs generalizing ret with
  | nil => rfl
  | cons seg segs ih =>
    cases segs with
    | nil =>
      cases seg with
      | none => rfl
      | some o =>
        have hs : renderOptions [some o] = o.text := by simp [renderOptions]
        rw [hs, segments_last o.text_ne o.comma_notMem_text]
        rfl
    | cons next segs =>
      have hs : renderOptions (seg :: next :: segs) =
          (seg.map MountOption.text).getD [] ++ ',' :: renderOptions (next :: segs) := by
        simp [renderOptions]
      have hcomma : ',' ∉ (seg.map MountOption.text).getD [] := by
        cases seg with
        | none => exact List.not_mem_nil
        | some o => exact o.comma_notMem_text
      rw [hs, segments_line hcomma, List.foldl_cons, ih]
      cases seg with
      | none => rfl
      | some o => rfl

theorem getline_decoded (s : Str) :
    ((IStream.mk s false false).getline [] '\n').1 = s.takeWhile (· != '\n') := by
  unfold getline
  rw [if_pos (show (IStream.mk s false false).good = true from rfl)]
  dsimp only
  split <;> rfl

theorem insertOption_text (ret : StrMap) (o : MountOption) :
    insertOption ret o.text = ret.insert o.key o.decoded := by
  unfold insertOption MountOption.text MountOption.decoded MountOption.written
  cases o.value with
  | none =>
    have hkey : (ofString o.key).getline [] '=' = (o.key, ⟨[], true, o.key.isEmpty⟩) :=
      getline_last rfl o.key_plain.2 []
    have hne : o.key.isEmpty = false := by simpa using o.key_ne
    rw [hkey, hne]
    rfl
  | some v =>
    have hkey : (ofString (o.key ++ '=' :: v)).getline [] '=' = (o.key, ⟨v, false, false⟩) :=
      getline_line rfl rfl o.key_plain.2 []
    rw [hkey]
    exact congrArg (ret.insert o.key) (getline_decoded v)

theorem parseMountOptions_eq (segs : List (Option MountOption)) :
    parseMountOptions (renderOptions segs) =
      segs.reduceOption.foldl (fun ret o => ret.insert o.key o.decoded) ∅ := by
  rw [parseMountOptions, getlines_eq_segments _ _ _ (Nat.lt_succ_self _),
    foldl_insertOption_render, List.foldl_map]
  simp only [insertOption_text]

theorem lookup_foldl_insert (opts : List MountOption) (key : Str) :
    (opts.foldl (fun (ret : StrMap) o => ret.insert o.key o.decoded) ∅).lookup key =
      (lastOption opts key).map MountOption.decoded := by
  induction opts using List.reverseRecOn with
  | nil => rfl
  | append_singleton opts o ih =>
    rw [List.foldl_concat, lastOption, List.reverse_append, List.reverse_singleton,
      List.singleton_append, List.find?_cons]
    by_cases hk : o.key = key
    · subst hk
      simp
    · rw [Finmap.lookup_insert_of_ne _ (Ne.symm hk), ih]
      simp [hk, lastOption]

theorem lastOption_eq_some_iff {opts : List MountOption} (hd : (opts.map MountOption.key).Nodup)
    {key : Str} {o : MountOption} : lastOption opts key = some o ↔ o ∈ opts ∧ o.key = key := by
  constructor
  · intro h
    exact ⟨List.mem_reverse.mp (List.mem_of_find?_eq_some h), by simpa using List.find?_some h⟩
  · rintro ⟨ho, rfl⟩
    obtain ⟨q, hq⟩ : ∃ q, lastOption opts o.key = some q := by
      rw [← Option.isSome_iff_exists, lastOption, List.find?_isSome]
      exact ⟨o, List.mem_reverse.mpr ho, by simp⟩
    have hqk : q.key = o.key := by simpa using List.find?_some hq
    have hqm : q ∈ opts := List.mem_reverse.mp (List.mem_of_find?_eq_some hq)
    rw [hq, List.inj_on_of_nodup_map hd hqm ho hqk]

/-- Reading options back: every key has the value of its last occurrence, up to its first
newline, there are no other keys, and the order of options with distinct keys is free. -/
theorem parseMountOptions_render (segs : List (Option MountOption)) :
    (∀ key, (parseMountOptions (renderOptions segs)).lookup key =
        (lastOption segs.reduceOption key).map MountOption.decoded) ∧
      ∀ segs', (segs.reduceOption.map MountOption.key).Nodup →
        segs.reduceOption.Perm segs'.reduceOption →
        parseMountOptions (renderOptions segs') = parseMountOptions (renderOptions segs) := by
  have hlookup : ∀ s key, (parseMountOptions (renderOptions s)).lookup key =
      (lastOption s.reduceOption key).map MountOption.decoded := by
    intro s key
    rw [parseMountOptions_eq, lookup_foldl_insert]
  refine ⟨hlookup segs, ?_⟩
  intro segs' hd hp
  have hd' : (segs'.reduceOption.map MountOption.key).Nodup := (hp.map _).nodup_iff.mp hd
  apply Finmap.ext_lookup
  intro key
  have hsame : lastOption segs'.reduceOption key = lastOption segs.reduceOption key := by
    apply Option.ext
    intro o
    rw [lastOption_eq_some_iff hd, lastOption_eq_some_iff hd', hp.mem_iff]
  rw [hlookup, hlookup, hsame]

def newlineOption : MountOption where
  key := "k".toList
  value := some "a\nb".toList
  key_ne := by decide
  key_plain := by decide
  value_plain := by
    rintro v ⟨⟩
    decide

/-- A value with a newline in it is not read back whole. -/
theorem parseMountOptions_cut : ¬ ∀ segs key,
    (parseMountOptions (renderOptions segs)).lookup key =
      (lastOption segs.reduceOption key).map MountOption.written := by
  intro h
  exact absurd (h [some newlineOption] "k".toList) (by decide)

end ZygiskAssistant.Parsers
