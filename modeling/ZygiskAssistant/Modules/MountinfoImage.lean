import ZygiskAssistant.Lib.Accepted
import ZygiskAssistant.Modules.MountinfoRoundTrip
import ZygiskAssistant.Parsers.MountOptions

/-!
# Which tables the mountinfo parser can give

Whatever the text, every entry is well formed: its numbers are in range, its
fields are words, and its options are clean. And every table of well-formed
entries is the table of some text.
-/

namespace ZygiskAssistant.Modules

open InputStream InputStream.IStream Parsers

/-- No key holds a comma, an equals sign or a blank, and no value a comma or a blank. -/
def CleanOptions (options : StrMap) : Prop :=
  ∀ key value, options.lookup key = some value →
    (∀ c ∈ key, c ≠ ',' ∧ c ≠ '=' ∧ isSpace c = false) ∧ ∀ c ∈ value, c ≠ ',' ∧ isSpace c = false

structure WellFormed (e : MountinfoEntry) : Prop where
  mountId : InInt e.mountId
  parentId : InInt e.parentId
  device : ∃ major minor, InInt major ∧ InInt minor ∧ e.device = makedev major minor
  root : IsWord e.root
  mountPoint : IsWord e.mountPoint
  optionalFields : ∃ tags : List Str, (∀ tag ∈ tags, IsWord tag ∧ tag ≠ ['-']) ∧
    e.optionalFields = tags.flatMap (' ' :: ·)
  filesystemType : IsWord e.filesystemType
  mountSource : IsWord e.mountSource
  mountOptions : CleanOptions e.mountOptions
  superOptions : CleanOptions e.superOptions

theorem CleanOptions.empty : CleanOptions ∅ := by
  intro key value h
  simp at h

theorem CleanOptions.insert {options : StrMap} {key value : Str} (h : CleanOptions options)
    (hkey : ∀ c ∈ key, c ≠ ',' ∧ c ≠ '=' ∧ isSpace c = false)
    (hvalue : ∀ c ∈ value, c ≠ ',' ∧ isSpace c = false) :
    CleanOptions (options.insert key value) := by
  intro k v hv
  by_cases hk : k = key
  · subst hk
    rw [Finmap.lookup_insert] at hv
    obtain rfl := Option.some.inj hv
    exact ⟨hkey, hvalue⟩
  · rw [Finmap.lookup_insert_of_ne _ hk] at hv
    exact h k v hv

theorem insertOption_clean {options : StrMap} {token : Str} (h : CleanOptions options)
    (htoken : ∀ c ∈ token, c ≠ ',' ∧ isSpace c = false) :
    CleanOptions (insertOption options token) := by
  unfold insertOption
  by_cases hm : '=' ∈ token
  · obtain ⟨key, value, rfl, hno⟩ := List.eq_append_cons_of_mem hm
    have hkey : (ofString (key ++ '=' :: value)).getline [] '=' = (key, ⟨value, false, false⟩) :=
      getline_line rfl rfl hno []
    rw [hkey]
    refine h.insert (fun c hc => ?_) (fun c hc => ?_)
    · exact ⟨(htoken c (by simp [hc])).1, fun he => hno (he ▸ hc), (htoken c (by simp [hc])).2⟩
    · have hline : c ∈ ((IStream.mk value false false).getline [] '\n').1 := hc
      rw [getline_decoded] at hline
      exact htoken c (by simp [(List.takeWhile_prefix _).subset hline])
  · have hkey : (ofString token).getline [] '=' = (token, ⟨[], true, token.isEmpty⟩) :=
      getline_last rfl hm []
    rw [hkey]
    dsimp only
    split
    · exact h
    · refine h.insert (fun c hc => ?_) (fun c hc => ?_)
      · exact ⟨(htoken c hc).1, fun he => hm (he ▸ hc), (htoken c hc).2⟩
      · simp [getline, good] at hc

theorem parseMountOptions_clean {w : Str} (h : IsWord w) : CleanOptions (parseMountOptions w) := by
  have htokens : ∀ token ∈ segments ',' w, ∀ c ∈ token, c ≠ ',' ∧ isSpace c = false := by
    intro token ht c hc
    obtain ⟨hno, hsub⟩ := mem_segments ht
    exact ⟨fun he => hno (he ▸ hc), h.2 c (hsub c hc)⟩
  rw [parseMountOptions, getlines_eq_segments _ _ _ (Nat.lt_succ_self _)]
  have hstart := CleanOptions.empty
  revert hstart htokens
  generalize (∅ : StrMap) = options
  generalize segments ',' w = tokens
  intro htokens hclean
  induction tokens generalizing options with
  | nil => exact hclean
  | cons token tokens ih =>
    exact ih _ (fun t ht => htokens t (List.mem_cons_of_mem token ht))
      (insertOption_clean hclean (htokens token List.mem_cons_self))

theorem insertOption_pair (options : StrMap) {key value : Str} (hkey : '=' ∉ key)
    (hvalue : '\n' ∉ value) :
    insertOption options (key ++ '=' :: value) = options.insert key value := by
  have hread : (ofString (key ++ '=' :: value)).getline [] '=' = (key, ⟨value, false, false⟩) :=
    getline_line rfl rfl hkey []
  have hline : ∀ c ∈ value, (c != '\n') = true := fun c hc => bne_iff_ne.mpr fun he => hvalue (he ▸ hc)
  have hrest := getline_decoded value
  rw [List.takeWhile_eq_self_iff.mpr hline] at hrest
  unfold insertOption
  rw [hread]
  exact congrArg (options.insert key) hrest

/-- A map is read from the options that spell its pairs, in any order. -/
theorem exists_tokens (options : StrMap) (h : CleanOptions options) : ∃ tokens : List Str,
    (∀ token ∈ tokens, ∀ c ∈ token, c ≠ ',' ∧ isSpace c = false) ∧
      tokens.foldl insertOption ∅ = options := by
  induction options using Finmap.induction_on with
  | H a =>
    induction a using AList.insertRec with
    | H0 => exact ⟨[], by simp, rfl⟩
    | IH key value a hno ih =>
      have hins : (a.insert key value).toFinmap = Finmap.insert key value a.toFinmap :=
        (Finmap.insert_toFinmap key value a).symm
      rw [hins] at h ⊢
      obtain ⟨hkey, hvalue⟩ := h key value (Finmap.lookup_insert _)
      obtain ⟨tokens, htokens, hfold⟩ := ih fun k v hv => by
        have hne : k ≠ key := by
          rintro rfl
          rw [Finmap.lookup_toFinmap, AList.lookup_eq_none.mpr hno] at hv
          cases hv
        exact h k v ((Finmap.lookup_insert_of_ne _ hne).trans hv)
      refine ⟨tokens ++ [key ++ '=' :: value], ?_, ?_⟩
      · intro token ht c hc
        obtain ht | ht := List.mem_append.mp ht
        · exact htokens token ht c hc
        · obtain rfl := List.mem_singleton.mp ht
          obtain hc | hc := List.mem_append.mp hc
          · exact ⟨(hkey c hc).1, (hkey c hc).2.2⟩
          · obtain rfl | hc := List.mem_cons.mp hc
            · decide
            · exact hvalue c hc
      · rw [List.foldl_concat, hfold]
        refine insertOption_pair _ (fun hc => (hkey _ hc).2.1 rfl) fun hc => ?_
        have hs := (hvalue _ hc).2
        simp [isSpace] at hs

theorem exists_options {options : StrMap} (h : CleanOptions options) :
    ∃ w, IsWord w ∧ parseMountOptions w = options := by
  obtain ⟨tokens, htokens, hfold⟩ := exists_tokens options h
  refine ⟨',' :: tokens.flatMap fun token => token ++ [','], ⟨by simp, ?_⟩, ?_⟩
  · intro c hc
    obtain rfl | hc := List.mem_cons.mp hc
    · rfl
    · obtain ⟨token, ht, hc⟩ := List.mem_flatMap.mp hc
      obtain hc | hc := List.mem_append.mp hc
      · exact (htokens token ht c hc).2
      · obtain rfl := List.mem_singleton.mp hc
        rfl
  · have hsegments : segments ',' (tokens.flatMap fun token => token ++ [',']) = tokens.map id :=
      segments_lines fun token ht hc => (htokens token ht _ hc).1 rfl
    rw [parseMountOptions, getlines_eq_segments _ _ _ (Nat.lt_succ_self _), segments_cons_delim,
      hsegments, List.map_id, List.foldl_cons]
    exact hfold

theorem readHead_accepted {is : IStream} (h : (readHead is).2.2.2.fail = false) :
    InInt (readHead is).1 ∧ InInt (readHead is).2.1 ∧
      (∃ major minor, InInt major ∧ InInt minor ∧ (readHead is).2.2.1 = makedev major minor) ∧
      Continues is (readHead is).2.2.2 := by
  unfold readHead at h ⊢
  obtain ⟨hminor, hminorInt⟩ := extractInt_accepted h
  have hcolon := extractChar_accepted hminor.started
  obtain ⟨hmajor, hmajorInt⟩ := extractInt_accepted hcolon.started
  obtain ⟨hparent, hparentInt⟩ := extractInt_accepted hmajor.started
  obtain ⟨hid, hidInt⟩ := extractInt_accepted hparent.started
  exact ⟨hidInt, hparentInt, ⟨_, _, hmajorInt, hminorInt, rfl⟩,
    (((hid.trans hparent).trans hmajor).trans hcolon).trans hminor⟩

theorem entryOfWords_wellFormed {mountId parentId : Int} {device : DevT} {ws : List Str}
    {e : MountinfoEntry} (hid : InInt mountId) (hparent : InInt parentId)
    (hdevice : ∃ major minor, InInt major ∧ InInt minor ∧ device = makedev major minor)
    (hws : ∀ w ∈ ws, IsWord w) (h : entryOfWords mountId parentId device ws = some e) :
    WellFormed e := by
  obtain _ | ⟨root, _ | ⟨mountPoint, _ | ⟨mountOptions, fields⟩⟩⟩ := ws
  · cases h
  · cases h
  · cases h
  · simp only [entryOfWords] at h
    have hsub : (fields.dropWhile (· != ['-'])) ⊆ fields := (List.dropWhile_suffix _).subset
    cases hd : fields.dropWhile (· != ['-']) with
    | nil =>
      rw [hd] at h
      cases h
    | cons sep after =>
      rw [hd] at h hsub
      obtain _ | ⟨filesystemType, _ | ⟨mountSource, _ | ⟨superOptions, after⟩⟩⟩ := after
      · cases h
      · cases h
      · cases h
      · obtain rfl := Option.some.inj h
        have hfield : ∀ w ∈ fields, IsWord w := fun w hw => hws w (by simp [hw])
        have hmount : IsWord mountOptions := hws mountOptions (by simp)
        have hsuper : IsWord superOptions := hfield superOptions (hsub (by simp))
        refine ⟨hid, hparent, hdevice, hws root (by simp), hws mountPoint (by simp), ?_,
          hfield filesystemType (hsub (by simp)), hfield mountSource (hsub (by simp)),
          parseMountOptions_clean hmount, parseMountOptions_clean hsuper⟩
        refine ⟨fields.takeWhile (· != ['-']), fun tag ht => ?_, rfl⟩
        exact ⟨hfield tag ((List.takeWhile_prefix _).subset ht),
          bne_iff_ne.mp (List.mem_takeWhile_imp (p := (· != ['-'])) ht)⟩

theorem parseMountinfoLine_wellFormed {line : Str} {e : MountinfoEntry}
    (h : parseMountinfoLine line = some e) : WellFormed e := by
  rw [parseMountinfoLine_eq] at h
  dsimp only at h
  cases hf : (readHead (ofString line)).2.2.2.fail with
  | true =>
    rw [parseWords_fail hf] at h
    cases h
  | false =>
    obtain ⟨hid, hparent, hdevice, hrest⟩ := readHead_accepted hf
    have hlen : (words (readHead (ofString line)).2.2.2.rest).length < line.length + 1 :=
      Nat.lt_succ_of_le ((length_words_le _).trans hrest.suffix.length_le)
    rw [parseWords_eq _ _ _ hrest.live hlen] at h
    exact entryOfWords_wellFormed hid hparent hdevice (fun w hw => mem_words hw) h

theorem WellFormed.exists_line {e : MountinfoEntry} (h : WellFormed e) :
    ∃ line, '\n' ∉ line ∧ parseMountinfoLine line = some e := by
  obtain ⟨major, minor, hmajor, hminor, hdevice⟩ := h.device
  obtain ⟨tags, htags, hoptional⟩ := h.optionalFields
  obtain ⟨mountOptions, hmount, hmountEq⟩ := exists_options h.mountOptions
  obtain ⟨superOptions, hsuper, hsuperEq⟩ := exists_options h.superOptions
  obtain ⟨hdrop, htext⟩ := tags_split htags [e.filesystemType, e.mountSource, superOptions]
  have hblank : Boundary (' ' :: '-' :: ' ' :: (e.filesystemType ++ ' ' :: (e.mountSource ++
      ' ' :: superOptions))) := boundary_cons rfl _
  obtain ⟨hb, hw⟩ := words_tags htags hblank
  have hwords : words (e.root ++ ' ' :: (e.mountPoint ++ ' ' :: (mountOptions ++
      (tags.flatMap (' ' :: ·) ++ ' ' :: '-' :: ' ' :: (e.filesystemType ++
        ' ' :: (e.mountSource ++ ' ' :: superOptions)))))) =
      e.root :: e.mountPoint :: mountOptions ::
        (tags ++ ['-'] :: [e.filesystemType, e.mountSource, superOptions]) := by
    have hsep : IsWord ['-'] := by decide
    have hlast : words superOptions = [superOptions] := by
      have hend := words_word hsuper.1 hsuper.2 (r := []) (by simp [Boundary])
      rwa [List.append_nil] at hend
    rw [words_isWord h.root, words_isWord h.mountPoint, words_word hmount.1 hmount.2 hb, hw,
      words_cons_space rfl]
    rw [show '-' :: ' ' :: (e.filesystemType ++ ' ' :: (e.mountSource ++ ' ' :: superOptions)) =
      ['-'] ++ ' ' :: (e.filesystemType ++ ' ' :: (e.mountSource ++ ' ' :: superOptions)) from rfl,
      words_isWord hsep, words_isWord h.filesystemType, words_isWord h.mountSource, hlast]
  have hparse := parseMountinfoLine_head h.mountId h.parentId hmajor hminor blank_space blank_space
    blank_space (e.root ++ ' ' :: (e.mountPoint ++ ' ' :: (mountOptions ++
      (tags.flatMap (' ' :: ·) ++ ' ' :: '-' :: ' ' :: (e.filesystemType ++
        ' ' :: (e.mountSource ++ ' ' :: superOptions))))))
  refine ⟨_, ?_, hparse.trans ?_⟩
  · have htagsLine : '\n' ∉ tags.flatMap (' ' :: ·) := by
      intro hm
      obtain ⟨tag, ht, hc⟩ := List.mem_flatMap.mp hm
      simp only [List.mem_cons, Char.reduceEq, false_or] at hc
      exact newline_notMem_word (htags tag ht).1 hc
    simp [newline_notMem_decimal, newline_notMem_word, h.root, h.mountPoint, hmount, htagsLine,
      h.filesystemType, h.mountSource, hsuper]
  · rw [hwords]
    simp only [entryOfWords, hdrop, htext, mountinfoEntry, hmountEq, hsuperEq]
    rw [← hoptional, ← hdevice]

theorem parseSelfMountinfo_segments (text : Str) (parserCache : List MountinfoEntry) :
    parseSelfMountinfo false (some text) parserCache =
      (segments '\n' text).filterMap parseMountinfoLine := by
  unfold parseSelfMountinfo
  simp only [Bool.false_and, Bool.false_eq_true, if_false]
  rw [getlines_eq_segments _ _ _ (Nat.lt_succ_self _)]

theorem wellFormed_of_mem {text : Str} {parserCache : List MountinfoEntry} {e : MountinfoEntry}
    (h : e ∈ parseSelfMountinfo false (some text) parserCache) : WellFormed e := by
  rw [parseSelfMountinfo_segments] at h
  obtain ⟨line, _, hline⟩ := List.mem_filterMap.mp h
  exact parseMountinfoLine_wellFormed hline

/-- Whatever stands in the table, no call of `umount2` gets an empty path or one with a blank. -/
theorem umountPaths_isWord {text path : Str} {parserCache : List MountinfoEntry}
    (h : path ∈ umountPaths (parseSelfMountinfo false (some text) parserCache)) : IsWord path := by
  obtain ⟨e, he, rfl⟩ := List.mem_map.mp h
  exact (wellFormed_of_mem (List.mem_filter.mp (List.mem_reverse.mp he)).1).mountPoint

end ZygiskAssistant.Modules
