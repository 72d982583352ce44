import ZygiskAssistant.Modules.DoUnmount
import ZygiskAssistant.Parsers.MountinfoLine

/-!
# The mount table as the kernel prints it

Records, the kernel's escaping and its line format, and what the parser reads
back. The escapes are not decoded: an entry keeps the spelling of the table,
and so do the paths that `doUnmount` passes on. A record without a source has
one field too few and gives no entry.
-/

namespace ZygiskAssistant.Modules

open InputStream Parsers

/-- A text is checked character by character. -/
instance (s : Str) (p : Char → Prop) [DecidablePred p] : Decidable (∀ c ∈ s, p c) :=
  List.decidableBAll p s

def IsWord (w : Str) : Prop := w ≠ [] ∧ ∀ c ∈ w, isSpace c = false

instance (w : Str) : Decidable (IsWord w) :=
  inferInstanceAs (Decidable (w ≠ [] ∧ ∀ c ∈ w, isSpace c = false))

structure MountRecord where
  mountId : Int
  parentId : Int
  major : Int
  minor : Int
  root : Str
  mountPoint : Str
  mountOptions : Str
  tags : List Str
  filesystemType : Str
  source : Str
  superOptions : Str
  ids_int : InInt mountId ∧ InInt parentId
  device_int : InInt major ∧ InInt minor
  root_ne : root ≠ []
  mountPoint_ne : mountPoint ≠ []
  mountOptions_word : IsWord mountOptions
  tags_word : ∀ tag ∈ tags, IsWord tag ∧ tag ≠ ['-']
  filesystemType_ne : filesystemType ≠ []
  superOptions_ne : superOptions ≠ []

def escapeChar (c : Char) : Str :=
  if c = ' ' then "\\040".toList
  else if c = '\t' then "\\011".toList
  else if c = '\n' then "\\012".toList
  else if c = '\\' then "\\134".toList
  else [c]

def escape (s : Str) : Str := s.flatMap escapeChar

namespace MountRecord

def fields (r : MountRecord) : Str :=
  escape r.root ++ ' ' :: (escape r.mountPoint ++ ' ' :: (r.mountOptions ++
    (r.tags.flatMap (' ' :: ·) ++ ' ' :: '-' :: ' ' :: (escape r.filesystemType ++
      ' ' :: (escape r.source ++ ' ' :: r.superOptions)))))

def line (r : MountRecord) : Str :=
  decimal r.mountId ++ ([' '] ++ (decimal r.parentId ++ ([' '] ++ (decimal r.major ++
    (':' :: (decimal r.minor ++ ([' '] ++ r.fields)))))))

end MountRecord

def render (rs : List MountRecord) : Str := rs.flatMap fun r => r.line ++ ['\n']

theorem escapeChar_no_space {c : Char} (h : c ≠ '\x0b' ∧ c ≠ '\x0c' ∧ c ≠ '\r') :
    ∀ d ∈ escapeChar c, isSpace d = false := by
  obtain ⟨hv, hf, hr⟩ := h
  unfold escapeChar
  split
  · decide
  · split
    · decide
    · split
      · decide
      · split
        · decide
        · intro d hd
          obtain rfl := List.mem_singleton.mp hd
          simp [isSpace, *]

theorem newline_notMem_escapeChar (c : Char) : '\n' ∉ escapeChar c := by
  unfold escapeChar
  split
  · decide
  · split
    · decide
    · split
      · decide
      · split
        · decide
        · rename_i hn _
          simpa using Ne.symm hn

theorem escapeChar_ne_nil (c : Char) : escapeChar c ≠ [] := by
  unfold escapeChar
  repeat' split
  all_goals simp

theorem newline_notMem_escape (s : Str) : '\n' ∉ escape s := by
  intro h
  obtain ⟨c, _, hc⟩ := List.mem_flatMap.mp h
  exact newline_notMem_escapeChar c hc

/-- The control characters that end a word and that the kernel does not escape. -/
def NoControl (s : Str) : Prop := ∀ c ∈ s, c ≠ '\x0b' ∧ c ≠ '\x0c' ∧ c ≠ '\r'

instance (s : Str) : Decidable (NoControl s) :=
  inferInstanceAs (Decidable (∀ c ∈ s, c ≠ '\x0b' ∧ c ≠ '\x0c' ∧ c ≠ '\r'))

theorem isWord_escape {s : Str} (hne : s ≠ []) (h : NoControl s) : IsWord (escape s) := by
  constructor
  · obtain ⟨c, cs, rfl⟩ := List.exists_cons_of_ne_nil hne
    simp [escape, escapeChar_ne_nil c]
  · intro d hd
    obtain ⟨c, hc, hdc⟩ := List.mem_flatMap.mp hd
    exact escapeChar_no_space (h c hc) d hdc

def NeedsEscape (c : Char) : Prop := c = ' ' ∨ c = '\t' ∨ c = '\n' ∨ c = '\\'

theorem escapeChar_plain {c : Char} (h : ¬ NeedsEscape c) : escapeChar c = [c] := by
  obtain ⟨hs, ht, hn, hb⟩ : c ≠ ' ' ∧ c ≠ '\t' ∧ c ≠ '\n' ∧ c ≠ '\\' := by
    simpa [NeedsEscape] using h
  simp [escapeChar, hs, ht, hn, hb]

theorem length_escapeChar {c : Char} (h : NeedsEscape c) : (escapeChar c).length = 4 := by
  rcases h with rfl | rfl | rfl | rfl <;> rfl

theorem length_le_escape (s : Str) : s.length ≤ (escape s).length := by
  induction s with
  | nil => simp
  | cons c cs ih =>
    have hpos := List.length_pos_of_ne_nil (escapeChar_ne_nil c)
    simp only [escape, List.flatMap_cons, List.length_append, List.length_cons] at ih ⊢
    omega

theorem escape_eq_self_iff (s : Str) : escape s = s ↔ ∀ c ∈ s, ¬ NeedsEscape c := by
  induction s with
  | nil => simp [escape]
  | cons c cs ih =>
    have hcons : escape (c :: cs) = escapeChar c ++ escape cs := List.flatMap_cons
    rw [hcons, List.forall_mem_cons, ← ih]
    constructor
    · intro h
      have hc : ¬ NeedsEscape c := by
        intro hc
        have hlen := congrArg List.length h
        have hle := length_le_escape cs
        rw [List.length_append, length_escapeChar hc, List.length_cons] at hlen
        omega
      rw [escapeChar_plain hc] at h
      exact ⟨hc, (List.cons.inj h).2⟩
    · rintro ⟨hc, h⟩
      rw [escapeChar_plain hc, h]
      rfl

/-- What the parser can read: no control character in a spelled field, one line, and no
second word after a missing source. -/
structure Readable (r : MountRecord) : Prop where
  root : NoControl r.root
  mountPoint : NoControl r.mountPoint
  filesystemType : NoControl r.filesystemType
  source : NoControl r.source
  superOptions : '\n' ∉ r.superOptions
  oneWord : r.source = [] → (words r.superOptions).length ≤ 1

/-- The record has a source and a super option, so that no field of its line is missing. -/
def MountRecord.complete (r : MountRecord) : Bool :=
  !r.source.isEmpty && !(words r.superOptions).isEmpty

theorem words_isWord {w : Str} (h : IsWord w) (s : Str) : words (w ++ ' ' :: s) = w :: words s := by
  rw [words_word h.1 h.2 (boundary_cons rfl _), words_cons_space rfl]

theorem blank_space : Blank [' '] := ⟨by simp, by decide⟩

theorem words_tags {tags : List Str} (h : ∀ tag ∈ tags, IsWord tag ∧ tag ≠ ['-']) {s : Str}
    (hs : Boundary s) : Boundary (tags.flatMap (' ' :: ·) ++ s) ∧
      words (tags.flatMap (' ' :: ·) ++ s) = tags ++ words s := by
  have hspaced : ∀ t ∈ tags.map fun tag => ([' '], tag),
      Blank t.1 ∧ t.2 ≠ [] ∧ ∀ c ∈ t.2, isSpace c = false := by
    intro t ht
    obtain ⟨tag, htag, rfl⟩ := List.mem_map.mp ht
    exact ⟨blank_space, (h tag htag).1⟩
  simpa [List.flatMap_map, Function.comp_def] using words_spaced hspaced hs

theorem words_fields {r : MountRecord} (h : Readable r) : words r.fields =
    escape r.root :: escape r.mountPoint :: r.mountOptions :: (r.tags ++ ['-'] ::
      escape r.filesystemType :: words (escape r.source ++ ' ' :: r.superOptions)) := by
  have hsep : IsWord ['-'] := by decide
  have htail : Boundary (' ' :: '-' :: ' ' :: (escape r.filesystemType ++
      ' ' :: (escape r.source ++ ' ' :: r.superOptions))) := boundary_cons rfl _
  obtain ⟨hb, hw⟩ := words_tags r.tags_word htail
  unfold MountRecord.fields
  rw [words_isWord (isWord_escape r.root_ne h.root),
    words_isWord (isWord_escape r.mountPoint_ne h.mountPoint),
    words_word r.mountOptions_word.1 r.mountOptions_word.2 hb, hw, words_cons_space rfl]
  rw [show '-' :: ' ' :: (escape r.filesystemType ++ ' ' :: (escape r.source ++
    ' ' :: r.superOptions)) = ['-'] ++ ' ' :: (escape r.filesystemType ++ ' ' ::
      (escape r.source ++ ' ' :: r.superOptions)) from rfl, words_isWord hsep,
    words_isWord (isWord_escape r.filesystemType_ne h.filesystemType)]

def MountRecord.entry (r : MountRecord) : MountinfoEntry :=
  mountinfoEntry r.mountId r.parentId (makedev r.major r.minor) (escape r.root)
    (escape r.mountPoint) r.mountOptions (r.tags.flatMap (' ' :: ·)) (escape r.filesystemType)
    (escape r.source) ((words r.superOptions).headD [])

theorem tags_split {tags : List Str} (h : ∀ tag ∈ tags, IsWord tag ∧ tag ≠ ['-'])
    (rest : List Str) :
    (tags ++ ['-'] :: rest).dropWhile (· != ['-']) = ['-'] :: rest ∧
      optionalText (tags ++ ['-'] :: rest) = tags.flatMap (' ' :: ·) := by
  have hp : ∀ tag ∈ tags, (tag != ['-']) = true := fun tag ht => bne_iff_ne.mpr (h tag ht).2
  unfold optionalText
  rw [List.dropWhile_append_of_pos hp, List.takeWhile_append_of_pos hp]
  simp

theorem parseMountinfoLine_line {r : MountRecord} (h : Readable r) :
    parseMountinfoLine r.line = if r.complete then some r.entry else none := by
  obtain ⟨hdrop, htext⟩ := tags_split r.tags_word
    (escape r.filesystemType :: words (escape r.source ++ ' ' :: r.superOptions))
  rw [MountRecord.line, parseMountinfoLine_head r.ids_int.1 r.ids_int.2 r.device_int.1
    r.device_int.2 blank_space blank_space blank_space, words_fields h]
  simp only [entryOfWords, hdrop, htext]
  by_cases hs : r.source = []
  · have hnil : r.complete = false := by simp [MountRecord.complete, hs]
    have hone := h.oneWord hs
    have hw : words (escape r.source ++ ' ' :: r.superOptions) = words r.superOptions := by
      rw [hs]
      exact words_cons_space rfl _
    rw [hnil, hw]
    generalize words r.superOptions = ws at hone ⊢
    cases ws with
    | nil => rfl
    | cons w ws =>
      cases ws with
      | nil => rfl
      | cons v vs => simp at hone
  · rw [words_isWord (isWord_escape hs h.source)]
    unfold MountRecord.complete MountRecord.entry
    cases words r.superOptions with
    | nil => simp
    | cons w ws => simp [hs]

theorem newline_notMem_decimal (n : Int) : '\n' ∉ decimal n := by
  intro h
  have hdig : '\n' ∈ Nat.toDigits 10 n.natAbs := by
    unfold decimal at h
    split at h
    · simpa using h
    · exact h
  have := isDigit_toDigits hdig
  simp at this

theorem newline_notMem_word {w : Str} (h : IsWord w) : '\n' ∉ w := by
  intro hm
  have hs := h.2 _ hm
  simp [isSpace] at hs

theorem newline_notMem_line {r : MountRecord} (h : Readable r) : '\n' ∉ r.line := by
  have htags : '\n' ∉ r.tags.flatMap (' ' :: ·) := by
    intro hm
    obtain ⟨tag, ht, hc⟩ := List.mem_flatMap.mp hm
    simp only [List.mem_cons, Char.reduceEq, false_or] at hc
    exact newline_notMem_word (r.tags_word tag ht).1 hc
  simp [MountRecord.line, MountRecord.fields, newline_notMem_decimal, newline_notMem_escape,
    newline_notMem_word r.mountOptions_word, htags, h.superOptions]

theorem segments_render {rs : List MountRecord} (h : ∀ r ∈ rs, Readable r) :
    segments '\n' (render rs) = rs.map MountRecord.line :=
  segments_lines fun r hr => newline_notMem_line (h r hr)

theorem parseSelfMountinfo_render {rs : List MountRecord} (h : ∀ r ∈ rs, Readable r)
    (parserCache : List MountinfoEntry) :
    parseSelfMountinfo false (some (render rs)) parserCache =
      (rs.filter MountRecord.complete).map MountRecord.entry := by
  unfold parseSelfMountinfo
  simp only [Bool.false_and, Bool.false_eq_true, if_false]
  rw [IStream.getlines_eq_segments _ _ _ (Nat.lt_succ_self _), segments_render h]
  exact filterMap_lines fun r hr => parseMountinfoLine_line (h r hr)

def fieldsOf (m : MountinfoEntry) : Str × Str × Str × Str × DevT :=
  (m.root, m.mountPoint, m.filesystemType, m.mountSource, m.device)

def MountRecord.spelling (r : MountRecord) : Str × Str × Str × Str × DevT :=
  (escape r.root, escape r.mountPoint, escape r.filesystemType, escape r.source,
    makedev r.major r.minor)

def MountRecord.value (r : MountRecord) : Str × Str × Str × Str × DevT :=
  (r.root, r.mountPoint, r.filesystemType, r.source, makedev r.major r.minor)

def plainRecord : MountRecord where
  mountId := 36
  parentId := 35
  major := 98
  minor := 0
  root := "/".toList
  mountPoint := "/mnt".toList
  mountOptions := "rw,noatime".toList
  tags := ["master:1".toList]
  filesystemType := "ext3".toList
  source := "/dev/root".toList
  superOptions := "rw".toList
  ids_int := by decide
  device_int := by decide
  root_ne := by decide
  mountPoint_ne := by decide
  mountOptions_word := by decide
  tags_word := by decide
  filesystemType_ne := by decide
  superOptions_ne := by decide

def spaceRecord : MountRecord :=
  { plainRecord with mountPoint := "/my disk".toList, mountPoint_ne := by decide }

def sourcelessRecord : MountRecord := { plainRecord with source := [] }

def carriageReturnRecord : MountRecord :=
  { plainRecord with mountPoint := "/a\rb".toList, mountPoint_ne := by decide }

def blankOptionsRecord : MountRecord :=
  { plainRecord with superOptions := " ".toList, superOptions_ne := by decide }

def sampleRecords : List MountRecord := [spaceRecord, sourcelessRecord]

theorem sampleRecords_readable : ∀ r ∈ sampleRecords, Readable r := by
  intro r hr
  simp only [sampleRecords, List.mem_cons, List.not_mem_nil, or_false] at hr
  rcases hr with rfl | rfl
  · exact ⟨by decide, by decide, by decide, by decide, by decide, by decide⟩
  · exact ⟨by decide, by decide, by decide, by decide, by decide, by decide⟩

end ZygiskAssistant.Modules
