import ZygiskAssistant.Lib.Accepted
import ZygiskAssistant.Parsers.MapsRoundTrip
import ZygiskAssistant.Parsers.MountOptions
import ZygiskAssistant.Parsers.MountinfoLine

/-!
# Which listings the maps parser can give

Whatever the text, every entry holds numbers of the word of the ABI, a device
that two `int`s make, a word of permissions, and a pathname without a newline
and without blanks in front. And every list of such entries is the listing of
some text.
-/

namespace ZygiskAssistant.Parsers

open InputStream InputStream.IStream Zygisk

structure MapWellFormed (abi : Abi) (e : MapEntry) : Prop where
  addressStart : e.addressStart < 2 ^ abi.wordBits
  addressEnd : e.addressEnd < 2 ^ abi.wordBits
  offset : e.offset < 2 ^ abi.wordBits
  perms : e.perms ≠ [] ∧ ∀ c ∈ e.perms, isSpace c = false
  pathname_head : ∀ c ∈ e.pathname.head?, isSpace c = false
  pathname_line : '\n' ∉ e.pathname
  device : ∃ major minor, InInt major ∧ InInt minor ∧ e.device = abi.devT (makedev major minor)
  inode : e.inode < 2 ^ abi.wordBits

theorem getline_ws (iss : IStream) :
    (∀ c ∈ (iss.ws.getline [] '\n').1.head?, isSpace c = false) ∧
      '\n' ∉ (iss.ws.getline [] '\n').1 := by
  cases hd : iss.rest.dropWhile isSpace with
  | nil =>
    rw [getline_not_good (ws_blank hd)]
    exact ⟨by simp, List.not_mem_nil⟩
  | cons c cs =>
    cases hg : iss.good with
    | false =>
      have hws : iss.ws.good = false := by
        rw [ws, if_neg (by simp [hg])]
        exact Bool.and_false _
      rw [getline_not_good hws]
      exact ⟨by simp, List.not_mem_nil⟩
    | true =>
      have hc := List.dropWhile_get_zero_not isSpace iss.rest (by simp [hd])
      simp only [hd, List.get_eq_getElem, List.getElem_cons_zero, Bool.not_eq_true] at hc
      rw [ws_nonblank hg hd, getline_decoded]
      constructor
      · intro d hm
        have hne : (c != '\n') = true := by
          rw [bne_iff_ne]
          rintro rfl
          cases hc
        rw [List.takeWhile_cons_of_pos (p := (· != '\n')) hne] at hm
        obtain rfl := Option.some.inj hm
        exact hc
      · intro hm
        exact absurd (List.mem_takeWhile_imp hm) (by simp)

theorem parseMapsLine_wellFormed {abi : Abi} {line : Str} {e : MapEntry}
    (h : parseMapsLine abi line = some e) : MapWellFormed abi e := by
  unfold parseMapsLine at h
  dsimp only at h
  split at h
  · cases h
  · rename_i hfail
    obtain ⟨hc₉, hinode⟩ := extractUnsigned_accepted (Bool.eq_false_iff.mpr hfail)
    obtain ⟨hc₈, hminor⟩ := extractHexInt_accepted hc₉.started
    have hc₇ := extractChar_accepted hc₈.started
    obtain ⟨hc₆, hmajor⟩ := extractHexInt_accepted hc₇.started
    obtain ⟨hc₅, hoffset⟩ := extractUnsigned_accepted hc₆.started
    obtain ⟨hc₄, hperms⟩ := extractString_accepted hc₅.started
    obtain ⟨hc₃, hend⟩ := extractUnsigned_accepted hc₄.started
    have hc₂ := extractChar_accepted hc₃.started
    obtain ⟨_, hstart⟩ := extractUnsigned_accepted hc₂.started
    obtain ⟨hhead, hline⟩ := getline_ws _
    obtain rfl := Option.some.inj h
    exact ⟨hstart, hend, hoffset, hperms, hhead, hline, ⟨_, _, hmajor, hminor, rfl⟩, hinode⟩

def hexInt (n : Int) : Str :=
  if n < 0 then '-' :: Nat.toDigits 16 n.natAbs else Nat.toDigits 16 n.natAbs

theorem reads_hex (n : Nat) : Reads 16 (Nat.toDigits 16 n) n :=
  reads_toDigits (by omega) (by omega) n

theorem dropWhile_hexInt (n : Int) (r : Str) :
    (hexInt n ++ r).dropWhile isSpace = hexInt n ++ r := by
  unfold hexInt
  split
  · rfl
  · exact (reads_hex n.natAbs).dropWhile (by omega) r

theorem extractHexInt_hexInt {is : IStream} (hl : Live is) {n : Int} (hn : InInt n) {r : Str}
    (h : is.rest.dropWhile isSpace = hexInt n ++ r) (hr : Stops 16 r) (old : Int) :
    is.extractHexInt old = (n, ⟨r, r.isEmpty, false⟩) := by
  obtain ⟨hmin, hmax⟩ := hn
  unfold intMin at hmin
  unfold intMax at hmax
  unfold hexInt at h
  split at h
  · rename_i hneg
    have hdigits := reads_hex n.natAbs
    have hstop : ∀ c ∈ r.head?, isDigitOf 16 c = false := fun c hc => (hr c hc).1
    have hs : is.skipws = ⟨'-' :: (Nat.toDigits 16 n.natAbs ++ r), false, false⟩ := skipws_live hl h
    have hconvert : toInt true n.natAbs = (n, false) := by
      have hv : -(n.natAbs : Int) = n := by omega
      unfold toInt
      simp only [if_true, hv]
      rw [if_neg (by unfold intMin; omega), if_neg (by unfold intMax; omega)]
    simp only [extractHexInt, extractNumber, hs, Bool.false_eq_true, if_false, splitSign,
      splitPrefix_digits (Nat.le_refl 16) hdigits.ne_nil hdigits.digits hr]
    rw [takeWhile_stop hdigits.digits hstop, dropWhile_stop hdigits.digits hstop,
      if_neg (by simp), hdigits.value, hconvert]
  · rename_i hpos
    have hv : (n.natAbs : Int) = n := by omega
    have hfits := extractHexInt_fits hl (reads_hex n.natAbs) h hr (by omega) old
    rwa [hv] at hfits

namespace MapWellFormed

variable {abi : Abi} {e : MapEntry}

/-- The line of an entry, with the numbers of its device. -/
def line (e : MapEntry) (major minor : Int) : Str :=
  Nat.toDigits 16 e.addressStart ++ ('-' :: (Nat.toDigits 16 e.addressEnd ++ (' ' :: (e.perms ++
    (' ' :: (Nat.toDigits 16 e.offset ++ (' ' :: (hexInt major ++ (':' :: (hexInt minor ++
      (' ' :: (Nat.toDigits 10 e.inode ++ (' ' :: e.pathname)))))))))))))

theorem getline_pathname (h : MapWellFormed abi e) :
    ((⟨' ' :: e.pathname, false, false⟩ : IStream).ws.getline [] '\n').1 = e.pathname := by
  have hdrop : (' ' :: e.pathname).dropWhile isSpace = e.pathname :=
    dropWhile_blanks (b := [' ']) (by decide) h.pathname_head
  cases hp : e.pathname with
  | nil =>
    rw [hp] at hdrop
    rw [getline_not_good (ws_blank hdrop)]
  | cons c cs =>
    rw [hp] at hdrop
    have hline : '\n' ∉ c :: cs := hp ▸ h.pathname_line
    rw [ws_nonblank rfl hdrop, getline_last rfl hline]

theorem parseMapsLine_line (h : MapWellFormed abi e) {major minor : Int} (hmajor : InInt major)
    (hminor : InInt minor) (hdevice : e.device = abi.devT (makedev major minor)) :
    parseMapsLine abi (line e major minor) = some e := by
  have hstop : ∀ base ≤ 16, ∀ r, Stops base (' ' :: r) := fun _ hb r => stops_blank hb r
  have hdash : ∀ r, Stops 16 ('-' :: r) := fun r => stops_cons ⟨by decide, by decide, by decide⟩ r
  have hcolon : ∀ r, Stops 16 (':' :: r) := fun r => stops_cons ⟨by decide, by decide, by decide⟩ r
  have hblank : ∀ w r : Str, (w ++ r).dropWhile isSpace = w ++ r →
      (' ' :: (w ++ r)).dropWhile isSpace = w ++ r := by
    intro w r hw
    rw [List.dropWhile_cons_of_pos rfl, hw]
  have hinode : Reads 10 (Nat.toDigits 10 e.inode) e.inode :=
    reads_toDigits (by omega) (by omega) e.inode
  have hpermdrop : ∀ r, (e.perms ++ r).dropWhile isSpace = e.perms ++ r := by
    intro r
    obtain ⟨c, cs, hc⟩ := List.exists_cons_of_ne_nil h.perms.1
    have hsp := h.perms.2 c (hc ▸ List.mem_cons_self)
    rw [hc, List.cons_append, List.dropWhile_cons_of_neg (by simp [hsp])]
  unfold parseMapsLine line
  dsimp only
  rw [extractUnsigned_fits (by omega) (live_ofString _) (reads_hex e.addressStart)
    ((reads_hex e.addressStart).dropWhile (by omega) _) (hdash _) h.addressStart]
  dsimp only
  rw [extractChar_cons (live_mk _) rfl]
  dsimp only
  rw [extractUnsigned_fits (by omega) (live_false _) (reads_hex e.addressEnd)
    ((reads_hex e.addressEnd).dropWhile (by omega) _) (hstop 16 (by omega) _) h.addressEnd]
  dsimp only
  rw [extractString_word (live_mk _) (hblank _ _ (hpermdrop _)) h.perms.1 h.perms.2
    (boundary_cons rfl _)]
  dsimp only
  rw [extractUnsigned_fits (by omega) (live_mk _) (reads_hex e.offset)
    (hblank _ _ ((reads_hex e.offset).dropWhile (by omega) _)) (hstop 16 (by omega) _) h.offset]
  dsimp only
  rw [extractHexInt_hexInt (live_mk _) hmajor (hblank _ _ (dropWhile_hexInt major _)) (hcolon _)]
  dsimp only
  rw [extractChar_cons (live_mk _) rfl]
  dsimp only
  rw [extractHexInt_hexInt (live_false _) hminor (dropWhile_hexInt minor _)
    (hstop 16 (by omega) _)]
  dsimp only
  rw [extractUnsigned_fits (by omega) (live_mk _) hinode
    (hblank _ _ (hinode.dropWhile (by omega) _)) (hstop 10 (by omega) _) h.inode]
  dsimp only
  rw [if_neg (by simp), ← hdevice]
  have hpath := h.getline_pathname
  exact congrArg (fun p => some { e with pathname := p }) hpath

theorem newline_notMem_line (h : MapWellFormed abi e) (major minor : Int) :
    '\n' ∉ line e major minor := by
  have hhex : ∀ n, '\n' ∉ Nat.toDigits 16 n := fun n => (reads_hex n).notMem (by omega) rfl
  have hint : ∀ n, '\n' ∉ hexInt n := by
    intro n
    unfold hexInt
    split
    · simp [hhex]
    · exact hhex _
  have hinode : Reads 10 (Nat.toDigits 10 e.inode) e.inode :=
    reads_toDigits (by omega) (by omega) e.inode
  have hdec : '\n' ∉ Nat.toDigits 10 e.inode := hinode.notMem (by omega) rfl
  have hperm : '\n' ∉ e.perms := by
    intro hm
    have hsp := h.perms.2 _ hm
    cases hsp
  simp [line, hhex, hint, hdec, hperm, h.pathname_line]

end MapWellFormed

/-- The listings that the parser can give are those of well-formed entries. -/
theorem parseSelfMaps_image (abi : Abi) (es parserCache : List MapEntry) :
    (∃ text, parseSelfMaps abi false (some text) parserCache = es) ↔
      ∀ e ∈ es, MapWellFormed abi e := by
  have hparse : ∀ text, parseSelfMaps abi false (some text) parserCache =
      (segments '\n' text).filterMap (parseMapsLine abi) := by
    intro text
    unfold parseSelfMaps
    simp only [Bool.false_and, Bool.false_eq_true, if_false]
    rw [getlines_eq_segments _ _ _ (Nat.lt_succ_self _)]
  simp only [hparse]
  rw [exists_text_iff]
  constructor
  · intro h e he
    obtain ⟨line, _, hline⟩ := h e he
    exact parseMapsLine_wellFormed hline
  · intro h e he
    obtain ⟨major, minor, hmajor, hminor, hdevice⟩ := (h e he).device
    exact ⟨_, (h e he).newline_notMem_line major minor,
      (h e he).parseMapsLine_line hmajor hminor hdevice⟩

end ZygiskAssistant.Parsers
