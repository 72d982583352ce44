import Mathlib.Data.Finmap
import ZygiskAssistant.Lib.InputStream

/-!
# The mount table parser

`mountinfo_parser.cpp`: the option maps, the entries, the line loop over
`/proc/self/mountinfo`, and the resolver of true roots. A `std::string` is a
list of characters, one for each `char`.
-/

namespace ZygiskAssistant

open InputStream InputStream.IStream

abbrev Str := List Char

abbrev StrMap := Finmap (fun _ : Str => Str)

abbrev DevT := BitVec 64

def makedev (major minor : Int) : DevT :=
  let major := BitVec.ofInt 64 major
  let minor := BitVec.ofInt 64 minor
  ((major &&& 0xfffff000#64) <<< 32) ||| ((major &&& 0xfff#64) <<< 8) |||
    ((minor &&& 0xffffff00#64) <<< 12) ||| (minor &&& 0xff#64)

namespace Parsers

/-- One round of the option loop: what follows the first `=` is the value. -/
def insertOption (ret : StrMap) (token : Str) : StrMap :=
  let (key, tokenStream) := (ofString token).getline [] '='
  if tokenStream.fail then ret
  else
    let (value, _) := tokenStream.getline [] '\n'
    ret.insert key value

def parseMountOptions (input : Str) : StrMap :=
  (getlines ',' (input.length + 1) (ofString input)).foldl insertOption ∅

structure MountinfoEntry where
  device : DevT
  mountId : Int
  parentId : Int
  root : Str
  mountPoint : Str
  optionalFields : Str
  filesystemType : Str
  mountSource : Str
  mountOptions : StrMap
  superOptions : StrMap
deriving DecidableEq

def mountinfoEntry (mountId parentId : Int) (device : DevT) (root mountPoint mountOptions
    optionalFields filesystemType mountSource superOptions : Str) : MountinfoEntry where
  device := device
  mountId := mountId
  parentId := parentId
  root := root
  mountPoint := mountPoint
  optionalFields := optionalFields
  filesystemType := filesystemType
  mountSource := mountSource
  mountOptions := parseMountOptions mountOptions
  superOptions := parseMountOptions superOptions

/-- `while (iss >> field && field != "-") optional_fields += " " + field;` -/
def readOptionalFields : Nat → IStream → Str → Str × IStream
  | 0, iss, optionalFields => (optionalFields, iss)
  | fuel + 1, iss, optionalFields =>
    let (field, iss) := iss.extractString []
    if iss.fail || field == ['-'] then (optionalFields, iss)
    else readOptionalFields fuel iss (optionalFields ++ ' ' :: field)

/-- The body of the line loop; `none` is its `continue` after a logged error. -/
def parseMountinfoLine (line : Str) : Option MountinfoEntry :=
  let iss := ofString line
  let (mountId, iss) := iss.extractInt 0
  let (parentId, iss) := iss.extractInt 0
  let (major, iss) := iss.extractInt 0
  let (_colon, iss) := iss.extractChar '\x00'
  let (minor, iss) := iss.extractInt 0
  let (root, iss) := iss.extractString []
  let (mountPoint, iss) := iss.extractString []
  let (mountOptions, iss) := iss.extractString []
  if iss.fail then none
  else
    let (optionalFields, iss) := readOptionalFields (line.length + 1) iss []
    if iss.fail then none
    else
      let (filesystemType, iss) := iss.extractString []
      let (mountSource, iss) := iss.extractString []
      let (superOptions, iss) := iss.extractString []
      if iss.fail then none
      else some (mountinfoEntry mountId parentId (makedev major minor) root mountPoint
        mountOptions optionalFields filesystemType mountSource superOptions)

/-- The new contents of `parser_cache`, which is also the result. `file` is
the text of `/proc/self/mountinfo`, if it can be opened. -/
def parseSelfMountinfo (cached : Bool) (file : Option Str) (parserCache : List MountinfoEntry) :
    List MountinfoEntry :=
  if cached && !parserCache.isEmpty then parserCache
  else
    match file with
    | none => []
    | some text =>
      (getlines '\n' (text.length + 1) (ofString text)).filterMap parseMountinfoLine

structure MountinfoRootResolver where
  deviceMountMap : Finmap (fun _ : DevT => Str)

def MountinfoRootResolver.addMount (resolver : MountinfoRootResolver) (mountInfo : MountinfoEntry) :
    MountinfoRootResolver :=
  if mountInfo.root = ['/'] then
    ⟨resolver.deviceMountMap.insert mountInfo.device mountInfo.mountPoint⟩
  else resolver

def mountinfoRootResolver (mountInfos : List MountinfoEntry) : MountinfoRootResolver :=
  mountInfos.foldl MountinfoRootResolver.addMount ⟨∅⟩

def MountinfoRootResolver.resolveRootOf (resolver : MountinfoRootResolver)
    (mountInfo : MountinfoEntry) : Str :=
  match resolver.deviceMountMap.lookup mountInfo.device with
  | some mountRoot =>
    -- If mount root is /, mount_info root will already be the true root
    if mountRoot ≠ ['/'] then mountRoot ++ mountInfo.root else mountInfo.root
  | none => mountInfo.root

end Parsers

end ZygiskAssistant
