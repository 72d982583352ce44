import ZygiskAssistant.Lib.Numerals
import ZygiskAssistant.Zygisk.Api

/-!
# Memory maps

`parseSelfMaps` as the code has it, for the word size of the ABI it is built
for, and the lines of `/proc/self/maps` as the kernel prints them. A line whose
numbers do not all fit their types is logged and skipped.
-/

namespace ZygiskAssistant.Parsers

open InputStream InputStream.IStream Zygisk

inductive Abi
  | armeabiV7a
  | arm64V8a
  | x86
  | x86_64
deriving DecidableEq

def Abi.wordBits : Abi → Nat
  | .armeabiV7a => 32
  | .arm64V8a => 64
  | .x86 => 32
  | .x86_64 => 64

def Abi.devT (abi : Abi) (device : DevT) : DevT := (device.setWidth abi.wordBits).setWidth 64

/-- The body of the line loop; `none` is its `continue` after a logged error. -/
def parseMapsLine (abi : Abi) (line : Str) : Option MapEntry :=
  let iss := ofString line
  let (addressStart, iss) := iss.extractUnsigned 16 abi.wordBits 0
  let (_dummyChar, iss) := iss.extractChar '\x00'
  let (addressEnd, iss) := iss.extractUnsigned 16 abi.wordBits 0
  let (perms, iss) := iss.extractString []
  let (offset, iss) := iss.extractUnsigned 16 abi.wordBits 0
  let (devMajor, iss) := iss.extractHexInt 0
  let (_dummyChar, iss) := iss.extractChar '\x00'
  let (devMinor, iss) := iss.extractHexInt 0
  let (inode, iss) := iss.extractUnsigned 10 abi.wordBits 0
  if iss.fail then none
  else
    -- This operation can fail, it doesn't matter as it's an optional field
    let (pathname, _) := iss.ws.getline [] '\n'
    some {
      addressStart := addressStart
      addressEnd := addressEnd
      offset := offset
      perms := perms
      pathname := pathname
      device := abi.devT (makedev devMajor devMinor)
      inode := inode }

/-- The new contents of `parser_cache`, which is also the result. `file` is
the text of `/proc/self/maps`, if it can be opened. -/
def parseSelfMaps (abi : Abi) (cached : Bool) (file : Option Str) (parserCache : List MapEntry) :
    List MapEntry :=
  if cached && !parserCache.isEmpty then parserCache
  else
    match file with
    | none => []
    | some text =>
      (getlines '\n' (text.length + 1) (ofString text)).filterMap (parseMapsLine abi)

end ZygiskAssistant.Parsers
