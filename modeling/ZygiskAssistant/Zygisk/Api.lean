import ZygiskAssistant.Parsers.Mountinfo

/-!
# The process under specialization

The module's globals, the PLT slots that the Zygisk API patches, and the trace
of what reached the kernel. A registration stays pending until a commit
succeeds; a successful commit applies all that are pending, in order, and
saves each old slot through its pointer. An `old_*` pointer that is null, or
that leads back into a hook, cannot be called.
-/

namespace ZygiskAssistant.Zygisk

structure MapEntry where
  addressStart : Nat
  addressEnd : Nat
  offset : Nat
  perms : Str
  pathname : Str
  device : DevT
  inode : Nat
deriving DecidableEq

/-- What a PLT slot or an `old_*` pointer points to. -/
inductive FuncPtr
  | original (symbol : Str)
  | newUnshare
  | newSetresuid
deriving DecidableEq

/-- The globals that `DCL_HOOK_FUNC` declares. -/
inductive OldFunc
  | oldUnshare
  | oldSetresuid
deriving DecidableEq

structure PltHook where
  dev : DevT
  inode : Nat
  symbol : Str
  newFunc : FuncPtr
  oldFunc : Option OldFunc
deriving DecidableEq

/-- The target of `callbackFunction`: the empty lambda, or the hiding lambda
with the descriptor it captured. -/
inductive Callback
  | idle
  | hide (fd : Int)
deriving DecidableEq

inductive Event
  | callbackBody
  | unshare (flags : BitVec 32) (ret : Int)
  | setresuid (ruid euid suid : BitVec 32) (ret : Int)
  | mountSlave (ret : Int)
  | write (fd ret : Int)
  | read (fd ret : Int)
  | close (fd : Int)
  | zygoteClose (fd : Int)
  | reopen (fd : Int)
  | doUnmount
  | doHideZygisk
deriving DecidableEq

/-- `mountNs` is 0 in the namespace inherited from Zygote, and counts up with
every namespace the process creates for itself. -/
structure Process where
  pending : List PltHook
  slot : DevT → Nat → Str → FuncPtr
  oldUnshare : Option FuncPtr
  oldSetresuid : Option FuncPtr
  callbackFunction : Callback
  dlcloseModuleLibrary : Bool
  mountNs : Nat
  trace : List Event

namespace Process

/-- A process that Zygote has just forked, with the module's initial globals. -/
def forked : Process where
  pending := []
  slot _ _ symbol := .original symbol
  oldUnshare := none
  oldSetresuid := none
  callbackFunction := .idle
  dlcloseModuleLibrary := false
  mountNs := 0
  trace := []

def log (p : Process) (es : List Event) : Process := { p with trace := p.trace ++ es }

@[simp]
theorem log_trace (p : Process) (es : List Event) : (p.log es).trace = p.trace ++ es := rfl

@[simp]
theorem log_nil (p : Process) : p.log [] = p := by simp [log]

@[simp]
theorem log_log (p : Process) (es fs : List Event) : (p.log es).log fs = p.log (es ++ fs) := by
  simp [log]

def setOld (p : Process) (v : FuncPtr) : Option OldFunc → Process
  | none => p
  | some .oldUnshare => { p with oldUnshare := some v }
  | some .oldSetresuid => { p with oldSetresuid := some v }

def setSlot (p : Process) (h : PltHook) : Process :=
  { p with slot := fun dev inode symbol =>
      if dev = h.dev ∧ inode = h.inode ∧ symbol = h.symbol then h.newFunc
      else p.slot dev inode symbol }

def applyHook (p : Process) (h : PltHook) : Process :=
  (p.setOld (p.slot h.dev h.inode h.symbol) h.oldFunc).setSlot h

def pltHookRegister (p : Process) (h : PltHook) : Process := { p with pending := p.pending ++ [h] }

def pltHookCommit (p : Process) (ok : Bool) : Bool × Process :=
  if ok then (true, { p.pending.foldl applyHook p with pending := [] }) else (false, p)

end Process

def findLibrary (maps : List MapEntry) (libName : Str) : Option MapEntry :=
  maps.find? fun map => ('/' :: libName).isSuffixOf map.pathname

namespace Utils

def hookPLTByName (maps : List MapEntry) (libName symbolName : Str) (hookFunc : FuncPtr)
    (origFunc : Option OldFunc) (p : Process) : Bool × Process :=
  match findLibrary maps libName with
  | some map =>
    (true, p.pltHookRegister ⟨map.device, map.inode, symbolName, hookFunc, origFunc⟩)
  | none => (false, p)

end Utils

def hookPLTByName (maps : List MapEntry) (commitOk : Bool) (libName symbolName : Str)
    (hookFunction : FuncPtr) (originalFunction : Option OldFunc) (p : Process) : Bool × Process :=
  let (found, p) := Utils.hookPLTByName maps libName symbolName hookFunction originalFunction p
  if found then p.pltHookCommit commitOk else (false, p)

end ZygiskAssistant.Zygisk
