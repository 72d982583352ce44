import ZygiskAssistant.Lib.LabelledRun
import ZygiskAssistant.Zygisk.Api

/-!
# The Zygisk module

`main.cpp` as the app process runs it: `preAppSpecialize`, the two hooks, the
hiding callback with `new_mount_ns` and the companion exchange, and then any
runtime calls to `unshare` and `setresuid`. The environment holds what the
kernel, Zygisk and the companion answer, and what the callback reads from its
closure once it has overwritten the function that holds it.
-/

namespace ZygiskAssistant

/-- `sizeof(pid_t)`, the length of the request to the companion. -/
def sizeofPid : Int := 4

def sizeofBool : Int := 1

def isUserAppUID (uid : Int) : Bool :=
  let appid := uid.tmod 100000
  if appid ≥ 10000 && appid ≤ 19999 then true
  else if appid ≥ 90000 && appid ≤ 99999 then true
  else false

namespace Zygisk

def cloneNewns : BitVec 32 := 0x20000#32

structure FdInfo where
  fd : Int
  isSock : Bool
  filePath : Str

/-- The places where the callback reads the `fd` it has captured. -/
inductive FdUse
  | test
  | write
  | read
  | close
deriving DecidableEq

/-- What the callback is answered. Its first assignment destroys the closure it runs in, so
`readFd` tells what each later read of the captured `fd` gives. -/
structure CallbackEnv where
  unshareOk : Bool
  slaveOk : Bool
  writeRet : Int
  readRet : Int
  readByte : Bool
  openFds : Option (List (Option FdInfo))
  readFd : FdUse → Int → Int

/-- What `preAppSpecialize` is given and answered. After a failed `exemptFd`,
`closesFd` tells whether Zygote closes the descriptor before the first hooked call. -/
structure AppEnv where
  flags : BitVec 32
  uid : Int
  maps : List MapEntry
  unshareCommit : Bool
  setresuidCommit : Bool
  connectCompanion : Int
  exemptFd : Bool
  closesFd : Bool

def retOf (ok : Bool) : Int := if ok then 0 else -1

def sysUnshare (flags : BitVec 32) (ok : Bool) (p : Process) : Int × Process :=
  (retOf ok, { p.log [.unshare flags (retOf ok)] with
    mountNs := if ok && flags &&& cloneNewns != 0#32 then p.mountNs + 1 else p.mountNs })

def sysSetresuid (ruid euid suid : BitVec 32) (ok : Bool) (p : Process) : Int × Process :=
  (retOf ok, p.log [.setresuid ruid euid suid (retOf ok)])

def callOldUnshare (flags : BitVec 32) (ok : Bool) (p : Process) : Option (Int × Process) :=
  match p.oldUnshare with
  | some (.original _) => some (sysUnshare flags ok p)
  | _ => none

def callOldSetresuid (ruid euid suid : BitVec 32) (ok : Bool) (p : Process) :
    Option (Int × Process) :=
  match p.oldSetresuid with
  | some (.original _) => some (sysSetresuid ruid euid suid ok p)
  | _ => none

def newMountNs (env : CallbackEnv) (p : Process) : Option (Bool × Process) := do
  let (ret, p) ← callOldUnshare cloneNewns env.unshareOk p
  if ret != -1 then
    let ret := retOf env.slaveOk
    let p := p.log [.mountSlave ret]
    if ret != -1 then return (true, p) else return (false, p)
  else return (false, p)

/-- The descriptors that `ScopedRegularReopener` keeps to reopen. -/
def scopedRegularReopener (openFds : Option (List (Option FdInfo))) : List Int :=
  (openFds.getD []).filterMap fun info =>
    match info with
    | some fdi =>
      -- Only process regular files that are not memfds
      if !fdi.isSock && !"/memfd:".toList.isPrefixOf fdi.filePath then some fdi.fd else none
    | none => none

def companionExchange (env : CallbackEnv) (fd : Int) : Bool × List Event :=
  if env.readFd .test fd != -1 then
    if env.writeRet == sizeofPid then
      (env.readRet == sizeofBool && env.readByte,
        [.write (env.readFd .write fd) env.writeRet, .read (env.readFd .read fd) env.readRet,
          .close (env.readFd .close fd)])
    else (false, [.write (env.readFd .write fd) env.writeRet, .close (env.readFd .close fd)])
  else (false, [])

/-- The lambda that `preAppSpecialize` stores. Reopening the descriptors is the
destructor at the end of the body, also after the early return. -/
def callbackBody (env : CallbackEnv) (fd : Int) (p : Process) : Option Process := do
  -- Call only once per process; the running closure is gone after this
  let p := { p.log [.callbackBody] with callbackFunction := .idle }
  let reopened := (scopedRegularReopener env.openFds).map Event.reopen
  let (entered, p) ← newMountNs env p
  if !entered then return p.log reopened
  else
    let (result, events) := companionExchange env fd
    let p := p.log events
    let p := if result then p else p.log [.doUnmount]
    return (p.log [.doHideZygisk]).log reopened

def invokeCallback (env : CallbackEnv) (p : Process) : Option Process :=
  match p.callbackFunction with
  | .idle => some p
  | .hide fd => callbackBody env fd p

def newUnshare (env : CallbackEnv) (flags : BitVec 32) (ok : Bool) (p : Process) :
    Option (Int × Process) := do
  let p ← invokeCallback env p
  -- Do not allow CLONE_NEWNS
  let flags := flags &&& ~~~cloneNewns
  if flags == 0#32 then return (0, p) else callOldUnshare flags ok p

def newSetresuid (env : CallbackEnv) (ruid euid suid : BitVec 32) (ok : Bool) (p : Process) :
    Option (Int × Process) := do
  let p ← invokeCallback env p
  callOldSetresuid ruid euid suid ok p

def libandroidRuntime : Str := "libandroid_runtime.so".toList
def unshareSymbol : Str := "unshare".toList
def setresuidSymbol : Str := "setresuid".toList

def processGrantedRoot : BitVec 32 := 1#32
def processOnDenylist : BitVec 32 := 2#32

def skipsProcess (env : AppEnv) : Bool :=
  let isRoot := env.flags &&& processGrantedRoot != 0#32
  let isOnDenylist := env.flags &&& processOnDenylist != 0#32
  isRoot || !isOnDenylist || !isUserAppUID env.uid

def preAppSpecialize (env : AppEnv) (p : Process) : Process :=
  let p := { p with dlcloseModuleLibrary := true }
  if skipsProcess env then p
  else
    let (hooked, p) := hookPLTByName env.maps env.unshareCommit libandroidRuntime unshareSymbol
      .newUnshare (some .oldUnshare) p
    if !hooked then p
    else
      let (hooked, p) := hookPLTByName env.maps env.setresuidCommit libandroidRuntime
        setresuidSymbol .newSetresuid (some .oldSetresuid) p
      if !hooked then p
      else { p with callbackFunction := .hide env.connectCompanion }

def closedEarly (env : AppEnv) : Bool := !env.exemptFd && env.closesFd

def zygoteCleanup (env : AppEnv) (p : Process) : Process :=
  match p.callbackFunction with
  | .hide fd => if fd != -1 && closedEarly env then p.log [.zygoteClose fd] else p
  | .idle => p

/-- A call made by the runtime; `ok` is the kernel's answer if the call reaches it. -/
inductive Call
  | unshare (flags : BitVec 32) (ok : Bool)
  | setresuid (ruid euid suid : BitVec 32) (ok : Bool)
deriving DecidableEq

def runtimeSlot (maps : List MapEntry) (symbol : Str) (p : Process) : FuncPtr :=
  match findLibrary maps libandroidRuntime with
  | some map => p.slot map.device map.inode symbol
  | none => .original symbol

def runtimeCall (maps : List MapEntry) (env : CallbackEnv) (p : Process) :
    Call → Option (Int × Process)
  | .unshare flags ok =>
    match runtimeSlot maps unshareSymbol p with
    | .newUnshare => newUnshare env flags ok p
    | .original _ => some (sysUnshare flags ok p)
    | .newSetresuid => none
  | .setresuid ruid euid suid ok =>
    match runtimeSlot maps setresuidSymbol p with
    | .newSetresuid => newSetresuid env ruid euid suid ok p
    | .original _ => some (sysSetresuid ruid euid suid ok p)
    | .newUnshare => none

def callStep (maps : List MapEntry) (env : CallbackEnv) (s : List Int × Process) (c : Call) :
    Option (List Int × Process) := do
  let (ret, p) ← runtimeCall maps env s.2 c
  return (s.1 ++ [ret], p)

/-- The process when the runtime gets to make its first call. -/
def specialized (app : AppEnv) : Process := zygoteCleanup app (preAppSpecialize app .forked)

def appRun (app : AppEnv) (env : CallbackEnv) (calls : List Call) : Option (List Int × Process) :=
  LabelledRun.run (callStep app.maps env) ([], specialized app) calls

end Zygisk

end ZygiskAssistant
