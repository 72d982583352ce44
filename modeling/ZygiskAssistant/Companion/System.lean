import Mathlib.Logic.Function.Basic
import ZygiskAssistant.Lib.LabelledRun
import ZygiskAssistant.Modules.UnmountExact

/-!
# The app, the companion and the kernel

The hiding callback of every app process, the companion handler that serves it,
the handler's forked child, and the kernel's processes and mount namespaces, as
one labelled step. A label carries the answers of the kernel, so every call may
fail; any process may die, and a free pid may be given to a new one.
-/

namespace ZygiskAssistant.Companion

open Parsers Modules

/-- `WIFEXITED`: the status word holds no signal. -/
def wifexited (status : BitVec 32) : Bool := status &&& 0x7f#32 == 0#32

def exitStatus (code : BitVec 32) : BitVec 32 := (code &&& 0xff#32) <<< 8

/-- What `forkAndInvoke` returns when `fork` fails, and `status` before `waitpid`. -/
def noStatus : BitVec 32 := 0xffffffff#32

structure Task where
  pid : Int
  ns : Nat
  alive : Bool
  /-- Forked by Zygote, so that it runs the callback. -/
  zygoteChild : Bool
deriving DecidableEq

inductive AppPc
  | forked
  | unshared
  | isolated
  | requested
  | answered (result : Bool)
  | unmounting (rest : List Str)
  | returned
  | failed
deriving DecidableEq

/-- The callback; `created` is the namespace it made, `unmounted` that its own
`doUnmount` has run to the end. -/
structure App where
  pc : AppPc
  created : Option Nat
  unmounted : Bool
deriving DecidableEq

inductive HandlerPc
  | listening
  | received (pid : Int)
  | waiting
  | collected (status : BitVec 32)
  | done
deriving DecidableEq

inductive ChildPc
  | unborn
  | started (pid : Int)
  | opened (ns : Nat)
  | entered
  | unmounting (rest : List Str)
  | unmounted
  | exited (code : BitVec 32)
  | killed (signal : BitVec 32)
deriving DecidableEq

def ChildPc.running : ChildPc → Bool
  | .unborn => false
  | .exited _ => false
  | .killed _ => false
  | _ => true

/-- The forked child; `holder` is the process whose namespace file it opened, `entered` that
`switchMountNS` succeeded, `completed` that its `doUnmount` has run to the end. -/
structure Child where
  pc : ChildPc
  ns : Nat
  holder : Option Nat
  entered : Bool
  completed : Bool
deriving DecidableEq

/-- One companion connection, with the messages in flight. -/
structure Session where
  app : App
  request : Option Int
  answer : Option Bool
  handler : HandlerPc
  child : Child
deriving DecidableEq

def zygoteNs : Nat := 0
def companionNs : Nat := 1

def Session.fresh : Session where
  app := ⟨.forked, none, false⟩
  request := none
  answer := none
  handler := .listening
  child := ⟨.unborn, companionNs, none, false, false⟩

/-- `shared` tells the namespaces whose mounts are in Zygote's peer group. -/
structure System where
  task : Nat → Task
  born : Nat
  namespaces : Nat
  shared : Nat → Bool
  table : Nat → List MountinfoEntry
  session : Nat → Session

inductive AppAct
  | unshare (ok : Bool)
  | mountSlave (ok : Bool)
  | noCompanion
  | write (ok : Bool)
  | read (ok : Bool)
  | parse (ok : Bool)
  | umount2 (ok : Bool)
  | finish
deriving DecidableEq

inductive HandlerAct
  | read (ok : Bool)
  | fork (ok : Bool)
  | waitpid (ok : Bool)
  | write (ok : Bool)
  | die
deriving DecidableEq

/-- `openNs` names the process whose namespace file the kernel opens, if it opens one. -/
inductive ChildAct
  | openNs (holder : Option Nat)
  | setns (ok : Bool)
  | parse (ok : Bool)
  | umount2 (ok : Bool)
  | finish
  | kill (signal : BitVec 32)
deriving DecidableEq

inductive Label
  | fork (parent : Nat) (pid : Int)
  | die (i : Nat)
  | app (i : Nat) (act : AppAct)
  | handler (i : Nat) (act : HandlerAct)
  | child (i : Nat) (act : ChildAct)
deriving DecidableEq

namespace System

def setSession (s : System) (i : Nat) (x : Session) : System :=
  { s with session := Function.update s.session i x }

def setApp (s : System) (i : Nat) (app : App) : System :=
  s.setSession i { s.session i with app := app }

def setPc (s : System) (i : Nat) (pc : AppPc) : System :=
  s.setApp i { (s.session i).app with pc := pc }

def setChild (s : System) (i : Nat) (child : Child) : System :=
  s.setSession i { s.session i with child := child }

def pidFree (s : System) (pid : Int) : Bool :=
  (List.range s.born).all fun j => !((s.task j).alive && (s.task j).pid == pid)

def fork (s : System) (parent : Nat) (pid : Int) : System :=
  { s with
    task := Function.update s.task s.born ⟨pid, (s.task parent).ns, true, parent == 0⟩
    born := s.born + 1 }

def die (s : System) (i : Nat) : System :=
  { s with task := Function.update s.task i { s.task i with alive := false } }

/-- `unshare(CLONE_NEWNS)`: a copy of the namespace, in the same peer group. -/
def unshare (s : System) (i : Nat) : System :=
  { s with
    task := Function.update s.task i { s.task i with ns := s.namespaces }
    namespaces := s.namespaces + 1
    shared := Function.update s.shared s.namespaces (s.shared (s.task i).ns)
    table := Function.update s.table s.namespaces (s.table (s.task i).ns) }

/-- `mount("rootfs", "/", NULL, MS_SLAVE | MS_REC, NULL)`. -/
def mountSlave (s : System) (n : Nat) : System :=
  { s with shared := Function.update s.shared n false }

/-- `umount2(path, MNT_DETACH)` in a namespace. In the peer group it propagates to every
namespace, out of a slave to none. -/
def umount2 (s : System) (n : Nat) (path : Str) (ok : Bool) : System :=
  if ok then
    { s with table := fun k =>
        if k = n ∨ s.shared n = true then Modules.umount2 (s.table k) path else s.table k }
  else s

def unmountPlan (s : System) (n : Nat) (ok : Bool) : List Str :=
  if ok then umountPaths (s.table n) else []

end System

def appStep (s : System) (i : Nat) (act : AppAct) : Option System :=
  let x := s.session i
  match act with
  | .unshare ok =>
    match x.app.pc with
    | .forked =>
      if ok then
        some ((s.unshare i).setApp i { x.app with pc := .unshared, created := some s.namespaces })
      else some (s.setPc i .failed)
    | _ => none
  | .mountSlave ok =>
    match x.app.pc with
    | .unshared =>
      if ok then some ((s.mountSlave (s.task i).ns).setPc i .isolated)
      else some (s.setPc i .failed)
    | _ => none
  | .noCompanion =>
    match x.app.pc with
    | .isolated => some (s.setPc i (.answered false))
    | _ => none
  | .write ok =>
    match x.app.pc with
    | .isolated =>
      if ok then
        some (s.setSession i
          { x with app := { x.app with pc := .requested }, request := some (s.task i).pid })
      else some (s.setPc i (.answered false))
    | _ => none
  | .read ok =>
    match x.app.pc with
    | .requested =>
      if ok then
        x.answer.map fun result => s.setSession i
          { x with app := { x.app with pc := .answered result }, answer := none }
      else some (s.setPc i (.answered false))
    | _ => none
  | .parse ok =>
    match x.app.pc with
    | .answered false => some (s.setPc i (.unmounting (s.unmountPlan (s.task i).ns ok)))
    | _ => none
  | .umount2 ok =>
    match x.app.pc with
    | .unmounting (path :: rest) =>
      some ((s.umount2 (s.task i).ns path ok).setPc i (.unmounting rest))
    | _ => none
  | .finish =>
    match x.app.pc with
    | .answered true => some (s.setPc i .returned)
    | .unmounting [] => some (s.setApp i { x.app with pc := .returned, unmounted := true })
    | _ => none

def terminationStatus : ChildPc → Option (BitVec 32)
  | .exited code => some (exitStatus code)
  | .killed signal => some signal
  | _ => none

/-- `zygisk_companion_handler` with `forkAndInvoke`, on the connection of one app. -/
def handlerStep (x : Session) (act : HandlerAct) : Option Session :=
  match x.handler, act with
  | .listening, .read true =>
    x.request.map fun pid => { x with handler := .received pid, request := none }
  | .listening, .read false => some { x with handler := .done }
  | .received pid, .fork true =>
    some { x with handler := .waiting, child := { x.child with pc := .started pid } }
  | .received _, .fork false => some { x with handler := .collected noStatus }
  | .waiting, .waitpid true =>
    (terminationStatus x.child.pc).map fun status => { x with handler := .collected status }
  | .waiting, .waitpid false => some { x with handler := .collected noStatus }
  | .collected status, .write true =>
    some { x with handler := .done, answer := some (wifexited status) }
  | .collected _, .write false => some { x with handler := .done }
  | _, .die => some { x with handler := .done }
  | _, _ => none

/-- The lambda of the forked child: `switchMountNS(pid)`, `doUnmount`, then `doRemount` and
`doMrProp`. -/
def childStep (s : System) (i : Nat) (act : ChildAct) : Option System :=
  let c := (s.session i).child
  match act with
  | .openNs (some h) =>
    match c.pc with
    | .started pid =>
      if (s.task h).alive && (s.task h).pid == pid then
        some (s.setChild i { c with pc := .opened (s.task h).ns, holder := some h })
      else none
    | _ => none
  | .openNs none =>
    match c.pc with
    | .started _ => some (s.setChild i { c with pc := .exited 1#32 })
    | _ => none
  | .setns ok =>
    match c.pc with
    | .opened ns =>
      if ok then some (s.setChild i { c with pc := .entered, ns := ns, entered := true })
      else some (s.setChild i { c with pc := .exited 1#32 })
    | _ => none
  | .parse ok =>
    match c.pc with
    | .entered => some (s.setChild i { c with pc := .unmounting (s.unmountPlan c.ns ok) })
    | _ => none
  | .umount2 ok =>
    match c.pc with
    | .unmounting (path :: rest) =>
      some ((s.umount2 c.ns path ok).setChild i { c with pc := .unmounting rest })
    | _ => none
  | .finish =>
    match c.pc with
    | .unmounting [] => some (s.setChild i { c with pc := .unmounted, completed := true })
    | .unmounted => some (s.setChild i { c with pc := .exited 0#32 })
    | _ => none
  | .kill signal =>
    if c.pc.running && !wifexited signal then some (s.setChild i { c with pc := .killed signal })
    else none

def step (s : System) : Label → Option System
  | .fork parent pid =>
    if (s.task parent).alive && s.pidFree pid then some (s.fork parent pid) else none
  | .die i => some (s.die i)
  | .app i act =>
    if (s.task i).alive && (s.task i).zygoteChild then appStep s i act else none
  | .handler i act =>
    if i < s.born then (handlerStep (s.session i) act).map (s.setSession i) else none
  | .child i act => childStep s i act

/-- Zygote and the companion daemon, before the first app is forked. -/
structure Boot where
  zygotePid : Int
  companionPid : Int
  table : Nat → List MountinfoEntry
  distinct : zygotePid ≠ companionPid

def Boot.initial (boot : Boot) : System where
  task i :=
    if i = 0 then ⟨boot.zygotePid, zygoteNs, true, false⟩
    else if i = 1 then ⟨boot.companionPid, companionNs, true, false⟩
    else ⟨0, zygoteNs, false, false⟩
  born := 2
  namespaces := 2
  shared _ := true
  table := boot.table
  session _ := .fresh

end ZygiskAssistant.Companion
