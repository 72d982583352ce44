import Mathlib.Data.List.Basic

/-!
# The table of exit handlers

`atexit.cpp` as a machine with an explicit control stack: handlers run in the
middle of `__cxa_finalize` and may call both functions again. What a handler
calls is a finite tree, given where it is registered. An access outside an
allocated table, a second `free` and a read of a cell that was never written
are undefined, and the machine stops there. Allocation does not fail.
-/

namespace ZygiskAssistant.Atexit

/-- The calls that a piece of code makes. A registration carries the argument of the
handler and the calls that the handler will make. -/
inductive Calls
  | done
  | atexit (func : Calls) (arg : Nat) (rest : Calls)
  | atexitNull (arg : Nat) (rest : Calls)
  | finalize (rest : Calls)
deriving DecidableEq, Repr

/-- An `AtexitEntry`; `cleared` has a null `fn`. -/
inductive AtexitEntry
  | uninitialized
  | cleared
  | handler (fn : Calls) (arg : Nat)
deriving DecidableEq, Repr

inductive Block
  | null
  | allocated (cells : List AtexitEntry)
  | freed
deriving DecidableEq, Repr

/-- A registration and a call are recorded with the index of their entry, the function and its
argument, and an access with `count`, `capacity` and the allocated length at that moment. -/
inductive Event
  | registered (index : Nat) (fn : Calls) (arg : Nat)
  | called (index : Nat) (fn : Calls) (arg : Nat)
  | access (index count capacity allocated : Nat)
deriving DecidableEq, Repr

structure Globals where
  gArray : Block
  capacity : Nat
  count : Nat
  trace : List Event
deriving DecidableEq, Repr

namespace Globals

def initial : Globals := ⟨.null, 8, 0, []⟩

def log (g : Globals) (e : Event) : Globals := { g with trace := g.trace ++ [e] }

def read (g : Globals) (i : Nat) : Option (AtexitEntry × Globals) :=
  match g.gArray with
  | .allocated cells =>
    cells[i]?.map fun cell => (cell, g.log (.access i g.count g.capacity cells.length))
  | _ => none

def write (g : Globals) (i : Nat) (cell : AtexitEntry) : Option Globals :=
  match g.gArray with
  | .allocated cells =>
    if i < cells.length then
      some ({ g with gArray := .allocated (cells.set i cell) }.log
        (.access i g.count g.capacity cells.length))
    else none
  | _ => none

def malloc (g : Globals) : Globals :=
  { g with gArray := .allocated (List.replicate g.capacity .uninitialized) }

def realloc (g : Globals) : Option Globals :=
  match g.gArray with
  | .null => some g.malloc
  | .allocated cells =>
    some { g with gArray := .allocated (cells.take g.capacity ++
      List.replicate (g.capacity - cells.length) .uninitialized) }
  | .freed => none

/-- `free(g_array)`, which leaves the pointer as it is. -/
def free (g : Globals) : Option Globals :=
  match g.gArray with
  | .null => some g
  | .allocated _ => some { g with gArray := .freed }
  | .freed => none

def makeRoom (g : Globals) : Option Globals :=
  let g := if g.gArray = .null then g.malloc else g
  if g.count > g.capacity then ({ g with capacity := g.capacity * 2 } : Globals).realloc else some g

end Globals

def cxaAtexit (func : Option Calls) (arg : Nat) (g : Globals) : Option (Int × Globals) :=
  match func with
  | none => some (-1, g)
  | some fn => do
    let g ← ({ g with count := g.count + 1 } : Globals).makeRoom
    let g ← g.write (g.count - 1) (.handler fn arg)
    return (0, g.log (.registered (g.count - 1) fn arg))

/-- `scan` is the head of the loop body and `await` the point where a handler returns to. -/
inductive Frame
  | calls (c : Calls)
  | restart
  | scan (total i : Nat)
  | await (total i : Nat)
deriving DecidableEq, Repr

abbrev Config := List Frame × Globals

def continueLoop (total i : Nat) (stack : List Frame) (g : Globals) : Option Config :=
  if i = 0 then g.free.map fun g => (stack, g) else some (.scan total (i - 1) :: stack, g)

def step : Config → Option Config
  | ([], _) => none
  | (.calls .done :: stack, g) => some (stack, g)
  | (.calls (.atexit func arg rest) :: stack, g) => do
    let (_, g) ← cxaAtexit (some func) arg g
    return (.calls rest :: stack, g)
  | (.calls (.atexitNull arg rest) :: stack, g) => do
    let (_, g) ← cxaAtexit none arg g
    return (.calls rest :: stack, g)
  | (.calls (.finalize rest) :: stack, g) => some (.restart :: .calls rest :: stack, g)
  | (.restart :: stack, g) =>
    if g.count > 0 then some (.scan g.count (g.count - 1) :: stack, g) else some (stack, g)
  | (.scan total i :: stack, g) => do
    let (cell, g) ← g.read i
    match cell with
    | .uninitialized => none
    | .cleared => continueLoop total i stack g
    | .handler fn arg =>
      -- Clear the entry in the array to avoid calling an entry again
      -- if __cxa_finalize is called recursively
      let g ← g.write i .cleared
      return (.calls fn :: .await total i :: stack, g.log (.called i fn arg))
  | (.await total i :: stack, g) =>
    if g.count ≠ total then some (.restart :: stack, g) else continueLoop total i stack g

def start (c : Calls) : Config := ([.calls c], .initial)

def Finished (s : Config) : Prop := s.1 = []

end ZygiskAssistant.Atexit
