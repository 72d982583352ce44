import ZygiskAssistant.Companion.AppTable

/-!
# The interleaved unmount loop

A party takes its table apart in many steps, with steps of every other session
in between, and parses the table in a step of its own before. As long as only
one of the two parties of a session works in the app's namespace, what it
leaves there is what the loop of `doUnmount` makes of Zygote's table at once.
-/

namespace ZygiskAssistant.Companion

open Parsers Modules

variable {s t : System} {l : Label} {i : Nat}

/-- A part of the loop over `T` leaves `X`; the rest of its paths is to come. -/
def Unmounting (T X : List MountinfoEntry) (rest : List Str) : Prop :=
  ∃ passed, umountPaths T = passed ++ rest ∧ X = passed.foldl Modules.umount2 T

namespace Unmounting

variable {T X : List MountinfoEntry}

theorem start (T : List MountinfoEntry) : Unmounting T T (umountPaths T) := ⟨[], rfl, rfl⟩

theorem umount2 {path : Str} {rest : List Str} (h : Unmounting T X (path :: rest)) :
    Unmounting T (Modules.umount2 X path) rest := by
  obtain ⟨passed, hplan, rfl⟩ := h
  refine ⟨passed ++ [path], ?_, ?_⟩
  · rw [hplan, List.append_assoc]
    rfl
  · rw [List.foldl_append]
    rfl

theorem finish (h : Unmounting T X []) : X = doUnmount Modules.umount2 T T := by
  obtain ⟨passed, hplan, rfl⟩ := h
  rw [doUnmount_eq_foldl, hplan, List.append_nil]

end Unmounting

/-- Where one party alone has worked, the table is the one its loop has come to. -/
structure Linear (T : List MountinfoEntry) (x : Session) (X : List MountinfoEntry) : Prop where
  untouched : x.app.fellBack = false → x.child.entered = false ∨ x.child.pc = .entered → X = T
  serving : x.app.fellBack = false → ∀ rest, x.child.pc = .unmounting rest → Unmounting T X rest
  served : x.app.fellBack = false → x.child.completed = true → Unmounting T X []
  falling : x.child.entered = false → ∀ rest, x.app.pc = .unmounting rest → Unmounting T X rest
  fallen : x.child.entered = false → x.app.unmounted = true → Unmounting T X []

namespace Linear

variable {T X : List MountinfoEntry} {x y : Session}

theorem setApp (h : Linear T x X) {app : App} (hpc : x.app.fellBack = false)
    (hpc' : app.fellBack = false) : Linear T { x with app := app } X where
  untouched _ := h.untouched hpc
  serving _ := h.serving hpc
  served _ := h.served hpc
  falling _ rest hr := by
    rw [App.fellBack, hr] at hpc'
    cases hpc'
  fallen _ hu := by
    unfold App.fellBack at hpc'
    split at hpc'
    · cases hpc'
    · rw [hu] at hpc'
      cases hpc'

theorem setChild (h : Linear T x X) {c : Child} (hentered : c.entered = x.child.entered)
    (hcompleted : c.completed = x.child.completed) (hpc : c.pc ≠ .entered)
    (hloop : ∀ rest, c.pc ≠ .unmounting rest) : Linear T { x with child := c } X where
  untouched hf hc := h.untouched hf (Or.inl (hentered ▸ hc.resolve_right hpc))
  serving _ rest hr := absurd hr (hloop rest)
  served hf hc := h.served hf (hcompleted ▸ hc)
  falling he := h.falling (hentered ▸ he)
  fallen he := h.fallen (hentered ▸ he)

theorem start (hloop : ∀ rest, x.child.pc ≠ .unmounting rest)
    (hcompleted : x.child.completed = false) {app : App} (happ : app.fellBack = false) :
    Linear T { x with app := app } T where
  untouched _ _ := rfl
  serving _ rest hr := absurd hr (hloop rest)
  served _ hc := by
    rw [hcompleted] at hc
    cases hc
  falling _ rest hr := by
    rw [App.fellBack, hr] at happ
    cases happ
  fallen _ hu := by
    unfold App.fellBack at happ
    split at happ
    · cases happ
    · rw [hu] at happ
      cases happ

/-- The callback begins its loop where the child has not. -/
theorem fallBack (h : Linear T x X) (hpc : x.app.fellBack = false) {app : App}
    (happ : app.pc = .unmounting (umountPaths X)) (hu : app.unmounted = false) :
    Linear T { x with app := app } X := by
  have hfell : app.fellBack = true := by
    rw [App.fellBack, happ]
  exact {
    untouched := fun hf => absurd (hf.symm.trans hfell) Bool.false_ne_true
    serving := fun hf => absurd (hf.symm.trans hfell) Bool.false_ne_true
    served := fun hf => absurd (hf.symm.trans hfell) Bool.false_ne_true
    falling := fun he rest hr => by
      obtain rfl := h.untouched hpc (Or.inl he)
      obtain rfl := AppPc.unmounting.inj (happ.symm.trans hr)
      exact .start X
    fallen := fun _ hc => absurd (hu.symm.trans hc) Bool.false_ne_true }

theorem fallOn (h : Linear T x X) {path : Str} {rest : List Str}
    (hpc : x.app.pc = .unmounting (path :: rest)) (hu : x.app.unmounted = false) :
    Linear T { x with app := { x.app with pc := .unmounting rest } }
      (Modules.umount2 X path) where
  untouched hf := nomatch hf
  serving hf := nomatch hf
  served hf := nomatch hf
  falling he _ hr := by
    obtain rfl := AppPc.unmounting.inj hr
    exact (h.falling he _ hpc).umount2
  fallen _ hc := absurd (hu.symm.trans hc) Bool.false_ne_true

theorem fallThrough (h : Linear T x X) (hpc : x.app.pc = .unmounting []) :
    Linear T { x with app := { x.app with pc := .returned, unmounted := true } } X where
  untouched hf := nomatch hf
  serving hf := nomatch hf
  served hf := nomatch hf
  falling _ _ hr := nomatch hr
  fallen he _ := h.falling he [] hpc

theorem enter (h : Linear T x X) (he : x.child.entered = false) (hc : x.child.completed = false)
    (n : Nat) : Linear T
      { x with child := { x.child with pc := .entered, ns := n, entered := true } } X where
  untouched hf _ := h.untouched hf (Or.inl he)
  serving _ _ hr := nomatch hr
  served _ hd := absurd (hc.symm.trans hd) Bool.false_ne_true
  falling hno := nomatch hno
  fallen hno := nomatch hno

theorem serve (h : Linear T x X) (hpc : x.child.pc = .entered) (he : x.child.entered = true)
    (hc : x.child.completed = false) :
    Linear T { x with child := { x.child with pc := .unmounting (umountPaths X) } } X where
  untouched hf _ := h.untouched hf (Or.inr hpc)
  serving hf rest hr := by
    obtain rfl := h.untouched hf (Or.inr hpc)
    obtain rfl := ChildPc.unmounting.inj hr
    exact .start X
  served _ hd := absurd (hc.symm.trans hd) Bool.false_ne_true
  falling hno := absurd (hno.symm.trans he) Bool.false_ne_true
  fallen hno := absurd (hno.symm.trans he) Bool.false_ne_true

theorem serveOn (h : Linear T x X) {path : Str} {rest : List Str}
    (hpc : x.child.pc = .unmounting (path :: rest)) (he : x.child.entered = true)
    (hc : x.child.completed = false) :
    Linear T { x with child := { x.child with pc := .unmounting rest } }
      (Modules.umount2 X path) where
  untouched _ hno := by
    obtain hno | hno := hno
    · exact absurd (hno.symm.trans he) Bool.false_ne_true
    · cases hno
  serving hf _ hr := by
    obtain rfl := ChildPc.unmounting.inj hr
    exact (h.serving hf _ hpc).umount2
  served _ hd := absurd (hc.symm.trans hd) Bool.false_ne_true
  falling hno := absurd (hno.symm.trans he) Bool.false_ne_true
  fallen hno := absurd (hno.symm.trans he) Bool.false_ne_true

theorem complete (h : Linear T x X) (hpc : x.child.pc = .unmounting [])
    (he : x.child.entered = true) :
    Linear T { x with child := { x.child with pc := .unmounted, completed := true } } X where
  untouched _ hno := by
    obtain hno | hno := hno
    · exact absurd (hno.symm.trans he) Bool.false_ne_true
    · cases hno
  serving _ _ hr := nomatch hr
  served hf _ := h.serving hf [] hpc
  falling hno := absurd (hno.symm.trans he) Bool.false_ne_true
  fallen hno := absurd (hno.symm.trans he) Bool.false_ne_true

end Linear

def AppSucceeds (_ : Session) (act : AppAct) : Prop :=
  ∀ ok, act = .parse ok ∨ act = .umount2 ok → ok = true

def ChildSucceeds (_ : Session) (act : ChildAct) : Prop :=
  ∀ ok, act = .parse ok ∨ act = .umount2 ok → ok = true

/-- Every move of a session whose loops succeed keeps where they have come to. -/
theorem linear_kept (T : List MountinfoEntry) :
    KeptBySession T AppSucceeds ChildSucceeds (Linear T) where
  start hloop hc happ := .start hloop hc happ
  tell h _ _ _ := { h with }
  goOn h := h.setApp
  fallBack {x X ok} h hok hpc hu := by
    obtain rfl := hok ok (Or.inl rfl)
    have hf : x.app.fellBack = false := by simp [App.fellBack, hpc, hu]
    exact h.fallBack hf rfl hu
  fallOn {x X ok path rest} h hok hpc hu := by
    obtain rfl := hok ok (Or.inr rfl)
    exact h.fallOn hpc hu
  fallThrough h := h.fallThrough
  idle h := h.setChild
  enter h _ he hc := h.enter he hc _
  serve {x X ok} h hok hpc he hc := by
    obtain rfl := hok ok (Or.inl rfl)
    exact h.serve hpc he hc
  serveOn {x X ok path rest} h hok hpc he hc := by
    obtain rfl := hok ok (Or.inr rfl)
    exact h.serveOn hpc he hc
  complete h := h.complete

/-- The requesters live until their namespace file is opened, and no call of the two loops
of session `i` fails. -/
def LoopsSucceed (i : Nat) (s : System) (l : Label) : Prop :=
  RequesterAlive s l ∧ ∀ ok, l = .app i (.parse ok) ∨ l = .app i (.umount2 ok) ∨
    l = .child i (.parse ok) ∨ l = .child i (.umount2 ok) → ok = true

theorem LoopsSucceed.app (h : LoopsSucceed i s l) {act : AppAct} (hl : l = .app i act) :
    AppSucceeds (s.session i) act := by
  rintro ok (rfl | rfl)
  · exact h.2 ok (Or.inl hl)
  · exact h.2 ok (Or.inr (Or.inl hl))

theorem LoopsSucceed.child (h : LoopsSucceed i s l) {act : ChildAct} (hl : l = .child i act) :
    ChildSucceeds (s.session i) act := by
  rintro ok (rfl | rfl)
  · exact h.2 ok (Or.inr (Or.inr (Or.inl hl)))
  · exact h.2 ok (Or.inr (Or.inr (Or.inr hl)))

abbrev Undisturbed (boot : Boot) : Nat → System → Prop :=
  Carried boot (Linear (boot.table zygoteNs))

theorem Undisturbed.step {boot : Boot} (h : Undisturbed boot i s) (hl : LoopsSucceed i s l)
    (hstep : step s l = some t) : Undisturbed boot i t :=
  Carried.step h (linear_kept _) hl.1 (fun _ => hl.app) (fun _ => hl.child) hstep

/-- In every run, whatever the other sessions do in between: as long as only the child has
worked in the app's namespace, or only the callback, the finished loop has left there what
`doUnmount` makes of Zygote's table at once; before either begins it is Zygote's table. -/
theorem unmount_atomic {boot : Boot} {ls : List Label} {s : System} {i : Nat}
    (hr : LabelledRun.run step boot.initial ls = some s)
    (hm : LabelledRun.Meets step (LoopsSucceed i) boot.initial ls)
    (hpc : (s.session i).app.pc.inPrivate = true) :
    let T := boot.table zygoteNs
    let X := s.table (s.task i).ns
    ((s.session i).app.fellBack = false → (s.session i).child.entered = false → X = T) ∧
    ((s.session i).app.fellBack = false → (s.session i).child.completed = true →
      X = doUnmount Modules.umount2 T T) ∧
    ((s.session i).child.entered = false → (s.session i).app.unmounted = true →
      X = doUnmount Modules.umount2 T T) := by
  have h := LabelledRun.run_meets_invariant (fun _ _ _ h hl hst => Undisturbed.step h hl hst)
    (Carried.initial boot _ i) hm hr
  have hlinear := h.kept (Or.inr hpc)
  refine ⟨?_, ?_, ?_⟩
  · intro hf he
    exact hlinear.untouched hf (Or.inl he)
  · intro hf hc
    exact (hlinear.served hf hc).finish
  · intro he hu
    exact (hlinear.fallen he hu).finish

theorem unmount_atomic_answered : ∃ s,
    LabelledRun.run step sampleBoot.initial answeredRun = some s ∧
    s.table (s.task 2).ns =
      doUnmount Modules.umount2 (sampleBoot.table zygoteNs) (sampleBoot.table zygoteNs) := by
  have hrun : (LabelledRun.run step sampleBoot.initial answeredRun).map
      (fun s => (s.session 2).app.pc.inPrivate && !(s.session 2).app.fellBack &&
        (s.session 2).child.completed) = some true := by decide
  obtain ⟨s, hs, he⟩ := Option.map_eq_some_iff.mp hrun
  rw [Bool.and_eq_true, Bool.and_eq_true, Bool.not_eq_true'] at he
  have hok : ∀ l ∈ answeredRun, ∀ ok, l = .app 2 (.parse ok) ∨ l = .app 2 (.umount2 ok) ∨
      l = .child 2 (.parse ok) ∨ l = .child 2 (.umount2 ok) → ok = true := by decide
  have hm := requesterAlive_answeredRun.and
    (LabelledRun.meets_of_forall (fun l hl _ => hok l hl) sampleBoot.initial)
  exact ⟨s, hs, (unmount_atomic hs hm he.1.1).2.1 he.1.2 he.2⟩

end ZygiskAssistant.Companion
