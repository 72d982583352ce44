import ZygiskAssistant.Companion.Atomic
import ZygiskAssistant.Modules.UnmountAgain

/-!
# The fallback after the child

The child may be killed, or fail, at any point of its loop, and its parent may
die while it goes on. Then the callback falls back on its own loop, over what
the child has left or while the child is still at work. What the two loops may
take from the app's table, and what they leave there in the end.
-/

namespace ZygiskAssistant.Companion

open Parsers Modules MountTree

def AppPc.todo : AppPc → Option (List Str)
  | .unmounting rest => some rest
  | _ => none

def ChildPc.todo : ChildPc → Option (List Str)
  | .unmounting rest => some rest
  | _ => none

theorem App.fellBack_eq_false {app : App} (h : app.fellBack = false) :
    app.pc.todo = none ∧ app.unmounted = false := by
  unfold App.fellBack at h
  cases hpc : app.pc with
  | unmounting rest =>
    rw [hpc] at h
    cases h
  | _ =>
    rw [hpc] at h
    exact ⟨rfl, h⟩

theorem ChildPc.todo_eq_none {pc : ChildPc} (h : ∀ rest, pc ≠ .unmounting rest) :
    pc.todo = none := by
  cases pc with
  | unmounting rest => exact absurd rfl (h rest)
  | _ => rfl

/-- What a loop finds to do when it has parsed the table, or has failed to. -/
def plan (X : List MountinfoEntry) (ok : Bool) : List Str := if ok then umountPaths X else []

/-- How the loops of the callback and of the child share the table `T`: what holds while each
has the given paths to come. `overlap` says that a loop may begin while the other is under
way, `sure` that no call of the callback's loop fails. -/
structure Sharing (T : List MountinfoEntry) (overlap sure : Prop)
    (H : Option (List Str) → Option (List Str) → List MountinfoEntry → Prop) : Prop where
  initial : H none none T
  remainder {a c : Option (List Str)} {X : List MountinfoEntry} : H a c X →
    mountLayout.Remainder (selected T) T X
  begin {c : Option (List Str)} {X : List MountinfoEntry} {ok : Bool} : H none c X →
    (overlap ∨ c = none) → (sure → ok = true) → H (some (plan X ok)) c X
  own {c : Option (List Str)} {X : List MountinfoEntry} {path : Str} {rest : List Str} {ok : Bool} :
    H (some (path :: rest)) c X → (sure → ok = true) → H (some rest) c (attempt X (path, ok))
  finish {c : Option (List Str)} {X : List MountinfoEntry} : H (some []) c X →
    H none c X ∧ (sure → X = doUnmount Modules.umount2 T T)
  lend {a : Option (List Str)} {X : List MountinfoEntry} {ok : Bool} : H a none X →
    (overlap ∨ a = none) → H a (some (plan X ok)) X
  lent {a : Option (List Str)} {X : List MountinfoEntry} {path : Str} {rest : List Str} {ok : Bool} :
    H a (some (path :: rest)) X → H a (some rest) (attempt X (path, ok))
  leave {a c : Option (List Str)} {X : List MountinfoEntry} : H a c X → H a none X

namespace Sharing

variable {T : List MountinfoEntry} {overlap sure : Prop}
variable {H : Option (List Str) → Option (List Str) → List MountinfoEntry → Prop}

def Holds (T : List MountinfoEntry) (sure : Prop)
    (H : Option (List Str) → Option (List Str) → List MountinfoEntry → Prop) (x : Session)
    (X : List MountinfoEntry) : Prop :=
  H x.app.pc.todo x.child.pc.todo X ∧
    (sure → x.app.unmounted = true → X = doUnmount Modules.umount2 T T)

def AppMay (overlap sure : Prop) (x : Session) (act : AppAct) : Prop :=
  ∀ ok, (act = .parse ok → overlap ∨ x.child.pc.todo = none) ∧
    (act = .parse ok ∨ act = .umount2 ok → sure → ok = true)

def ChildMay (overlap : Prop) (x : Session) (act : ChildAct) : Prop :=
  ∀ ok, act = .parse ok → overlap ∨ x.app.pc.todo = none

theorem attempt_exact (hT : mountLayout.IsTree T) (hord : mountLayout.CoveredFirst T)
    (hclear : ∀ m, mountLayout.Outermost (selected T) T m → mountLayout.Clear (selected T) T m)
    {X : List MountinfoEntry} {call : Str × Bool} (hX : X = doUnmount Modules.umount2 T T)
    (hleft : mountLayout.Remainder (selected T) T (attempt X call)) :
    attempt X call = doUnmount Modules.umount2 T T := by
  have hexact := Layout.exact_of_clear hT hord hclear
  rw [← doUnmount_eq_unmountSelected, ← hX] at hexact
  have hsub : attempt X call ⊆ X := by
    unfold attempt
    split
    · exact (Layout.umount_sublist X _).subset
    · exact List.Subset.refl X
  have hXleft : mountLayout.Remainder (selected T) T X := by
    rw [hX, doUnmount_eq_unmountSelected]
    exact Layout.Remainder.of_exact hT (Layout.exact_of_clear hT hord hclear)
  rw [← hX]
  exact Layout.Remainder.eq_of_gone hT hleft hXleft (fun m hm => hexact.gone m (hsub hm))
    hexact.gone

theorem kept (hsh : Sharing T overlap sure H) (hT : mountLayout.IsTree T)
    (hord : mountLayout.CoveredFirst T)
    (hclear : ∀ m, mountLayout.Outermost (selected T) T m → mountLayout.Clear (selected T) T m) :
    KeptBySession T (AppMay overlap sure) (ChildMay overlap) (Holds T sure H) where
  start hloop _ happ := by
    obtain ⟨htodo, hu⟩ := App.fellBack_eq_false happ
    refine ⟨?_, fun _ hc => absurd (hu.symm.trans hc) Bool.false_ne_true⟩
    dsimp only
    rw [htodo, ChildPc.todo_eq_none hloop]
    exact hsh.initial
  tell h _ _ _ := h
  goOn h hf hf' := by
    obtain ⟨htodo, _⟩ := App.fellBack_eq_false hf
    obtain ⟨htodo', hu⟩ := App.fellBack_eq_false hf'
    refine ⟨?_, fun _ hc => absurd (hu.symm.trans hc) Bool.false_ne_true⟩
    rw [htodo', ← htodo]
    exact h.1
  fallBack {x X ok} h hmay hpc hu := by
    refine ⟨?_, fun _ hc => absurd (hu.symm.trans hc) Bool.false_ne_true⟩
    have hnone : x.app.pc.todo = none := by rw [hpc]; rfl
    exact hsh.begin (hnone ▸ h.1) ((hmay ok).1 rfl) ((hmay ok).2 (Or.inl rfl))
  fallOn {x X ok path rest} h hmay hpc hu := by
    refine ⟨?_, fun _ hc => absurd (hu.symm.trans hc) Bool.false_ne_true⟩
    have htodo : x.app.pc.todo = some (path :: rest) := by rw [hpc]; rfl
    exact hsh.own (htodo ▸ h.1) ((hmay ok).2 (Or.inr rfl))
  fallThrough {x X} h hpc := by
    have htodo : x.app.pc.todo = some [] := by rw [hpc]; rfl
    obtain ⟨hnone, hexact⟩ := hsh.finish (htodo ▸ h.1)
    exact ⟨hnone, fun hsure _ => hexact hsure⟩
  idle h _ _ _ hloop := by
    refine ⟨?_, h.2⟩
    dsimp only
    rw [ChildPc.todo_eq_none hloop]
    exact hsh.leave h.1
  enter h _ _ _ := ⟨hsh.leave h.1, h.2⟩
  serve {x X ok} h hmay hpc _ _ := by
    refine ⟨?_, h.2⟩
    have hnone : x.child.pc.todo = none := by rw [hpc]; rfl
    exact hsh.lend (hnone ▸ h.1) (hmay ok rfl)
  serveOn {x X ok path rest} h _ hpc _ _ := by
    have htodo : x.child.pc.todo = some (path :: rest) := by rw [hpc]; rfl
    have hlent : H x.app.pc.todo (some rest) (attempt X (path, ok)) := hsh.lent (htodo ▸ h.1)
    exact ⟨hlent, fun hsure hu =>
      attempt_exact hT hord hclear (h.2 hsure hu) (hsh.remainder hlent)⟩
  complete h _ _ := ⟨hsh.leave h.1, h.2⟩

end Sharing

/-- Neither loop of session `i` begins while the other is under way. -/
def TakesTurns (i : Nat) (s : System) (l : Label) : Prop :=
  ∀ ok, (l = .app i (.parse ok) → (s.session i).child.pc.todo = none) ∧
    (l = .child i (.parse ok) → (s.session i).app.pc.todo = none)

def OwnLoopSucceeds (i : Nat) (l : Label) : Prop :=
  ∀ ok, l = .app i (.parse ok) ∨ l = .app i (.umount2 ok) → ok = true

/-- In every run in which the loops of session `i` share the app's table in some way: nothing
has gone that is to stay, and the callback's loop leaves what `doUnmount` leaves. -/
theorem Sharing.run {boot : Boot} {ls : List Label} {s : System} {i : Nat} {overlap sure : Prop}
    {H : Option (List Str) → Option (List Str) → List MountinfoEntry → Prop}
    (hsh : Sharing (boot.table zygoteNs) overlap sure H)
    (hT : mountLayout.IsTree (boot.table zygoteNs))
    (hord : mountLayout.CoveredFirst (boot.table zygoteNs))
    (hclear : ∀ m, mountLayout.Outermost (selected (boot.table zygoteNs)) (boot.table zygoteNs) m →
      mountLayout.Clear (selected (boot.table zygoteNs)) (boot.table zygoteNs) m)
    (hr : LabelledRun.run step boot.initial ls = some s)
    (hm : LabelledRun.Meets step (fun s l => RequesterAlive s l ∧ (overlap ∨ TakesTurns i s l))
      boot.initial ls)
    (hown : sure → ∀ l ∈ ls, OwnLoopSucceeds i l)
    (hpc : (s.session i).app.pc.inPrivate = true) :
    mountLayout.Remainder (selected (boot.table zygoteNs)) (boot.table zygoteNs)
        (s.table (s.task i).ns) ∧
      (sure → (s.session i).app.unmounted = true → s.table (s.task i).ns =
        doUnmount Modules.umount2 (boot.table zygoteNs) (boot.table zygoteNs)) := by
  have hsucceeds : LabelledRun.Meets step (fun _ l => sure → OwnLoopSucceeds i l)
      boot.initial ls :=
    LabelledRun.meets_of_forall (fun l hl _ hsure => hown hsure l hl) boot.initial
  have hcarried := LabelledRun.run_meets_invariant
    (P := Carried boot (Sharing.Holds (boot.table zygoteNs) sure H) i) ?_
    (Carried.initial boot _ i) (hm.and hsucceeds) hr
  · obtain ⟨hholds, hexact⟩ := hcarried.kept (Or.inr hpc)
    exact ⟨hsh.remainder hholds, hexact⟩
  · rintro s l t h ⟨⟨halive, hturns⟩, hok⟩ hstep
    refine h.step (hsh.kept hT hord hclear) halive ?_ ?_ hstep
    · intro act hl ok
      refine ⟨fun hact => ?_, fun hact hsure => hok hsure ok ?_⟩
      · exact hturns.imp_right fun ht => (ht ok).1 (hact ▸ hl)
      · obtain rfl | rfl := hact
        · exact Or.inl hl
        · exact Or.inr hl
    · intro act hl ok hact
      exact hturns.imp_right fun ht => (ht ok).2 (hact ▸ hl)

section Table

variable {T : List MountinfoEntry} (hT : mountLayout.IsTree T)
variable (hord : mountLayout.CoveredFirst T) (hanch : Anchored T)
variable (hclear : ∀ m, mountLayout.Outermost (selected T) T m →
  mountLayout.Clear (selected T) T m)

def InTurn (T : List MountinfoEntry) (sure : Prop) :
    Option (List Str) → Option (List Str) → List MountinfoEntry → Prop
  | none, none, X => mountLayout.Remainder (selected T) T X
  | some rest, none, X => ∃ Y, mountLayout.Remainder (selected T) T Y ∧
      LoopAt (selected T) Y X rest ∧ (sure → Unmounting Y X rest)
  | none, some rest, X => ∃ Y, mountLayout.Remainder (selected T) T Y ∧
      LoopAt (selected T) Y X rest
  | some _, some _, _ => False

include hT hanch

theorem loopAt_plan {X : List MountinfoEntry} (hX : mountLayout.Remainder (selected T) T X)
    (ok : Bool) : LoopAt (selected T) X X (plan X ok) := by
  cases ok with
  | true => exact ⟨_, umountPaths_part hT hanch hX, .start⟩
  | false => exact ⟨[], rfl, Layout.Faltering.start.stop⟩

include hclear

omit hanch in
theorem clear_part {Y : List MountinfoEntry} (hY : mountLayout.Remainder (selected T) T Y) :
    ∀ m, mountLayout.Outermost (selected T) Y m → mountLayout.Clear (selected T) Y m :=
  fun m hm => hY.closed.clear hT (hclear m (hY.closed.outermost hm))

omit hanch in
include hord in
theorem loopAt_attempt {X Y : List MountinfoEntry} {path : Str} {rest : List Str}
    (hY : mountLayout.Remainder (selected T) T Y) (h : LoopAt (selected T) Y X (path :: rest))
    (ok : Bool) : LoopAt (selected T) Y (attempt X (path, ok)) rest :=
  h.attempt (hY.closed.isTree hT) (hY.closed.coveredFirst hT hord) (clear_part hT hclear hY) ok

include hord in
theorem inTurn_sharing (sure : Prop) : Sharing T False sure (InTurn T sure) where
  initial := Layout.Remainder.refl T
  remainder {a c X} h := by
    cases a with
    | none =>
      cases c with
      | none => exact h
      | some _ =>
        obtain ⟨Y, hY, _, _, hf⟩ := h
        exact hY.trans hf.remainder
    | some _ =>
      cases c with
      | none =>
        obtain ⟨Y, hY, ⟨_, _, hf⟩, _⟩ := h
        exact hY.trans hf.remainder
      | some _ => exact h.elim
  begin {c X ok} h hc hok := by
    obtain rfl := hc.resolve_left id
    refine ⟨X, h, loopAt_plan hT hanch h ok, fun hsure => ?_⟩
    obtain rfl := hok hsure
    exact .start X
  own {c X path rest ok} h hok := by
    cases c with
    | none =>
      obtain ⟨Y, hY, hloop, hunm⟩ := h
      refine ⟨Y, hY, loopAt_attempt hT hord hclear hY hloop ok, fun hsure => ?_⟩
      obtain rfl := hok hsure
      exact (hunm hsure).umount2
    | some _ => exact h.elim
  finish {c X} h := by
    cases c with
    | none =>
      obtain ⟨Y, hY, ⟨_, _, hf⟩, hunm⟩ := h
      refine ⟨hY.trans hf.remainder, fun hsure => ?_⟩
      rw [(hunm hsure).finish]
      exact doUnmount_remainder hT hanch hY hord hclear
    | some _ => exact h.elim
  lend {a X ok} h ha := by
    obtain rfl := ha.resolve_left id
    exact ⟨X, h, loopAt_plan hT hanch h ok⟩
  lent {a X path rest ok} h := by
    cases a with
    | none =>
      obtain ⟨Y, hY, hloop⟩ := h
      exact ⟨Y, hY, loopAt_attempt hT hord hclear hY hloop ok⟩
    | some _ => exact h.elim
  leave {a c X} h := by
    cases c with
    | none => exact h
    | some _ =>
      cases a with
      | none =>
        obtain ⟨Y, hY, _, _, hf⟩ := h
        exact hY.trans hf.remainder
      | some _ => exact h.elim

end Table

/-- In every run in which the loops of session `i` are never under way at once: whatever has
failed or died, nothing has gone from the app's table that is to stay; and if no call of the
callback's own loop fails, it leaves exactly what an undisturbed `doUnmount` of Zygote's table
leaves, whatever part of its work the child has done. -/
theorem fallback_completes {boot : Boot} {ls : List Label} {s : System} {i : Nat}
    (hT : mountLayout.IsTree (boot.table zygoteNs))
    (hord : mountLayout.CoveredFirst (boot.table zygoteNs)) (hanch : Anchored (boot.table zygoteNs))
    (hclear : ∀ m, mountLayout.Outermost (selected (boot.table zygoteNs)) (boot.table zygoteNs) m →
      mountLayout.Clear (selected (boot.table zygoteNs)) (boot.table zygoteNs) m)
    (hr : LabelledRun.run step boot.initial ls = some s)
    (hm : LabelledRun.Meets step (fun s l => RequesterAlive s l ∧ TakesTurns i s l)
      boot.initial ls)
    (hpc : (s.session i).app.pc.inPrivate = true) :
    mountLayout.Remainder (selected (boot.table zygoteNs)) (boot.table zygoteNs)
        (s.table (s.task i).ns) ∧
      ((∀ l ∈ ls, OwnLoopSucceeds i l) → (s.session i).app.unmounted = true →
        s.table (s.task i).ns =
          doUnmount Modules.umount2 (boot.table zygoteNs) (boot.table zygoteNs)) := by
  have hmeets : LabelledRun.Meets step (fun s l => RequesterAlive s l ∧ (False ∨ TakesTurns i s l))
      boot.initial ls :=
    hm.mono (P := fun _ => True) (fun _ _ _ _ _ _ => trivial)
      (fun _ _ _ h => ⟨h.1, Or.inr h.2⟩) trivial
  have hshare := inTurn_sharing hT hord hanch hclear
  refine ⟨((hshare False).run hT hord hclear hr hmeets False.elim hpc).1, fun hown => ?_⟩
  exact ((hshare True).run hT hord hclear hr hmeets (fun _ => hown) hpc).2 trivial

def Label.requester : Label → Option Nat
  | .child i (.openNs (some _)) => some i
  | _ => none

theorem requesterAlive_iff (s : System) (l : Label) :
    RequesterAlive s l ↔ ∀ i ∈ l.requester, (s.task i).alive = true := by
  constructor
  · intro h i hi
    unfold Label.requester at hi
    split at hi
    · obtain rfl := Option.some.inj hi
      exact h _ _ rfl
    · cases hi
  · rintro h i q rfl
    exact h i rfl

instance (s : System) (l : Label) : Decidable (RequesterAlive s l) :=
  decidable_of_iff _ (requesterAlive_iff s l).symm

instance (i : Nat) (s : System) (l : Label) : Decidable (TakesTurns i s l) :=
  inferInstanceAs (Decidable (∀ ok, (l = .app i (.parse ok) → (s.session i).child.pc.todo = none) ∧
    (l = .child i (.parse ok) → (s.session i).app.pc.todo = none)))

def overlaysBoot : Boot := { sampleBoot with table := fun _ => overlaysTable }

def killedRun : List Label :=
  servedRun ++ [.child 2 (.umount2 true), .child 2 (.kill 9#32), .handler 2 (.waitpid true),
    .handler 2 (.write true), .app 2 (.read true), .app 2 (.parse true), .app 2 (.umount2 true),
    .app 2 .finish]

theorem fallback_completes_killed : ∃ s,
    LabelledRun.run step overlaysBoot.initial killedRun = some s ∧
    s.table (s.task 2).ns = doUnmount Modules.umount2 overlaysTable overlaysTable := by
  have hrun : (LabelledRun.run step overlaysBoot.initial killedRun).map (fun s =>
      (s.session 2).app.pc.inPrivate && (s.session 2).app.unmounted) = some true := by decide
  obtain ⟨s, hs, he⟩ := Option.map_eq_some_iff.mp hrun
  obtain ⟨hpc, hu⟩ := Bool.and_eq_true_iff.mp he
  have hm : LabelledRun.Meets step (fun s l => RequesterAlive s l ∧ TakesTurns 2 s l)
      overlaysBoot.initial killedRun := by decide
  have hown : ∀ l ∈ killedRun, OwnLoopSucceeds 2 l := by
    unfold OwnLoopSucceeds
    decide
  have h := @fallback_completes overlaysBoot _ _ _ overlaysTable_isTree
    overlaysTable_beside.coveredFirst overlaysTable_anchored (fun _ hm => overlaysTable_clear hm)
    hs hm hpc
  exact ⟨s, hs, h.2 hown hu⟩

def Goes (T : List MountinfoEntry) (path : Str) : Prop :=
  ∃ n ∈ T, ¬ mountLayout.Kept (selected T) T n ∧ n.mountPoint = path

/-- The loop over `T` has come to `X`, among removals of others. -/
def SinkingAt (sel : MountinfoEntry → Bool) (T X : List MountinfoEntry) (rest : List Str) : Prop :=
  ∃ todo, rest = todo.map MountinfoEntry.mountPoint ∧ mountLayout.Sinking sel T X todo

/-- Either loop may be under way; both have only paths of mounts that go. -/
structure AtOnce (T : List MountinfoEntry) (sure : Prop) (a c : Option (List Str))
    (X : List MountinfoEntry) : Prop where
  left : mountLayout.Remainder (selected T) T X
  own : ∀ rest ∈ a, ∀ path ∈ rest, Goes T path
  sinking : sure → ∀ rest ∈ a, ∃ Y, mountLayout.Remainder (selected T) T Y ∧
    SinkingAt (selected T) Y X rest
  lent : ∀ rest ∈ c, ∀ path ∈ rest, Goes T path

section Table

variable {T : List MountinfoEntry} (hT : mountLayout.IsTree T)
variable (hord : mountLayout.CoveredFirst T) (hanch : Anchored T)
variable (hclear : ∀ m, mountLayout.Outermost (selected T) T m →
  mountLayout.Clear (selected T) T m)
variable (hsep : mountLayout.Separated (selected T) T)

include hT

section

include hanch

theorem goes_plan {X : List MountinfoEntry} (hX : mountLayout.Remainder (selected T) T X)
    (ok : Bool) : ∀ path ∈ plan X ok, Goes T path := by
  intro path hpath
  cases ok with
  | true =>
    rw [plan, if_pos rfl, umountPaths_part hT hanch hX] at hpath
    obtain ⟨n, hn, rfl⟩ := List.mem_map.mp hpath
    obtain ⟨hnX, hsel⟩ := List.mem_filter.mp (List.mem_reverse.mp hn)
    exact ⟨n, hX.closed.mem hnX, Layout.not_kept_of_selected hsel (Layout.Under.refl n), rfl⟩
  | false => cases hpath

end

include hsep

theorem remainder_attempt {X : List MountinfoEntry} {path : Str}
    (hX : mountLayout.Remainder (selected T) T X) (hpath : Goes T path) (ok : Bool) :
    mountLayout.Remainder (selected T) T (attempt X (path, ok)) := by
  obtain ⟨n, hn, hk, rfl⟩ := hpath
  cases ok with
  | true => exact hsep.umount hT hX hn hk
  | false => exact hX

omit hT hsep in
theorem attempt_sublist (X : List MountinfoEntry) (call : Str × Bool) :
    (attempt X call).Sublist X := by
  unfold attempt
  split
  · exact Layout.umount_sublist X _
  · exact List.Sublist.refl X

include hord hanch hclear

theorem atOnce_sharing (sure : Prop) : Sharing T True sure (AtOnce T sure) where
  initial := ⟨.refl T, by simp, by simp, by simp⟩
  remainder h := h.left
  begin {c X ok} h _ hok := by
    refine ⟨h.left, ?_, ?_, h.lent⟩
    · intro rest hr
      obtain rfl := Option.some.inj hr
      exact goes_plan hT hanch h.left ok
    · intro hsure rest hr
      obtain rfl := Option.some.inj hr
      obtain rfl := hok hsure
      exact ⟨X, h.left, _, umountPaths_part hT hanch h.left, .start⟩
  own {c X path rest ok} h hok := by
    have hpath : Goes T path := h.own _ rfl path List.mem_cons_self
    refine ⟨remainder_attempt hT hsep h.left hpath ok, ?_, ?_, h.lent⟩
    · intro rest' hr
      obtain rfl := Option.some.inj hr
      exact fun q hq => h.own _ rfl q (List.mem_cons_of_mem path hq)
    · intro hsure rest' hr
      obtain rfl := Option.some.inj hr
      obtain rfl := hok hsure
      obtain ⟨Y, hY, todo, htodo, hsink⟩ := h.sinking hsure _ rfl
      obtain ⟨s, todo, rfl, rfl, rfl⟩ := List.map_eq_cons_iff.mp htodo.symm
      exact ⟨Y, hY, todo, rfl, hsink.umount (hY.closed.isTree hT)
        (hY.closed.coveredFirst hT hord) (clear_part hT hclear hY) (hsep.part hY.closed)⟩
  finish {c X} h := by
    refine ⟨⟨h.left, by simp, by simp, h.lent⟩, fun hsure => ?_⟩
    obtain ⟨Y, hY, todo, htodo, hsink⟩ := h.sinking hsure _ rfl
    obtain rfl := List.map_eq_nil_iff.mp htodo.symm
    have hexact := Layout.exact_of_clear hT hord hclear
    rw [doUnmount_eq_unmountSelected]
    exact Layout.Remainder.eq_of_gone hT h.left (.of_exact hT hexact)
      (hsink.gone (hY.closed.isTree hT)) hexact.gone
  lend {a X ok} h _ := by
    refine ⟨h.left, h.own, h.sinking, ?_⟩
    intro rest hr
    obtain rfl := Option.some.inj hr
    exact goes_plan hT hanch h.left ok
  lent {a X path rest ok} h := by
    have hpath : Goes T path := h.lent _ rfl path List.mem_cons_self
    have hleft := remainder_attempt hT hsep h.left hpath ok
    refine ⟨hleft, h.own, ?_, ?_⟩
    · intro hsure rest' hr
      obtain ⟨Y, hY, todo, htodo, hsink⟩ := h.sinking hsure rest' hr
      have hsub := (attempt_sublist X (path, ok)).trans hsink.remainder.closed.sublist
      exact ⟨Y, hY, todo, htodo, hsink.disturbed (hY.of_sublist hleft hsub)
        (attempt_sublist X _).subset⟩
    · intro rest' hr
      obtain rfl := Option.some.inj hr
      exact fun q hq => h.lent _ rfl q (List.mem_cons_of_mem path hq)
  leave h := ⟨h.left, h.own, h.sinking, by simp⟩

end Table

/-- The same in every run whatever, with both loops under way at once in any order of their
steps, where in Zygote's table no mount that goes has the mount point of one that stays. -/
theorem loops_at_once {boot : Boot} {ls : List Label} {s : System} {i : Nat}
    (hT : mountLayout.IsTree (boot.table zygoteNs))
    (hord : mountLayout.CoveredFirst (boot.table zygoteNs)) (hanch : Anchored (boot.table zygoteNs))
    (hclear : ∀ m, mountLayout.Outermost (selected (boot.table zygoteNs)) (boot.table zygoteNs) m →
      mountLayout.Clear (selected (boot.table zygoteNs)) (boot.table zygoteNs) m)
    (hsep : mountLayout.Separated (selected (boot.table zygoteNs)) (boot.table zygoteNs))
    (hr : LabelledRun.run step boot.initial ls = some s)
    (hm : LabelledRun.Meets step RequesterAlive boot.initial ls)
    (hpc : (s.session i).app.pc.inPrivate = true) :
    mountLayout.Remainder (selected (boot.table zygoteNs)) (boot.table zygoteNs)
        (s.table (s.task i).ns) ∧
      ((∀ l ∈ ls, OwnLoopSucceeds i l) → (s.session i).app.unmounted = true →
        s.table (s.task i).ns =
          doUnmount Modules.umount2 (boot.table zygoteNs) (boot.table zygoteNs)) := by
  have hmeets : LabelledRun.Meets step (fun s l => RequesterAlive s l ∧ (True ∨ TakesTurns i s l))
      boot.initial ls :=
    hm.mono (P := fun _ => True) (fun _ _ _ _ _ _ => trivial)
      (fun _ _ _ h => ⟨h, Or.inl trivial⟩) trivial
  have hshare := atOnce_sharing hT hord hanch hclear hsep
  refine ⟨((hshare False).run hT hord hclear hr hmeets False.elim hpc).1, fun hown => ?_⟩
  exact ((hshare True).run hT hord hclear hr hmeets (fun _ => hown) hpc).2 trivial

def orphanRun : List Label :=
  servedRun ++ [.child 2 (.umount2 true), .handler 2 .die, .app 2 (.read false),
    .app 2 (.parse true), .child 2 (.umount2 true), .app 2 (.umount2 true), .app 2 .finish]

theorem loops_at_once_orphan : ∃ s,
    LabelledRun.run step overlaysBoot.initial orphanRun = some s ∧
    s.table (s.task 2).ns = doUnmount Modules.umount2 overlaysTable overlaysTable := by
  have hrun : (LabelledRun.run step overlaysBoot.initial orphanRun).map (fun s =>
      (s.session 2).app.pc.inPrivate && (s.session 2).app.unmounted) = some true := by decide
  obtain ⟨s, hs, he⟩ := Option.map_eq_some_iff.mp hrun
  obtain ⟨hpc, hu⟩ := Bool.and_eq_true_iff.mp he
  have hm : LabelledRun.Meets step RequesterAlive overlaysBoot.initial orphanRun := by decide
  have hown : ∀ l ∈ orphanRun, OwnLoopSucceeds 2 l := by
    unfold OwnLoopSucceeds
    decide
  have hinj : ∀ m ∈ overlaysTable, ∀ n ∈ overlaysTable,
      mountLayout.point m = mountLayout.point n → m = n := by decide
  have h := @loops_at_once overlaysBoot _ _ _ overlaysTable_isTree
    overlaysTable_beside.coveredFirst overlaysTable_anchored (fun _ hm => overlaysTable_clear hm)
    (Layout.separated_of_inj hinj) hs hm hpc
  exact ⟨s, hs, h.2 hown hu⟩

def stockVendor : MountinfoEntry :=
  mountinfoEntry 31 20 (makedev 254 2) "/".toList "/vendor".toList "ro".toList [] "ext4".toList
    "/dev/block/dm-2".toList "ro".toList

def coveredBoot : Boot :=
  { sampleBoot with
    table := fun _ => [rootEntry, stockVendor, { vendorOverlay with mountId := 32, parentId := 31 }] }

/-- Both loops have parsed the table before either unmounts. -/
def racingRun : List Label :=
  servedRun ++ [.handler 2 .die, .app 2 (.read false), .app 2 (.parse true),
    .child 2 (.umount2 true), .app 2 (.umount2 true)]

/-- Where the mount points are not separated, the second loop takes the stock `/vendor`. -/
theorem racing_loops_take_stock :
    (LabelledRun.run step coveredBoot.initial racingRun).map (fun s => s.table (s.task 2).ns) =
        some [rootEntry] ∧
      doUnmount Modules.umount2 (coveredBoot.table zygoteNs) (coveredBoot.table zygoteNs) =
        [rootEntry, stockVendor] := by
  decide

end ZygiskAssistant.Companion
