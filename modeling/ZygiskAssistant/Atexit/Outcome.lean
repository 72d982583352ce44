import Mathlib.Algebra.Ring.Nat
import ZygiskAssistant.Atexit.Table
import ZygiskAssistant.Lib.DetRun

/-!
# How a finalization ends

A handler that makes no `__cxa_finalize` call only appends to the table. So a
finalization either calls everything and frees the table, or meets a handler
that finalizes again; the inner finalization then ends in one of these two
ways, and if it frees the table, the outer one goes on to read it.
-/

namespace ZygiskAssistant.Atexit

open DetRun

namespace Calls

/-- No call to `__cxa_finalize`, in this code or in a handler it registers, at any depth. -/
def finalizeFree : Calls → Bool
  | done => true
  | atexit func _ rest => func.finalizeFree && rest.finalizeFree
  | atexitNull _ rest => rest.finalizeFree
  | finalize _ => false

/-- No call that touches the table. -/
def inert : Calls → Bool
  | done => true
  | atexit _ _ _ => false
  | atexitNull _ rest => rest.inert
  | finalize _ => false

/-- All registrations, at every depth. -/
def size : Calls → Nat
  | done => 0
  | atexit func _ rest => func.size + 1 + rest.size
  | atexitNull _ rest => rest.size
  | finalize rest => rest.size

/-- What is registered before the first call to `__cxa_finalize`. -/
def entries : Calls → List AtexitEntry
  | done => []
  | atexit func arg rest => .handler func arg :: rest.entries
  | atexitNull _ rest => rest.entries
  | finalize _ => []

/-- What follows the first call to `__cxa_finalize`. -/
def after : Calls → Option Calls
  | done => none
  | atexit _ _ rest => rest.after
  | atexitNull _ rest => rest.after
  | finalize rest => some rest

end Calls

namespace AtexitEntry

def clean : AtexitEntry → Bool
  | handler fn _ => fn.finalizeFree
  | _ => true

/-- The registrations that the handler of an entry will make. -/
def later : AtexitEntry → Nat
  | handler fn _ => fn.size
  | _ => 0

def weight : AtexitEntry → Nat
  | handler fn _ => fn.size + 1
  | _ => 0

end AtexitEntry

def later (entries : List AtexitEntry) : Nat := (entries.map AtexitEntry.later).sum

def weight (entries : List AtexitEntry) : Nat := (entries.map AtexitEntry.weight).sum

@[simp]
theorem later_nil : later [] = 0 := rfl

@[simp]
theorem weight_nil : weight [] = 0 := rfl

@[simp]
theorem later_append (xs ys : List AtexitEntry) : later (xs ++ ys) = later xs + later ys := by
  simp [later]

@[simp]
theorem later_cons (e : AtexitEntry) (es : List AtexitEntry) : later (e :: es) = e.later + later es := by
  simp [later]

@[simp]
theorem weight_append (xs ys : List AtexitEntry) : weight (xs ++ ys) = weight xs + weight ys := by
  simp [weight]

@[simp]
theorem weight_cons (e : AtexitEntry) (es : List AtexitEntry) :
    weight (e :: es) = e.weight + weight es := by
  simp [weight]

theorem later_cleared {es : List AtexitEntry} (h : ∀ e ∈ es, e = .cleared) : later es = 0 := by
  induction es with
  | nil => rfl
  | cons e es ih =>
    rw [later_cons, h e List.mem_cons_self, ih fun f hf => h f (List.mem_cons_of_mem e hf)]
    rfl

theorem weight_cleared {es : List AtexitEntry} (h : ∀ e ∈ es, e = .cleared) : weight es = 0 := by
  induction es with
  | nil => rfl
  | cons e es ih =>
    rw [weight_cons, h e List.mem_cons_self, ih fun f hf => h f (List.mem_cons_of_mem e hf)]
    rfl

theorem clean_cleared {es : List AtexitEntry} (h : ∀ e ∈ es, e = .cleared) :
    es.all AtexitEntry.clean = true := by
  rw [List.all_eq_true]
  intro e he
  rw [h e he]
  rfl

theorem Calls.weight_entries (c : Calls) : weight c.entries ≤ c.size := by
  induction c with
  | done => exact Nat.le_refl 0
  | atexit func arg rest _ ih =>
    rw [Calls.entries, weight_cons, Calls.size]
    exact Nat.add_le_add_left ih _
  | atexitNull arg rest ih => exact ih
  | finalize rest _ => exact Nat.zero_le _

theorem Calls.size_eq {c : Calls} (h : c.after = none) :
    c.entries.length + later c.entries = c.size := by
  induction c with
  | done => rfl
  | atexit func arg rest _ ih =>
    rw [Calls.entries, later_cons, List.length_cons, Calls.size, ← ih h]
    simp only [AtexitEntry.later]
    omega
  | atexitNull arg rest ih => exact ih h
  | finalize rest _ => cases h

theorem Calls.finalizeFree_eq (c : Calls) :
    c.finalizeFree = (c.after.isNone && c.entries.all AtexitEntry.clean) := by
  induction c with
  | done => rfl
  | atexit func arg rest _ ih =>
    rw [Calls.finalizeFree, ih, Calls.after, Calls.entries, List.all_cons, ← Bool.and_assoc,
      ← Bool.and_assoc, Bool.and_comm func.finalizeFree]
    rfl
  | atexitNull arg rest ih => exact ih
  | finalize rest _ => rfl

theorem calls_reaches (c : Calls) {entries : List AtexitEntry} {g : Globals} (h : Table entries g)
    (stack : List Frame) : ∃ g', Table (entries ++ c.entries) g' ∧
      Reaches step (.calls c :: stack, g) (match c.after with
        | none => (stack, g')
        | some rest => (.restart :: .calls rest :: stack, g')) := by
  induction c generalizing entries g with
  | done => exact ⟨g, by simpa [Calls.entries] using h, .head rfl (.refl _)⟩
  | atexit func arg rest _ ih =>
    obtain ⟨g₁, hg₁, h₁⟩ := h.atexit func arg
    obtain ⟨g', h', hreach⟩ := ih h₁
    refine ⟨g', by simpa [Calls.entries] using h', .head ?_ hreach⟩
    rw [step, hg₁]
    rfl
  | atexitNull arg rest ih =>
    obtain ⟨g', h', hreach⟩ := ih h
    exact ⟨g', h', .head rfl hreach⟩
  | finalize rest _ => exact ⟨g, by simpa [Calls.entries] using h, .head rfl (.refl _)⟩

theorem step_atexit_freed {g : Globals} (h : g.gArray = .freed) (func : Calls) (arg : Nat)
    (rest : Calls) (stack : List Frame) : step (.calls (.atexit func arg rest) :: stack, g) = none := by
  have hnone : cxaAtexit (some func) arg g = none := by
    simp only [cxaAtexit, Globals.makeRoom, h, reduceCtorEq, if_false, Globals.realloc]
    split
    · rfl
    · simp [Globals.write]
  rw [step, hnone]
  rfl

theorem scan_freed {g : Globals} (h : g.gArray = .freed) (total i : Nat) (stack : List Frame) :
    Faults step Finished (.scan total i :: stack, g) := by
  refine .of_stop ?_ (by simp [Finished])
  rw [step, Globals.read, h]
  rfl

theorem restart_freed {g : Globals} (h : g.gArray = .freed) (hpos : 0 < g.count)
    (stack : List Frame) : Faults step Finished (.restart :: stack, g) :=
  .of_reaches (.head (if_pos hpos) (.refl _)) (scan_freed h _ _ _)

theorem await_freed {g : Globals} (h : g.gArray = .freed) (hpos : 0 < g.count) (total i : Nat)
    (stack : List Frame) : Faults step Finished (.await total i :: stack, g) := by
  by_cases hcount : g.count ≠ total
  · exact .of_reaches (.head (if_pos hcount) (.refl _)) (restart_freed h hpos stack)
  · by_cases hi : i = 0
    · refine .of_stop ?_ (by simp [Finished])
      rw [step, if_neg hcount, continueLoop, if_pos hi, Globals.free, h]
      rfl
    · refine .of_reaches (.head ?_ (.refl _)) (scan_freed h total (i - 1) stack)
      rw [step, if_neg hcount, continueLoop, if_neg hi]

theorem calls_freed (c : Calls) {g : Globals} (h : g.gArray = .freed) (hpos : 0 < g.count)
    (stack : List Frame) :
    (c.inert = true → Reaches step (.calls c :: stack, g) (stack, g)) ∧
      (c.inert = false → Faults step Finished (.calls c :: stack, g)) := by
  induction c with
  | done => exact ⟨fun _ => .head rfl (.refl _), fun hi => absurd hi (by simp [Calls.inert])⟩
  | atexit func arg rest _ _ =>
    refine ⟨fun hi => absurd hi (by simp [Calls.inert]), fun _ => ?_⟩
    exact .of_stop (step_atexit_freed h func arg rest stack) (by simp [Finished])
  | atexitNull arg rest ih =>
    exact ⟨fun hi => .head rfl (ih.1 hi), fun hi => .of_reaches (.head rfl (.refl _)) (ih.2 hi)⟩
  | finalize rest _ =>
    exact ⟨fun hi => absurd hi (by simp [Calls.inert]),
      fun _ => .of_reaches (.head rfl (.refl _)) (restart_freed h hpos _)⟩

/-- A handler that has finalized cannot return to the loop that called it. -/
theorem handler_freed (c : Calls) {g : Globals} (h : g.gArray = .freed) (hpos : 0 < g.count)
    (total i : Nat) (stack : List Frame) :
    Faults step Finished (.calls c :: .await total i :: stack, g) := by
  obtain ⟨hinert, htouch⟩ := calls_freed c h hpos (.await total i :: stack)
  cases hc : c.inert with
  | true => exact .of_reaches (hinert hc) (await_freed h hpos total i stack)
  | false => exact htouch hc

theorem scan_cleared {pre post : List AtexitEntry} {g : Globals}
    (h : Table (pre ++ .cleared :: post) g) (total : Nat) (stack : List Frame) :
    ∃ g', Table (pre ++ .cleared :: post) g' ∧
      step (.scan total pre.length :: stack, g) = continueLoop total pre.length stack g' := by
  obtain ⟨g', hread, h'⟩ := h.read
  refine ⟨g', h', ?_⟩
  rw [step, hread]
  rfl

theorem scan_handler {pre post : List AtexitEntry} {fn : Calls} {arg : Nat} {g : Globals}
    (h : Table (pre ++ .handler fn arg :: post) g) (hpost : ∀ e ∈ post, e = .cleared) (total : Nat)
    (stack : List Frame) : ∃ g', Table (pre ++ .cleared :: post) g' ∧
      step (.scan total pre.length :: stack, g) =
        some (.calls fn :: .await total pre.length :: stack, g') := by
  obtain ⟨g₁, hread, h₁⟩ := h.read
  obtain ⟨g₂, hwrite, h₂⟩ := h₁.call hpost
  refine ⟨_, h₂, ?_⟩
  rw [step, hread]
  simp only [Option.bind_eq_bind, Option.bind_some, hwrite, Option.pure_def]

theorem restart_table {entries : List AtexitEntry} {g : Globals} (h : Table entries g)
    (hne : entries ≠ []) (stack : List Frame) : step (.restart :: stack, g) =
      some (.scan entries.length (entries.length - 1) :: stack, g) := by
  have hpos : 0 < entries.length := List.length_pos_of_ne_nil hne
  rw [step, h.count, if_pos hpos]

/-- How a finalization ends: with the table freed after `n` registrations in all, or with a
fault. -/
def Outcome (ok : Bool) (n : Nat) (stack : List Frame) (s : Config) : Prop :=
  (ok = true → ∃ g, Released g ∧ g.count = n ∧ Reaches step s (stack, g)) ∧
    (ok = false → Faults step Finished s)

theorem Outcome.of_reaches {ok : Bool} {n : Nat} {stack : List Frame} {s t : Config}
    (h : Reaches step s t) (ht : Outcome ok n stack t) : Outcome ok n stack s := by
  refine ⟨fun hok => ?_, fun hok => .of_reaches h (ht.2 hok)⟩
  obtain ⟨g, hg, hn, hreach⟩ := ht.1 hok
  exact ⟨g, hg, hn, h.trans hreach⟩

theorem Outcome.of_released {n : Nat} {stack : List Frame} {g : Globals} (h : Released g)
    (hn : g.count = n) : Outcome true n stack (stack, g) :=
  ⟨fun _ => ⟨g, h, hn, .refl _⟩, fun hok => absurd hok (by simp)⟩

theorem continueLoop_released {post : List AtexitEntry} {g : Globals}
    (h : Table (.cleared :: post) g) (hpost : ∀ e ∈ post, e = .cleared) (total : Nat)
    (stack : List Frame) : ∃ g', continueLoop total 0 stack g = some (stack, g') ∧ Released g' ∧
      g'.count = post.length + 1 := by
  obtain ⟨g', hfree, hg', hcount⟩ := h.free (by simp) (by simpa using hpost)
  refine ⟨g', ?_, hg', hcount⟩
  rw [continueLoop, if_pos rfl, hfree]
  rfl

theorem continue_outcome {pre post : List AtexitEntry} {g : Globals} {stack : List Frame}
    {total : Nat} (h : Table (pre ++ .cleared :: post) g) (hpost : ∀ e ∈ post, e = .cleared)
    (htotal : total = (pre ++ .cleared :: post).length)
    (hloop : pre ≠ [] → Outcome (pre.all AtexitEntry.clean) (total + later pre) stack
      (.scan total (pre.length - 1) :: stack, g)) {s : Config}
    (hs : step s = continueLoop total pre.length stack g) :
    Outcome (pre.all AtexitEntry.clean) (total + later pre) stack s := by
  by_cases hne : pre = []
  · subst hne
    obtain ⟨g', hstep, hg', hcount⟩ := continueLoop_released h hpost total stack
    refine .of_reaches (.head (hs.trans hstep) (.refl _)) (.of_released hg' ?_)
    rw [hcount, htotal]
    rfl
  · have hpos : pre.length ≠ 0 := by simpa using hne
    refine .of_reaches (.head (hs.trans ?_) (.refl _)) (hloop hne)
    rw [continueLoop, if_neg hpos]

theorem Outcome.restart {entries : List AtexitEntry} {g : Globals} {stack : List Frame}
    (h : Table entries g) (hne : entries ≠ [])
    (hscan : Outcome (entries.all AtexitEntry.clean) ((entries ++ []).length + later entries) stack
      (.scan (entries ++ []).length (entries.length - 1) :: stack, g)) :
    Outcome (entries.all AtexitEntry.clean) (entries.length + later entries) stack
      (.restart :: stack, g) := by
  rw [List.append_nil] at hscan
  exact .of_reaches (.head (restart_table h hne stack) (.refl _)) hscan

/-- A finalization inside a handler is the end of the outer one. -/
theorem Outcome.faults_in_handler {clean : Bool} {n : Nat} {s : Config} {rest : Calls}
    {total i : Nat} {stack : List Frame}
    (h : Outcome clean n (.calls rest :: .await total i :: stack) s) : Faults step Finished s := by
  obtain ⟨hfree, hfault⟩ := h
  cases clean with
  | true =>
    obtain ⟨g, hg, _, hreach⟩ := hfree rfl
    exact .of_reaches hreach (handler_freed rest hg.freed hg.count_pos total i stack)
  | false => exact hfault rfl

/-- A handler that was called and the loop that waits for it. `htop` is about loops that
start again with less than `n` to call, and `hbelow` about the entries below the handler. -/
theorem called_outcome {n : Nat} {pre post : List AtexitEntry} {fn : Calls} {g : Globals}
    {stack : List Frame} {total : Nat}
    (htop : ∀ (entries : List AtexitEntry) (g : Globals) (stack : List Frame),
      weight entries < n → entries ≠ [] → Table entries g →
      Outcome (entries.all AtexitEntry.clean) (entries.length + later entries) stack
        (.restart :: stack, g))
    (hbelow : pre ≠ [] → ∀ g, Table (pre ++ .cleared :: post) g →
      Outcome (pre.all AtexitEntry.clean) (total + later pre) stack
        (.scan total (pre.length - 1) :: stack, g))
    (hn : weight pre + fn.size < n) (hpost : ∀ e ∈ post, e = .cleared)
    (htotal : total = (pre ++ .cleared :: post).length) (h : Table (pre ++ .cleared :: post) g) :
    Outcome (pre.all AtexitEntry.clean && fn.finalizeFree) (total + (later pre + fn.size)) stack
      (.calls fn :: .await total pre.length :: stack, g) := by
  obtain ⟨g', h', hcalls⟩ := calls_reaches fn h (.await total pre.length :: stack)
  have hsmall := fn.weight_entries
  have hlt : weight (pre ++ .cleared :: post ++ fn.entries) < n := by
    simp only [weight_append, weight_cons, AtexitEntry.weight, weight_cleared hpost]
    omega
  have hne : pre ++ .cleared :: post ++ fn.entries ≠ [] := by simp
  refine .of_reaches hcalls ?_
  cases hafter : fn.after with
  | some rest =>
    -- the handler finalizes, and the outer loop cannot survive that
    have hff : fn.finalizeFree = false := by simp [fn.finalizeFree_eq, hafter]
    rw [hff, Bool.and_false]
    have hinner := htop _ _ (.calls rest :: .await total pre.length :: stack) hlt hne h'
    exact ⟨fun hok => absurd hok (by simp), fun _ => hinner.faults_in_handler⟩
  | none =>
    have hff : fn.finalizeFree = fn.entries.all AtexitEntry.clean := by
      simp [fn.finalizeFree_eq, hafter]
    have hsize := Calls.size_eq hafter
    by_cases hnew : fn.entries = []
    · rw [hnew, List.append_nil] at h'
      have hstep : step (.await total pre.length :: stack, g') =
          continueLoop total pre.length stack g' := by
        rw [step, if_neg (by rw [h'.count, htotal]; simp)]
      rw [hnew] at hff hsize
      rw [hff, ← hsize]
      simpa using continue_outcome h' hpost htotal (fun hne => hbelow hne g' h') hstep
    · have hcount : g'.count ≠ total := by
        have hpos := List.length_pos_of_ne_nil hnew
        rw [h'.count, htotal, List.length_append]
        omega
      have hloop := htop _ _ stack hlt hne h'
      have hclean : (pre ++ .cleared :: post ++ fn.entries).all AtexitEntry.clean =
          (pre.all AtexitEntry.clean && fn.finalizeFree) := by
        simp [hff, clean_cleared hpost, AtexitEntry.clean]
      have hlen : (pre ++ .cleared :: post ++ fn.entries).length +
          later (pre ++ .cleared :: post ++ fn.entries) = total + (later pre + fn.size) := by
        simp only [later_append, later_cons, later_cleared hpost, AtexitEntry.later, htotal, ← hsize,
          List.length_append]
        omega
      rw [hclean, hlen] at hloop
      exact .of_reaches (.head (if_pos hcount) (.refl _)) hloop

/-- The loop over a table whose last entries are cleared. The induction is on the handlers
that are pending, with all they may register, and then on the index. -/
theorem scan_outcome (n : Nat) {pre post : List AtexitEntry} {g : Globals} {stack : List Frame}
    (hn : weight pre = n) (hne : pre ≠ []) (hpost : ∀ e ∈ post, e = .cleared)
    (h : Table (pre ++ post) g) :
    Outcome (pre.all AtexitEntry.clean) ((pre ++ post).length + later pre) stack
      (.scan (pre ++ post).length (pre.length - 1) :: stack, g) := by
  induction n using Nat.strongRecOn generalizing pre post g stack with
  | ind n ih =>
  have htop : ∀ (entries : List AtexitEntry) (g : Globals) (stack : List Frame),
      weight entries < n → entries ≠ [] → Table entries g →
      Outcome (entries.all AtexitEntry.clean) (entries.length + later entries) stack
        (.restart :: stack, g) := by
    intro entries g stack hlt hne h
    exact .restart h hne (ih _ hlt rfl hne (by simp) (by simpa using h))
  induction pre using List.reverseRecOn generalizing post g with
  | nil => exact absurd rfl hne
  | append_singleton pre e ihe =>
    have hindex : (pre ++ [e]).length - 1 = pre.length := by simp
    rw [hindex]
    rw [List.append_assoc, List.singleton_append] at h ⊢
    have hcleared : ∀ f ∈ .cleared :: post, f = AtexitEntry.cleared := by simpa using hpost
    have htotal : (pre ++ e :: post).length = (pre ++ .cleared :: post).length := by simp
    cases e with
    | uninitialized => exact absurd rfl (h.written .uninitialized (by simp))
    | cleared =>
      obtain ⟨g', h', hstep⟩ := scan_cleared h (pre ++ .cleared :: post).length stack
      have hrest := continue_outcome h' hpost rfl
        (fun hne => ihe (by simpa [AtexitEntry.weight] using hn) hne hcleared h') hstep
      simpa [AtexitEntry.clean, AtexitEntry.later] using hrest
    | handler fn arg =>
      have hweight : weight pre + (fn.size + 1) = n := by simpa [AtexitEntry.weight] using hn
      obtain ⟨g', h', hstep⟩ := scan_handler h hpost (pre ++ .handler fn arg :: post).length stack
      have hbelow : pre ≠ [] → ∀ g, Table (pre ++ .cleared :: post) g →
          Outcome (pre.all AtexitEntry.clean) ((pre ++ .handler fn arg :: post).length + later pre)
            stack (.scan (pre ++ .handler fn arg :: post).length (pre.length - 1) :: stack, g) := by
        intro hne g hg
        rw [htotal]
        exact ih _ (by omega) rfl hne hcleared hg
      have hless : weight pre + fn.size < n := by omega
      have hcalled := called_outcome htop hbelow hless hpost htotal h'
      simpa [AtexitEntry.clean, AtexitEntry.later] using
        Outcome.of_reaches (.head hstep (.refl _)) hcalled

end ZygiskAssistant.Atexit
