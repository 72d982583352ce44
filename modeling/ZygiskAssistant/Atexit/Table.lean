import ZygiskAssistant.Atexit.Machine
import ZygiskAssistant.Lib.LifoLog

/-!
# What the table holds

While it is not freed, the table is a list of entries, some of them cleared, and
then cells that were never written. The trace replays to the handlers that are
still in the table. Each operation on the globals has one lemma that says what
becomes of both.
-/

namespace ZygiskAssistant.Atexit

open LifoLog (replay pushes pops)

def stackEvents (trace : List Event) : List (LifoLog.Event (Nat × Calls × Nat)) :=
  trace.filterMap fun e => match e with
    | .registered i fn arg => some (.push (i, fn, arg))
    | .called i fn arg => some (.pop (i, fn, arg))
    | .access _ _ _ _ => none

/-- The trace of `n` registrations, with these handlers not called yet. -/
structure Sound (n : Nat) (pending : List (Nat × Calls × Nat)) (trace : List Event) : Prop where
  lifo : replay (stackEvents trace) = some pending
  indices : (pushes (stackEvents trace)).map Prod.fst = List.range n
  accesses : ∀ i count capacity allocated, .access i count capacity allocated ∈ trace →
    i < count ∧ count ≤ capacity ∧ allocated = capacity

theorem Sound.nodup {n : Nat} {pending : List (Nat × Calls × Nat)} {trace : List Event}
    (h : Sound n pending trace) : (pushes (stackEvents trace)).Nodup := by
  apply List.Nodup.of_map Prod.fst
  rw [h.indices]
  exact List.nodup_range

section

variable {n : Nat} {pending : List (Nat × Calls × Nat)} {trace : List Event}

theorem Sound.access (h : Sound n pending trace) {i count capacity : Nat} (hi : i < count)
    (hc : count ≤ capacity) : Sound n pending (trace ++ [.access i count capacity capacity]) := by
  have hsame : stackEvents (trace ++ [.access i count capacity capacity]) = stackEvents trace := by
    simp [stackEvents]
  refine ⟨hsame ▸ h.lifo, hsame ▸ h.indices, ?_⟩
  intro j m k a hmem
  rcases List.mem_append.mp hmem with hmem | hmem
  · exact h.accesses j m k a hmem
  · cases List.mem_singleton.mp hmem
    exact ⟨hi, hc, rfl⟩

theorem Sound.registered (h : Sound n pending trace) (fn : Calls) (arg : Nat) :
    Sound (n + 1) ((n, fn, arg) :: pending) (trace ++ [.registered n fn arg]) := by
  have hsnoc : stackEvents (trace ++ [.registered n fn arg]) =
      stackEvents trace ++ [.push (n, fn, arg)] := by simp [stackEvents]
  refine ⟨?_, ?_, ?_⟩
  · rw [hsnoc, LifoLog.replay_concat, h.lifo]
    rfl
  · rw [hsnoc, LifoLog.pushes_concat_push, List.map_append, h.indices, List.range_succ]
    rfl
  · intro j m k a hmem
    rcases List.mem_append.mp hmem with hmem | hmem
    · exact h.accesses j m k a hmem
    · cases List.mem_singleton.mp hmem

theorem Sound.called {i arg : Nat} {fn : Calls} (h : Sound n ((i, fn, arg) :: pending) trace) :
    Sound n pending (trace ++ [.called i fn arg]) := by
  have hsnoc : stackEvents (trace ++ [.called i fn arg]) =
      stackEvents trace ++ [.pop (i, fn, arg)] := by simp [stackEvents]
  refine ⟨?_, ?_, ?_⟩
  · rw [hsnoc, LifoLog.replay_concat, h.lifo]
    simp [LifoLog.act]
  · rw [hsnoc, LifoLog.pushes_concat_pop, h.indices]
  · intro j m k a hmem
    rcases List.mem_append.mp hmem with hmem | hmem
    · exact h.accesses j m k a hmem
    · cases List.mem_singleton.mp hmem

end

/-- The handlers among entries that start at index `k`, the last one first. -/
def pendingFrom (k : Nat) : List AtexitEntry → List (Nat × Calls × Nat)
  | [] => []
  | .handler fn arg :: entries => pendingFrom (k + 1) entries ++ [(k, fn, arg)]
  | _ :: entries => pendingFrom (k + 1) entries

theorem pendingFrom_append (k : Nat) (xs ys : List AtexitEntry) :
    pendingFrom k (xs ++ ys) = pendingFrom (k + xs.length) ys ++ pendingFrom k xs := by
  induction xs generalizing k with
  | nil => simp [pendingFrom]
  | cons x xs ih =>
    have hlen : k + 1 + xs.length = k + (x :: xs).length := by
      rw [List.length_cons]
      omega
    cases x with
    | handler fn arg => simp [pendingFrom, ih, hlen]
    | cleared => simp [pendingFrom, ih, hlen]
    | uninitialized => simp [pendingFrom, ih, hlen]

theorem pendingFrom_cleared {entries : List AtexitEntry} (h : ∀ e ∈ entries, e = .cleared) (k : Nat) :
    pendingFrom k entries = [] := by
  induction entries generalizing k with
  | nil => rfl
  | cons e entries ih =>
    rw [h e List.mem_cons_self]
    exact ih (fun f hf => h f (List.mem_cons_of_mem e hf)) (k + 1)

theorem pendingFrom_top {post : List AtexitEntry} (hpost : ∀ e ∈ post, e = .cleared)
    (pre : List AtexitEntry) (fn : Calls) (arg : Nat) :
    pendingFrom 0 (pre ++ .handler fn arg :: post) =
      (pre.length, fn, arg) :: pendingFrom 0 pre := by
  rw [pendingFrom_append, pendingFrom, pendingFrom_cleared hpost, Nat.zero_add]
  rfl

theorem pendingFrom_skip {post : List AtexitEntry} (hpost : ∀ e ∈ post, e = .cleared)
    (pre : List AtexitEntry) : pendingFrom 0 (pre ++ .cleared :: post) = pendingFrom 0 pre := by
  have hskip : pendingFrom (0 + pre.length) (.cleared :: post) = [] :=
    pendingFrom_cleared hpost (0 + pre.length + 1)
  rw [pendingFrom_append, hskip, List.nil_append]

/-- The cells of an array with these entries at its front. -/
def cellsOf (entries : List AtexitEntry) (capacity : Nat) : List AtexitEntry :=
  entries ++ List.replicate (capacity - entries.length) .uninitialized

theorem length_cellsOf {entries : List AtexitEntry} {capacity : Nat}
    (h : entries.length ≤ capacity) : (cellsOf entries capacity).length = capacity := by
  rw [cellsOf, List.length_append, List.length_replicate]
  omega

theorem set_cellsOf_end {entries : List AtexitEntry} {capacity : Nat}
    (h : entries.length < capacity) (e : AtexitEntry) :
    (cellsOf entries capacity).set entries.length e = cellsOf (entries ++ [e]) capacity := by
  obtain ⟨room, hroom⟩ : ∃ room, capacity - entries.length = room + 1 :=
    ⟨capacity - entries.length - 1, by omega⟩
  have hrest : capacity - (entries ++ [e]).length = room := by
    rw [List.length_append, List.length_singleton]
    omega
  rw [cellsOf, cellsOf, hroom, hrest, List.set_append_right _ _ (Nat.le_refl _), Nat.sub_self,
    List.replicate_succ, List.set_cons_zero, List.append_assoc]
  rfl

theorem set_cellsOf (pre post : List AtexitEntry) (d e : AtexitEntry) (capacity : Nat) :
    (cellsOf (pre ++ d :: post) capacity).set pre.length e = cellsOf (pre ++ e :: post) capacity := by
  have hlen : (pre ++ d :: post).length = (pre ++ e :: post).length := by simp
  rw [cellsOf, cellsOf, hlen, List.append_assoc, List.set_append_right _ _ (Nat.le_refl _),
    Nat.sub_self, List.append_assoc]
  rfl

/-- The globals while `g_array` holds these entries. -/
structure Table (entries : List AtexitEntry) (g : Globals) : Prop where
  count : g.count = entries.length
  capacity_pos : 0 < g.capacity
  written : ∀ e ∈ entries, e ≠ .uninitialized
  block : (g.gArray = .null ∧ entries = []) ∨
    (entries.length ≤ g.capacity ∧ g.gArray = .allocated (cellsOf entries g.capacity))
  sound : Sound g.count (pendingFrom 0 entries) g.trace

/-- The globals after `free`, with every handler called. -/
structure Released (g : Globals) : Prop where
  freed : g.gArray = .freed
  count_pos : 0 < g.count
  sound : Sound g.count [] g.trace

theorem table_initial : Table [] Globals.initial where
  count := rfl
  capacity_pos := by decide
  written := by simp
  block := Or.inl ⟨rfl, rfl⟩
  sound := ⟨rfl, rfl, by simp [Globals.initial]⟩

section

variable {entries : List AtexitEntry} {g : Globals}

/-- After its allocations `cxaAtexit` has room for one more entry. -/
theorem Table.makeRoom (h : Table entries g) : ∃ capacity, entries.length < capacity ∧
    ({ g with count := g.count + 1 } : Globals).makeRoom =
      some ⟨.allocated (cellsOf entries capacity), capacity, g.count + 1, g.trace⟩ := by
  have hpos := h.capacity_pos
  have hcount := h.count
  rcases h.block with ⟨hnull, rfl⟩ | ⟨hle, hblock⟩
  · refine ⟨g.capacity, hpos, ?_⟩
    have hroom : ¬ 1 > g.capacity := by omega
    rw [List.length_nil] at hcount
    simp [Globals.makeRoom, hnull, Globals.malloc, hcount, hroom, cellsOf]
  · by_cases hfull : entries.length < g.capacity
    · refine ⟨g.capacity, hfull, ?_⟩
      have hroom : ¬ entries.length + 1 > g.capacity := by omega
      simp [Globals.makeRoom, hblock, hcount, hroom]
    · refine ⟨g.capacity * 2, by omega, ?_⟩
      have hcap : g.capacity = entries.length := by omega
      have htake : entries.take (entries.length * 2) = entries :=
        List.take_of_length_le (by omega)
      simp [Globals.makeRoom, hblock, hcount, hcap, htake, Globals.realloc, cellsOf]

theorem Table.atexit (h : Table entries g) (fn : Calls) (arg : Nat) :
    ∃ g', cxaAtexit (some fn) arg g = some (0, g') ∧ Table (entries ++ [.handler fn arg]) g' := by
  obtain ⟨capacity, hlt, hgrow⟩ := h.makeRoom
  have hcount := h.count
  have hsound : Sound (g.count + 1) (pendingFrom 0 (entries ++ [.handler fn arg]))
      (g.trace ++ [.access entries.length (g.count + 1) capacity capacity] ++
        [.registered g.count fn arg]) := by
    have hpending : pendingFrom 0 (entries ++ [.handler fn arg]) =
        (g.count, fn, arg) :: pendingFrom 0 entries := by
      rw [pendingFrom_append, Nat.zero_add, hcount]
      rfl
    rw [hpending]
    exact (h.sound.access (by omega) (by omega)).registered fn arg
  refine ⟨⟨.allocated (cellsOf (entries ++ [.handler fn arg]) capacity), capacity, g.count + 1, _⟩,
    ?_, ?_, Nat.zero_lt_of_lt hlt, ?_, Or.inr ⟨?_, rfl⟩, hsound⟩
  · simp only [cxaAtexit, hgrow, Option.bind_eq_bind, Option.bind_some]
    simp only [Globals.write, Nat.add_sub_cancel, length_cellsOf (Nat.le_of_lt hlt), hcount, hlt,
      if_true, set_cellsOf_end hlt, Globals.log, Option.bind_some, Option.pure_def]
  · rw [List.length_append, ← hcount]
    rfl
  · intro e he
    rcases List.mem_append.mp he with he | he
    · exact h.written e he
    · rw [List.mem_singleton.mp he]
      simp
  · rw [List.length_append]
    exact hlt

theorem Table.allocated (h : Table entries g) (hne : entries ≠ []) :
    entries.length ≤ g.capacity ∧ g.gArray = .allocated (cellsOf entries g.capacity) := by
  rcases h.block with ⟨_, hnil⟩ | hblock
  · exact absurd hnil hne
  · exact hblock

theorem Table.read {pre post : List AtexitEntry} {e : AtexitEntry} (h : Table (pre ++ e :: post) g) :
    ∃ g', g.read pre.length = some (e, g') ∧ Table (pre ++ e :: post) g' := by
  obtain ⟨hle, hblock⟩ := h.allocated (by simp)
  have hcount := h.count
  have hlen : pre.length < (pre ++ e :: post).length := by simp
  refine ⟨g.log (.access pre.length g.count g.capacity g.capacity), ?_, ?_⟩
  · simp only [Globals.read, hblock, length_cellsOf hle]
    simp [cellsOf]
  · exact ⟨h.count, h.capacity_pos, h.written, h.block, h.sound.access (by omega) (by omega)⟩

theorem Table.call {pre post : List AtexitEntry} {fn : Calls} {arg : Nat}
    (h : Table (pre ++ .handler fn arg :: post) g) (hpost : ∀ e ∈ post, e = .cleared) :
    ∃ g', g.write pre.length .cleared = some g' ∧
      Table (pre ++ .cleared :: post) (g'.log (.called pre.length fn arg)) := by
  obtain ⟨hle, hblock⟩ := h.allocated (by simp)
  have hcount := h.count
  have hlen : pre.length < (pre ++ .handler fn arg :: post).length := by simp
  have hsame : (pre ++ .cleared :: post).length = (pre ++ .handler fn arg :: post).length := by simp
  have hsound := h.sound
  rw [pendingFrom_top hpost] at hsound
  refine ⟨({ g with gArray := .allocated (cellsOf (pre ++ .cleared :: post) g.capacity) } :
    Globals).log (.access pre.length g.count g.capacity g.capacity), ?_, ?_⟩
  · rw [Globals.write, hblock]
    simp only [length_cellsOf hle, set_cellsOf]
    rw [if_pos (by omega)]
  · refine ⟨hcount.trans hsame.symm, h.capacity_pos, ?_, Or.inr ⟨hsame ▸ hle, rfl⟩, ?_⟩
    · intro e he
      rcases List.mem_append.mp he with he | he
      · exact h.written e (List.mem_append_left _ he)
      · rcases List.mem_cons.mp he with rfl | he
        · simp
        · exact h.written e (List.mem_append_right pre (List.mem_cons_of_mem _ he))
    · rw [pendingFrom_skip hpost]
      exact (hsound.access (by omega) (by omega)).called

theorem Table.free (h : Table entries g) (hne : entries ≠ []) (hcleared : ∀ e ∈ entries, e = .cleared) :
    ∃ g', g.free = some g' ∧ Released g' ∧ g'.count = entries.length := by
  obtain ⟨_, hblock⟩ := h.allocated hne
  have hsound := h.sound
  rw [pendingFrom_cleared hcleared] at hsound
  have hpos : 0 < g.count := h.count ▸ List.length_pos_of_ne_nil hne
  refine ⟨{ g with gArray := .freed }, ?_, ⟨rfl, hpos, hsound⟩, h.count⟩
  rw [Globals.free, hblock]

end

end ZygiskAssistant.Atexit
