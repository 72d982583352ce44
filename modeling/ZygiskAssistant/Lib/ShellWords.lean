import Mathlib.Data.List.DropRight

/-!
# Command substitution and word splitting

What a shell makes of the output of a command, with the default field
separators. No file name is matched by a word, so that pathname expansion
leaves the words as they are.
-/

namespace ShellWords

def isIfs (c : Char) : Bool := c == ' ' || c == '\t' || c == '\n'

/-- `$(...)`: the output without its last newlines. -/
def substituted (output : List Char) : List Char := output.rdropWhile (· == '\n')

/-- The fields of an unquoted expansion. -/
def fields (s : List Char) : List (List Char) := (s.splitOnP isIfs).filter fun w => !w.isEmpty

def Plain (w : List Char) : Prop := ∀ c ∈ w, isIfs c = false

instance (w : List Char) : Decidable (Plain w) :=
  List.decidableBAll (fun c => isIfs c = false) w

theorem fields_append_cons (a b : List Char) {c : Char} (h : isIfs c = true) :
    fields (a ++ c :: b) = fields a ++ fields b := by
  rw [fields, List.splitOnP_append_cons a b h, List.filter_append]
  rfl

theorem fields_nil : fields [] = [] := rfl

theorem fields_plain {w : List Char} (hne : w ≠ []) (h : Plain w) : fields w = [w] := by
  rw [fields, List.splitOnP_eq_singleton h]
  simp [hne]

theorem substituted_plain {s : List Char} (h : '\n' ∉ s) : substituted (s ++ ['\n']) = s := by
  rw [substituted, List.rdropWhile_concat_pos _ _ _ rfl, List.rdropWhile_eq_self_iff]
  intro hne hlast
  exact h (beq_iff_eq.mp hlast ▸ List.getLast_mem hne)

theorem fields_concat {c : Char} (h : isIfs c = true) (s : List Char) :
    fields (s ++ [c]) = fields s := by
  rw [fields_append_cons s [] h, fields_nil, List.append_nil]

theorem fields_substituted (s : List Char) : fields (substituted s) = fields s := by
  induction s using List.reverseRecOn with
  | nil => rfl
  | append_singleton s c ih =>
    by_cases hc : c = '\n'
    · subst hc
      rw [substituted, List.rdropWhile_concat_pos _ _ _ rfl, fields_concat rfl]
      exact ih
    · rw [substituted, List.rdropWhile_concat_neg _ _ _ (by simpa using hc)]

theorem fields_lines (lines : List (List Char)) :
    fields (lines.flatMap fun line => line ++ ['\n']) = lines.flatMap fields := by
  induction lines with
  | nil => rfl
  | cons line lines ih =>
    rw [List.flatMap_cons, List.append_assoc, List.singleton_append,
      fields_append_cons line _ rfl, ih, List.flatMap_cons]

theorem plain_of_mem_splitOnP {s w : List Char} (h : w ∈ s.splitOnP isIfs) : Plain w := by
  induction s generalizing w with
  | nil =>
    obtain rfl := List.mem_singleton.mp h
    exact fun c hc => absurd hc List.not_mem_nil
  | cons c s ih =>
    rw [List.splitOnP_cons_eq_if_modifyHead] at h
    split at h
    · obtain rfl | hw := List.mem_cons.mp h
      · exact fun d hd => absurd hd List.not_mem_nil
      · exact ih hw
    · rename_i hc
      cases hs : s.splitOnP isIfs with
      | nil => exact absurd hs (List.splitOnP_ne_nil isIfs s)
      | cons head rest =>
        rw [hs] at h ih
        obtain rfl | hw := List.mem_cons.mp h
        · intro d hd
          obtain rfl | hd := List.mem_cons.mp hd
          · simpa using hc
          · exact ih List.mem_cons_self d hd
        · exact ih (List.mem_cons_of_mem head hw)

theorem plain_of_mem_fields {s w : List Char} (h : w ∈ fields s) : w ≠ [] ∧ Plain w := by
  obtain ⟨hw, hne⟩ := List.mem_filter.mp h
  exact ⟨by simpa using hne, plain_of_mem_splitOnP hw⟩

end ShellWords
