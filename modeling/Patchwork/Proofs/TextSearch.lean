import Mathlib.Data.List.TakeWhile

/-! A text is searched from its front on, up to the first character that stops the search. -/
namespace Patchwork.Text

variable {c d : Char} {cs after : List Char} {p : Char → Bool}

/-- What stops a search is found, whatever comes after it. -/
theorem stopped_append (found : cs.dropWhile p = c :: after) (rest : List Char) :
    (cs ++ rest).dropWhile p = c :: (after ++ rest) ∧ (cs ++ rest).takeWhile p = cs.takeWhile p := by
  induction cs with
  | nil => cases found
  | cons x cs ih =>
      by_cases passed : p x = true
      · rw [List.dropWhile_cons_of_pos passed] at found
        obtain ⟨left, taken⟩ := ih found
        simp [passed, left, taken]
      · rw [List.dropWhile_cons_of_neg passed] at found
        obtain ⟨rfl, rfl⟩ := List.cons.inj found
        simp [passed]

theorem mem_takeWhile_of_passed (missing : cs.dropWhile p = []) (passed : p c = true) (rest : List Char) :
    c ∈ (cs ++ c :: rest).takeWhile p := by
  rw [List.takeWhile_append_of_pos (List.dropWhile_eq_nil_iff.mp missing), List.takeWhile_cons_of_pos passed]
  exact List.mem_append_right _ (List.mem_cons_self ..)

/-- A text is cut at the first of a character. -/
theorem cut_of_stopped (found : cs.dropWhile (· ≠ d) = c :: after) :
    d ∉ cs.takeWhile (· ≠ d) ∧ cs = cs.takeWhile (· ≠ d) ++ d :: after := by
  have stops := List.head_dropWhile_not (· ≠ d) (found ▸ List.cons_ne_nil c after)
  obtain rfl : c = d := by simpa only [found, List.head_cons, decide_eq_false_iff_not, not_not] using stops
  constructor
  · intro member
    have differs := List.mem_takeWhile_imp member
    exact of_decide_eq_true differs rfl
  · rw [← found, List.takeWhile_append_dropWhile]

end Patchwork.Text
