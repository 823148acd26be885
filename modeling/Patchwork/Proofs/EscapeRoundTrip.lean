import Patchwork.Markup.Entity

/-! Escaped text is read back as what it was. In markup it stands for itself: no tag starts in it, and no
quoted value ends in it. -/
namespace Patchwork.Markup.Entity

variable {place : Place} {cs name rest : List Char} {c : Char}

theorem reference?_append (whole : ';' ∉ name) (means : meaning? name = some c) :
    reference? (name ++ ';' :: rest) = some (c, rest) := by
  have inside : ∀ x ∈ name, decide (x ≠ ';') = true := fun x member =>
    decide_eq_true fun same => whole (same ▸ member)
  rw [reference?, List.dropWhile_append_of_pos inside, List.takeWhile_append_of_pos inside]
  simp only [List.dropWhile_cons, List.takeWhile_cons, ne_eq, not_true, decide_false, Bool.false_eq_true,
    if_false, List.append_nil, means, Option.map_some]

theorem decode_reference (name : List Char) (whole : ';' ∉ name) (means : meaning? name = some c) :
    decode ('&' :: (name ++ ';' :: rest)) = c :: decode rest := by
  rw [decode, if_pos rfl]
  split
  next read =>
    rw [reference?_append whole means] at read
    obtain ⟨rfl, rfl⟩ := Prod.mk.inj (Option.some.inj read)
    rfl
  next unread =>
    rw [reference?_append whole means] at unread
    cases unread

theorem decode_cons (other : c ≠ '&') : decode (c :: rest) = c :: decode rest := by
  rw [decode, if_neg other]

theorem decode_nil : decode [] = [] := by rw [decode]

theorem decode_escapeChar (place : Place) (c : Char) (rest : List Char) :
    decode (escapeChar place c ++ rest) = c :: decode rest := by
  unfold escapeChar
  split
  next same => exact same ▸ decode_reference "amp".toList (by decide) (by decide)
  split
  next same => exact same ▸ decode_reference "lt".toList (by decide) (by decide)
  split
  next same => exact same ▸ decode_reference "gt".toList (by decide) (by decide)
  split
  next same => exact same.1 ▸ decode_reference "quot".toList (by decide) (by decide)
  next other _ _ _ => exact decode_cons other

theorem decode_escape (place : Place) (cs : List Char) : decode (escape place cs) = cs := by
  induction cs with
  | nil => exact decode_nil
  | cons c rest ih => rw [escape, List.flatMap_cons, decode_escapeChar, ← escape, ih]

/-- Escaping leaves nothing that has a meaning of its own where the text stands. -/
theorem plain_of_mem_escape (member : c ∈ escape place cs) :
    c ≠ '<' ∧ c ≠ '>' ∧ (place = .attribute → c ≠ '"') := by
  obtain ⟨x, -, member⟩ := List.mem_flatMap.mp member
  unfold escapeChar at member
  have reference : ∀ {written : String}, written.toList.all (fun c => c ≠ '<' ∧ c ≠ '>' ∧ c ≠ '"') = true →
      c ∈ written.toList → c ≠ '<' ∧ c ≠ '>' ∧ (place = .attribute → c ≠ '"') := fun plain member => by
    obtain ⟨left, right, quote⟩ := of_decide_eq_true (List.all_eq_true.mp plain c member)
    exact ⟨left, right, fun _ => quote⟩
  split at member
  next => exact reference (by decide) member
  split at member
  next => exact reference (by decide) member
  split at member
  next => exact reference (by decide) member
  split at member
  next => exact reference (by decide) member
  next left right quote =>
    cases List.mem_singleton.mp member
    exact ⟨left, right, fun inside same => quote ⟨same, inside⟩⟩

theorem escape_ne_nil (place : Place) (some : cs ≠ []) : escape place cs ≠ [] := by
  obtain ⟨c, rest, rfl⟩ := List.exists_cons_of_ne_nil some
  intro nothing
  have back := decode_escape place (c :: rest)
  rw [nothing, decode_nil] at back
  cases back

end Patchwork.Markup.Entity
