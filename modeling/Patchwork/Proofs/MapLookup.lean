import Mathlib.Data.List.Induction
import Patchwork.Dict

/-! Look-ups in a map after it was changed. A map is determined by its look-ups. -/
namespace Patchwork.Dict

variable {κ ν : Type} [Ord κ]

abbrev Increasing (entries : List (κ × ν)) : Prop := entries.Pairwise fun a b => compare a.1 b.1 = .lt

variable [Std.TransOrd κ] [Std.LawfulEqOrd κ]

omit [Std.TransOrd κ] in
theorem value_unique {entries : List (κ × ν)} (increasing : Increasing entries)
    (one : (k, v) ∈ entries) (two : (k, w) ∈ entries) : v = w := by
  induction entries with
  | nil => cases one
  | cons e rest ih =>
      obtain ⟨later, below⟩ := List.pairwise_cons.mp increasing
      have not_later : ∀ {u}, e = (k, u) → ∀ {u'}, (k, u') ∉ rest := by
        rintro u rfl u' member
        have := later _ member
        simp only [Std.ReflCmp.compare_self, reduceCtorEq] at this
      rcases List.mem_cons.mp one with first | one <;> rcases List.mem_cons.mp two with second | two
      · exact (Prod.mk.inj (first.trans second.symm)).2
      · exact (not_later first.symm two).elim
      · exact (not_later second.symm one).elim
      · exact ih below one two

omit [Std.TransOrd κ] in
theorem get?_eq_some {d : Dict κ ν} : d.get? k = some v ↔ (k, v) ∈ d.entries := by
  simp only [get?, Option.map_eq_some_iff]
  have found_same : ∀ {e}, (d.entries.find? fun e => compare k e.1 == .eq) = some e → e.1 = k := by
    intro e found
    have same := List.find?_some found
    simp only [beq_iff_eq, Std.LawfulEqCmp.compare_eq_iff_eq] at same
    exact same.symm
  constructor
  · rintro ⟨⟨key, value⟩, found, rfl⟩
    exact found_same found ▸ List.mem_of_find?_eq_some found
  · intro member
    cases found : d.entries.find? fun e => compare k e.1 == .eq with
    | none =>
        have absent := List.find?_eq_none.mp found (k, v) member
        simp only [Std.ReflCmp.compare_self, beq_self_eq_true, not_true_eq_false] at absent
    | some e =>
        obtain ⟨key, value⟩ := e
        have same : key = k := found_same found
        subst same
        exact ⟨_, rfl, value_unique d.increasing (List.mem_of_find?_eq_some found) member⟩

theorem mem_insertEntry_iff {k : κ} {v : ν} {entries : List (κ × ν)}
    (increasing : Increasing entries) :
    (l, w) ∈ insertEntry k v entries ↔ (l = k ∧ w = v) ∨ (l ≠ k ∧ (l, w) ∈ entries) := by
  induction entries with
  | nil => simp only [insertEntry, List.mem_singleton, Prod.mk.injEq, List.not_mem_nil, and_false, or_false]
  | cons e rest ih =>
      obtain ⟨key, value⟩ := e
      obtain ⟨later, below⟩ := List.pairwise_cons.mp increasing
      -- Entries are in order, so the key is not further on once it has been reached or passed.
      have absent : compare k key ≠ .gt → ∀ {u}, (k, u) ∉ rest := by
        intro low u member
        have between := later _ member
        exact low (Std.OrientedCmp.gt_of_lt between)
      simp only [insertEntry]
      split
      next smaller =>
        have differs : k ≠ key := by
          rintro rfl
          simp only [Std.ReflCmp.compare_self, reduceCtorEq] at smaller
        have fresh : ∀ {u}, (k, u) ∉ (key, value) :: rest := by
          intro u member
          rcases List.mem_cons.mp member with same | member
          · exact differs (Prod.mk.inj same).1
          · exact absent (by rw [smaller]; decide) member
        rw [List.mem_cons, Prod.mk.injEq]
        by_cases same : l = k
        · subst same
          simp only [fresh, true_and, or_false, ne_eq, not_true_eq_false, false_and]
        · simp only [same, false_and, false_or, ne_eq, not_false_eq_true, true_and]
      next same =>
        have equal : k = key := Std.LawfulEqCmp.eq_of_compare same
        subst equal
        rw [List.mem_cons, List.mem_cons, Prod.mk.injEq, Prod.mk.injEq]
        by_cases same' : l = k
        · subst same'
          have gone : ∀ {u}, (l, u) ∉ rest := absent (by rw [same]; decide)
          simp only [gone, true_and, or_false, ne_eq, not_true_eq_false, false_and]
        · simp only [same', false_and, false_or, ne_eq, not_false_eq_true, true_and]
      next greater =>
        have differs : key ≠ k := by
          rintro rfl
          simp only [Std.ReflCmp.compare_self, reduceCtorEq] at greater
        rw [List.mem_cons, List.mem_cons, ih below, Prod.mk.injEq]
        constructor
        · rintro (⟨rfl, rfl⟩ | same | ⟨other, member⟩)
          · exact .inr ⟨differs, .inl ⟨rfl, rfl⟩⟩
          · exact .inl same
          · exact .inr ⟨other, .inr member⟩
        · rintro (same | ⟨other, same | member⟩)
          · exact .inr (.inl same)
          · exact .inl same
          · exact .inr (.inr ⟨other, member⟩)

theorem get?_insert [DecidableEq κ] (d : Dict κ ν) (k l : κ) (v : ν) :
    (d.insert k v).get? l = if l = k then some v else d.get? l := by
  refine Option.ext fun w => ?_
  have entry : (l, w) ∈ (d.insert k v).entries ↔ _ := mem_insertEntry_iff d.increasing
  rw [get?_eq_some, entry]
  split
  next same => simp only [same, true_and, ne_eq, not_true_eq_false, false_and, or_false,
    Option.some.injEq, eq_comm]
  next other => simp only [other, false_and, ne_eq, not_false_eq_true, true_and, false_or, get?_eq_some]

omit [Std.TransOrd κ] in
theorem get?_filter (d : Dict κ ν) (keep : κ → ν → Bool) (k : κ) :
    (d.filter keep).get? k = (d.get? k).filter (keep k) := by
  refine Option.ext fun w => ?_
  rw [get?_eq_some, Option.filter_eq_some_iff, get?_eq_some]
  simp only [filter, List.mem_filter]

omit [Std.TransOrd κ] in
theorem get?_erase [DecidableEq κ] (d : Dict κ ν) (k l : κ) :
    (d.erase k).get? l = if l = k then none else d.get? l := by
  rw [erase, get?_filter]
  refine Option.ext fun w => ?_
  rw [Option.filter_eq_some_iff, bne_iff_ne, ne_eq, Std.LawfulEqCmp.compare_eq_iff_eq]
  split
  next same => simp only [same, not_true_eq_false, and_false, reduceCtorEq]
  next other => simp only [Ne.symm other, not_false_eq_true, and_true]

omit [Std.TransOrd κ] [Std.LawfulEqOrd κ] in
theorem get?_empty (k : κ) : (empty : Dict κ ν).get? k = none := rfl

theorem ext_get? {a b : Dict κ ν} (same : ∀ k, a.get? k = b.get? k) : a = b := by
  have members : ∀ e, e ∈ a.entries ↔ e ∈ b.entries := fun ⟨k, v⟩ => by
    rw [← get?_eq_some, ← get?_eq_some, same]
  have distinct : ∀ d : Dict κ ν, d.entries.Nodup := fun d =>
    d.increasing.imp fun less equal => by
      simp only [equal, Std.ReflCmp.compare_self, reduceCtorEq] at less
  have perm := (List.perm_ext_iff_of_nodup (distinct a) (distinct b)).mpr members
  refine ext (perm.eq_of_pairwise (fun x y _ _ less greater => ?_) a.increasing b.increasing)
  have := Std.OrientedCmp.not_lt_of_lt less
  exact (this greater).elim

omit [Std.LawfulEqOrd κ] in
theorem nodup_entries (d : Dict κ ν) : d.entries.Nodup :=
  d.increasing.imp fun less equal => by
    simp only [equal, Std.ReflCmp.compare_self, reduceCtorEq] at less

theorem erase_of_get?_eq_none [DecidableEq κ] {d : Dict κ ν} (absent : d.get? k = none) :
    d.erase k = d := by
  refine ext_get? fun l => ?_
  rw [get?_erase]
  split
  next same => rw [same, absent]
  next => rfl

theorem perm_erase [DecidableEq κ] {d : Dict κ ν} (found : d.get? k = some v) :
    d.entries.Perm ((k, v) :: (d.erase k).entries) := by
  refine (List.perm_ext_iff_of_nodup (nodup_entries d) (List.nodup_cons.mpr ⟨?_, nodup_entries _⟩)).mpr ?_
  · rw [← get?_eq_some, get?_erase, if_pos rfl]
    exact nofun
  · rintro ⟨l, w⟩
    rw [List.mem_cons, Prod.mk.injEq, ← get?_eq_some, ← get?_eq_some, get?_erase]
    by_cases same : l = k
    · simp only [same, found, Option.some.injEq, true_and, if_true, reduceCtorEq, or_false, eq_comm]
    · simp only [same, false_and, if_false, false_or]

theorem perm_insert [DecidableEq κ] (d : Dict κ ν) (k : κ) (v : ν) :
    (d.insert k v).entries.Perm ((k, v) :: (d.erase k).entries) := by
  have found : (d.insert k v).get? k = some v := by rw [get?_insert, if_pos rfl]
  have same : (d.insert k v).erase k = d.erase k := by
    refine ext_get? fun l => ?_
    rw [get?_erase, get?_erase, get?_insert]
    split <;> rfl
  exact same ▸ perm_erase found

theorem insert_of_get? [DecidableEq κ] {d : Dict κ ν} (found : d.get? k = some v) : d.insert k v = d := by
  refine ext_get? fun l => ?_
  rw [get?_insert]
  split
  next same => rw [same, found]
  next => rfl

omit [Std.TransOrd κ] in
theorem get?_cons [DecidableEq κ] {e : κ × ν} {rest : List (κ × ν)}
    (increasing : Increasing (e :: rest)) (k : κ) :
    (⟨e :: rest, increasing⟩ : Dict κ ν).get? k =
      if k = e.1 then some e.2 else (⟨rest, (List.pairwise_cons.mp increasing).2⟩ : Dict κ ν).get? k := by
  simp only [get?, List.find?_cons]
  split
  next found =>
    rw [beq_iff_eq, Std.LawfulEqCmp.compare_eq_iff_eq] at found
    rw [if_pos found, Option.map_some]
  next other =>
    rw [beq_eq_false_iff_ne, ne_eq, Std.LawfulEqCmp.compare_eq_iff_eq] at other
    rw [if_neg other]

omit [Std.TransOrd κ] in
theorem get?_tail {e : κ × ν} {rest : List (κ × ν)} (increasing : Increasing (e :: rest)) :
    (⟨rest, (List.pairwise_cons.mp increasing).2⟩ : Dict κ ν).get? e.1 = none := by
  refine Option.eq_none_iff_forall_ne_some.mpr fun v found => ?_
  have between := (List.pairwise_cons.mp increasing).1 _ (get?_eq_some.mp found)
  simp only [Std.ReflCmp.compare_self, reduceCtorEq] at between

/-- The entries of one map written over another. -/
theorem get?_foldl_insert [DecidableEq κ] (d e : Dict κ ν) (k : κ) :
    (d.entries.foldl (fun e entry => e.insert entry.1 entry.2) e).get? k = (d.get? k).or (e.get? k) := by
  obtain ⟨entries, increasing⟩ := d
  induction entries generalizing e with
  | nil => rfl
  | cons entry rest ih =>
      rw [List.foldl_cons, ih _ (List.pairwise_cons.mp increasing).2, get?_insert, get?_cons]
      split
      next same => rw [same, get?_tail increasing, Option.none_or, Option.some_or]
      next => rfl

/-- A list written over a map: the last entry of a key counts, and the map where there is none. -/
theorem get?_foldl_list [DecidableEq κ] (entries : List (κ × ν)) (d : Dict κ ν) (k : κ) :
    (entries.foldl (fun d e => d.insert e.1 e.2) d).get? k = ((ofList entries).get? k).or (d.get? k) := by
  induction entries using List.reverseRecOn with
  | nil => rfl
  | append_singleton rest e ih =>
      rw [ofList, List.foldl_append, List.foldl_append, List.foldl_cons, List.foldl_cons, List.foldl_nil,
        List.foldl_nil, get?_insert, get?_insert]
      split
      · rfl
      · exact ih

theorem get?_ofList [DecidableEq κ] (entries : List (κ × ν)) (k : κ) :
    (ofList entries).get? k = (entries.filter (·.1 = k)).getLast?.map Prod.snd := by
  induction entries using List.reverseRecOn with
  | nil => rfl
  | append_singleton rest e ih =>
      rw [ofList, List.foldl_append, List.foldl_cons, List.foldl_nil, get?_insert, List.filter_append]
      split
      next same =>
        subst same
        simp only [List.filter_cons, List.filter_nil, decide_true, if_true, List.getLast?_concat, Option.map_some]
      next other =>
        have other : ¬ e.1 = k := fun same => other same.symm
        simp only [List.filter_cons, List.filter_nil, other, decide_false, Bool.false_eq_true, if_false,
          List.append_nil]
        exact ih

theorem ofList_eq_none [DecidableEq κ] {entries : List (κ × ν)} {k : κ} :
    (ofList entries).get? k = none ↔ ∀ v, (k, v) ∉ entries := by
  induction entries using List.reverseRecOn with
  | nil => simp only [ofList, List.foldl_nil, get?_empty, List.not_mem_nil, not_false_eq_true,
      implies_true]
  | append_singleton rest e ih =>
      obtain ⟨key, value⟩ := e
      rw [ofList, List.foldl_append, List.foldl_cons, List.foldl_nil, get?_insert]
      split
      next same =>
        refine ⟨nofun, fun absent => absurd ?_ (absent value)⟩
        rw [same]
        exact List.mem_append_right _ (List.mem_singleton_self _)
      next other =>
        simp only [List.mem_append, List.mem_singleton, Prod.mk.injEq, other, false_and, or_false]
        exact ih

/-- The first entry of a list may as well be added last, unless another one has its key. -/
theorem ofList_cons [DecidableEq κ] {entries : List (κ × ν)} {k : κ} (alone : ∀ w, (k, w) ∉ entries) (v : ν) :
    ofList ((k, v) :: entries) = (ofList entries).insert k v := by
  refine ext_get? fun l => ?_
  rw [ofList, List.foldl_cons, get?_foldl_list, get?_insert, get?_insert]
  split
  next same => rw [same, ofList_eq_none.mpr alone, Option.none_or]
  next => rw [get?_empty, Option.or_none]

theorem ofList_entries [DecidableEq κ] (d : Dict κ ν) : ofList d.entries = d := by
  refine ext_get? fun k => ?_
  rw [ofList, get?_foldl_insert, get?_empty, Option.or_none]

/-- A map that was made of a list has its entries from there. -/
theorem mem_of_mem_ofList {entries : List (κ × ν)} {entry : κ × ν}
    (member : entry ∈ (ofList entries).entries) : entry ∈ entries := by
  have from_either : ∀ (entries : List (κ × ν)) (d : Dict κ ν),
      entry ∈ (entries.foldl (fun d e => d.insert e.1 e.2) d).entries →
        entry ∈ entries ∨ entry ∈ d.entries := by
    intro entries
    induction entries with
    | nil => exact fun _ member => .inr member
    | cons e rest ih =>
        intro d member
        rcases ih _ member with later | earlier
        · exact .inl (List.mem_cons_of_mem _ later)
        · rcases mem_insertEntry earlier with rfl | old
          · exact .inl (List.mem_cons_self ..)
          · exact .inr old
  exact (from_either entries empty member).resolve_right List.not_mem_nil

end Patchwork.Dict
