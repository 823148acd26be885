/-! Finite maps in key order. The entries are strictly increasing, so two maps with the same look-ups
are equal, and listing a map needs no sorting. -/
namespace Patchwork

/-- A finite map with its entries in increasing order of their keys. -/
structure Dict (κ ν : Type) [Ord κ] where
  entries : List (κ × ν)
  increasing : entries.Pairwise fun a b => compare a.1 b.1 = .lt

namespace Dict

variable {κ ν : Type} [Ord κ]

def insertEntry (k : κ) (v : ν) : List (κ × ν) → List (κ × ν)
  | [] => [(k, v)]
  | (key, value) :: rest =>
      match compare k key with
      | .lt => (k, v) :: (key, value) :: rest
      | .eq => (k, v) :: rest
      | .gt => (key, value) :: insertEntry k v rest

theorem mem_insertEntry {k : κ} {v : ν} {e : κ × ν} :
    ∀ {entries : List (κ × ν)}, e ∈ insertEntry k v entries → e = (k, v) ∨ e ∈ entries
  | [], member => Or.inl (List.mem_singleton.mp member)
  | (key, value) :: rest, member => by
      simp only [insertEntry] at member
      split at member
      · simpa using member
      · rcases List.mem_cons.mp member with same | later
        · exact .inl same
        · exact .inr (List.mem_cons_of_mem _ later)
      · rcases List.mem_cons.mp member with same | later
        · exact .inr (same ▸ List.mem_cons_self ..)
        · exact (mem_insertEntry later).imp_right (List.mem_cons_of_mem _)

theorem increasing_insertEntry [Std.TransOrd κ] [Std.LawfulEqOrd κ] {k : κ} {v : ν}
    {entries : List (κ × ν)} (increasing : entries.Pairwise fun a b => compare a.1 b.1 = .lt) :
    (insertEntry k v entries).Pairwise fun a b => compare a.1 b.1 = .lt := by
  induction entries with
  | nil => simp [insertEntry]
  | cons entry rest ih =>
      obtain ⟨key, value⟩ := entry
      have later := (List.pairwise_cons.mp increasing).1
      have below := (List.pairwise_cons.mp increasing).2
      simp only [insertEntry]
      split
      next smaller =>
        refine List.pairwise_cons.mpr ⟨fun e member => ?_, increasing⟩
        rcases List.mem_cons.mp member with rfl | member
        · exact smaller
        · exact Std.TransCmp.lt_trans smaller (later e member)
      next same =>
        have equal : k = key := Std.LawfulEqCmp.eq_of_compare same
        exact List.pairwise_cons.mpr ⟨fun e member => equal ▸ later e member, below⟩
      next greater =>
        refine List.pairwise_cons.mpr ⟨fun e member => ?_, ih below⟩
        rcases mem_insertEntry member with rfl | member
        · exact Std.OrientedCmp.lt_of_gt greater
        · exact later e member

def empty : Dict κ ν := ⟨[], .nil⟩

instance : Inhabited (Dict κ ν) := ⟨empty⟩

instance : EmptyCollection (Dict κ ν) := ⟨empty⟩

def toList (d : Dict κ ν) : List (κ × ν) := d.entries

def keys (d : Dict κ ν) : List κ := d.entries.map Prod.fst

def size (d : Dict κ ν) : Nat := d.entries.length

def isEmpty (d : Dict κ ν) : Bool := d.entries.isEmpty

def get? (d : Dict κ ν) (k : κ) : Option ν :=
  (d.entries.find? fun e => compare k e.1 == .eq).map Prod.snd

def contains (d : Dict κ ν) (k : κ) : Bool := (d.get? k).isSome

def filter (keep : κ → ν → Bool) (d : Dict κ ν) : Dict κ ν :=
  ⟨d.entries.filter fun e => keep e.1 e.2, d.increasing.sublist List.filter_sublist⟩

def erase (d : Dict κ ν) (k : κ) : Dict κ ν := d.filter fun key _ => compare k key != .eq

section Insert
variable [Std.TransOrd κ] [Std.LawfulEqOrd κ]

def insert (d : Dict κ ν) (k : κ) (v : ν) : Dict κ ν :=
  ⟨insertEntry k v d.entries, increasing_insertEntry d.increasing⟩

/-- Of several entries with one key the last one counts. -/
def ofList (entries : List (κ × ν)) : Dict κ ν :=
  entries.foldl (fun d e => d.insert e.1 e.2) empty

end Insert

@[ext] theorem ext {a b : Dict κ ν} (same : a.entries = b.entries) : a = b := by
  cases a; cases b; cases same; rfl

instance [DecidableEq κ] [DecidableEq ν] : DecidableEq (Dict κ ν) := fun a b =>
  if same : a.entries = b.entries then isTrue (ext same)
  else isFalse fun equal => same (equal ▸ rfl)

end Dict
end Patchwork
