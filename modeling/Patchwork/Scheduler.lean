import Patchwork.Text.Quoted

/-! Coalescing requests into one deferred flush. The first request after the last take arms the flush;
further requests are absorbed, each key at most once, in the order in which they came. -/
namespace Patchwork

/-- The keys that wait for a flush, and whether one is armed. -/
structure Scheduler (κ : Type) where
  /-- In the order of their first requests. -/
  queue : List κ
  /-- The keys once more, to look them up. -/
  pending : List κ
  armed : Bool
  mem_pending : ∀ k, k ∈ pending ↔ k ∈ queue
deriving DecidableEq

namespace Scheduler

variable {κ : Type} [DecidableEq κ]

def empty : Scheduler κ := ⟨[], [], false, fun _ => .rfl⟩

instance : Inhabited (Scheduler κ) := ⟨empty⟩

inductive Outcome
  | alreadyPending
  /-- The key is waiting now, for a flush that is armed already. -/
  | absorbed
  /-- The key is waiting now, and its request armed the flush. -/
  | armed
deriving DecidableEq

def Outcome.isNew : Outcome → Bool
  | alreadyPending => false
  | absorbed | armed => true

def isPending (s : Scheduler κ) (k : κ) : Bool := k ∈ s.pending

def add (s : Scheduler κ) (k : κ) : Scheduler κ where
  queue := s.queue ++ [k]
  pending := k :: s.pending
  armed := true
  mem_pending l := by simp [s.mem_pending l, or_comm]

def schedule (s : Scheduler κ) (k : κ) : Outcome × Scheduler κ :=
  if k ∈ s.pending then (.alreadyPending, s)
  else (if s.armed then .absorbed else .armed, s.add k)

/-- Takes the waiting keys. A request after this arms a new flush. -/
def take (s : Scheduler κ) : List κ × Scheduler κ := (s.queue, empty)

def debug (show' : κ → String) (s : Scheduler κ) : String :=
  Text.record "Scheduler" [
    Text.field "queue" ("[" ++ ", ".intercalate (s.queue.map show') ++ "]"),
    Text.field "armed" (if s.armed then "true" else "false"), ".."]

end Scheduler

def debugTasks (pending : Nat) : String :=
  Text.record "ManualMicrotasks" [Text.field "pending" (toString pending)]

end Patchwork
