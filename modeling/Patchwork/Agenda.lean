import Patchwork.Scheduler

/-! A scheduler together with the queue of tasks it defers to. Tasks run in the order of queueing until
none is left. A task may do whatever can be done from outside, running the queue included, so a run
is a loop over the suspended tasks; each turn uses up part of the work that was ever asked for. -/
namespace Patchwork

inductive Step
  /-- Requests a key; `work` is what the flush task does, if the request arms one. -/
  | schedule (key : Nat) (work : List Step)
  | queue (name : String) (work : List Step)
  | take
  | isPending (key : Nat)
  | run
  | debug
deriving Inhabited

namespace Step

def name : Step → String
  | schedule .. => "schedule"
  | queue .. => "queue"
  | take => "take"
  | isPending _ => "is_pending"
  | run => "run"
  | debug => "debug"

mutual

/-- Bounds how many turns a step can cause. -/
def weight : Step → Nat
  | schedule _ work | queue _ work => weightOfAll work + 2
  | take | isPending _ | run | debug => 2

def weightOfAll : List Step → Nat
  | [] => 0
  | s :: rest => weight s + weightOfAll rest

end

end Step

inductive Answer
  | nothing
  | bool (b : Bool)
  | count (n : Nat)
  | keys (ks : List Nat)
  | text (s : String)
deriving DecidableEq

inductive Happening
  | armed (key : Nat)
  | started (task : String)
  | answered (step : String) (answer : Answer)
deriving DecidableEq

structure Task where
  name : String
  work : List Step

structure Agenda where
  scheduler : Scheduler Nat
  tasks : List Task
  /-- Oldest first. -/
  happened : List Happening

namespace Agenda

def empty : Agenda := ⟨.empty, [], []⟩

def note (a : Agenda) (h : Happening) : Agenda := { a with happened := a.happened ++ [h] }

def queueTask (a : Agenda) (t : Task) : Agenda := { a with tasks := a.tasks ++ [t] }

def flushTask (key : Nat) (work : List Step) : Task := ⟨"flush " ++ toString key, work⟩

/-- Does a step that runs no task. A run in this place does nothing. -/
def perform (a : Agenda) : Step → Answer × Agenda
  | .schedule key work =>
      match a.scheduler.schedule key with
      | (.armed, s) =>
          (.bool true, ({ a with scheduler := s }.note (.armed key)).queueTask (flushTask key work))
      | (outcome, s) => (.bool outcome.isNew, { a with scheduler := s })
  | .queue name work => (.nothing, a.queueTask ⟨name, work⟩)
  | .take =>
      let (keys, s) := a.scheduler.take
      (.keys keys, { a with scheduler := s })
  | .isPending key => (.bool (a.scheduler.isPending key), a)
  | .run => (.nothing, a)
  | .debug => (.text (a.scheduler.debug toString ++ " " ++ debugTasks a.tasks.length), a)

def weightOfTasks : List Task → Nat
  | [] => 0
  | t :: rest => Step.weightOfAll t.work + 1 + weightOfTasks rest

theorem weightOfTasks_append (ts us : List Task) :
    weightOfTasks (ts ++ us) = weightOfTasks ts + weightOfTasks us := by
  induction ts with
  | nil => simp only [List.nil_append, weightOfTasks, Nat.zero_add]
  | cons t rest ih =>
      simp only [List.cons_append, weightOfTasks, ih]
      omega

theorem weightOfTasks_queueTask (a : Agenda) (t : Task) :
    weightOfTasks (a.queueTask t).tasks =
      weightOfTasks a.tasks + (Step.weightOfAll t.work + 1) := by
  simp only [queueTask, weightOfTasks_append, weightOfTasks, Nat.add_zero]

/-- A run that a task started is suspended with the rest of that task and its count. -/
abbrev Suspended := List (List Step × Nat)

def weightOfSuspended : Suspended → Nat
  | [] => 0
  | (rest, _) :: outer => Step.weightOfAll rest + 1 + weightOfSuspended outer

theorem weight_perform_le (a : Agenda) (s : Step) :
    weightOfTasks (a.perform s).2.tasks + 1 ≤ weightOfTasks a.tasks + s.weight := by
  cases s with
  | schedule key work =>
      simp only [perform, Step.weight]
      split
      · simp only [note, flushTask, weightOfTasks_queueTask]
        omega
      · simp only
        omega
  | queue name work =>
      simp only [perform, Step.weight, weightOfTasks_queueTask]
      omega
  | _ =>
      simp only [perform, Step.weight]
      omega

/-- Goes on with a run: `steps` is the rest of the running task, `count` is how many tasks the run has
started, and `outer` are the runs that wait for it. Answers how many tasks the outermost run started. -/
def continueRun (steps : List Step) (count : Nat) (outer : Suspended) (a : Agenda) : Nat × Agenda :=
  match steps with
  | .run :: rest => continueRun [] 0 ((rest, count) :: outer) a
  | s :: rest =>
      continueRun rest count outer ((a.perform s).2.note (.answered s.name (a.perform s).1))
  | [] =>
      match _ : a.tasks with
      | t :: others =>
          continueRun t.work (count + 1) outer ({ a with tasks := others }.note (.started t.name))
      | [] =>
          match outer with
          | [] => (count, a)
          | (rest, before) :: outer =>
              continueRun rest before outer (a.note (.answered "run" (.count count)))
termination_by
  Step.weightOfAll steps + weightOfTasks a.tasks + weightOfSuspended outer
decreasing_by
  · simp only [Step.weightOfAll, Step.weight, weightOfSuspended]
    omega
  · have := weight_perform_le a s
    simp only [Step.weightOfAll, note]
    omega
  · simp only [Step.weightOfAll, note, ‹a.tasks = _›, weightOfTasks]
    omega
  · simp only [Step.weightOfAll, note, weightOfSuspended]
    omega

def runUntilIdle (a : Agenda) : Nat × Agenda := a.continueRun [] 0 []

def step (a : Agenda) : Step → Answer × Agenda
  | .run =>
      let (count, a) := a.runUntilIdle
      (.count count, a)
  | s => a.perform s

end Agenda
end Patchwork
