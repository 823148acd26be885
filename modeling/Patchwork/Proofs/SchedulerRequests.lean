import Mathlib.Data.List.DropRight
import Patchwork.Agenda

/-! Requests are neither lost nor repeated. What is done with a scheduler and its queue of tasks, from outside
and by the tasks themselves, makes up a log. The entries since the last take say which keys are waiting, so
that they settle every answer and every flush task; and a run starts the tasks in the order in which they were
queued, until none is left. -/
namespace Patchwork

namespace Scheduler

variable {κ : Type} [DecidableEq κ] {s : Scheduler κ} {k : κ}

theorem schedule_of_mem (waits : k ∈ s.queue) : s.schedule k = (.alreadyPending, s) :=
  if_pos ((s.mem_pending k).mpr waits)

theorem schedule_of_not_mem (new : k ∉ s.queue) :
    s.schedule k = (if s.armed then .absorbed else .armed, s.add k) :=
  if_neg (mt (s.mem_pending k).mp new)

theorem isPending_eq (s : Scheduler κ) (k : κ) : s.isPending k = decide (k ∈ s.queue) :=
  decide_eq_decide.mpr (s.mem_pending k)

end Scheduler

namespace Agenda

inductive Act
  /-- A step that runs no task, with its answer. -/
  | did (step : Step) (answer : Answer)
  | started (task : Task)
  /-- A run found no task any more. It had started a number of them. -/
  | ended (count : Nat)

/-- An act, and the agenda before and after it. -/
structure Entry where
  before : Agenda
  act : Act
  after : Agenda

def start (a : Agenda) (t : Task) (others : List Task) : Agenda := { a with tasks := others }.note (.started t.name)

/-- The steps of a running task are noted with their answers, those from outside are not. -/
def heard (inside : Bool) (s : Step) (answer : Answer) (a : Agenda) : Agenda :=
  if inside then a.note (.answered s.name answer) else a

mutual

inductive Does : Bool → Agenda → List Step → List Entry → Agenda → Prop
  | nil : Does inside a [] [] a
  | step (plain : s ≠ .run) (performed : a.perform s = (answer, b))
      (further : Does inside (heard inside s answer b) rest log c) :
      Does inside a (s :: rest) (⟨a, .did s answer, heard inside s answer b⟩ :: log) c
  | run (drains : Drains a count log b) (further : Does inside (heard inside .run (.count count) b) rest log' c) :
      Does inside a (.run :: rest) (log ++ ⟨b, .ended count, heard inside .run (.count count) b⟩ :: log') c

inductive Drains : Agenda → Nat → List Entry → Agenda → Prop
  | idle (empty : a.tasks = []) : Drains a 0 [] a
  | task (next : a.tasks = t :: others) (does : Does true (a.start t others) t.work log b)
      (further : Drains b count log' c) :
      Drains a (count + 1) (⟨a, .started t, a.start t others⟩ :: (log ++ log')) c

end

inductive Entry.Sound : Entry → Prop
  | did {a b : Agenda} {s : Step} {answer : Answer} {inside : Bool} (plain : s ≠ .run)
      (performed : a.perform s = (answer, b)) : Sound ⟨a, .did s answer, heard inside s answer b⟩
  | started {a : Agenda} {t : Task} {others : List Task} (next : a.tasks = t :: others) :
      Sound ⟨a, .started t, a.start t others⟩
  | ended {a : Agenda} {count : Nat} {inside : Bool} (empty : a.tasks = []) :
      Sound ⟨a, .ended count, heard inside .run (.count count) a⟩

inductive Joined : Agenda → List Entry → Agenda → Prop
  | nil : Joined a [] a
  | cons {e : Entry} (sound : e.Sound) (further : Joined e.after log b) : Joined e.before (e :: log) b

/-- Where the runs that wait go on when a run is over. -/
def resume (outer : Suspended) (count : Nat) (a : Agenda) : Nat × Agenda :=
  match outer with
  | [] => (count, a)
  | (rest, before) :: outer => a.note (.answered "run" (.count count)) |>.continueRun rest before outer


variable {a b c : Agenda} {t : Task} {others : List Task} {rest : List Step}

theorem continueRun_run (rest : List Step) (count : Nat) (outer : Suspended) (a : Agenda) :
    continueRun (.run :: rest) count outer a = continueRun [] 0 ((rest, count) :: outer) a := by
  rw [continueRun]

theorem continueRun_step {s : Step} (plain : s ≠ .run) (rest : List Step) (count : Nat) (outer : Suspended)
    (a : Agenda) : continueRun (s :: rest) count outer a =
      continueRun rest count outer (heard true s (a.perform s).1 (a.perform s).2) := by
  rw [continueRun]
  · rfl
  · exact fun same => plain same

theorem continueRun_task (next : a.tasks = t :: others) (count : Nat) (outer : Suspended) :
    continueRun [] count outer a = continueRun t.work (count + 1) outer (a.start t others) := by
  rw [continueRun.eq_def]
  dsimp only
  split
  next found =>
    rw [next] at found
    obtain ⟨rfl, rfl⟩ := List.cons.inj found
    rfl
  next found =>
    rw [next] at found
    contradiction

theorem continueRun_idle (idle : a.tasks = []) (count : Nat) (outer : Suspended) :
    continueRun [] count outer a = resume outer count a := by
  rw [continueRun.eq_def]
  dsimp only
  split
  next found =>
    rw [idle] at found
    contradiction
  next => rfl

/-- Going on with a run carries out the rest of the running task and then all the tasks that wait, and comes back
to the runs outside. The induction is on the work that is left: a run within the task leaves no task behind, so
that the rest of the task is less than what there was. -/
theorem exists_continueRun (steps : List Step) (count : Nat) (outer : Suspended) (a : Agenda) :
    ∃ log b started log' c, Does true a steps log b ∧ Drains b started log' c ∧ c.tasks = [] ∧
      continueRun steps count outer a = resume outer (count + started) c := by
  induction size : Step.weightOfAll steps + weightOfTasks a.tasks + weightOfSuspended outer
    using Nat.strong_induction_on generalizing steps count outer a with
  | h n ih =>
    cases steps with
    | nil =>
        cases next : a.tasks with
        | nil =>
            refine ⟨[], a, 0, [], a, .nil, .idle next, next, ?_⟩
            exact continueRun_idle next count outer
        | cons t others =>
            rw [next] at size
            simp only [Step.weightOfAll, weightOfTasks] at size
            have less : Step.weightOfAll t.work + weightOfTasks others + weightOfSuspended outer < n := by omega
            obtain ⟨log, b, started, log', c, does, drains, idle, goes⟩ :=
              ih _ less t.work (count + 1) outer (a.start t others) rfl
            refine ⟨[], a, started + 1, _, c, .nil, .task next does drains, idle, ?_⟩
            rw [continueRun_task next, goes, Nat.add_assoc, Nat.add_comm 1]
    | cons s rest =>
        by_cases runs : s = .run
        · subst runs
          simp only [Step.weightOfAll, Step.weight] at size
          have less : Step.weightOfAll [] + weightOfTasks a.tasks + weightOfSuspended ((rest, count) :: outer) < n := by
            simp only [Step.weightOfAll, weightOfSuspended]
            omega
          obtain ⟨_, _, inner, log, b, does, drains, idle, goes⟩ := ih _ less [] 0 ((rest, count) :: outer) a rfl
          cases does
          have after : (heard true .run (.count inner) b).tasks = [] := idle
          have less : Step.weightOfAll rest + weightOfTasks (heard true .run (.count inner) b).tasks +
              weightOfSuspended outer < n := by
            rw [after]
            simp only [weightOfTasks]
            omega
          obtain ⟨log', c, started, further, d, does, drains', idle', goes'⟩ :=
            ih _ less rest count outer (heard true .run (.count inner) b) rfl
          refine ⟨_, c, started, further, d, .run drains does, drains', idle', ?_⟩
          rw [continueRun_run, goes, Nat.zero_add, ← goes']
          rfl
        · have lighter := weight_perform_le a s
          have less : Step.weightOfAll rest +
              weightOfTasks (heard true s (a.perform s).1 (a.perform s).2).tasks + weightOfSuspended outer < n := by
            simp only [Step.weightOfAll] at size
            change Step.weightOfAll rest + weightOfTasks (a.perform s).2.tasks + weightOfSuspended outer < n
            omega
          obtain ⟨log, b, started, log', c, does, drains, idle, goes⟩ := ih _ less rest count outer _ rfl
          refine ⟨_, b, started, log', c, .step runs rfl does, drains, idle, ?_⟩
          rw [continueRun_step runs, goes]

/-- A run carries out all the tasks, those that they queue included, and answers how many it started. -/
theorem exists_drains (a : Agenda) : ∃ log, Drains a a.runUntilIdle.1 log a.runUntilIdle.2 := by
  obtain ⟨_, _, started, log, b, does, drains, -, goes⟩ := exists_continueRun [] 0 [] a
  cases does
  rw [Nat.zero_add] at goes
  rw [runUntilIdle, goes]
  exact ⟨log, drains⟩

def after (a : Agenda) (script : List Step) : Agenda := script.foldl (fun a s => (a.step s).2) a

theorem exists_does (script : List Step) (a : Agenda) : ∃ log, Does false a script log (a.after script) := by
  induction script generalizing a with
  | nil => exact ⟨[], .nil⟩
  | cons s rest ih =>
      by_cases runs : s = .run
      · subst runs
        obtain ⟨log, drains⟩ := exists_drains a
        obtain ⟨log', does⟩ := ih a.runUntilIdle.2
        exact ⟨_, .run drains does⟩
      · have same : a.step s = a.perform s := by
          cases s with
          | run => contradiction
          | _ => rfl
        obtain ⟨log, does⟩ := ih (a.perform s).2
        rw [after, List.foldl_cons, same]
        exact ⟨_ :: log, .step runs rfl does⟩

theorem Joined.append (one : Joined a log b) (two : Joined b log' c) : Joined a (log ++ log') c := by
  induction one with
  | nil => exact two
  | cons sound _ ih => exact .cons sound (ih two)

theorem Drains.tasks_eq_nil : ∀ {a b : Agenda} {count : Nat} {log : List Entry}, Drains a count log b → b.tasks = []
  | _, _, _, _, .idle empty => empty
  | _, _, _, _, .task _ _ further => further.tasks_eq_nil

mutual

theorem Does.joined : ∀ {inside : Bool} {a b : Agenda} {steps : List Step} {log : List Entry},
    Does inside a steps log b → Joined a log b
  | _, _, _, _, _, .nil => .nil
  | _, _, _, _, _, .step plain performed further => .cons (.did plain performed) further.joined
  | _, _, _, _, _, .run drains further =>
      drains.joined.append (.cons (.ended drains.tasks_eq_nil) further.joined)

theorem Drains.joined : ∀ {a b : Agenda} {count : Nat} {log : List Entry}, Drains a count log b → Joined a log b
  | _, _, _, _, .idle _ => .nil
  | _, _, _, _, .task next does further => .cons (.started next) (does.joined.append further.joined)

end

mutual

/-- There is one way to carry out steps, so that the log and what they come to are settled by them. -/
theorem Does.unique : ∀ {inside : Bool} {a b b' : Agenda} {steps : List Step} {log log' : List Entry},
    Does inside a steps log b → Does inside a steps log' b' → log = log' ∧ b = b'
  | _, _, _, _, _, _, _, .nil, .nil => ⟨rfl, rfl⟩
  | _, _, _, _, _, _, _, .step _ performed further, .step _ performed' further' => by
      rw [performed] at performed'
      obtain ⟨rfl, rfl⟩ := Prod.mk.inj performed'
      obtain ⟨rfl, rfl⟩ := further.unique further'
      exact ⟨rfl, rfl⟩
  | _, _, _, _, _, _, _, .step plain _ _, .run _ _ => absurd rfl plain
  | _, _, _, _, _, _, _, .run _ _, .step plain _ _ => absurd rfl plain
  | _, _, _, _, _, _, _, .run drains further, .run drains' further' => by
      obtain ⟨rfl, rfl, rfl⟩ := drains.unique drains'
      obtain ⟨rfl, rfl⟩ := further.unique further'
      exact ⟨rfl, rfl⟩

theorem Drains.unique : ∀ {a b b' : Agenda} {count count' : Nat} {log log' : List Entry},
    Drains a count log b → Drains a count' log' b' → count = count' ∧ log = log' ∧ b = b'
  | _, _, _, _, _, _, _, .idle _, .idle _ => ⟨rfl, rfl, rfl⟩
  | _, _, _, _, _, _, _, .idle empty, .task next _ _ => by
      rw [empty] at next
      contradiction
  | _, _, _, _, _, _, _, .task next _ _, .idle empty => by
      rw [empty] at next
      contradiction
  | _, _, _, _, _, _, _, .task next does further, .task next' does' further' => by
      rw [next] at next'
      obtain ⟨rfl, rfl⟩ := List.cons.inj next'
      obtain ⟨rfl, rfl⟩ := does.unique does'
      obtain ⟨rfl, rfl, rfl⟩ := further.unique further'
      exact ⟨rfl, rfl, rfl⟩

end

namespace Entry

def isTake (e : Entry) : Bool :=
  match e.act with
  | .did .take _ => true
  | _ => false

def request? (e : Entry) : Option (Nat × List Step) :=
  match e.act with
  | .did (.schedule key work) _ => some (key, work)
  | _ => none

def started (e : Entry) : List Task :=
  match e.act with
  | .started t => [t]
  | _ => []

/-- The tasks that an act is to put in the queue: a task of its own, or the flush task of a request if none is
armed. -/
def asked (armed : Bool) (e : Entry) : List Task :=
  match e.act with
  | .did (.queue name work) _ => [⟨name, work⟩]
  | .did (.schedule key work) _ => if armed then [] else [flushTask key work]
  | _ => []

/-- Whether a flush is to be armed after an act: after a request, until the next take. -/
def arms (armed : Bool) (e : Entry) : Bool :=
  match e.act with
  | .did .take _ => false
  | .did (.schedule ..) _ => true
  | _ => armed

def armed (e : Entry) : List Nat :=
  (e.after.happened.drop e.before.happened.length).filterMap fun
    | .armed key => some key
    | _ => none

end Entry

/-- All tasks that acts were to put in the queue: those that were queued, and for the first request after each take
its flush task. -/
def askedIn (armed : Bool) : List Entry → List Task
  | [] => []
  | e :: log => e.asked armed ++ askedIn (e.arms armed) log

def sinceTake (log : List Entry) : List Entry := log.rtakeWhile (!·.isTake)

def requests (log : List Entry) : List (Nat × List Step) := log.filterMap Entry.request?

/-- The keys that were asked for since the last take, each once, in the order of the first requests. -/
def wanted (log : List Entry) : List Nat := ((requests (sinceTake log)).map Prod.fst).eraseDups

/-- The scheduler has what was asked for since the last take, and the first of these requests made a flush
task. -/
structure Account (past : List Entry) (now : Scheduler Nat) : Prop where
  queue : now.queue = wanted past
  armed : now.armed = true ↔ wanted past ≠ []
  made : (sinceTake past).flatMap Entry.armed = ((requests (sinceTake past)).take 1).map Prod.fst

variable {past : List Entry} {e : Entry}

theorem account_nil : Account [] .empty where
  queue := rfl
  armed := by simp [wanted, sinceTake, requests, Scheduler.empty]
  made := rfl

theorem account_take (take : e.isTake = true) : Account (past ++ [e]) .empty := by
  have nothing : sinceTake (past ++ [e]) = [] := by simp [sinceTake, take]
  constructor <;> simp [wanted, requests, nothing, Scheduler.empty]

theorem sinceTake_concat (other : e.isTake = false) : sinceTake (past ++ [e]) = sinceTake past ++ [e] := by
  simp [sinceTake, other]

theorem Account.other {now : Scheduler Nat} (account : Account past now) (other : e.isTake = false)
    (none : e.request? = none) (armed : e.armed = []) : Account (past ++ [e]) now := by
  have same : requests (sinceTake (past ++ [e])) = requests (sinceTake past) := by
    simp [sinceTake_concat other, requests, none]
  constructor
  · rw [wanted, same]
    exact account.queue
  · rw [wanted, same]
    exact account.armed
  · rw [same, ← account.made]
    simp [sinceTake_concat other, armed]

theorem wanted_eq_nil : wanted past = [] ↔ requests (sinceTake past) = [] := by
  cases asked : requests (sinceTake past) with
  | nil => simp [wanted, asked]
  | cons r rest => simp [wanted, asked, List.eraseDups_cons]

theorem requests_concat (past : List Entry) (asks : e.request? = some (key, work)) : e.isTake = false ∧
    requests (sinceTake (past ++ [e])) = requests (sinceTake past) ++ [(key, work)] ∧
      wanted (past ++ [e]) = if key ∈ wanted past then wanted past else wanted past ++ [key] := by
  have other : e.isTake = false := by
    unfold Entry.request? at asks
    unfold Entry.isTake
    split at asks
    next asked => rw [asked]
    next => contradiction
  have more : requests (sinceTake (past ++ [e])) = requests (sinceTake past) ++ [(key, work)] := by
    simp [sinceTake_concat other, requests, asks]
  refine ⟨other, more, ?_⟩
  rw [wanted, more, List.map_append, List.eraseDups_append]
  by_cases known : key ∈ wanted past
  · rw [if_pos known]
    have asked := List.mem_eraseDups.mp known
    simp [List.removeAll, asked, wanted]
  · rw [if_neg known]
    have new := mt List.mem_eraseDups.mpr known
    simp [List.removeAll, new, wanted, List.eraseDups_cons]

theorem perform_schedule_of_mem (waits : key ∈ a.scheduler.queue) :
    a.perform (.schedule key work) = (.bool false, a) := by
  simp only [perform, Scheduler.schedule_of_mem waits, Scheduler.Outcome.isNew]

/-- The first request after a take makes a flush task, and the others only wait for it. -/
theorem perform_schedule_of_not_mem (new : key ∉ a.scheduler.queue) :
    a.perform (.schedule key work) = (.bool true,
      if a.scheduler.armed then { a with scheduler := a.scheduler.add key }
      else { a with
        scheduler := a.scheduler.add key
        tasks := a.tasks ++ [flushTask key work]
        happened := a.happened ++ [.armed key] }) := by
  simp only [perform, Scheduler.schedule_of_not_mem new]
  cases a.scheduler.armed with
  | true => rfl
  | false => rfl

theorem answer_schedule (a : Agenda) (key : Nat) (work : List Step) :
    (a.perform (.schedule key work)).1 = .bool (key ∉ a.scheduler.queue) := by
  by_cases waits : key ∈ a.scheduler.queue
  · simp [perform_schedule_of_mem waits, waits]
  · simp [perform_schedule_of_not_mem waits, waits]

theorem armed_heard (act : Act) (inside : Bool) (s : Step) (answer : Answer) (more : List Happening)
    (same : b.happened = a.happened ++ more) : Entry.armed ⟨a, act, heard inside s answer b⟩ =
      more.filterMap fun
        | .armed key => some key
        | _ => none := by
  cases inside with
  | true => simp [Entry.armed, heard, note, same]
  | false => simp [Entry.armed, heard, same]

theorem scheduler_heard (inside : Bool) (s : Step) (answer : Answer) (a : Agenda) :
    (heard inside s answer a).scheduler = a.scheduler := by
  cases inside with
  | true => rfl
  | false => rfl

theorem tasks_heard (inside : Bool) (s : Step) (answer : Answer) (a : Agenda) :
    (heard inside s answer a).tasks = a.tasks := by
  cases inside with
  | true => rfl
  | false => rfl

/-- Only a request that finds no flush task armed makes one, and it is the first since the last take. -/
theorem Account.request {now now' : Scheduler Nat} (account : Account past now)
    (asks : e.request? = some (key, work))
    (queue : now'.queue = if key ∈ now.queue then now.queue else now.queue ++ [key]) (armed : now'.armed = true)
    (made : e.armed = if now.armed then [] else [key]) : Account (past ++ [e]) now' := by
  obtain ⟨other, asked, wants⟩ := requests_concat past asks
  rw [account.queue] at queue
  have first : (requests (sinceTake past) ++ [(key, work)]).take 1 =
      (requests (sinceTake past)).take 1 ++ if now.armed then [] else [(key, work)] := by
    cases requested : requests (sinceTake past) with
    | nil =>
        have unarmed : ¬ now.armed = true := mt account.armed.mp (not_not.mpr (wanted_eq_nil.mpr requested))
        simp [unarmed]
    | cons r rest =>
        have armed : now.armed = true := account.armed.mpr (mt wanted_eq_nil.mp (by simp [requested]))
        simp [armed]
  constructor
  · rw [queue, wants]
  · rw [wants]
    simp only [armed, true_iff]
    split
    next known => exact List.ne_nil_of_mem known
    next => simp
  · rw [sinceTake_concat other, List.flatMap_append, account.made, List.flatMap_singleton, made,
      ← sinceTake_concat other, asked, first]
    split <;> simp

theorem Account.step (account : Account past e.before.scheduler) (sound : e.Sound) :
    Account (past ++ [e]) e.after.scheduler := by
  cases sound with
  | started => exact account.other rfl rfl (by simp [Entry.armed, start, note])
  | ended =>
      rw [scheduler_heard]
      exact account.other rfl rfl (armed_heard _ _ _ _ [] (by simp))
  | @did a b s answer inside plain performed =>
      rw [scheduler_heard]
      have silent (same : b = a) : Entry.armed ⟨a, .did s answer, heard inside s answer b⟩ = [] :=
        armed_heard _ inside s answer [] (by simp [same])
      cases s with
      | take =>
          obtain ⟨rfl, rfl⟩ := Prod.mk.inj performed
          exact account_take rfl
      | schedule key work =>
          -- A request is made again, or is new and finds the flush queued, or is new and has to queue it.
          by_cases waits : key ∈ a.scheduler.queue
          · have armed := account.armed.mpr (account.queue ▸ List.ne_nil_of_mem waits)
            rw [perform_schedule_of_mem waits] at performed
            obtain ⟨rfl, rfl⟩ := Prod.mk.inj performed
            apply account.request rfl
            · rw [if_pos waits]
            · exact armed
            · rw [if_pos armed]
              exact silent rfl
          · rw [perform_schedule_of_not_mem waits] at performed
            obtain ⟨rfl, rfl⟩ := Prod.mk.inj performed
            cases armed : a.scheduler.armed with
            | true =>
                apply account.request rfl
                · exact (if_neg waits).symm
                · rfl
                · rw [if_pos armed]
                  exact armed_heard _ inside _ _ [] (by simp)
            | false =>
                apply account.request rfl
                · exact (if_neg waits).symm
                · rfl
                · rw [if_neg (ne_true_of_eq_false armed)]
                  exact armed_heard _ inside _ _ [.armed key] rfl
      | queue name work =>
          obtain ⟨rfl, rfl⟩ := Prod.mk.inj performed
          exact account.other rfl rfl (armed_heard _ inside _ _ [] (by simp [queueTask]))
      | isPending key =>
          obtain ⟨rfl, rfl⟩ := Prod.mk.inj performed
          exact account.other rfl rfl (silent rfl)
      | run => contradiction
      | debug =>
          obtain ⟨rfl, rfl⟩ := Prod.mk.inj performed
          exact account.other rfl rfl (silent rfl)

theorem tasks_perform {s : Step} (performed : a.perform s = (answer, b))
    (before : a.scheduler.queue ≠ [] → a.scheduler.armed = true) (inside : Bool) :
    let e : Entry := ⟨a, .did s answer, heard inside s answer b⟩
    b.tasks = a.tasks ++ e.asked a.scheduler.armed ∧ b.scheduler.armed = e.arms a.scheduler.armed := by
  cases s with
  | schedule key work =>
      by_cases waits : key ∈ a.scheduler.queue
      · have armed := before (List.ne_nil_of_mem waits)
        rw [perform_schedule_of_mem waits] at performed
        cases performed
        simp [Entry.asked, Entry.arms, armed]
      · rw [perform_schedule_of_not_mem waits] at performed
        cases performed
        cases armed : a.scheduler.armed with
        | true => simp [Entry.asked, Entry.arms, Scheduler.add]
        | false => simp [Entry.asked, Entry.arms, Scheduler.add]
  | queue name work =>
      cases performed
      exact ⟨rfl, rfl⟩
  | take =>
      cases performed
      exact ⟨(List.append_nil _).symm, rfl⟩
  | isPending | run | debug =>
      cases performed
      exact ⟨(List.append_nil _).symm, rfl⟩

theorem Entry.Sound.tasks (sound : e.Sound)
    (before : e.before.scheduler.queue ≠ [] → e.before.scheduler.armed = true) :
    e.started ++ e.after.tasks = e.before.tasks ++ e.asked e.before.scheduler.armed ∧
      e.after.scheduler.armed = e.arms e.before.scheduler.armed := by
  cases sound with
  | started next => exact ⟨by simp [Entry.started, Entry.asked, start, note, next], rfl⟩
  | ended => exact ⟨by simp [Entry.started, Entry.asked, tasks_heard], by rw [scheduler_heard]; rfl⟩
  | @did a b s answer inside plain performed =>
      obtain ⟨queued, armed⟩ := tasks_perform performed before inside
      refine ⟨?_, ?_⟩
      · rw [tasks_heard]
        exact queued
      · rw [scheduler_heard]
        exact armed

/-- Entry by entry, nothing gets lost: neither a request nor a task. -/
theorem Joined.kept (joined : Joined a log b) (account : Account past a.scheduler) :
    Account (past ++ log) b.scheduler ∧
      log.flatMap Entry.started ++ b.tasks = a.tasks ++ askedIn a.scheduler.armed log := by
  induction joined generalizing past with
  | nil =>
      rw [List.append_nil]
      exact ⟨account, (List.append_nil _).symm⟩
  | @cons log b e sound further ih =>
      obtain ⟨queued, armed⟩ := sound.tasks fun waits => account.armed.mpr (account.queue ▸ waits)
      obtain ⟨account', order⟩ := ih (account.step sound)
      refine ⟨List.append_cons .. ▸ account', ?_⟩
      rw [List.flatMap_cons, askedIn, List.append_assoc, order, ← List.append_assoc, queued, armed, List.append_assoc]

theorem Joined.split (joined : Joined a (past ++ e :: future) b) : Joined a past e.before ∧ e.Sound := by
  induction past generalizing a with
  | nil =>
      cases joined with
      | cons sound => exact ⟨.nil, sound⟩
  | cons first past ih =>
      cases joined with
      | cons sound further =>
          obtain ⟨before, sound'⟩ := ih further
          exact ⟨.cons sound before, sound'⟩

/-- An entry keeps to what was asked for and queued before it. -/
structure Faithful (past : List Entry) (e : Entry) : Prop where
  /-- A take answers the keys that were asked for since the last one. -/
  takes : ∀ answer, e.act = .did .take answer → answer = .keys (wanted past)
  /-- A request is new if it is the first one for its key since the last take. -/
  schedules : ∀ key work answer, e.act = .did (.schedule key work) answer → answer = .bool (key ∉ wanted past)
  asks : ∀ key answer, e.act = .did (.isPending key) answer → answer = .bool (key ∈ wanted past)
  pending : ∀ key, e.after.scheduler.isPending key = true ↔ key ∈ wanted (past ++ [e])
  armed : e.after.scheduler.armed = true ↔ wanted (past ++ [e]) ≠ []
  /-- One flush task was made since the last take if there was a request, and none if there was not. -/
  made : (sinceTake (past ++ [e])).flatMap Entry.armed =
    ((requests (sinceTake (past ++ [e]))).take 1).map Prod.fst
  /-- What was started and what waits is what was to be queued, each task once and in the same order. -/
  order : (past ++ [e]).flatMap Entry.started ++ e.after.tasks = askedIn false (past ++ [e])
  /-- At the end of a run no task waits. -/
  runs : ∀ count, e.act = .ended count → e.after.tasks = []

theorem Entry.Sound.faithful (sound : e.Sound) (joined : Joined .empty past e.before) : Faithful past e := by
  obtain ⟨account, -⟩ := joined.kept account_nil
  obtain ⟨after, order⟩ := (joined.append (.cons sound .nil)).kept account_nil
  rw [List.nil_append] at account after
  refine ⟨?_, ?_, ?_, fun key => ?_, after.armed, after.made, order, ?_⟩
  · intro answer act
    cases sound with
    | did plain performed =>
        cases act
        rw [← account.queue]
        exact (Prod.mk.inj performed).1.symm
    | _ => contradiction
  · intro key work answer act
    cases sound with
    | did plain performed =>
        cases act
        rw [← account.queue, ← answer_schedule, performed]
    | _ => contradiction
  · intro key answer act
    cases sound with
    | did plain performed =>
        cases act
        rw [← account.queue, ← Scheduler.isPending_eq]
        exact (Prod.mk.inj performed).1.symm
    | _ => contradiction
  · rw [Scheduler.isPending_eq, after.queue, decide_eq_true_iff]
  · intro count act
    cases sound with
    | ended empty =>
        rw [tasks_heard]
        exact empty
    | _ => contradiction

/-- Whatever is done from outside and by the tasks, the scheduler and its queue of tasks keep to what was asked for. -/
theorem requests_kept (script : List Step) : ∃ log, Does false .empty script log (after .empty script) ∧
    ∀ past e future, log = past ++ e :: future → Faithful past e := by
  obtain ⟨log, does⟩ := exists_does script .empty
  refine ⟨log, does, ?_⟩
  rintro past e future rfl
  obtain ⟨before, sound⟩ := does.joined.split
  exact sound.faithful before

/-- A task of its own that queues another one and asks for a key. The flush task takes the key. -/
def nested : List Step := [.queue "outer" [.queue "inner" [], .schedule 7 [.take]], .run]

theorem nested_kept : ∃ log, Does false .empty nested log (after .empty nested) ∧
    (∀ past e future, log = past ++ e :: future → Faithful past e) ∧ log.map Entry.act = [
      .did (.queue "outer" [.queue "inner" [], .schedule 7 [.take]]) .nothing,
      .started ⟨"outer", [.queue "inner" [], .schedule 7 [.take]]⟩,
      .did (.queue "inner" []) .nothing,
      .did (.schedule 7 [.take]) (.bool true),
      .started ⟨"inner", []⟩,
      .started (flushTask 7 [.take]),
      .did .take (.keys [7]),
      .ended 3] := by
  obtain ⟨log, does, faithful⟩ := requests_kept nested
  refine ⟨log, does, faithful, ?_⟩
  obtain ⟨rfl, -⟩ := does.unique <| .step nofun rfl <| .run
    (.task rfl (.step nofun rfl (.step nofun rfl .nil)) (.task rfl .nil
      (.task rfl (.step nofun rfl .nil) (.idle rfl)))) .nil
  rfl

end Agenda
end Patchwork
