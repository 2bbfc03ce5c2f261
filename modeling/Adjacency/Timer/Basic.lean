/-!
# A timer with one worker

A `Timer` starts each task once, when it is due, one task at a time. Callers add and abort tasks and
stop the timer while its worker starts and finishes them; every change below is one atomic step, and
the steps of callers and worker may come in any order.

* `Timer.add`, `Timer.abort`, `Timer.stop`: the steps of callers.
* `Timer.start`, `Timer.finish`: the steps of the worker. It starts the task due first, of several
  the one added first.
-/

namespace Adjacency

/-- A task's place in the queue. -/
structure Alarm where
  due : Nat
  task : Nat
  deriving DecidableEq

/-- Earlier due, or added earlier when due at the same time. -/
def Alarm.precedes (a b : Alarm) : Bool := a.due < b.due || (a.due == b.due && a.task < b.task)

/-- The state of a timer. Tasks are numbered in the order of adding. -/
structure Timer where
  /-- In the order in which the alarms go off. An aborted task keeps its place until it is met. -/
  queue : List Alarm := []
  /-- The tasks that may still start. -/
  waiting : List Nat := []
  running : Option Nat := none
  /-- The number of the next task. -/
  issued : Nat := 0
  stopped : Bool := false
  deriving DecidableEq

namespace Timer

/-- Puts an alarm before the first that it precedes. -/
def enqueue (a : Alarm) : List Alarm → List Alarm
  | [] => [a]
  | b :: rest => if a.precedes b then a :: b :: rest else b :: enqueue a rest

/-- Schedules a task, and returns its number. -/
def add (due : Nat) (t : Timer) : Nat × Timer :=
  (t.issued,
    { t with
      queue := enqueue ⟨due, t.issued⟩ t.queue
      waiting := t.issued :: t.waiting
      issued := t.issued + 1 })

/-- What an attempt to abort a task finds. -/
inductive AbortOutcome
  /-- The task had not started and never will. -/
  | cancelled
  /-- The task is running; the caller waits for it to finish. -/
  | running
  /-- The task has finished, or was aborted or dropped before. -/
  | gone
  deriving DecidableEq

/-- Keeps a task from starting. -/
def abort (task : Nat) (t : Timer) : AbortOutcome × Timer :=
  if t.waiting.contains task then (.cancelled, { t with waiting := t.waiting.erase task })
  else if t.running = some task then (.running, t)
  else (.gone, t)

/-- Ends the work; tasks that have not started are dropped. A task added later waits for nothing. -/
def stop (t : Timer) : Timer :=
  if t.stopped then t else { t with queue := [], waiting := [], stopped := true }

/-- The first task of a queue that is due and not aborted, and the queue behind it. -/
def nextDue (now : Nat) (waiting : List Nat) : List Alarm → Option Nat × List Alarm
  | [] => (none, [])
  | a :: rest =>
    if now < a.due then (none, a :: rest)
    else if waiting.contains a.task then (some a.task, rest)
    else nextDue now waiting rest

/-- The worker, when idle, takes up the next task that is due. -/
def start (now : Nat) (t : Timer) : Option Nat × Timer :=
  if t.stopped || t.running.isSome then (none, t)
  else
    match nextDue now t.waiting t.queue with
    | (none, queue) => (none, { t with queue })
    | (some task, queue) =>
      (some task, { t with queue, waiting := t.waiting.erase task, running := some task })

/-- The worker is done with its task. -/
def finish (t : Timer) : Timer := { t with running := none }

end Timer

end Adjacency
