import Adjacency.Timer.Basic

/-!
# Timers on a virtual clock

A `Rehearsal` runs a timer without waiting. Its clock stands still except while a caller waits, and
then moves on to the next event. The tasks are chores: each notes that it has started, waits to be
released if it is held, takes its time, and notes that it has finished.

* `Rehearsal.settle`: what happens without time passing.
* `Rehearsal.waitUntil`: lets time pass until something holds or the patience is over.
* `Rehearsal.add`, `abort`, `release`, `stop`: the acts of callers.
-/

namespace Adjacency

/-- A task and what it does. -/
structure Chore where
  tag : String
  task : Nat
  /-- Waits for its release. -/
  held : Bool
  /-- Milliseconds that it takes once released. -/
  duration : Nat
  deriving DecidableEq

/-- A timer under a virtual clock. -/
structure Rehearsal where
  timer : Timer := {}
  now : Nat := 0
  /-- The newest first. -/
  chores : List Chore := []
  released : List String := []
  /-- When the running chore will finish, unless it is held. -/
  ends : Option Nat := none
  /-- Tags in the order of starting. -/
  started : List String := []
  /-- Tags in the order of finishing. -/
  finished : List String := []

namespace Rehearsal

/-- The chore of a task. -/
def choreOf (r : Rehearsal) (task : Nat) : Option Chore := r.chores.find? (·.task == task)

/-- The newest chore with a tag. -/
def tagged (r : Rehearsal) (tag : String) : Option Chore := r.chores.find? (·.tag == tag)

/-- The chore that is running. -/
def current (r : Rehearsal) : Option Chore := r.timer.running.bind r.choreOf

/-- Notes the start of a chore. -/
def commence (c : Chore) (r : Rehearsal) : Rehearsal :=
  { r with
    started := r.started ++ [c.tag]
    ends := if c.held && !r.released.contains c.tag then none else some (r.now + c.duration) }

/-- Notes the end of a chore. -/
def conclude (c : Chore) (r : Rehearsal) : Rehearsal :=
  { r with timer := r.timer.finish, finished := r.finished ++ [c.tag], ends := none }

/-- One step of the worker at the present time, if it has one. -/
def work? (r : Rehearsal) : Option Rehearsal :=
  match r.current with
  | some c => if r.ends.any (· ≤ r.now) then some (r.conclude c) else none
  | none =>
    match r.timer.start r.now with
    | (some task, timer) => (r.choreOf task).map fun c => commence c { r with timer }
    | (none, _) => none

/-- Steps of the worker, as many as given. -/
def workMany : Nat → Rehearsal → Rehearsal
  | 0, r => r
  | n + 1, r => match r.work? with
    | some r => workMany n r
    | none => r

/-- A bound on the steps to come: every task may start and finish. -/
def stepsAhead (r : Rehearsal) : Nat := 2 * r.timer.queue.length + 2

/-- All that happens without time passing. -/
def settle (r : Rehearsal) : Rehearsal := r.workMany r.stepsAhead

/-- When the worker has its next step; none when only a caller can bring it on. -/
def nextEvent (r : Rehearsal) : Option Nat :=
  if r.timer.running.isSome then r.ends
  else if r.timer.stopped then none
  else r.timer.queue.head?.map Alarm.due

/-- Goes from event to event, up to a time if one is given, until `seen` holds. -/
def waitMany (seen : Rehearsal → Bool) (deadline : Option Nat) : Nat → Rehearsal → Bool × Rehearsal
  | 0, r => (seen r, r)
  | n + 1, r =>
    if seen r then (true, r)
    else match r.nextEvent, deadline with
      | some event, some last =>
        if event ≤ last then waitMany seen deadline n (settle { r with now := max r.now event })
        else (false, { r with now := last })
      | some event, none => waitMany seen deadline n (settle { r with now := max r.now event })
      | none, some last => (false, { r with now := last })
      | none, none => (false, r)

/-- Lets time pass until `seen` holds, at most as many milliseconds as given. -/
def waitUntil (seen : Rehearsal → Bool) (patience : Option Nat) (r : Rehearsal) :
    Bool × Rehearsal :=
  waitMany seen (patience.map (r.now + ·)) r.stepsAhead r

/-- Adds a chore. The answer tells whether its number is a new one. -/
def add (tag : String) (delay : Nat) (held : Bool) (duration : Nat) (r : Rehearsal) :
    Bool × Rehearsal :=
  let (task, timer) := r.timer.add (r.now + delay)
  (!r.chores.any (·.task == task),
    settle { r with timer, chores := { tag, task, held, duration } :: r.chores })

/-- Aborts a chore, and waits for it if it is running. The answer tells whether it was kept from
starting. -/
def abort (tag : String) (r : Rehearsal) : Bool × Rehearsal :=
  match r.tagged tag with
  | none => (false, r)
  | some c =>
    match r.timer.abort c.task with
    | (.cancelled, timer) => (true, settle { r with timer })
    | (.running, _) => (false, (r.waitUntil (fun r => r.timer.running != some c.task) none).2)
    | (.gone, _) => (false, r)

/-- Releases a chore that is held, or will be. -/
def release (tag : String) (r : Rehearsal) : Rehearsal :=
  let r := { r with released := tag :: r.released }
  match r.current with
  | some c =>
    if c.tag = tag ∧ c.held ∧ r.ends.isNone then settle { r with ends := some (r.now + c.duration) }
    else r
  | none => r

/-- Stops the timer, and waits for the running chore. -/
def stop (r : Rehearsal) : Rehearsal :=
  (waitUntil (fun r => r.timer.running.isNone) none { r with timer := r.timer.stop }).2

end Rehearsal

end Adjacency
