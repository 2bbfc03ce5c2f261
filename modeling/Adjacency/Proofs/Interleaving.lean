import Mathlib.Data.List.Infix
import Mathlib.Tactic
import Adjacency.Timer.Basic

/-!
# Callers and a worker in any order

A `World` is a timer with the callers that sleep in it, and a `Step` one atomic step of a caller or
of the worker. A `Run` is any sequence of steps, and its log says what was done and answered.

* `Timer.World.Inv`: what every step preserves. The alarms are in order, and a task that runs or that
  a caller sleeps on will not start again.
* `Timer.Chronicle`: what the log of a run says of the state that it has led to.
* `Timer.Run.orderly`: how the starts of tasks, the answers of aborts and the stops lie in the log of
  any run.
-/

namespace Adjacency

/-! ## Alarms in order -/

/-- The order of the alarms: by the time due, then by the order of adding. -/
theorem Alarm.precedes_iff {a b : Alarm} :
    a.precedes b = true ↔ a.due < b.due ∨ a.due = b.due ∧ a.task < b.task := by
  simp [Alarm.precedes]

theorem Alarm.precedes_of_not {a b : Alarm} (h : a.precedes b = false) (hne : a.task ≠ b.task) :
    b.precedes a = true := by
  rw [Bool.eq_false_iff, ne_eq, precedes_iff] at h
  rw [precedes_iff]
  omega

theorem Alarm.precedes_trans {a b c : Alarm} (hab : a.precedes b = true) (hbc : b.precedes c = true) :
    a.precedes c = true := by
  rw [precedes_iff] at *
  omega

namespace Timer

theorem mem_enqueue {a b : Alarm} {queue : List Alarm} :
    b ∈ enqueue a queue ↔ b = a ∨ b ∈ queue := by
  induction queue with
  | nil => simp [enqueue]
  | cons c rest ih =>
    rw [enqueue]
    split
    · simp
    · simp only [List.mem_cons, ih]
      tauto

theorem enqueue_sorted {a : Alarm} {queue : List Alarm}
    (hs : queue.Pairwise (·.precedes ·)) (hne : ∀ b ∈ queue, a.task ≠ b.task) :
    (enqueue a queue).Pairwise (·.precedes ·) := by
  induction queue with
  | nil => simp [enqueue]
  | cons b rest ih =>
    obtain ⟨hb, hrest⟩ := List.pairwise_cons.1 hs
    rw [enqueue]
    split
    case isTrue hab =>
      refine List.pairwise_cons.2 ⟨fun c hc => ?_, hs⟩
      rcases List.mem_cons.1 hc with rfl | hc
      · exact hab
      · exact Alarm.precedes_trans hab (hb c hc)
    case isFalse hab =>
      refine List.pairwise_cons.2
        ⟨fun c hc => ?_, ih hrest fun c hc => hne c (List.mem_cons_of_mem _ hc)⟩
      rcases mem_enqueue.1 hc with rfl | hc
      · exact Alarm.precedes_of_not (Bool.eq_false_iff.2 hab) (hne b List.mem_cons_self)
      · exact hb c hc

/-! ## What the worker takes up -/

variable {t t' : Timer} {now task : Nat}

/-- The alarms passed over belong to tasks that wait no longer. The one taken up is due, and its
task waits. -/
theorem nextDue_split (now : Nat) (waiting : List Nat) (queue : List Alarm) :
    ∃ passed, (∀ b ∈ passed, b.task ∉ waiting) ∧
      match nextDue now waiting queue with
      | (none, rest) => queue = passed ++ rest
      | (some task, rest) =>
        ∃ due ≤ now, task ∈ waiting ∧ queue = passed ++ ⟨due, task⟩ :: rest := by
  induction queue with
  | nil => exact ⟨[], by simp [nextDue]⟩
  | cons a rest ih =>
    rw [nextDue]
    split_ifs with hdue hmem
    · exact ⟨[], by simp⟩
    · exact ⟨[], by simp, a.due, not_lt.1 hdue, by simpa using hmem, rfl⟩
    · obtain ⟨passed, hpassed, hrest⟩ := ih
      refine ⟨a :: passed, List.forall_mem_cons.2 ⟨by simpa using hmem, hpassed⟩, ?_⟩
      split at hrest
      · simp [hrest]
      · obtain ⟨due, hle, hw, heq⟩ := hrest
        exact ⟨due, hle, hw, by simp [heq]⟩

/-- When the worker starts a task it was idle and the timer not stopped. -/
theorem start_some (h : t.start now = (some task, t')) :
    t.stopped = false ∧ t.running = none ∧ task ∈ t.waiting ∧
      ∃ passed due rest, (∀ b ∈ passed, b.task ∉ t.waiting) ∧ due ≤ now ∧
        t.queue = passed ++ ⟨due, task⟩ :: rest ∧
        t' = { t with queue := rest, waiting := t.waiting.erase task, running := some task } := by
  rw [start] at h
  split_ifs at h with hidle
  · cases h
  · obtain ⟨hstopped, hrunning⟩ : t.stopped = false ∧ t.running = none := by simpa using hidle
    obtain ⟨passed, hpassed, hsplit⟩ := nextDue_split now t.waiting t.queue
    split at h
    · cases h
    · rename_i found rest hfound
      cases h
      rw [hfound] at hsplit
      obtain ⟨due, hle, hw, hqueue⟩ := hsplit
      exact ⟨hstopped, hrunning, hw, passed, due, rest, hpassed, hle, hqueue, rfl⟩

/-- A worker that starts nothing at most drops alarms of tasks that wait no longer. -/
theorem start_none (h : t.start now = (none, t')) :
    ∃ passed rest, (∀ b ∈ passed, b.task ∉ t.waiting) ∧ t.queue = passed ++ rest ∧
      t' = { t with queue := rest } := by
  rw [start] at h
  split_ifs at h with hidle
  · cases h
    exact ⟨[], t.queue, by simp⟩
  · obtain ⟨passed, hpassed, hsplit⟩ := nextDue_split now t.waiting t.queue
    split at h
    · rename_i rest hfound
      cases h
      rw [hfound] at hsplit
      exact ⟨passed, rest, hpassed, hsplit, rfl⟩
    · cases h

theorem abort_cancelled (h : t.abort task = (.cancelled, t')) :
    task ∈ t.waiting ∧ t' = { t with waiting := t.waiting.erase task } := by
  rw [abort] at h
  split_ifs at h with hw hr <;> cases h
  exact ⟨by simpa using hw, rfl⟩

theorem abort_running (h : t.abort task = (.running, t')) : t.running = some task ∧ t' = t := by
  rw [abort] at h
  split_ifs at h with hw hr <;> cases h
  exact ⟨hr, rfl⟩

theorem abort_gone (h : t.abort task = (.gone, t')) :
    task ∉ t.waiting ∧ t.running ≠ some task ∧ t' = t := by
  rw [abort] at h
  split_ifs at h with hw hr <;> cases h
  exact ⟨by simpa using hw, hr, rfl⟩

/-! ## Steps -/

/-- A timer and the callers asleep in it. -/
structure World where
  timer : Timer := {}
  /-- For each caller asleep, the task whose end it waits for. -/
  asleep : List Nat := []
  deriving DecidableEq

/-- What a step does, or answers to its caller. -/
inductive Event
  /-- A caller has added a task, and has its number. -/
  | added (task due : Nat)
  /-- A caller's abort has answered that the task was kept from starting. -/
  | cancelled (task : Nat)
  /-- A caller's abort has found its task running, and sleeps. -/
  | slept (task : Nat)
  /-- A caller's abort has answered that the task was not kept from starting. -/
  | refused (task : Nat)
  /-- A caller has stopped the timer. -/
  | stopped
  /-- The worker has started a task. -/
  | started (task now : Nat)
  /-- The worker has found nothing to start. -/
  | rested (now : Nat)
  /-- The worker's task has ended. -/
  | finished (task : Nat)
  deriving DecidableEq

/-- One atomic step. A task may be added for any time, and the worker's clock may show any. -/
inductive Step : World → Event → World → Prop
  | add {s : World} {due task : Nat} {t : Timer} (h : s.timer.add due = (task, t)) :
    Step s (.added task due) { s with timer := t }
  | cancel {s : World} {task : Nat} {t : Timer} (h : s.timer.abort task = (.cancelled, t)) :
    Step s (.cancelled task) { s with timer := t }
  | sleep {s : World} {task : Nat} {t : Timer} (h : s.timer.abort task = (.running, t)) :
    Step s (.slept task) { timer := t, asleep := task :: s.asleep }
  | refuse {s : World} {task : Nat} {t : Timer} (h : s.timer.abort task = (.gone, t)) :
    Step s (.refused task) { s with timer := t }
  /-- A caller that wakes sleeps on unless its task has ended. -/
  | wake {s : World} {task : Nat} (h : task ∈ s.asleep) (hr : s.timer.running ≠ some task) :
    Step s (.refused task) { s with asleep := s.asleep.erase task }
  | stop {s : World} : Step s .stopped { s with timer := s.timer.stop }
  | start {s : World} {task now : Nat} {t : Timer} (h : s.timer.start now = (some task, t)) :
    Step s (.started task now) { s with timer := t }
  | rest {s : World} {now : Nat} {t : Timer} (h : s.timer.start now = (none, t)) :
    Step s (.rested now) { s with timer := t }
  | finish {s : World} {task : Nat} (h : s.timer.running = some task) :
    Step s (.finished task) { s with timer := s.timer.finish }

/-- Steps in any order, with their log. -/
inductive Run : World → List Event → World → Prop
  | nil {s : World} : Run s [] s
  | cons {s₁ s₂ s₃ : World} {e : Event} {log : List Event} (h : Step s₁ e s₂) (hr : Run s₂ log s₃) :
    Run s₁ (e :: log) s₃

variable {s s' s₁ s₂ : World} {e : Event} {log before after : List Event}

theorem Run.split (h : Run s₁ (before ++ after) s₂) : ∃ s, Run s₁ before s ∧ Run s after s₂ := by
  induction before generalizing s₁ with
  | nil => exact ⟨s₁, .nil, h⟩
  | cons e before ih =>
    cases h with
    | cons hstep hrun =>
      obtain ⟨s, hbefore, hafter⟩ := ih hrun
      exact ⟨s, .cons hstep hbefore, hafter⟩

/-! ## Tasks that will not start -/

/-- A task that was added and will not start any more. -/
def Spent (t : Timer) (task : Nat) : Prop := task < t.issued ∧ task ∉ t.waiting

theorem Step.spent (h : Step s e s') (hs : s.timer.Spent task) : s'.timer.Spent task := by
  obtain ⟨hlt, hw⟩ := hs
  cases h with
  | add h =>
    cases h
    exact ⟨Nat.lt_succ_of_lt hlt, List.not_mem_cons_of_ne_of_not_mem (Nat.ne_of_lt hlt) hw⟩
  | cancel h =>
    obtain ⟨-, rfl⟩ := abort_cancelled h
    exact ⟨hlt, fun hmem => hw (List.mem_of_mem_erase hmem)⟩
  | sleep h =>
    obtain ⟨-, rfl⟩ := abort_running h
    exact ⟨hlt, hw⟩
  | refuse h =>
    obtain ⟨-, -, rfl⟩ := abort_gone h
    exact ⟨hlt, hw⟩
  | wake => exact ⟨hlt, hw⟩
  | stop =>
    simp only [Timer.stop]
    split_ifs
    · exact ⟨hlt, hw⟩
    · exact ⟨hlt, List.not_mem_nil⟩
  | start h =>
    obtain ⟨-, -, -, -, -, -, -, -, -, rfl⟩ := start_some h
    exact ⟨hlt, fun hmem => hw (List.mem_of_mem_erase hmem)⟩
  | rest h =>
    obtain ⟨-, -, -, -, rfl⟩ := start_none h
    exact ⟨hlt, hw⟩
  | finish => exact ⟨hlt, hw⟩

theorem Run.spent (h : Run s log s') (hs : s.timer.Spent task) : s'.timer.Spent task := by
  induction h with
  | nil => exact hs
  | cons hstep _ ih => exact ih (hstep.spent hs)

theorem Run.not_started_of_spent (h : Run s log s') (hs : s.timer.Spent task) (now : Nat) :
    .started task now ∉ log := by
  induction h with
  | nil => simp
  | cons hstep _ ih =>
    refine List.not_mem_cons_of_ne_of_not_mem ?_ (ih (hstep.spent hs))
    rintro rfl
    cases hstep with
    | start h => exact hs.2 (start_some h).2.2.1

theorem Step.stopped (h : Step s e s') (hs : s.timer.stopped = true) : s'.timer.stopped = true := by
  cases h with
  | add h =>
    cases h
    exact hs
  | wake | finish => exact hs
  | cancel h =>
    obtain ⟨-, rfl⟩ := abort_cancelled h
    exact hs
  | sleep h =>
    obtain ⟨-, rfl⟩ := abort_running h
    exact hs
  | refuse h =>
    obtain ⟨-, -, rfl⟩ := abort_gone h
    exact hs
  | stop => simp [Timer.stop, hs]
  | start h =>
    obtain ⟨-, -, -, -, -, -, -, -, -, rfl⟩ := start_some h
    exact hs
  | rest h =>
    obtain ⟨-, -, -, -, rfl⟩ := start_none h
    exact hs

theorem Run.not_started_of_stopped (h : Run s log s') (hs : s.timer.stopped = true)
    (task now : Nat) : .started task now ∉ log := by
  induction h with
  | nil => simp
  | cons hstep _ ih =>
    refine List.not_mem_cons_of_ne_of_not_mem ?_ (ih (hstep.stopped hs))
    rintro rfl
    cases hstep with
    | start h => simp [(start_some h).1] at hs

/-! ## The invariant -/

/-- What holds of a timer and the callers asleep in it after any number of steps. -/
structure World.Inv (s : World) : Prop where
  sorted : s.timer.queue.Pairwise (·.precedes ·)
  alarm_lt : ∀ a ∈ s.timer.queue, a.task < s.timer.issued
  nodup : s.timer.waiting.Nodup
  waiting_lt : ∀ task ∈ s.timer.waiting, task < s.timer.issued
  running : ∀ task, s.timer.running = some task → s.timer.Spent task
  asleep : ∀ task ∈ s.asleep, s.timer.Spent task

theorem World.inv_init : World.Inv {} := by
  constructor <;> simp

/-- Alarms leave the queue from its head, and tasks only stop waiting. -/
theorem World.Inv.of_less (hs : s.Inv) (hstep : Step s e s')
    (hqueue : s'.timer.queue <:+ s.timer.queue) (hwaiting : s'.timer.waiting.Sublist s.timer.waiting)
    (hissued : s'.timer.issued = s.timer.issued)
    (hrunning : ∀ task, s'.timer.running = some task →
      s.timer.running = some task ∨ s'.timer.Spent task)
    (hasleep : ∀ task ∈ s'.asleep, task ∈ s.asleep ∨ s.timer.running = some task) : s'.Inv where
  sorted := hs.sorted.sublist hqueue.sublist
  alarm_lt a ha := hissued ▸ hs.alarm_lt a (hqueue.subset ha)
  nodup := hs.nodup.sublist hwaiting
  waiting_lt task ht := hissued ▸ hs.waiting_lt task (hwaiting.subset ht)
  running task hr := (hrunning task hr).elim (fun hold => hstep.spent (hs.running task hold)) id
  asleep task ht := hstep.spent <| (hasleep task ht).elim (hs.asleep task) (hs.running task)

/-- A task that is added has a number that no other has. -/
theorem World.Inv.add (hs : s.Inv) (due : Nat) :
    World.Inv { s with timer := (s.timer.add due).2 } := by
  have hstep : Step s (.added (s.timer.add due).1 due) { s with timer := (s.timer.add due).2 } := .add rfl
  have hne : ∀ b ∈ s.timer.queue, s.timer.issued ≠ b.task := fun b hb =>
    (Nat.ne_of_lt (hs.alarm_lt b hb)).symm
  have hfresh : s.timer.issued ∉ s.timer.waiting := fun hmem =>
    Nat.lt_irrefl _ (hs.waiting_lt _ hmem)
  refine ⟨enqueue_sorted hs.sorted hne, ?_, List.nodup_cons.2 ⟨hfresh, hs.nodup⟩, ?_,
    fun task hr => hstep.spent (hs.running task hr),
    fun task ht => hstep.spent (hs.asleep task ht)⟩
  · intro a ha
    rcases mem_enqueue.1 ha with rfl | ha
    · exact Nat.lt_succ_self _
    · exact Nat.lt_succ_of_lt (hs.alarm_lt a ha)
  · intro task ht
    rcases List.mem_cons.1 ht with rfl | ht
    · exact Nat.lt_succ_self _
    · exact Nat.lt_succ_of_lt (hs.waiting_lt task ht)

theorem Step.inv (h : Step s e s') (hs : s.Inv) : s'.Inv := by
  have hstep := h
  cases h with
  | @add due _ _ h =>
    cases h
    exact hs.add due
  | cancel h =>
    obtain ⟨-, rfl⟩ := abort_cancelled h
    exact hs.of_less hstep List.suffix_rfl List.erase_sublist rfl (fun _ => .inl) fun _ => .inl
  | sleep h =>
    obtain ⟨hr, rfl⟩ := abort_running h
    refine hs.of_less hstep List.suffix_rfl (List.Sublist.refl _) rfl (fun _ => .inl) ?_
    intro task ht
    rcases List.mem_cons.1 ht with rfl | ht
    · exact .inr hr
    · exact .inl ht
  | refuse h =>
    obtain ⟨-, -, rfl⟩ := abort_gone h
    exact hs.of_less hstep List.suffix_rfl (List.Sublist.refl _) rfl (fun _ => .inl) fun _ => .inl
  | wake h hr =>
    exact hs.of_less hstep List.suffix_rfl (List.Sublist.refl _) rfl (fun _ => .inl)
      fun task ht => .inl (List.mem_of_mem_erase ht)
  | stop =>
    simp only [Timer.stop] at hstep ⊢
    split_ifs at hstep ⊢
    · exact hs
    · exact hs.of_less hstep (List.nil_suffix) (List.nil_sublist _) rfl (fun _ => .inl) fun _ => .inl
  | @start task _ _ h =>
    obtain ⟨-, -, hw, passed, due, rest, -, -, hqueue, rfl⟩ := start_some h
    have hsuffix : rest <:+ s.timer.queue := ⟨passed ++ [⟨due, task⟩], by simp [hqueue]⟩
    refine hs.of_less hstep hsuffix List.erase_sublist rfl ?_ fun _ => .inl
    intro task' hr
    obtain rfl := Option.some.inj hr
    exact .inr ⟨hs.waiting_lt _ hw, hs.nodup.not_mem_erase⟩
  | rest h =>
    obtain ⟨passed, rest, -, hqueue, rfl⟩ := start_none h
    exact hs.of_less hstep ⟨passed, hqueue.symm⟩ (List.Sublist.refl _) rfl (fun _ => .inl) fun _ => .inl
  | finish h =>
    exact hs.of_less hstep List.suffix_rfl (List.Sublist.refl _) rfl (by simp [Timer.finish])
      fun _ => .inl

theorem Run.inv (h : Run s log s') (hs : s.Inv) : s'.Inv := by
  induction h with
  | nil => exact hs
  | cons hstep _ ih => exact ih (hstep.inv hs)

/-! ## The log -/

/-- The tasks under way after one more event. -/
def Event.mark (tasks : List Nat) : Event → List Nat
  | .started task _ => tasks ++ [task]
  | .finished task => tasks.erase task
  | _ => tasks

/-- The tasks that have started and not finished. -/
def underway (log : List Event) : List Nat := log.foldl Event.mark []

theorem underway_append_singleton : underway (log ++ [e]) = e.mark (underway log) := by
  simp [underway]

/-- What the log of a run says of the timer. -/
structure Chronicle (log : List Event) (t : Timer) : Prop where
  issued : ∀ task due, .added task due ∈ log → task < t.issued
  recorded : ∀ a ∈ t.queue, .added a.task a.due ∈ log
  /-- Only an abort, a start or a stop ends the waiting of a task. -/
  waits : t.stopped = false → ∀ task due, .added task due ∈ log → .cancelled task ∉ log →
    (∀ now, .started task now ∉ log) → task ∈ t.waiting ∧ ⟨due, task⟩ ∈ t.queue
  running : underway log = t.running.toList

theorem chronicle_init : Chronicle [] {} := by
  constructor <;> simp [underway]

/-- After a step that adds no task, the log says what it said, if the tasks that still wait keep
their alarms. -/
theorem Chronicle.of_less (hc : Chronicle log t) (hadd : ∀ task due, e ≠ .added task due)
    (hissued : t'.issued = t.issued) (hqueue : t'.queue ⊆ t.queue)
    (hstopped : t'.stopped = false → t.stopped = false)
    (hwaits : t'.stopped = false → ∀ task due, task ∈ t.waiting → ⟨due, task⟩ ∈ t.queue →
      e ≠ .cancelled task → (∀ now, e ≠ .started task now) →
        task ∈ t'.waiting ∧ ⟨due, task⟩ ∈ t'.queue)
    (hrunning : e.mark t.running.toList = t'.running.toList) : Chronicle (log ++ [e]) t' where
  issued task due hmem := by
    rcases List.mem_append.1 hmem with hmem | hmem
    · exact hissued ▸ hc.issued task due hmem
    · exact absurd (List.mem_singleton.1 hmem).symm (hadd task due)
  recorded a ha := List.mem_append_left _ (hc.recorded a (hqueue ha))
  waits hs task due hmem hcancelled hstarted := by
    simp only [List.mem_append, List.mem_singleton, not_or] at hcancelled hstarted
    rcases List.mem_append.1 hmem with hmem | hmem
    · obtain ⟨hw, hq⟩ := hc.waits (hstopped hs) task due hmem hcancelled.1 fun now => (hstarted now).1
      exact hwaits hs task due hw hq (Ne.symm hcancelled.2) fun now => Ne.symm (hstarted now).2
    · exact absurd (List.mem_singleton.1 hmem).symm (hadd task due)
  running := by rw [underway_append_singleton, hc.running, hrunning]

/-- A task that is added waits, and its alarm is in the queue. -/
theorem Chronicle.add (hc : Chronicle log t) (due : Nat) :
    Chronicle (log ++ [.added (t.add due).1 due]) (t.add due).2 where
  issued task due' hmem := by
    rcases List.mem_append.1 hmem with hmem | hmem
    · exact Nat.lt_succ_of_lt (hc.issued task due' hmem)
    · obtain ⟨rfl, -⟩ := Event.added.inj (List.mem_singleton.1 hmem)
      exact Nat.lt_succ_self _
  recorded a ha := by
    rcases mem_enqueue.1 ha with rfl | ha
    · exact List.mem_append_right _ (List.mem_singleton.2 rfl)
    · exact List.mem_append_left _ (hc.recorded a ha)
  waits hs task due' hmem hcancelled hstarted := by
    simp only [List.mem_append, not_or] at hcancelled hstarted
    rcases List.mem_append.1 hmem with hmem | hmem
    · obtain ⟨hw, hq⟩ := hc.waits hs task due' hmem hcancelled.1 fun now => (hstarted now).1
      exact ⟨List.mem_cons_of_mem _ hw, mem_enqueue.2 (.inr hq)⟩
    · obtain ⟨rfl, rfl⟩ := Event.added.inj (List.mem_singleton.1 hmem)
      exact ⟨List.mem_cons_self, mem_enqueue.2 (.inl rfl)⟩
  running := by
    rw [underway_append_singleton]
    exact hc.running

theorem Step.chronicle (h : Step s e s') (hc : Chronicle log s.timer) :
    Chronicle (log ++ [e]) s'.timer := by
  cases h with
  | @add due _ _ h =>
    cases h
    exact hc.add due
  | cancel h =>
    obtain ⟨-, rfl⟩ := abort_cancelled h
    refine hc.of_less (by simp) rfl (List.Subset.refl _) id ?_ rfl
    intro _ task' due hw hq hne _
    exact ⟨(List.mem_erase_of_ne fun heq => hne (by rw [heq])).2 hw, hq⟩
  | sleep h =>
    obtain ⟨-, rfl⟩ := abort_running h
    exact hc.of_less (by simp) rfl (List.Subset.refl _) id (fun _ _ _ hw hq _ _ => ⟨hw, hq⟩) rfl
  | refuse h =>
    obtain ⟨-, -, rfl⟩ := abort_gone h
    exact hc.of_less (by simp) rfl (List.Subset.refl _) id (fun _ _ _ hw hq _ _ => ⟨hw, hq⟩) rfl
  | wake =>
    exact hc.of_less (by simp) rfl (List.Subset.refl _) id (fun _ _ _ hw hq _ _ => ⟨hw, hq⟩) rfl
  | stop =>
    simp only [Timer.stop]
    split_ifs with hs
    · exact hc.of_less (by simp) rfl (List.Subset.refl _) id (fun _ _ _ hw hq _ _ => ⟨hw, hq⟩) rfl
    · exact hc.of_less (by simp) rfl (List.nil_subset _) (by simp) (by simp) rfl
  | @start task now _ h =>
    obtain ⟨-, hr, hw, passed, due, rest, hpassed, -, hqueue, rfl⟩ := start_some h
    refine hc.of_less (by simp) rfl (by simp [hqueue]) id ?_ (by simp [Event.mark, hr])
    intro _ other due' hw' hq _ hne
    have hother : other ≠ task := fun heq => hne now (heq ▸ rfl)
    refine ⟨(List.mem_erase_of_ne hother).2 hw', ?_⟩
    rw [hqueue] at hq
    -- the alarms passed over are of tasks that wait no longer
    rcases List.mem_append.1 hq with hq | hq
    · exact absurd hw' (hpassed _ hq)
    · exact List.mem_of_ne_of_mem (by simp [hother]) hq
  | rest h =>
    obtain ⟨passed, rest, hpassed, hqueue, rfl⟩ := start_none h
    refine hc.of_less (by simp) rfl (by simp [hqueue]) id ?_ rfl
    intro _ other due' hw' hq _ _
    rw [hqueue] at hq
    exact ⟨hw', (List.mem_append.1 hq).resolve_left fun hq => hpassed _ hq hw'⟩
  | finish h =>
    exact hc.of_less (by simp) rfl (List.Subset.refl _) id (fun _ _ _ hw hq _ _ => ⟨hw, hq⟩)
      (by simp [Event.mark, h, Timer.finish])

theorem Run.chronicle (h : Run s log s') (hc : Chronicle before s.timer) :
    Chronicle (before ++ log) s'.timer := by
  induction h generalizing before with
  | nil => simpa using hc
  | cons hstep _ ih => simpa using ih (hstep.chronicle hc)

/-! ## Every run -/

/-- What the log of every run shows. -/
structure Orderly (log : List Event) : Prop where
  /-- No two tasks have the same number. -/
  numbered : ∀ before task due after, log = before ++ .added task due :: after →
    ∀ due', .added task due' ∉ after
  /-- A task that starts was added and is due, and of all the tasks that were added, and neither kept
  from starting nor started, it is the one due first, of several the one added first. -/
  first : ∀ before task now after, log = before ++ .started task now :: after →
    ∃ due ≤ now, .added task due ∈ before ∧
      ∀ other due', .added other due' ∈ before → .cancelled other ∉ before →
        (∀ now', .started other now' ∉ before) → other ≠ task →
          due < due' ∨ due = due' ∧ task < other
  /-- A task starts at most once. -/
  once : ∀ before task now after, log = before ++ .started task now :: after →
    ∀ now', .started task now' ∉ after
  /-- At no time is more than one task under way. -/
  alone : ∀ before, before <+: log → (underway before).length ≤ 1
  /-- A task whose abort answered that it was kept from starting never starts. -/
  cancelled : ∀ task now, .cancelled task ∈ log → .started task now ∉ log
  /-- When an abort answers that a task was not kept from starting, the task is not under way, and
  does not start later. -/
  refused : ∀ before task after, log = before ++ .refused task :: after →
    (∃ due, .added task due ∈ before) →
      task ∉ underway before ∧ ∀ now, .started task now ∉ after
  /-- After a stop no task starts, not even one that is added later. -/
  stopped : ∀ before after, log = before ++ .stopped :: after →
    ∀ task now, .started task now ∉ after

/-- The states around a step of a run, with all that is known of the first. -/
theorem Run.around (h : Run {} (before ++ e :: after) s') :
    ∃ s₁ s₂, Run {} before s₁ ∧ s₁.Inv ∧ Chronicle before s₁.timer ∧ Step s₁ e s₂ ∧
      Run s₂ after s' := by
  obtain ⟨s₁, hbefore, hrest⟩ := h.split
  cases hrest with
  | cons hstep hafter =>
    exact ⟨s₁, _, hbefore, hbefore.inv World.inv_init, hbefore.chronicle chronicle_init, hstep,
      hafter⟩

/-- A task that has started is spent. -/
theorem Step.spent_of_started (hs : s.Inv) (h : Step s (.started task now) s') :
    s'.timer.Spent task := by
  cases h with
  | start h =>
    obtain ⟨-, -, hw, -, -, -, -, -, -, rfl⟩ := start_some h
    exact ⟨hs.waiting_lt task hw, hs.nodup.not_mem_erase⟩

/-- So is a task kept from starting. -/
theorem Step.spent_of_cancelled (hs : s.Inv) (h : Step s (.cancelled task) s') :
    task ∈ s.timer.waiting ∧ s'.timer.Spent task := by
  cases h with
  | cancel h =>
    obtain ⟨hw, rfl⟩ := abort_cancelled h
    exact ⟨hw, hs.waiting_lt task hw, hs.nodup.not_mem_erase⟩

/-- So is an added task whose abort answers that it was not kept from starting. -/
theorem Step.spent_of_refused (hs : s.Inv) (h : Step s (.refused task) s')
    (hlt : task < s.timer.issued) : s.timer.running ≠ some task ∧ s'.timer.Spent task := by
  have hstep := h
  cases h with
  | refuse h =>
    obtain ⟨hw, hr, rfl⟩ := abort_gone h
    exact ⟨hr, hlt, hw⟩
  | wake hasleep hr => exact ⟨hr, hstep.spent (hs.asleep task hasleep)⟩

/-- The task that starts has the first alarm of those whose tasks wait. -/
theorem World.Inv.first (hs : s.Inv) (hc : Chronicle log s.timer)
    (h : s.timer.start now = (some task, t)) :
    ∃ due ≤ now, .added task due ∈ log ∧
      ∀ other due', other ∈ s.timer.waiting → ⟨due', other⟩ ∈ s.timer.queue → other ≠ task →
        due < due' ∨ due = due' ∧ task < other := by
  obtain ⟨-, -, -, passed, due, rest, hpassed, hle, hqueue, -⟩ := start_some h
  refine ⟨due, hle, hc.recorded ⟨due, task⟩ (by simp [hqueue]), ?_⟩
  intro other due' hw hq hne
  have hsorted := hs.sorted
  rw [hqueue] at hq hsorted
  obtain ⟨-, hsorted, -⟩ := List.pairwise_append.1 hsorted
  rcases List.mem_append.1 hq with hq | hq
  · exact absurd hw (hpassed _ hq)
  · have hrest : ⟨due', other⟩ ∈ rest := List.mem_of_ne_of_mem (by simp [hne]) hq
    exact Alarm.precedes_iff.1 ((List.pairwise_cons.1 hsorted).1 _ hrest)

/-- In whatever order callers and worker take their steps, a task starts at most once, when it is
due and first in line, and alone; and not after it was aborted or the timer stopped. -/
theorem Run.orderly (h : Run {} log s) : Orderly log where
  numbered := by
    rintro before task due after rfl due' hmem
    obtain ⟨mid, last, rfl⟩ := List.append_of_mem hmem
    rw [← List.cons_append, ← List.append_assoc] at h
    obtain ⟨s₁, s₂, -, -, hc, hstep, -⟩ := h.around
    have hlt : task < s₁.timer.issued := hc.issued task due (by simp)
    cases hstep with
    | add h =>
      cases h
      exact Nat.lt_irrefl _ hlt
  first := by
    rintro before task now after rfl
    obtain ⟨s₁, s₂, -, hs, hc, hstep, -⟩ := h.around
    cases hstep with
    | start h =>
      obtain ⟨due, hle, hadded, hfirst⟩ := hs.first hc h
      refine ⟨due, hle, hadded, fun other due' hmem hcancelled hstarted hne => ?_⟩
      obtain ⟨hw, hq⟩ := hc.waits (start_some h).1 other due' hmem hcancelled hstarted
      exact hfirst other due' hw hq hne
  once := by
    rintro before task now after rfl
    obtain ⟨s₁, s₂, hbefore, hs, -, hstep, hafter⟩ := h.around
    exact hafter.not_started_of_spent (hstep.spent_of_started hs)
  alone := by
    rintro before ⟨after, rfl⟩
    obtain ⟨s₁, hbefore, -⟩ := h.split
    have hrunning := (hbefore.chronicle chronicle_init).running
    rw [List.nil_append] at hrunning
    rw [hrunning]
    cases s₁.timer.running <;> simp
  cancelled := by
    intro task now hmem
    obtain ⟨before, after, rfl⟩ := List.append_of_mem hmem
    obtain ⟨s₁, s₂, hbefore, hs, -, hstep, hafter⟩ := h.around
    obtain ⟨hw, hspent⟩ := hstep.spent_of_cancelled hs
    intro hstarted
    rcases List.mem_append.1 hstarted with hstarted | hstarted
    · -- a task that had started would not have waited for its abort
      obtain ⟨first, mid, rfl⟩ := List.append_of_mem hstarted
      obtain ⟨r₁, r₂, -, hr, -, hstart, hmid⟩ := hbefore.around
      exact (hmid.spent (hstart.spent_of_started hr)).2 hw
    · exact hafter.not_started_of_spent hspent now (List.mem_of_ne_of_mem (by simp) hstarted)
  refused := by
    rintro before task after rfl ⟨due, hadded⟩
    obtain ⟨s₁, s₂, -, hs, hc, hstep, hafter⟩ := h.around
    obtain ⟨hr, hspent⟩ := hstep.spent_of_refused hs (hc.issued task due hadded)
    refine ⟨?_, hafter.not_started_of_spent hspent⟩
    rw [hc.running]
    simpa using hr
  stopped := by
    rintro before after rfl
    obtain ⟨s₁, s₂, -, -, -, hstep, hafter⟩ := h.around
    refine hafter.not_started_of_stopped ?_
    cases hstep with
    | stop =>
      simp only [Timer.stop]
      split_ifs with hs
      · exact hs
      · rfl

/-- One caller sleeps on the task due first, another aborts the task behind it; then the timer is
stopped, and a task added later is aborted. -/
theorem orderly_race : ∃ log s,
    log = [.added 0 5, .added 1 3, .rested 2, .started 1 6, .slept 1, .cancelled 0, .finished 1,
      .rested 7, .refused 1, .added 2 1, .stopped, .added 3 0, .rested 9, .cancelled 3] ∧
    s = ⟨{ queue := [⟨0, 3⟩], issued := 4, stopped := true }, []⟩ ∧
    Run {} log s ∧ Orderly log := by
  refine ⟨_, _, rfl, rfl, ?_⟩
  suffices hrun : Run {} _ _ from ⟨hrun, hrun.orderly⟩
  exact
    .cons (.add rfl) <| .cons (.add rfl) <| .cons (.rest rfl) <| .cons (.start rfl) <|
    .cons (.sleep rfl) <| .cons (.cancel rfl) <| .cons (.finish rfl) <| .cons (.rest rfl) <|
    .cons (.wake (by decide) (by decide)) <| .cons (.add rfl) <| .cons .stop <|
    .cons (.add rfl) <| .cons (.rest rfl) <| .cons (.cancel rfl) .nil

end Timer

end Adjacency
