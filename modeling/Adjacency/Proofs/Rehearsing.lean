import Adjacency.Proofs.Interleaving
import Adjacency.Timer.Rehearsal

/-!
# Rehearsals are runs

The virtual clock lets nothing happen that callers and a worker could not do: every sequence of acts
of a rehearsal is a `Timer.Run` of its timer.

* `Rehearsal.Leads`: the worker's steps, whoever sleeps meanwhile. Time passes by such steps alone.
* `Rehearsal.Act.run`: one act of a caller is a step of its own, followed by steps of the worker.
* `Rehearsal.perform_run`: any sequence of acts is a run.
-/

namespace Adjacency

open Timer (World Step Run)

theorem Timer.Run.append {s₁ s₂ s₃ : World} {log more : List Timer.Event} (h : Run s₁ log s₂)
    (hr : Run s₂ more s₃) : Run s₁ (log ++ more) s₃ := by
  induction h with
  | nil => exact hr
  | cons hstep _ ih => exact .cons hstep (ih hr)

namespace Rehearsal

/-- From one timer to another by steps that leave the callers asleep as they are. -/
def Leads (t t' : Timer) : Prop := ∀ asleep, ∃ log, Run ⟨t, asleep⟩ log ⟨t', asleep⟩

section Leads

variable {r r' : Rehearsal} {t t₁ t₂ t₃ : Timer}

theorem Leads.refl (t : Timer) : Leads t t := fun _ => ⟨[], .nil⟩

theorem Leads.step {e : Timer.Event} (h : ∀ asleep, Step ⟨t₁, asleep⟩ e ⟨t₂, asleep⟩) :
    Leads t₁ t₂ :=
  fun asleep => ⟨[e], .cons (h asleep) .nil⟩

theorem Leads.trans (h : Leads t₁ t₂) (h' : Leads t₂ t₃) : Leads t₁ t₃ := by
  intro asleep
  obtain ⟨log, hlog⟩ := h asleep
  obtain ⟨more, hmore⟩ := h' asleep
  exact ⟨log ++ more, hlog.append hmore⟩

theorem running_of_current {c : Chore} (h : r.current = some c) :
    ∃ task, r.timer.running = some task := by
  obtain ⟨task, hr, -⟩ := Option.bind_eq_some_iff.1 h
  exact ⟨task, hr⟩

/-- The worker finishes what runs, or starts what is due. -/
theorem leads_work (h : r.work? = some r') : Leads r.timer r'.timer := by
  rw [work?] at h
  split at h
  case h_1 c hc =>
    split_ifs at h
    cases h
    obtain ⟨task, hr⟩ := running_of_current hc
    exact .step fun _ => .finish hr
  case h_2 =>
    split at h
    case h_1 task timer hstart =>
      obtain ⟨c, -, rfl⟩ := Option.map_eq_some_iff.1 h
      exact .step fun _ => .start hstart
    case h_2 => cases h

theorem leads_workMany (n : Nat) (r : Rehearsal) : Leads r.timer (r.workMany n).timer := by
  induction n generalizing r with
  | zero => exact .refl _
  | succ n ih =>
    rw [workMany]
    split
    case h_1 r₁ hwork => exact (leads_work hwork).trans (ih r₁)
    case h_2 => exact .refl _

/-- What else the rehearsal knows has no part in it. -/
theorem leads_settle (h : r.timer = t) : Leads t r.settle.timer := h ▸ leads_workMany _ r

/-- Only the worker does anything while time passes. -/
theorem leads_waitMany (seen : Rehearsal → Bool) (deadline : Option Nat) (n : Nat) (r : Rehearsal) :
    Leads r.timer (waitMany seen deadline n r).2.timer := by
  induction n generalizing r with
  | zero => exact .refl _
  | succ n ih =>
    have hnext (now : Nat) :
        Leads r.timer (waitMany seen deadline n (settle { r with now })).2.timer :=
      (leads_settle (r := { r with now }) rfl).trans (ih _)
    unfold waitMany
    split_ifs
    · exact .refl _
    · split
      · split_ifs
        · exact hnext _
        · exact .refl _
      · exact hnext _
      · exact .refl _
      · exact .refl _

theorem leads_waitUntil (seen : Rehearsal → Bool) (patience : Option Nat) (h : r.timer = t) :
    Leads t (r.waitUntil seen patience).2.timer :=
  h ▸ leads_waitMany seen _ _ r

end Leads

/-! ## Acts -/

/-- What a caller does with a rehearsal. -/
inductive Act
  | add (tag : String) (delay : Nat) (held : Bool) (duration : Nat)
  | abort (tag : String)
  | release (tag : String)
  | stop
  | await (seen : Rehearsal → Bool) (patience : Option Nat)

/-- The rehearsal after an act. -/
def Act.perform (r : Rehearsal) : Act → Rehearsal
  | .add tag delay held duration => (r.add tag delay held duration).2
  | .abort tag => (r.abort tag).2
  | .release tag => r.release tag
  | .stop => r.stop
  | .await seen patience => (r.waitUntil seen patience).2

variable {asleep : List Nat}

/-- A step of the caller, then steps of others. -/
theorem Leads.run_after {e : Timer.Event} {t t₁ t₂ : Timer} {asleep' : List Nat} (h : Leads t₁ t₂)
    (hstep : Step ⟨t, asleep⟩ e ⟨t₁, asleep'⟩) : ∃ log, Run ⟨t, asleep⟩ log ⟨t₂, asleep'⟩ := by
  obtain ⟨log, hlog⟩ := h asleep'
  exact ⟨e :: log, .cons hstep hlog⟩

/-- A caller whose task does not run any more wakes; another sleeps on. -/
theorem run_wake (t : Timer) (task : Nat) (asleep : List Nat) :
    ∃ log asleep', Run ⟨t, task :: asleep⟩ log ⟨t, asleep'⟩ := by
  by_cases hr : t.running = some task
  · exact ⟨[], _, .nil⟩
  · exact ⟨_, _, .cons (.wake List.mem_cons_self hr) .nil⟩

theorem run_abort (r : Rehearsal) (tag : String) (asleep : List Nat) :
    ∃ log asleep', Run ⟨r.timer, asleep⟩ log ⟨(r.abort tag).2.timer, asleep'⟩ := by
  rw [abort]
  split
  case h_1 => exact ⟨[], asleep, .nil⟩
  case h_2 c _ =>
    split
    case h_1 timer h =>
      have hcancel : Step ⟨r.timer, asleep⟩ (.cancelled c.task) ⟨timer, asleep⟩ := .cancel h
      obtain ⟨log, hlog⟩ := (leads_settle (r := { r with timer }) rfl).run_after hcancel
      exact ⟨log, asleep, hlog⟩
    case h_2 timer h =>
      obtain ⟨-, rfl⟩ := Timer.abort_running h
      have hsleep : Step ⟨r.timer, asleep⟩ (.slept c.task) ⟨r.timer, c.task :: asleep⟩ := .sleep h
      obtain ⟨log, hlog⟩ := (leads_waitUntil _ none rfl).run_after hsleep
      obtain ⟨more, asleep', hmore⟩ := run_wake _ c.task asleep
      exact ⟨log ++ more, asleep', hlog.append hmore⟩
    case h_3 timer h =>
      obtain ⟨-, -, rfl⟩ := Timer.abort_gone h
      have hrefuse : Step ⟨r.timer, asleep⟩ (.refused c.task) ⟨r.timer, asleep⟩ := .refuse h
      exact ⟨[.refused c.task], asleep, .cons hrefuse .nil⟩

theorem leads_release (r : Rehearsal) (tag : String) :
    Leads r.timer (r.release tag).timer := by
  rw [release]
  split
  · split_ifs
    · exact leads_settle rfl
    · exact .refl _
  · exact .refl _

/-- An act is a run, whoever sleeps before it. -/
theorem Act.run (a : Act) (r : Rehearsal) (asleep : List Nat) :
    ∃ log asleep', Run ⟨r.timer, asleep⟩ log ⟨(a.perform r).timer, asleep'⟩ := by
  cases a with
  | add tag delay held duration =>
    have hsettle : Leads (r.timer.add (r.now + delay)).2 (r.add tag delay held duration).2.timer :=
      leads_settle rfl
    obtain ⟨log, hlog⟩ := hsettle.run_after (.add rfl)
    exact ⟨log, asleep, hlog⟩
  | abort tag => exact run_abort r tag asleep
  | release tag =>
    obtain ⟨log, hlog⟩ := leads_release r tag asleep
    exact ⟨log, asleep, hlog⟩
  | stop =>
    have hwait : Leads r.timer.stop r.stop.timer := leads_waitUntil _ none rfl
    obtain ⟨log, hlog⟩ := hwait.run_after .stop
    exact ⟨log, asleep, hlog⟩
  | await seen patience =>
    obtain ⟨log, hlog⟩ := leads_waitUntil seen patience rfl asleep
    exact ⟨log, asleep, hlog⟩

/-- Any sequence of acts is a run of the timer. -/
theorem perform_run (acts : List Act) (r : Rehearsal) (asleep : List Nat) :
    ∃ log asleep', Run ⟨r.timer, asleep⟩ log ⟨(acts.foldl Act.perform r).timer, asleep'⟩ := by
  induction acts generalizing r asleep with
  | nil => exact ⟨[], asleep, .nil⟩
  | cons a acts ih =>
    obtain ⟨log, asleep₁, hlog⟩ := a.run r asleep
    obtain ⟨more, asleep₂, hmore⟩ := ih (a.perform r) asleep₁
    exact ⟨log ++ more, asleep₂, hlog.append hmore⟩

end Rehearsal

end Adjacency
