import Mathlib.Logic.Basic

/-! A monitor with a queue of work for one worker: items are added under the mutex and the
condition is signalled, the worker waits while there is nothing to do and the queue is open.
Each section under the mutex is one step, and a wait may end without a signal. -/
namespace WorkQueue
variable {α : Type*}

/-- asleep is whether the worker waits on the condition. -/
structure Queue (α : Type*) where
  items : List α
  closed : Bool
  asleep : Bool

inductive Got (α : Type*) where
  | item (a : α)
  | wait
  | over

def start : Queue α := ⟨[],false,false⟩

def Queue.add (q : Queue α) (a : α) : Queue α :=
  { q with items := q.items++[a], asleep := false }

def Queue.close (q : Queue α) : Queue α := { q with closed := true, asleep := false }

def Queue.wake (q : Queue α) : Queue α := { q with asleep := false }

def Queue.get (q : Queue α) : Queue α × Got α :=
  match q.items with
  | a::items => ({ q with items := items },.item a)
  | [] => if q.closed then (q,.over) else ({ q with asleep := true },.wait)

/-- The worker sleeps only while there is nothing to do. -/
def Queue.Sound (q : Queue α) : Prop := q.asleep = true → q.items = [] ∧ q.closed = false

variable {q : Queue α} {a : α}

theorem sound_start : (start : Queue α).Sound := fun h => nomatch h

theorem sound_add : (q.add a).Sound := fun h => nomatch h

theorem sound_close : q.close.Sound := fun h => nomatch h

theorem sound_wake : q.wake.Sound := fun h => nomatch h

theorem Queue.get_cases (q : Queue α) :
    (∃ a items, q.items = a::items ∧ q.get = ({ q with items := items },.item a)) ∨
    (q.items = [] ∧ q.closed = true ∧ q.get = (q,.over)) ∨
    (q.items = [] ∧ q.closed = false ∧ q.get = ({ q with asleep := true },.wait)) := by
  cases hi : q.items with
  | cons a items => exact .inl ⟨a,items,rfl,by simp [get, hi]⟩
  | nil =>
    cases hc : q.closed with
    | true => exact .inr (.inl ⟨rfl,rfl,by simp [get, hi, hc]⟩)
    | false => exact .inr (.inr ⟨rfl,rfl,by simp [get, hi, hc]⟩)

theorem Queue.Sound.get (ha : q.asleep = false) : q.get.1.Sound := by
  rcases q.get_cases with ⟨a,items,-,hg⟩ | ⟨-,-,hg⟩ | ⟨hi,hc,hg⟩
  · rw [hg]
    exact fun h => absurd (ha.symm.trans h) (by simp)
  · rw [hg]
    exact fun h => absurd (ha.symm.trans h) (by simp)
  · rw [hg]
    exact fun _ => ⟨hi,hc⟩

theorem Queue.Sound.awake (h : q.Sound) (hc : q.closed = true) : q.asleep = false := by
  cases ha : q.asleep with
  | false => rfl
  | true => cases hc.symm.trans (h ha).2

end WorkQueue
