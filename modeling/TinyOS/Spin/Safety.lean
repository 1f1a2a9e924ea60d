import TinyOS.Spin.Invariant

/-! Who holds the mutex that Mutex_Lock spins on. -/
namespace TinyOS.Spin
open Transition
variable {κ τ π γ μ : Type*}

def Instr.unlocked : Instr κ τ π γ μ → Option (Mutex π γ μ)
  | .unlock x => some x
  | _ => none

/-- Of the mutexes it has still to unlock, the context on core c holds none that is taken in
both domains: kernel_mutex, active_threads_spinlock and the waitset_lock of kernel_sem_cv. -/
def Unheld (s : State κ τ π γ μ) (c : κ) : Prop :=
  ∀ l ∈ (s.code (s.cur c)).filterMap Instr.unlocked, l.spins = true → l.nonPreemptive = false →
    s.held l≠some (s.cur c)

section
variable [DecidableEq π] [DecidableEq γ] [DecidableEq μ] {s : State κ τ π γ μ} {c : κ}

theorem unlock_mem_of_needs {k : List (Instr κ τ π γ μ)} {l : Mutex π γ μ} (h : needs l k = true) :
    l ∈ k.filterMap Instr.unlocked := by
  induction k with
  | nil => cases h
  | cons i k ih =>
    have hmem : l ∈ k.filterMap Instr.unlocked → l ∈ (i::k).filterMap Instr.unlocked := by
      simp only [List.mem_filterMap, List.mem_cons]
      rintro ⟨j,hj,hl⟩
      exact ⟨j,.inr hj,hl⟩
    cases i with
    | lock x =>
      simp only [needs] at h
      split at h
      · cases h
      · exact hmem (ih h)
    | unlock x =>
      simp only [needs] at h
      split at h
      · subst l
        simp [Instr.unlocked]
      · exact hmem (ih h)
    | _ => exact hmem (ih h)

theorem Good.unheld (h : Good s) (hp : s.preemption c = true) (hu : Unheld s c) :
    Bare (s.code (s.cur c)) := by
  intro l hl
  cases hn : l.nonPreemptive with
  | true => exact h.needs_eq_false hp hn
  | false =>
    rw [← Bool.not_eq_true]
    intro hneeds
    exact hu l (unlock_mem_of_needs hneeds) hl hn ((h.locks l hl _).2 hneeds)

theorem Good.spins {x : Mutex π γ μ} (h : Good s) (hp : s.preemption c = false)
    (hs : (s.code (s.cur c)).head? = some (.lock x)) : x.spins = true := by
  obtain ⟨k,hk⟩ := List.head?_eq_some_iff.mp hs
  rw [← Bool.not_eq_false]
  intro hx
  have hd := (h.rest hk).2.2 hx
  have hlen := h.saves (s.cur c)
  rw [hk] at hlen
  rw [h.preemption c, List.eq_nil_of_length_eq_zero (hlen.trans hd)] at hp
  cases hp

theorem Good.holder {x : Mutex π γ μ} {u : Ctx κ τ} (h : Good s) (hx : x.spins = true)
    (hu : s.held x = some u) : ∃ c, s.cur c = u := by
  by_contra hc
  have hb := h.bare u (not_exists.mp hc) x hx
  rw [(h.locks x hx u).1 hu] at hb
  cases hb

end

variable [DecidableEq κ] [DecidableEq τ] [DecidableEq π] [DecidableEq γ] [DecidableEq μ]

instance (s : State κ τ π γ μ) (c : κ) : Decidable (Unheld s c) :=
  inferInstanceAs (Decidable (∀ l ∈ (s.code (s.cur c)).filterMap Instr.unlocked, _))

/-- No thread gives up its core under such a mutex, by an ALARM or in Mutex_Lock. -/
def Undisturbed (s : State κ τ π γ μ) : Label κ τ π γ μ → Prop
  | .alarm c | .mutexYield c => Unheld s c
  | _ => True

instance (s : State κ τ π γ μ) (a : Label κ τ π γ μ) : Decidable (Undisturbed s a) :=
  match a with
  | .alarm c | .mutexYield c => inferInstanceAs (Decidable (Unheld s c))
  | .run _ | .call _ _ | .poll _ _ | .swap _ _ | .stay _ | .serialRx _ | .expire _ =>
    inferInstanceAs (Decidable True)

variable {s s' : State κ τ π γ μ} {c : κ}

theorem Good.mutexYield (h : Good s) (hu : Unheld s c)
    (hr : mutexYield s c (s.code (s.cur c)) = some s') : Good s' := by
  cases hs : s.code (s.cur c) with
  | nil => rw [hs] at hr; cases hr
  | cons i k =>
    cases i with
    | lock x =>
      simp only [hs, Spin.mutexYield, Option.ite_none_right_eq_some, Option.some.injEq] at hr
      obtain ⟨⟨-,hp⟩,rfl⟩ := hr
      rw [← hs]
      exact h.preempted (h.unheld hp hu)
    | _ => rw [hs] at hr; cases hr

theorem Good.step {ports : List π} {a : Label κ τ π γ μ} (h : Good s) (hu : Undisturbed s a)
    (hs : next ports s a = some s') : Good s' := by
  cases a with
  | run c =>
    simp only [next] at hs
    split at hs
    · cases hs
    · exact h.runInstr ‹_› hs
  | call c f =>
    simp only [next, Option.ite_none_right_eq_some, Option.some.injEq] at hs
    obtain ⟨⟨hcode,hf⟩,rfl⟩ := hs
    exact h.call hcode hf
  | poll c r => exact h.poll hs
  | swap c next => exact h.cpuSwapContext hs
  | stay c => exact h.stay hs
  | mutexYield c => exact h.mutexYield hu hs
  | alarm c =>
    simp only [next, Option.ite_none_right_eq_some, Option.some.injEq] at hs
    obtain ⟨hp,rfl⟩ := hs
    exact h.preempted (h.unheld hp hu)
  | serialRx c =>
    simp only [next, Option.ite_none_right_eq_some, Option.some.injEq] at hs
    obtain ⟨hp,rfl⟩ := hs
    exact h.serialRx ports hp
  | expire x =>
    simp only [next, Option.ite_none_right_eq_some, Option.some.injEq] at hs
    obtain ⟨-,rfl⟩ := hs
    exact ⟨h.wf,h.locks,h.nested,h.saves,h.preemption,h.inj,h.live,h.bare,h.parked,
      fun y hy => h.fresh y (State.init_of_setState (by simp) hy)⟩

theorem good (ports : List π)
    (h : ((system κ τ γ μ ports).restrict Undisturbed).Reachable s) : Good s := by
  refine System.invariant _ Good (fun s hs => ?_) (fun s a s' hg hs => ?_) h
  · cases hs
    exact good_boot
  · obtain ⟨hu,hs⟩ := System.restrict_next hs
    exact hg.step hu hs

/-- Mutex_Lock spins on core c in the non-preemptive domain, for a mutex whose holder is READY
and on no core. -/
def Stuck (s : State κ τ π γ μ) (c : κ) (x : Mutex π γ μ) (u : Ctx κ τ) : Prop :=
  s.preemption c = false ∧ (s.code (s.cur c)).head? = some (.lock x) ∧ s.held x = some u ∧
    s.state u = .READY ∧ ∀ c', s.cur c'≠u

/-- Where no thread gives up its core under a mutex of both domains, a mutex of the
non-preemptive domain is held by a context that runs, and nothing is stuck. -/
theorem spin_on_running (ports : List π)
    (h : ((system κ τ γ μ ports).restrict Undisturbed).Reachable s) :
    (∀ c x u, ¬Stuck s c x u) ∧
      ∀ x u, x.spins = true → s.held x = some u → ∃ c, s.cur c = u := by
  have hg := good ports h
  refine ⟨fun c x u hs => ?_,fun x u hx hu => hg.holder hx hu⟩
  obtain ⟨hp,hs,hu,-,hcur⟩ := hs
  obtain ⟨c',hc'⟩ := hg.holder (hg.spins hp hs) hu
  exact hcur c' hc'

/-- The idle thread of the second core spins on sched_spinlock, which that of the first one holds. -/
theorem spin_on_running_idle : ∃ s : State (Fin 2) (Fin 2) Unit Unit Unit,
    ((system (Fin 2) (Fin 2) Unit Unit [()]).restrict Undisturbed).Reachable s ∧
      (s.preemption 1 = false ∧ (s.code (s.cur 1)).head? = some (.lock .schedSpinlock) ∧
        s.held .schedSpinlock = some (.idle 0)) ∧
      ∀ c x u, ¬Stuck s c x u := by
  obtain ⟨s,hr,hs⟩ := System.reaches
    ((system (Fin 2) (Fin 2) Unit Unit [()]).restrict Undisturbed) rfl
    [.alarm 0,.run 0,.run 0,.alarm 1,.run 1]
    (fun s => s.preemption 1 = false ∧ (s.code (s.cur 1)).head? = some (.lock .schedSpinlock) ∧
      s.held .schedSpinlock = some (.idle 0)) (by decide +kernel)
  exact ⟨s,hr,hs,(spin_on_running [()] hr).1⟩

def stuckRun : List (Label (Fin 1) (Fin 2) Unit Unit Unit) :=
  List.flatten [
    [.call 0 (.spawnThread 0)],List.replicate 2 (.run 0),[.call 0 (.wakeup 0)],
      List.replicate 5 (.run 0),
    [.call 0 (.spawnThread 1)],List.replicate 2 (.run 0),[.call 0 (.wakeup 1)],
      List.replicate 5 (.run 0),
    [.call 0 .yield],List.replicate 4 (.run 0),[.swap 0 (.normal 0)],List.replicate 4 (.run 0),
    [.call 0 .kernelLock],List.replicate 4 (.run 0),
    [.call 0 (.serialRead ())],[.run 0],[.poll 0 .wait],List.replicate 17 (.run 0),
    [.swap 0 (.normal 1)],List.replicate 4 (.run 0),[.call 0 .kernelLock],[.run 0],
    [.serialRx 0],List.replicate 12 (.run 0),
    [.alarm 0],List.replicate 4 (.run 0),[.swap 0 (.normal 0)],List.replicate 8 (.run 0)]

/-- On one core, a thread that wakes up in serial_read spins on the kernel_mutex of a READY thread. -/
theorem spin_on_preempted : ∃ s : State (Fin 1) (Fin 2) Unit Unit Unit,
    (system (Fin 1) (Fin 2) Unit Unit [()]).Reachable s ∧ Stuck s 0 .kernelMutex (.normal 1) := by
  obtain ⟨s,hr,hs⟩ := System.reaches (system (Fin 1) (Fin 2) Unit Unit [()]) rfl stuckRun
    (fun s => s.preemption 0 = false ∧ (s.code (s.cur 0)).head? = some (.lock .kernelMutex) ∧
      s.held .kernelMutex = some (.normal 1) ∧ s.state (.normal 1) = .READY ∧ ∀ c',
        s.cur c'≠.normal 1)
    (by decide +kernel)
  exact ⟨s,hr,hs⟩

end TinyOS.Spin
