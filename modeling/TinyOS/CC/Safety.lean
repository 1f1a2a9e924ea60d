import Mathlib.Data.Set.Card
import TinyOS.CC.Steps

/-! What the condition variables and the kernel lock promise, in every reachable state. -/
namespace TinyOS.CC
open RList Ring
variable {τ κ μ : Type*} [DecidableEq τ] [DecidableEq κ] [DecidableEq μ]
variable {s : State τ κ μ} {t : τ}

/-- The ring from cv->waitset on is l. -/
structure IsRing (s : State τ κ μ) (cv : CondVar κ) (l : List WaiterRef) : Prop where
  waitset : s.waitset cv = l.head?
  around : ∀ w, l.head? = some w → Path s.heap.next l w
  once : l.Nodup
  linked : Linked s.heap

/-- A call of Cond_Signal found the waiters g.start in the ring and is done with those of
g.seen, each of which it woke or found timed out. It stopped at the first it woke, or
else, and always as a broadcast, left the ring empty. -/
structure Signalled (s : State τ κ μ) (g : Signal κ) : Prop where
  start : ∃ rest, g.start = g.seen.map Prod.fst++rest ∧ IsRing s g.cv rest ∧
    (rest = [] ∧ (g.broadcast = false → ∀ x∈g.seen, x.2 = false) ∨
      g.broadcast = false ∧ ∃ xs w, g.seen = xs++[(w,true)] ∧ ∀ x∈xs, x.2 = false)
  woken : ∀ x∈g.seen, ∃ r, s.waiters x.1 = some r ∧ r.removed = true ∧ r.signalled = x.2 ∧
    s.cause r.thread = some (if x.2 then .signal g.cv else .timeout)

omit [DecidableEq κ] [DecidableEq τ] [DecidableEq μ] in
theorem Rings.isRing {L : CondVar κ → List WaiterRef} (h : Rings s.heap s.waitset L)
    (cv : CondVar κ) :
    IsRing s cv (L cv) := by
  refine ⟨h.head cv,fun w hw => ?_,h.cycles.nodup cv,h.linked⟩
  cases hL : L cv with
  | nil => simp [hL] at hw
  | cons y l =>
    obtain rfl : y = w := by simpa [hL] using hw
    exact h.cycles.path hL

omit [DecidableEq τ] in
theorem Waits.signalled {L : CondVar κ → List WaiterRef} (h : Waits s L) {g : Signal κ}
    (hpc : s.pc t = .signal .release g) : Signalled s g := by
  obtain ⟨hseen,hend⟩ := hpc ▸ h.thread t
  refine ⟨⟨L g.cv,hseen.start,h.rings.isRing g.cv,hend⟩,fun x hx => ?_⟩
  obtain ⟨r,hT,hsig,hc⟩ := hseen.seen x hx
  exact ⟨r,hT.waiter,hT.removed,hsig,hc⟩

/-- The steps that a call with waitset_lock has still to make up to its Mutex_Unlock: three
for each waiter that it found and has not seen yet, and the last test. -/
def Signal.left (g : Signal κ) : SignalPc → Nat
  | .test => 3*(g.start.length-g.seen.length)+1
  | .wake _ => 3*(g.start.length-g.seen.length)
  | .mark _ => 3*(g.start.length-g.seen.length)-1
  | .lock | .release => 0

def Pc.signalLeft : Pc κ μ → Nat
  | .signal q g => g.left q
  | _ => 0

structure Serving (p : Pc κ μ) (g : Signal κ) : Prop where
  call : ∃ q g', p = .signal q g' ∧ q≠.lock ∧ g'.cv = g.cv ∧ g'.broadcast = g.broadcast ∧
    g'.start = g.start

theorem Waits.runSignal_left {L : CondVar κ → List WaiterRef} (h : Waits s L) {q : SignalPc}
    {g : Signal κ} (hpc : s.pc t = .signal q g) (hq : q≠.lock) (hne : q≠.release)
    {s' : State τ κ μ} (hs : runSignal s t g q = some s') :
    Serving (s'.pc t) g ∧ (s'.pc t).signalLeft<g.left q := by
  have hok := hpc ▸ h.thread t
  cases q with
  | lock => exact absurd rfl hq
  | release => exact absurd rfl hne
  | test =>
    simp only [runSignal] at hs
    split at hs
    · cases hs
      simp only [State.goto, Function.update_self]
      exact ⟨⟨_,g,rfl,by simp,rfl,rfl,rfl⟩,Nat.succ_pos _⟩
    · obtain ⟨s1,h1,hs⟩ := Option.bind_eq_some_iff.mp hs
      obtain ⟨r,-,rfl⟩ := Option.map_eq_some_iff.mp hs
      simp only [State.goto, Function.update_self]
      exact ⟨⟨_,g,rfl,by simp,rfl,rfl,rfl⟩,Nat.lt_succ_self _⟩
  | wake w =>
    have hlen : g.seen.length < g.start.length := by simp [hok.1.start]
    obtain ⟨r,-,rfl⟩ := Option.map_eq_some_iff.mp hs
    cases hw : (wakeup s r.thread (.signal g.cv)).2 with
    | true =>
      simp only [State.goto, hw, if_true, Function.update_self]
      refine ⟨⟨_,g,rfl,by simp,rfl,rfl,rfl⟩,?_⟩
      simp only [Pc.signalLeft, Signal.left]
      omega
    | false =>
      simp only [State.goto, hw, Bool.false_eq_true, if_false, Function.update_self]
      refine ⟨⟨_,_,rfl,by simp,rfl,rfl,rfl⟩,?_⟩
      simp only [Pc.signalLeft, Signal.left, List.length_append, List.length_singleton]
      omega
  | mark w =>
    have hlen : g.seen.length < g.start.length := by simp [hok.1.start]
    obtain ⟨r,-,rfl⟩ := Option.map_eq_some_iff.mp hs
    simp only [State.goto, Function.update_self]
    cases hb : g.broadcast with
    | true =>
      refine ⟨⟨_,_,rfl,by simp,rfl,hb.symm,rfl⟩,?_⟩
      simp only [if_true, Pc.signalLeft, Signal.left, List.length_append, List.length_singleton]
      omega
    | false =>
      refine ⟨⟨_,_,rfl,by simp,rfl,hb.symm,rfl⟩,?_⟩
      simp only [Bool.false_eq_true, if_false, Pc.signalLeft, Signal.left]
      omega

structure Holding (t : τ) (g : Signal κ) (s : State τ κ μ) : Prop where
  reachable : (system τ κ μ).Reachable s
  awake : s.stopped t = false
  serving : Serving (s.pc t) g

theorem Holding.enabled {g : Signal κ} (h : Holding t g s) : Enabled s (.run t) := by
  obtain ⟨q,g',hpc,hq,-⟩ := h.serving.call
  refine ⟨by simp [hpc, Pc.runs],h.awake,?_⟩
  rw [hpc]
  cases q with
  | lock => exact absurd rfl hq
  | _ => rfl

theorem Holding.goes {g : Signal κ} (h : Holding t g s) :
    ∃ s', (system τ κ μ).next s (.run t) = some s' := by
  obtain ⟨L,hinv⟩ := reachable_inv h.reachable
  obtain ⟨s',-,hs',-⟩ := exec_inv hinv h.enabled
  exact ⟨s',by simp only [system, if_pos h.enabled, hs']⟩

theorem Holding.signalled {g g' : Signal κ} (h : Holding t g s)
    (hpc : s.pc t = .signal .release g') :
    g'.cv = g.cv ∧ g'.broadcast = g.broadcast ∧ g'.start = g.start ∧ Signalled s g' := by
  obtain ⟨q1,g1,hpc1,-,hcv,hb,hstart⟩ := h.serving.call
  obtain ⟨L,hinv⟩ := reachable_inv h.reachable
  obtain rfl : g' = g1 := by
    rw [hpc] at hpc1
    cases hpc1
    rfl
  exact ⟨hcv,hb,hstart,hinv.toWaits.signalled hpc⟩

theorem Holding.step {g : Signal κ} (h : Holding t g s) (hne : ∀ g', s.pc t≠.signal .release g')
    {a : Label τ κ μ} {s' : State τ κ μ} (hs : (system τ κ μ).next s a = some s') :
    Holding t g s' ∧
      (s'.pc t).signalLeft+(if a = .run t then 1 else 0) ≤ (s.pc t).signalLeft := by
  obtain ⟨q,g',hpc,hq,hcv,hb,hstart⟩ := h.serving.call
  have hreach := h.reachable.step hs
  simp only [system] at hs
  split at hs
  case isFalse => cases hs
  case isTrue ha =>
  by_cases hat : a = .run t
  · subst hat
    obtain ⟨L,hinv⟩ := reachable_inv h.reachable
    rw [exec, hpc] at hs
    obtain ⟨⟨q1,g1,hpc1,hq1,hcv1,hb1,hstart1⟩,hlt⟩ := hinv.toWaits.runSignal_left hpc hq
      (fun he => hne g' (he ▸ hpc)) hs
    refine ⟨⟨hreach,runSignal_stopped hs h.awake,q1,g1,hpc1,hq1,hcv1.trans hcv,hb1.trans hb,
      hstart1.trans hstart⟩,?_⟩
    simp only [if_true, hpc, Pc.signalLeft] at hlt ⊢
    omega
  · have hsame : s'.pc t = s.pc t ∧ s'.stopped t = false := by
      cases a with
      | call u c =>
        cases hs
        have hut : t≠u := by
          rintro rfl
          rw [ha.1] at hpc
          cases hpc
        exact ⟨call_pc c hut,by rw [call_stopped, h.awake]⟩
      | run u =>
        have hut : t≠u := fun he => hat (he ▸ rfl)
        exact ⟨runThread_pc hs hut,runThread_stopped hs hut h.awake⟩
      | expire u =>
        cases hs
        refine ⟨?_,wakeup_stopped h.awake⟩
        simp only [wakeup]
        split <;> rfl
    rw [hsame.1]
    refine ⟨⟨hreach,hsame.2,hsame.1 ▸ h.serving⟩,?_⟩
    simp [hat]

def broadcastRun : List (Label (Fin 2) Unit Unit) :=
  [.call 0 (.condWait () ()), .run 0, .run 0, .run 0, .run 0, .call 1 (.condBroadcast ())]

def broadcastSteps : List (Label (Fin 2) Unit Unit) := [.run 1,.run 1,.run 1,.run 1]

/-- While its lock is free, the ring of a condition variable is the list of the waiters
that were pushed and have neither been taken out by a signal nor tidied up after a
timeout; a signal wakes the first of them that is STOPPED, a broadcast all; cv_wait
returns 1 iff a signal woke the thread; and no step reads a waiter that is gone. -/
theorem condvar_waiters_in_order (hr : (system τ κ μ).Reachable s) :
    (∀ cv, s.held (.waitset cv) = none → IsRing s cv (s.queue cv)) ∧
    (∀ t g, s.pc t = .signal .release g → Signalled s g) ∧
    (∀ x∈s.returns, x.ret = true ↔ x.cause = some (.signal x.cv)) ∧
    ∀ a, Enabled s a → (exec s a).isSome = true := by
  obtain ⟨L,h⟩ := reachable_inv hr
  refine ⟨fun cv _ => ?_,fun t g hpc => h.toWaits.signalled hpc,h.returned,fun a ha => ?_⟩
  · rw [h.toWaits.queue_eq]
    exact h.rings.isRing cv
  · obtain ⟨s',-,hs',-⟩ := exec_inv h ha
    simp [hs']

def waitRun : List (Label (Fin 2) Unit Unit) :=
  [.call 0 (.condWait () ()), .run 0, .run 0, .run 0, .run 0,
    .call 1 (.condWait () ()), .run 1, .run 1, .run 1, .run 1]

theorem waitRun_in_order : ∃ s, (system (Fin 2) Unit Unit).Reachable s ∧ s.queue (.other ()) = [0,1] ∧
    IsRing s (.other ()) (s.queue (.other ())) := by
  obtain ⟨s,hs,hq,hfree⟩ := (system (Fin 2) Unit Unit).reaches rfl waitRun
    (fun s => s.queue (.other ()) = [0,1] ∧ s.held (.waitset (.other ())) = none)
      (by decide +kernel)
  exact ⟨s,hs,hq,(condvar_waiters_in_order hs).1 _ hfree⟩

def timeoutRun : List (Label (Fin 2) Unit Unit) :=
  [.call 0 (.condTimedWait () ()), .run 0, .run 0, .run 0, .run 0, .expire 0, .run 0, .run 0, .run 0]

/-- Some call of cv_wait on cv is in progress, its waiter is not marked removed, and
the ring is empty. -/
def OutOfRing (s : State τ κ μ) (cv : CondVar κ) : Prop :=
  s.held (.waitset cv) = none ∧ s.waitset cv = none ∧ ∃ t q f, s.pc t = .wait q f ∧ f.cv = cv ∧
    (s.waiters f.waiter).map Waiter.removed = some false

theorem timeoutRun_outOfRing : ∃ s, (system (Fin 2) Unit Unit).Reachable s ∧ OutOfRing s (.other ()) := by
  obtain ⟨s,hs,hlock,hring,hpc,hw⟩ := (system (Fin 2) Unit Unit).reaches rfl timeoutRun
    (fun s => s.held (.waitset (.other ())) = none ∧ s.waitset (.other ()) = none ∧
      s.pc 0 = .wait .relock ⟨.other (),.other (),true,0,.user⟩ ∧
      (s.waiters 0).map Waiter.removed = some false) (by decide +kernel)
  exact ⟨s,hs,hlock,hring,0,_,_,hpc,rfl,hw⟩

def AsleepOnSem (s : State τ κ μ) (t : τ) : Prop :=
  s.stopped t = true ∧ ∃ f, s.pc t = .wait .asleep f ∧ f.cv = .kernelSemCv

/-- Thread t was woken from kernel_sem_cv and has still to test kernel_sem again. -/
def WokenFromSem (s : State τ κ μ) (t : τ) : Prop :=
  s.stopped t = false ∧ ∃ q f, s.pc t = .wait q f ∧ f.cv = .kernelSemCv ∧
    (q = .asleep ∨ q = .tidy ∨ q = .release ∨ q = .relock)

/-- Thread t has kernel_mutex, and is about to test kernel_sem or to wake a thread from
kernel_sem_cv. -/
def AtSem (s : State τ κ μ) (t : τ) : Prop :=
  s.held (.mutex .kernelMutex) = some t ∧ ((∃ ret, s.pc t = .test ret) ∨
    ∃ q g, s.pc t = .signal q g ∧ g.cv = .kernelSemCv ∧ q≠.release)

omit [DecidableEq τ] in
theorem Inv.helper {L : CondVar κ → List WaiterRef} (h : Inv s L) (hh : (s.role t).helps) :
    WokenFromSem s t ∨ AtSem s t := by
  have hshape := h.shaped t
  rw [State.role] at hh
  cases hpc : s.pc t with
  | test ret =>
    exact Or.inr ⟨(h.locks _ t rfl).mpr (by simp [hpc, Pc.locks]),Or.inl ⟨ret,hpc⟩⟩
  | wait q f =>
    rw [hpc] at hh
    cases hc : f.cv with
    | other c => simp [Pc.role, hc, Role.helps] at hh
    | kernelSemCv =>
      obtain ⟨r,-,-,hok,-⟩ := hpc ▸ h.thread t
      cases q with
      | asleep =>
        have hst : s.stopped t = false := by
          cases hst : s.stopped t with
          | false => rfl
          | true => simp [Pc.role, hc, Role.helps, hst] at hh
        exact Or.inl ⟨hst,_,f,hpc,hc,by simp⟩
      | tidy => exact Or.inl ⟨hok.1,_,f,hpc,hc,by simp⟩
      | release => exact Or.inl ⟨hok.1,_,f,hpc,hc,by simp⟩
      | relock => exact Or.inl ⟨hok.1,_,f,hpc,hc,by simp⟩
      | _ => simp [Pc.role, hc, Role.helps] at hh
  | signal q g =>
    rw [hpc] at hh hshape
    cases hc : g.cv with
    | other c => simp [Pc.role, hc, Role.helps] at hh
    | kernelSemCv =>
      have hback : g.back.isSome = true := by
        cases hb : g.back with
        | none =>
          simp only [Pc.Shaped, hb] at hshape
          exact absurd hc hshape
        | some k => rfl
      refine Or.inr ⟨(h.locks _ t rfl).mpr (by simp [hpc, Pc.locks, hback]),Or.inr ⟨q,g,hpc,hc,?_⟩⟩
      rintro rfl
      simp [Pc.role, hc, Role.helps] at hh
  | _ => simp [hpc, Pc.role, Role.helps] at hh

omit [DecidableEq τ] [DecidableEq κ] [DecidableEq μ] in
theorem KernelSem.count (h : KernelSem s) :
    s.kernelSem+({ t | s.inside t = true }.ncard : Int) = 1 := by
  rcases h.sem with ⟨h1,hno⟩ | ⟨h0,t,ht,huniq⟩
  · have he : { t | s.inside t = true } = ∅ := by
      ext t
      simp [hno t]
    rw [h1, he, Set.ncard_empty]
    rfl
  · have he : { t | s.inside t = true } = {t} := by
      ext u
      refine ⟨huniq u,?_⟩
      rintro rfl
      exact ht
    rw [h0, he, Set.ncard_singleton]
    rfl

/-- At most one thread holds the kernel, kernel_sem is what is left, and a release of the
kernel is not lost: while a thread sleeps on a kernel_sem that is 1, one that was woken
has still to test it, or else the thread that has kernel_mutex does so or wakes one. -/
theorem kernel_released_once (hr : (system τ κ μ).Reachable s) :
    s.kernelSem+({ t | s.inside t = true }.ncard : Int) = 1 ∧
    (∀ t u, s.inside t = true → s.inside u = true → t = u) ∧
    (s.kernelSem = 1 → (∃ t, AsleepOnSem s t) → ∃ u, WokenFromSem s u ∨ AtSem s u) ∧
    (s.held (.mutex .kernelMutex) = none → s.kernelSem = 1 → (∃ t, AsleepOnSem s t) →
      ∃ u, WokenFromSem s u) := by
  obtain ⟨L,h⟩ := reachable_inv hr
  have hhelp : s.kernelSem = 1 → (∃ t, AsleepOnSem s t) → ∃ u, WokenFromSem s u ∨ AtSem s u := by
    rintro h1 ⟨t,hst,f,hpc,hcv⟩
    obtain ⟨u,hu⟩ := h.noLost h1 ⟨t,by simp [State.role, hpc, Pc.role, hcv, hst]⟩
    exact ⟨u,h.helper hu⟩
  refine ⟨h.toKernelSem.count,?_,hhelp,?_⟩
  · intro t u ht hu
    rcases h.sem with ⟨-,hno⟩ | ⟨-,v,-,huniq⟩
    · simp [hno t] at ht
    · exact (huniq t ht).trans (huniq u hu).symm
  · intro hfree h1 ha
    obtain ⟨u,hu | hu⟩ := hhelp h1 ha
    · exact ⟨u,hu⟩
    · rw [AtSem, hfree] at hu
      exact absurd hu.1 (by simp)

def releaseRun : List (Label (Fin 2) Unit Unit) :=
  [.call 0 .kernelLock, .run 0, .run 0, .run 0, .call 1 .kernelLock, .run 1, .run 1, .run 1, .run 1,
    .run 1, .run 1, .call 0 .kernelUnlock, .run 0, .run 0]

theorem releaseRun_not_lost : ∃ s, (system (Fin 2) Unit Unit).Reachable s ∧ s.kernelSem = 1 ∧
    ∃ u, WokenFromSem s u ∨ AtSem s u := by
  obtain ⟨s,hs,hsem,hst,hpc⟩ := (system (Fin 2) Unit Unit).reaches rfl releaseRun
    (fun s => s.kernelSem = 1 ∧ s.stopped 1 = true ∧
      s.pc 1 = .wait .asleep ⟨.kernelMutex,.kernelSemCv,false,0,.loop none⟩) (by decide +kernel)
  exact ⟨s,hs,hsem,(kernel_released_once hs).2.2.1 hsem ⟨1,hst,_,hpc,rfl⟩⟩

/-- A thread sleeps on a kernel_sem of 1 and none has been woken, as kernel_mutex is taken. -/
theorem releaseRun_not_woken : ∃ s, (system (Fin 2) Unit Unit).Reachable s ∧ s.kernelSem = 1 ∧
    (∃ t, AsleepOnSem s t) ∧ ¬∃ u, WokenFromSem s u := by
  obtain ⟨s,hs,hsem,hst,hpc,hpc'⟩ := (system (Fin 2) Unit Unit).reaches rfl releaseRun
    (fun s => s.kernelSem = 1 ∧ s.stopped 1 = true ∧
      s.pc 1 = .wait .asleep ⟨.kernelMutex,.kernelSemCv,false,0,.loop none⟩ ∧
      s.pc 0 = .signal .lock ⟨.kernelSemCv,false,some .kernelUnlock,[],[]⟩) (by decide +kernel)
  refine ⟨s,hs,hsem,⟨1,hst,_,hpc,rfl⟩,?_⟩
  rintro ⟨u,hu,q,f,hq,-⟩
  have h01 : u = 0 ∨ u = 1 := by omega
  cases h01 with
  | inl h =>
    rw [h, hpc'] at hq
    cases hq
  | inr h =>
    rw [h, hst] at hu
    cases hu

end TinyOS.CC
