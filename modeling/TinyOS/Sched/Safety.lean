import TinyOS.Sched.Sections

/-! Every reachable state of the scheduler keeps each thread in the one list its
state calls for and on at most one core. -/
namespace TinyOS.Sched
open RList
variable {κ τ : Type*} [DecidableEq κ] [DecidableEq τ]
variable {s : State κ τ} {q tl : List τ}

omit [DecidableEq κ] [DecidableEq τ] in
theorem boot_inv : Inv (boot : State κ τ) [] [] := by
  have hheld : ∀ c r, ¬Holds (boot : State κ τ) c r := by simp [Holds, boot]
  have hcores : Cores (boot : State κ τ) := by
    refine ⟨by simp [CoreOk, boot],fun c _ r hc => absurd hc (hheld c r),
      fun c t hc => absurd hc (hheld c _),fun c c' hc => absurd hc (hheld c _),by simp [boot],?_⟩
    intro c hoff
    simp [boot] at hoff
  refine ⟨hcores,⟨⟨fun _ => rfl,fun _ => rfl⟩,?_⟩,rfl,?_,?_,?_,?_,?_,?_,rfl⟩
  · refine ⟨?_,?_,?_,?_,?_,fun _ _ _ => rfl⟩
    · intro i
      cases i <;> rfl
    · intro i
      cases i <;> simp [nodes]
    · intro i j x hx
      cases i <;> simp [nodes] at hx
    · intro i j hij
      cases i <;> cases j <;> simp [head] at hij ⊢
    · intro i j
      cases j <;> simp [nodes]
  all_goals simp [boot]

theorem exec_inv (h : Inv s q tl) {a : Label κ τ} (ha : Enabled s a) :
    ∃ s' q' tl', exec s a = some s' ∧ Inv s' q' tl' := by
  cases a with
  | enter c => exact ⟨_,q,tl,rfl,enter_inv h ha⟩
  | leave c => exact ⟨_,q,tl,rfl,leave_inv h ha.1 ha.2.1⟩
  | spawn t => exact ⟨_,q,tl,rfl,spawn_inv h ha⟩
  | wakeup t =>
    by_cases hst : (s.tcb (.normal t)).state = .STOPPED ∨ (s.tcb (.normal t)).state = .INIT
    · obtain ⟨heap,hmk,hk,hh⟩ := makeReady_eq h ha hst
      exact ⟨_,_,_,by simp [exec, wakeup, hst, hmk],wake_inv h ha hst hk hh⟩
    · exact ⟨s,q,tl,by simp [exec, wakeup, hst],h⟩
  | sleep c st msec systemClock =>
    obtain ⟨s',tl',hs',hinv,-⟩ := sleep_step h ha.1 ha.2.1 ha.2.2 msec systemClock
    exact ⟨s',q,tl',hs',hinv⟩
  | yield c systemClock =>
    obtain ⟨s',q',-,vs,hs',hinv,-⟩ := yield_step h ha systemClock
    exact ⟨s',q',vs,hs',hinv⟩
  | swap c =>
    obtain ⟨next,hpc⟩ := ha
    obtain ⟨s',hs',hinv⟩ := swap_inv h hpc
    exact ⟨s',q,tl,hs',hinv⟩
  | gain c =>
    obtain ⟨s',q',hs',hinv⟩ := gain_inv h ha
    exact ⟨s',q',tl,hs',hinv⟩

theorem reachable_inv (hr : (system κ τ).Reachable s) : ∃ q tl, Inv s q tl := by
  refine (system κ τ).invariant (fun s => ∃ q tl, Inv s q tl) ?_ ?_ hr
  · rintro s rfl
    exact ⟨[],[],boot_inv⟩
  · rintro s a s' ⟨q,tl,h⟩ hs
    simp only [system] at hs
    split at hs
    · rename_i ha
      obtain ⟨s'',q',tl',he,hinv⟩ := exec_inv h ha
      rw [he] at hs
      cases hs
      exact ⟨q',tl',hinv⟩
    · cases hs

def OnScheduler (s : State κ τ) (c : κ) : Prop := s.pc c≠.off ∧ s.pc c≠.left

/-- SCHED is the ring of q and TIMEOUT_LIST the ring of tl; each thread is once in the
list that its state, phase and wakeup time call for, else its node is a singleton. -/
structure Placed (s : State κ τ) (q tl : List τ) : Prop where
  sched : Ring.Path s.heap.next (.SCHED::q.map node) .SCHED
  timeoutList : Ring.Path s.heap.next (.TIMEOUT_LIST::tl.map node) .TIMEOUT_LIST
  linked : Linked s.heap
  onceReady : q.Nodup
  onceTimed : tl.Nodup
  ready : ∀ t, t∈q ↔ t∈s.threads ∧ (s.tcb (.normal t)).state = .READY ∧
    (s.tcb (.normal t)).phase = .CTX_CLEAN ∧ ∀ c, ¬Selects s c (.normal t)
  timed : ∀ t, t∈tl ↔ t∈s.threads ∧ (s.tcb (.normal t)).state = .STOPPED ∧
    (s.tcb (.normal t)).wakeupTime≠NO_TIMEOUT
  single : ∀ t∈s.threads, t∉q → t∉tl →
    s.heap.next (node t) = node t ∧ s.heap.prev (node t) = node t
  idle : ∀ c, s.heap.next (.schedNode (.idle c)) = .schedNode (.idle c) ∧
    s.heap.prev (.schedNode (.idle c)) = .schedNode (.idle c)

omit [DecidableEq κ] [DecidableEq τ] in
theorem Inv.placed (h : Inv s q tl) : Placed s q tl := by
  have hsingle : ∀ r, (∀ i, Node.schedNode r∉nodes q tl i) →
      s.heap.next (.schedNode r) = .schedNode r ∧ s.heap.prev (.schedNode r) = .schedNode r :=
    fun r hr => ⟨h.holding.lists.single _ (schedNode_ne_head r) hr,
      h.holding.prev_single (schedNode_ne_head r) hr⟩
  refine ⟨h.holding.lists.path .ready,h.holding.lists.path .timers,h.holding.linked,
    h.holding.nodup_ready,h.holding.nodup_timers,?_,h.timer,?_,?_⟩
  · intro t
    rw [h.queue, Selected, not_exists]
  · exact fun t _ hq htl => hsingle _ (node_mem_nodes hq htl)
  · exact fun c => hsingle _ (idle_mem_nodes q tl c)

omit [DecidableEq κ] [DecidableEq τ] in
theorem OnScheduler.holds_current {c : κ} (hc : OnScheduler s c) :
    Holds s c (s.currentThread c) := by
  cases hpc : s.pc c with
  | off => exact absurd hpc hc.1
  | left => exact absurd hpc hc.2
  | _ => simp [Holds, hpc]

/-- In every reachable state the lists are as the states of the threads say, no thread
is current on two cores, none in SCHED is live on a core, and no section can fail. -/
theorem scheduler_safe (hr : (system κ τ).Reachable s) :
    ∃ q tl, Placed s q tl ∧
      (∀ c c', OnScheduler s c → OnScheduler s c' → s.currentThread c = s.currentThread c' → c = c') ∧
      (∀ t∈q, ∀ c, ¬Holds s c (.normal t)) ∧
      ∀ a, Enabled s a → (exec s a).isSome = true := by
  obtain ⟨q,tl,h⟩ := reachable_inv hr
  refine ⟨q,tl,h.placed,?_,fun t ht => h.not_holds_queue ht,?_⟩
  · intro c c' hc hc' he
    exact h.exclusive c c' _ hc.holds_current (he ▸ hc'.holds_current)
  · intro a ha
    obtain ⟨s',-,-,hs',-⟩ := exec_inv h ha
    simp [hs']

def sleepRun : List (Label (Fin 2) (Fin 2)) :=
  [.enter 0, .enter 1, .spawn 0, .wakeup 0, .spawn 1, .yield 0 1, .swap 0, .gain 0,
    .wakeup 1, .sleep 0 .STOPPED (some 3) 2, .yield 1 2]

theorem sleepRun_safe : ∃ s, (system (Fin 2) (Fin 2)).run boot sleepRun = some s ∧
    ∃ q tl, Placed s q tl ∧
      (∀ c c', OnScheduler s c → OnScheduler s c' → s.currentThread c = s.currentThread c' → c = c') ∧
      (∀ t∈q, ∀ c, ¬Holds s c (.normal t)) ∧
      ∀ a, Enabled s a → (exec s a).isSome = true := by
  obtain ⟨s,hs⟩ : ∃ s, (system (Fin 2) (Fin 2)).run boot sleepRun = some s :=
    Option.isSome_iff_exists.mp (by decide +kernel)
  exact ⟨s,hs,scheduler_safe ((system (Fin 2) (Fin 2)).reachable_run sleepRun (.init rfl) hs)⟩

end TinyOS.Sched
