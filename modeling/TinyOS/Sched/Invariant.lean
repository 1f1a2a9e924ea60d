import TinyOS.Sched.Queues

/-! The invariant of the scheduler: which threads each core has its hands on, and
which list each other thread is in. Every section moves one core or wakes one
thread, and keeps it. -/
namespace TinyOS.Sched
open RList
variable {κ τ : Type*}

def Leaving (t : TCB κ τ) : Prop :=
  t.phase = .CTX_DIRTY ∧ (t.state = .READY ∨ t.state = .STOPPED ∨ t.state = .EXITED)

def Holds (s : State κ τ) (c : κ) (r : TcbRef κ τ) : Prop :=
  match s.pc c with
  | .off | .left => False
  | .running | .stopping => r = s.currentThread c
  | .selected next => r = s.currentThread c ∨ r = next
  | .switched => r = s.currentThread c ∨ (s.tcb (s.currentThread c)).prev = some r

def Selects (s : State κ τ) (c : κ) (r : TcbRef κ τ) : Prop :=
  s.pc c = .selected r ∨ s.pc c = .switched ∧ s.currentThread c = r

def Selected (s : State κ τ) (r : TcbRef κ τ) : Prop := ∃ c, Selects s c r

def CoreOk (s : State κ τ) (c : κ) : Prop :=
  match s.pc c with
  | .off | .left => True
  | .running => (s.tcb (s.currentThread c)).state = .RUNNING ∧
      (s.tcb (s.currentThread c)).phase = .CTX_DIRTY
  | .stopping => Leaving (s.tcb (s.currentThread c))
  | .selected next => Leaving (s.tcb (s.currentThread c)) ∧
      (s.tcb next).prev = some (s.currentThread c) ∧ (s.tcb next).state = .READY ∧
      (next≠s.currentThread c → (s.tcb next).phase = .CTX_CLEAN)
  | .switched => ∃ prev, (s.tcb (s.currentThread c)).prev = some prev ∧ Leaving (s.tcb prev) ∧
      (s.tcb (s.currentThread c)).state = .READY ∧
      (prev≠s.currentThread c → (s.tcb (s.currentThread c)).phase = .CTX_CLEAN)

structure Cores (s : State κ τ) : Prop where
  core : ∀ c, CoreOk s c
  exclusive : ∀ c c' r, Holds s c r → Holds s c' r → c = c'
  held : ∀ c t, Holds s c (.normal t) → t∈s.threads
  heldIdle : ∀ c c', Holds s c (.idle c') → c' = c
  free : ∀ t∈s.threads, (∀ c, ¬Holds s c (.normal t)) →
    (s.tcb (.normal t)).phase = .CTX_CLEAN ∧ ((s.tcb (.normal t)).state = .INIT ∨
      (s.tcb (.normal t)).state = .READY ∨ (s.tcb (.normal t)).state = .STOPPED)
  idle : ∀ c, s.pc c≠.off → s.pc c≠.left → (s.tcb (.idle c)).type = .IDLE_THREAD ∧
    ((s.tcb (.idle c)).state = .READY ∨ (s.tcb (.idle c)).state = .RUNNING) ∧
    (¬Holds s c (.idle c) → (s.tcb (.idle c)).state = .READY ∧ (s.tcb (.idle c)).phase = .CTX_CLEAN)

/-- The scheduler lists hold the threads q and tl, each where its state puts it. -/
structure Inv (s : State κ τ) (q tl : List τ) : Prop extends Cores s where
  holding : Holding s.heap q tl
  keySched : s.heap.key .SCHED = none
  keyNode : ∀ t∈s.threads, s.heap.key (node t) = some (.normal t)
  queue : ∀ t, t∈q ↔ t∈s.threads ∧ (s.tcb (.normal t)).state = .READY ∧
    (s.tcb (.normal t)).phase = .CTX_CLEAN ∧ ¬Selected s (.normal t)
  timer : ∀ t, t∈tl ↔ t∈s.threads ∧ (s.tcb (.normal t)).state = .STOPPED ∧
    (s.tcb (.normal t)).wakeupTime≠NO_TIMEOUT
  noTimeout : ∀ t∈s.threads, (s.tcb (.normal t)).state≠.STOPPED →
    (s.tcb (.normal t)).wakeupTime = NO_TIMEOUT
  normal : ∀ t∈s.threads, (s.tcb (.normal t)).type = .NORMAL_THREAD
  nodup : s.threads.Nodup
  active : s.activeThreads = s.threads.length

theorem CoreOk.congr {s s' : State κ τ} {c : κ} (hc : CoreOk s c) (hpc : s'.pc c = s.pc c)
    (hcur : s'.currentThread c = s.currentThread c)
    (htcb : ∀ r, Holds s c r → (s'.tcb r).state = (s.tcb r).state ∧
      (s'.tcb r).phase = (s.tcb r).phase ∧ (s'.tcb r).prev = (s.tcb r).prev) : CoreOk s' c := by
  unfold CoreOk at hc ⊢
  unfold Holds at htcb
  rw [hpc, hcur]
  cases hp : s.pc c with
  | off => trivial
  | left => trivial
  | running =>
    simp only [hp] at hc htcb ⊢
    obtain ⟨h1,h2,-⟩ := htcb _ rfl
    rw [h1, h2]
    exact hc
  | stopping =>
    simp only [hp] at hc htcb ⊢
    obtain ⟨h1,h2,-⟩ := htcb _ rfl
    rw [Leaving, h1, h2]
    exact hc
  | selected next =>
    simp only [hp] at hc htcb ⊢
    obtain ⟨h1,h2,-⟩ := htcb _ (Or.inl rfl)
    obtain ⟨h3,h4,h5⟩ := htcb _ (Or.inr rfl)
    rw [Leaving, h1, h2, h3, h4, h5]
    exact hc
  | switched =>
    simp only [hp] at hc htcb ⊢
    obtain ⟨prev,hprev,hc⟩ := hc
    obtain ⟨h1,h2,h3⟩ := htcb _ (Or.inl rfl)
    obtain ⟨h4,h5,-⟩ := htcb _ (Or.inr hprev)
    refine ⟨prev,h3.trans hprev,?_⟩
    rw [Leaving, h1, h2, h4, h5]
    exact hc

theorem holds_congr {s s' : State κ τ} {c : κ} (hpc : s'.pc c = s.pc c)
    (hcur : s'.currentThread c = s.currentThread c)
    (hprev : ∀ r, Holds s c r → (s'.tcb r).prev = (s.tcb r).prev)
    (r : TcbRef κ τ) : Holds s' c r ↔ Holds s c r := by
  unfold Holds at hprev ⊢
  rw [hpc, hcur]
  cases hp : s.pc c with
  | switched =>
    simp only [hp] at hprev ⊢
    rw [hprev _ (Or.inl rfl)]
  | _ => simp only

/-- Only core c moves: what other cores hold and other idle threads stay as they are,
and only threads that c held before may go away. -/
structure OnCore (s s' : State κ τ) (c : κ) : Prop where
  pc : ∀ c', c'≠c → s'.pc c' = s.pc c'
  cur : ∀ c', c'≠c → s'.currentThread c' = s.currentThread c'
  tcb : ∀ c', c'≠c → ∀ r, Holds s c' r → s'.tcb r = s.tcb r
  tcbIdle : ∀ c', c'≠c → s'.tcb (.idle c') = s.tcb (.idle c')
  threads : ∀ t∈s'.threads, t∈s.threads
  gone : ∀ t∈s.threads, t∉s'.threads → Holds s c (.normal t)

namespace OnCore
variable {s s' : State κ τ} {c : κ}

theorem holds (ho : OnCore s s' c) {c' : κ} (hc : c'≠c) (r : TcbRef κ τ) :
    Holds s' c' r ↔ Holds s c' r :=
  holds_congr (ho.pc c' hc) (ho.cur c' hc) (fun r hr => by rw [ho.tcb c' hc r hr]) r

theorem selected (ho : OnCore s s' c) {r : TcbRef κ τ} (hr : Selects s' c r ↔ Selects s c r) :
    Selected s' r ↔ Selected s r := by
  have hs : ∀ c', Selects s' c' r ↔ Selects s c' r := by
    intro c'
    by_cases hc : c' = c
    · rw [hc, hr]
    · simp only [Selects, ho.pc c' hc, ho.cur c' hc]
  exact exists_congr hs

theorem cores (ho : OnCore s s' c) (h : Cores s) (hcore : CoreOk s' c)
    (hnew : ∀ r, Holds s' c r → ∀ c', c'≠c → ¬Holds s c' r)
    (hheld : ∀ t, Holds s' c (.normal t) → t∈s'.threads)
    (hheldIdle : ∀ c', Holds s' c (.idle c') → c' = c)
    (hfree : ∀ t∈s'.threads, ¬Holds s' c (.normal t) → Holds s c (.normal t) →
      (s'.tcb (.normal t)).phase = .CTX_CLEAN ∧ ((s'.tcb (.normal t)).state = .INIT ∨
        (s'.tcb (.normal t)).state = .READY ∨ (s'.tcb (.normal t)).state = .STOPPED))
    (htcb : ∀ t, ¬Holds s' c (.normal t) → ¬Holds s c (.normal t) →
      s'.tcb (.normal t) = s.tcb (.normal t))
    (hidle : s'.pc c≠.off → s'.pc c≠.left → (s'.tcb (.idle c)).type = .IDLE_THREAD ∧
      ((s'.tcb (.idle c)).state = .READY ∨ (s'.tcb (.idle c)).state = .RUNNING) ∧
      (¬Holds s' c (.idle c) →
        (s'.tcb (.idle c)).state = .READY ∧ (s'.tcb (.idle c)).phase = .CTX_CLEAN)) : Cores s' := by
  constructor
  · intro c'
    by_cases hc : c' = c
    · exact hc ▸ hcore
    · exact (h.core c').congr (ho.pc c' hc) (ho.cur c' hc) fun r hr => by simp [ho.tcb c' hc r hr]
  · intro c1 c2 r h1 h2
    by_cases hc1 : c1 = c <;> by_cases hc2 : c2 = c
    · rw [hc1, hc2]
    · exact absurd ((ho.holds hc2 r).mp h2) (hnew r (hc1 ▸ h1) c2 hc2)
    · exact absurd ((ho.holds hc1 r).mp h1) (hnew r (hc2 ▸ h2) c1 hc1)
    · exact h.exclusive c1 c2 r ((ho.holds hc1 r).mp h1) ((ho.holds hc2 r).mp h2)
  · intro c' t hm
    by_cases hc : c' = c
    · exact hheld t (hc ▸ hm)
    · have hm' := (ho.holds hc _).mp hm
      by_contra hne
      exact hc (h.exclusive c' c _ hm' (ho.gone t (h.held c' t hm') hne))
  · intro c' c'' hm
    by_cases hc : c' = c
    · subst hc
      exact hheldIdle c'' hm
    · exact h.heldIdle c' c'' ((ho.holds hc _).mp hm)
  · intro t ht hn
    by_cases hc : Holds s c (.normal t)
    · exact hfree t ht (hn c) hc
    · rw [htcb t (hn c) hc]
      refine h.free t (ho.threads t ht) fun c' hm => ?_
      by_cases hcc : c' = c
      · exact hc (hcc ▸ hm)
      · exact hn c' ((ho.holds hcc _).mpr hm)
  · intro c' hoff hleft
    by_cases hc : c' = c
    · subst hc
      exact hidle hoff hleft
    · rw [ho.tcbIdle c' hc, ho.holds hc]
      rw [ho.pc c' hc] at hoff hleft
      exact h.idle c' hoff hleft

end OnCore

variable [DecidableEq κ] [DecidableEq τ]

def madeReady (s : State κ τ) (t : τ) (heap : Heap (Node κ τ) (Option (TcbRef κ τ))) : State κ τ :=
  { s with
    heap := heap
    tcb := Function.update s.tcb (.normal t)
      { s.tcb (.normal t) with state := .READY, wakeupTime := NO_TIMEOUT } }

theorem makeReady_eq {s : State κ τ} {q tl : List τ} (h : Inv s q tl) {t : τ} (ht : t∈s.threads)
    (hst : (s.tcb (.normal t)).state = .STOPPED ∨ (s.tcb (.normal t)).state = .INIT) :
    ∃ heap, schedMakeReady s (.normal t) = some (madeReady s t heap) ∧ heap.key = s.heap.key ∧
      Holding heap (if (s.tcb (.normal t)).phase = .CTX_CLEAN then q++[t] else q) (tl.erase t) := by
  have hq : t∉q := by
    intro hm
    have := ((h.queue t).mp hm).2.1
    rcases hst with hst | hst <;> simp [hst] at this
  by_cases hw : (s.tcb (.normal t)).wakeupTime = NO_TIMEOUT
  · have htl : t∉tl := fun hm => ((h.timer t).mp hm).2.2 hw
    have he (heap : Heap (Node κ τ) (Option (TcbRef κ τ))) : madeReady s t heap = { s with
        heap := heap
        tcb := Function.update s.tcb (.normal t) { s.tcb (.normal t) with state := .READY } } := by
      rw [madeReady, ← hw]
    simp only [List.erase_of_not_mem htl, he]
    by_cases hp : (s.tcb (.normal t)).phase = .CTX_CLEAN
    · refine ⟨rlistPushBack s.heap .SCHED (node t),?_,rfl,?_⟩
      · simp [schedMakeReady, leaveTimeoutList, hst, hw, hp, State.modTcb, schedQueueAdd]
      · simpa [hp] using h.holding.push_back hq htl
    · refine ⟨s.heap,?_,rfl,?_⟩
      · simp [schedMakeReady, leaveTimeoutList, hst, hw, hp, State.modTcb]
      · simpa [hp] using h.holding
  · have hs : (s.tcb (.normal t)).state = .STOPPED := by
      by_contra hne
      exact hw (h.noTimeout t ht hne)
    have htl : t∈tl := (h.timer t).mpr ⟨ht,hs,hw⟩
    have hne := h.holding.next_timers_ne htl
    have hrem := h.holding.remove_timer htl
    have hnt : t∉tl.erase t := fun hm => (h.holding.nodup_timers.mem_erase_iff.mp hm).1 rfl
    by_cases hp : (s.tcb (.normal t)).phase = .CTX_CLEAN
    · refine ⟨rlistPushBack (rlistRemove s.heap (node t)) .SCHED (node t),?_,rfl,?_⟩
      · simp [schedMakeReady, leaveTimeoutList, hs, hw, hp, State.modTcb, schedQueueAdd, hne,
          madeReady]
      · simpa [hp] using hrem.push_back hq hnt
    · refine ⟨rlistRemove s.heap (node t),?_,rfl,?_⟩
      · simp [schedMakeReady, leaveTimeoutList, hs, hw, hp, State.modTcb, hne, madeReady]
      · simpa [hp] using hrem

theorem wake_inv {s : State κ τ} {q tl : List τ} (h : Inv s q tl) {t : τ} (ht : t∈s.threads)
    (hst : (s.tcb (.normal t)).state = .STOPPED ∨ (s.tcb (.normal t)).state = .INIT)
    {heap : Heap (Node κ τ) (Option (TcbRef κ τ))} (hk : heap.key = s.heap.key)
    (hh : Holding heap (if (s.tcb (.normal t)).phase = .CTX_CLEAN then q++[t] else q)
    (tl.erase t)) :
    Inv (madeReady s t heap) (if (s.tcb (.normal t)).phase = .CTX_CLEAN then q++[t] else q)
      (tl.erase t) := by
  have hprev : ∀ r, ((madeReady s t heap).tcb r).prev = (s.tcb r).prev := by
    intro r
    by_cases hr : r = .normal t <;> simp [madeReady, hr]
  have hholds : ∀ c r, Holds (madeReady s t heap) c r ↔ Holds s c r := fun c =>
    holds_congr rfl rfl fun r _ => hprev r
  have hsel : ¬Selected s (.normal t) := by
    rintro ⟨c,hc⟩
    have := h.core c
    unfold CoreOk at this
    grind [Selects]
  have hcores : Cores (madeReady s t heap) := by
    constructor
    · intro c
      have hc := h.core c
      simp only [CoreOk, madeReady] at hc ⊢
      cases hpc : s.pc c <;> simp only [hpc] at hc ⊢ <;> grind [Leaving]
    · simpa only [hholds] using h.exclusive
    · exact fun c x hx => h.held c x ((hholds c _).mp hx)
    · simpa only [hholds] using h.heldIdle
    · intro x
      have := h.free x
      simp only [hholds]
      simp only [madeReady]
      grind
    · intro c
      have := h.idle c
      simp only [hholds]
      simpa [madeReady] using this
  refine ⟨hcores,hh,?_,?_,?_,?_,?_,?_,h.nodup,h.active⟩
  · simpa [madeReady, hk] using h.keySched
  · simpa [madeReady, hk] using h.keyNode
  · intro x
    have hx := h.queue x
    change _ ↔ x∈s.threads ∧ _ ∧ _ ∧ ¬Selected s (.normal x)
    simp only [madeReady]
    grind
  · intro x
    have hx := h.timer x
    have hn := h.holding.nodup_timers
    simp only [madeReady]
    grind [List.Nodup.mem_erase_iff]
  · intro x
    have := h.noTimeout x
    simp only [madeReady]
    grind
  · intro x
    have := h.normal x
    simp only [madeReady]
    grind

theorem spawn_inv {s : State κ τ} {q tl : List τ} (h : Inv s q tl) {t : τ} (ht : t∉s.threads) :
    Inv (spawnThread s t) q tl := by
  have hq : t∉q := fun hm => ht ((h.queue t).mp hm).1
  have htl : t∉tl := fun hm => ht ((h.timer t).mp hm).1
  have hheld : ∀ c r, Holds s c r → (spawnThread s t).tcb r = s.tcb r := by
    intro c r hr
    have hne : r≠.normal t := fun he => ht (h.held c t (he ▸ hr))
    simp [spawnThread, hne]
  obtain ⟨hh,hk⟩ := h.holding.init_node (node_mem_nodes hq htl) (some (.normal t))
  have hholds : ∀ c r, Holds (spawnThread s t) c r ↔ Holds s c r := fun c =>
    holds_congr rfl rfl fun r hr => by rw [hheld c r hr]
  have hcores : Cores (spawnThread s t) := by
    constructor
    · exact fun c => (h.core c).congr rfl rfl fun r hr => by simp [hheld c r hr]
    · simpa only [hholds] using h.exclusive
    · intro c x hx
      exact List.mem_append_left _ (h.held c x ((hholds c _).mp hx))
    · simpa only [hholds] using h.heldIdle
    · intro x
      have := h.free x
      simp only [hholds]
      simp only [spawnThread]
      grind
    · intro c
      have := h.idle c
      simp only [hholds]
      simpa [spawnThread] using this
  refine ⟨hcores,hh,?_,?_,?_,?_,?_,?_,?_,?_⟩
  · have := h.keySched
    simpa [spawnThread, hk] using this
  · intro x hx
    have := h.keyNode x
    simp only [spawnThread, hk, List.mem_append, List.mem_singleton] at hx ⊢
    grind
  · intro x
    have hx := h.queue x
    change _ ↔ x∈s.threads++[t] ∧ _ ∧ _ ∧ ¬Selected s (.normal x)
    simp only [spawnThread]
    grind
  · intro x
    have hx := h.timer x
    simp only [spawnThread]
    grind
  · intro x
    have := h.noTimeout x
    simp only [spawnThread]
    grind
  · intro x
    have := h.normal x
    simp only [spawnThread]
    grind
  · exact List.nodup_append.mpr ⟨h.nodup,by simp,by grind⟩
  · have := h.active
    simp [spawnThread, this]

theorem enter_inv {s : State κ τ} {q tl : List τ} (h : Inv s q tl) {c : κ} (hpc : s.pc c = .off) :
    Inv (runScheduler s c) q tl := by
  obtain ⟨hh,hk⟩ := h.holding.init_node (idle_mem_nodes q tl c) (some (.idle c))
  have hidle : ∀ c', ¬Holds s c' (.idle c) := by
    intro c' hm
    have := h.heldIdle c' c hm
    subst this
    simp [Holds, hpc] at hm
  have hnone : ∀ r, ¬Holds s c r := by simp [Holds, hpc]
  have hself : ∀ r, Holds (runScheduler s c) c r ↔ r = .idle c := by
    simp [Holds, runScheduler]
  have ho : OnCore s (runScheduler s c) c := by
    refine ⟨?_,?_,?_,?_,fun _ ht => ht,fun t ht hn => absurd ht hn⟩
    · exact fun c' hc => by simp [runScheduler, hc]
    · exact fun c' hc => by simp [runScheduler, hc]
    · intro c' _ r hr
      have hne : r≠.idle c := fun he => hidle c' (he ▸ hr)
      simp [runScheduler, hne]
    · exact fun c' hc => by simp [runScheduler, hc]
  have hsel : ∀ t, Selected (runScheduler s c) (.normal t) ↔ Selected s (.normal t) := fun t =>
    ho.selected (by simp [Selects, runScheduler, hpc])
  have hcores : Cores (runScheduler s c) := by
    refine ho.cores h.toCores (by simp [CoreOk, runScheduler]) ?_ ?_ ?_ ?_ ?_ ?_
    · intro r hr c' _
      rw [(hself r).mp hr]
      exact hidle c'
    · exact fun t ht => by simp [hself] at ht
    · exact fun c' hc' => by simpa [hself] using hc'
    · exact fun t _ _ hm => absurd hm (hnone _)
    · exact fun t _ _ => by simp [runScheduler]
    · intro _ _
      simp only [hself, not_true_eq_false, false_implies, and_true]
      simp [runScheduler]
  refine ⟨hcores,hh,?_,?_,?_,?_,?_,?_,h.nodup,h.active⟩
  · have := h.keySched
    simpa [runScheduler, hk] using this
  · intro x hx
    have := h.keyNode x hx
    simpa [runScheduler, hk] using this
  · intro x
    rw [hsel, h.queue x]
    simp [runScheduler]
  · simpa [runScheduler] using h.timer
  · simpa [runScheduler] using h.noTimeout
  · simpa [runScheduler] using h.normal

omit [DecidableEq τ] in
theorem leave_inv {s : State κ τ} {q tl : List τ} (h : Inv s q tl) {c : κ}
    (hpc : s.pc c = .running) (hcur : s.currentThread c = .idle c) :
    Inv (s.setPc c .left) q tl := by
  have hself : ∀ r, ¬Holds (s.setPc c .left) c r := by
    simp [Holds, State.setPc]
  have ho : OnCore s (s.setPc c .left) c :=
    ⟨fun c' hc => by simp [State.setPc, hc],fun _ _ => rfl,fun _ _ _ _ => rfl,fun _ _ => rfl,
      fun _ ht => ht,fun t ht hn => absurd ht hn⟩
  have hsel : ∀ t, Selected (s.setPc c .left) (.normal t) ↔ Selected s (.normal t) := fun t =>
    ho.selected (by simp [Selects, State.setPc, hpc])
  have hcores : Cores (s.setPc c .left) := by
    refine ho.cores h.toCores (by simp [CoreOk, State.setPc]) ?_ ?_ ?_ ?_ ?_ ?_
    · exact fun r hr => absurd hr (hself r)
    · exact fun t hm => absurd hm (hself _)
    · exact fun c' hm => absurd hm (hself _)
    · exact fun t _ _ hm => by simp [Holds, hpc, hcur] at hm
    · exact fun _ _ _ => rfl
    · exact fun _ hleft => by simp [State.setPc] at hleft
  refine ⟨hcores,h.holding,h.keySched,h.keyNode,?_,h.timer,h.noTimeout,h.normal,h.nodup,h.active⟩
  intro x
  rw [hsel]
  exact h.queue x

def stopped (s : State κ τ) (c : κ) (st : ThreadState) (wakeupTime : Nat)
    (heap : Heap (Node κ τ) (Option (TcbRef κ τ))) : State κ τ :=
  { s with
    heap := heap
    tcb := Function.update s.tcb (s.currentThread c)
      { s.tcb (s.currentThread c) with state := st, wakeupTime := wakeupTime }
    pc := Function.update s.pc c .stopping }

theorem stopped_inv {s : State κ τ} {q tl tl' : List τ} (h : Inv s q tl) {c : κ}
    (hpc : s.pc c = .running ∨ s.pc c = .stopping) (st : ThreadState) (wakeupTime : Nat)
    (heap : Heap (Node κ τ) (Option (TcbRef κ τ)))
    (hold : (s.tcb (s.currentThread c)).state≠.STOPPED)
    (hst : st = .READY ∨ st = .STOPPED ∨ st = .EXITED)
    (hidle : s.currentThread c = .idle c → st = .READY)
    (hwt : st≠.STOPPED → (s.currentThread c).isNormal = true → wakeupTime = NO_TIMEOUT)
    (hk : heap.key = s.heap.key) (hh : Holding heap q tl')
    (htl : ∀ x, x∈tl' ↔ x∈tl ∨ .normal x = s.currentThread c ∧ st = .STOPPED ∧
    wakeupTime≠NO_TIMEOUT) :
    Inv (stopped s c st wakeupTime heap) q tl' := by
  have hself : ∀ r, Holds s c r ↔ r = s.currentThread c := by
    intro r
    rcases hpc with hpc | hpc <;> simp [Holds, hpc]
  have hself' : ∀ r, Holds (stopped s c st wakeupTime heap) c r ↔ r = s.currentThread c := by
    simp [Holds, stopped]
  have hdirty : (s.tcb (s.currentThread c)).phase = .CTX_DIRTY := by
    have := h.core c
    rcases hpc with hpc | hpc <;> simp only [CoreOk, hpc, Leaving] at this
    · exact this.2
    · exact this.1
  have hon : s.pc c≠.off ∧ s.pc c≠.left := by
    rcases hpc with hpc | hpc <;> simp [hpc]
  have ho : OnCore s (stopped s c st wakeupTime heap) c := by
    refine ⟨fun c' hc => by simp [stopped, hc],fun c' hc => rfl,?_,?_,fun _ ht => ht,
      fun t ht hn => absurd ht hn⟩
    · intro c' hc r hr
      have hne : r≠s.currentThread c := fun he => hc (h.exclusive c' c r hr ((hself r).mpr he))
      simp [stopped, hne]
    · intro c' hc
      have hne : TcbRef.idle c'≠s.currentThread c := fun he =>
        hc (h.heldIdle c c' ((hself _).mpr he))
      simp [stopped, hne]
  have hsel : ∀ r, Selected (stopped s c st wakeupTime heap) r ↔ Selected s r := fun r =>
    ho.selected (by rcases hpc with hpc | hpc <;> simp [Selects, stopped, hpc])
  have hcores : Cores (stopped s c st wakeupTime heap) := by
    refine ho.cores h.toCores ?_ ?_ ?_ ?_ ?_ ?_ ?_
    · simp [CoreOk, stopped, Leaving, hdirty, hst]
    · intro r hr c' hc hm
      exact hc (h.exclusive c' c r hm ((hself r).mpr ((hself' r).mp hr)))
    · exact fun t ht => h.held c t ((hself _).mpr ((hself' _).mp ht))
    · exact fun c' hc' => h.heldIdle c c' ((hself _).mpr ((hself' _).mp hc'))
    · exact fun t _ hn hm => absurd ((hself' _).mpr ((hself _).mp hm)) hn
    · intro t hn _
      have hne : TcbRef.normal t≠s.currentThread c := fun he => hn ((hself' _).mpr he)
      simp [stopped, hne]
    · intro _ _
      rw [hself']
      have := h.idle c hon.1 hon.2
      rw [hself] at this
      by_cases hc : s.currentThread c = .idle c
      · simp [stopped, hc, hidle hc] at this ⊢
        exact this.1
      · have hne : TcbRef.idle c≠s.currentThread c := Ne.symm hc
        simpa [stopped, hne] using this
  refine ⟨hcores,hh,?_,?_,?_,?_,?_,?_,h.nodup,h.active⟩
  · simpa [stopped, hk] using h.keySched
  · simpa [stopped, hk] using h.keyNode
  · intro x
    rw [hsel, h.queue x]
    by_cases hx : TcbRef.normal x = s.currentThread c
    · simp [stopped, hx, hdirty]
    · simp [stopped, hx]
  · intro x
    have hx := h.timer x
    rw [htl, hx]
    by_cases hc : TcbRef.normal x = s.currentThread c
    · have := h.held c x ((hself _).mpr hc)
      simp [stopped, hc, hold, this]
    · simp [stopped, hc]
  · intro x hx
    have := h.noTimeout x hx
    by_cases hc : TcbRef.normal x = s.currentThread c
    · simp only [stopped, hc, Function.update_self]
      exact fun hne => hwt hne (by rw [← hc]; rfl)
    · simpa [stopped, hc] using this
  · intro x hx
    have := h.normal x hx
    by_cases hc : TcbRef.normal x = s.currentThread c
    · rw [hc] at this
      simpa [stopped, hc] using this
    · simpa [stopped, hc] using this

end TinyOS.Sched
