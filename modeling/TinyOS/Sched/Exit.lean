import TinyOS.Sched.Safety

/-! The way out of a thread that has entered EXITED. Its core leaves it in three
sections, the last of which releases its TCB; no other section touches its state. -/
namespace TinyOS.Sched
open RList
variable {κ τ : Type*} {s s' : State κ τ} {q tl : List τ} {c : κ} {t : τ}

/-- t has entered EXITED and its TCB is still there. -/
structure Exited (s : State κ τ) (t : τ) : Prop where
  allocated : t∈s.threads
  state : (s.tcb (.normal t)).state = .EXITED

/-- Core c is leaving t, with n sections to go until t is released. -/
def Departs (s : State κ τ) (c : κ) (t : τ) : Nat → Prop
  | 3 => s.pc c = .stopping ∧ s.currentThread c = .normal t
  | 2 => ∃ next, s.pc c = .selected next ∧ next≠.normal t ∧ s.currentThread c = .normal t
  | 1 => s.pc c = .switched ∧ s.currentThread c≠.normal t ∧
    (s.tcb (s.currentThread c)).prev = some (.normal t)
  | _ => False

theorem Departs.le {n : Nat} (h : Departs s c t n) : n ≤ 3 := by
  match n with
  | 0 | 1 | 2 | 3 => omega
  | n+4 => exact h.elim

theorem Departs.pos {n : Nat} (h : Departs s c t n) : 0<n := by
  cases n with
  | zero => exact h.elim
  | succ n => omega

theorem Departs.holds {n : Nat} (h : Departs s c t n) : Holds s c (.normal t) := by
  match n with
  | 0 => exact h.elim
  | 1 =>
    obtain ⟨hpc,-,hprev⟩ := h
    simp [Holds, hpc, hprev]
  | 2 =>
    obtain ⟨next,hpc,-,hcur⟩ := h
    simp [Holds, hpc, hcur]
  | 3 =>
    obtain ⟨hpc,hcur⟩ := h
    simp [Holds, hpc, hcur]
  | n+4 => exact h.elim

theorem Cores.departs (h : Cores s) (ht : (s.tcb (.normal t)).state = .EXITED)
    (hc : Holds s c (.normal t)) : ∃ n, Departs s c t n := by
  have hcore := h.core c
  cases hpc : s.pc c with
  | off => simp [Holds, hpc] at hc
  | left => simp [Holds, hpc] at hc
  | running =>
    simp only [Holds, CoreOk, hpc] at hc hcore
    simp [← hc, ht] at hcore
  | stopping =>
    simp only [Holds, hpc] at hc
    exact ⟨3,hpc,hc.symm⟩
  | selected next =>
    simp only [Holds, CoreOk, hpc] at hc hcore
    have hnext : next≠.normal t := by
      intro he
      simp [he, ht] at hcore
    cases hc with
    | inl hc => exact ⟨2,next,hpc,hnext,hc.symm⟩
    | inr hc => exact absurd hc.symm hnext
  | switched =>
    simp only [Holds, CoreOk, hpc] at hc hcore
    have hcur : s.currentThread c≠.normal t := by
      intro he
      simp [he, ht] at hcore
    cases hc with
    | inl hc => exact absurd hc.symm hcur
    | inr hc => exact ⟨1,hpc,hcur,hc⟩

theorem Exited.departs (hx : Exited s t) (h : Cores s) : ∃ c n, Departs s c t n := by
  by_contra hno
  have hfree : ∀ c, ¬Holds s c (.normal t) := fun c hc => hno ⟨c,h.departs hx.state hc⟩
  have := (h.free t hx.allocated hfree).2
  simp [hx.state] at this

theorem Departs.not_selects {n : Nat} (h : Departs s c t n) (hc : Cores s) (c' : κ) :
    ¬Selects s c' (.normal t) ∧ ¬(s.pc c' = .running ∧ s.currentThread c' = .normal t) := by
  constructor
  · intro hs
    obtain rfl := hc.exclusive c c' _ h.holds hs.holds
    match n with
    | 0 => exact h.elim
    | 1 => cases hs <;> simp_all [Departs]
    | 2 => cases hs <;> simp_all [Departs]
    | 3 => cases hs <;> simp_all [Departs]
    | n+4 => exact h.elim
  · intro ⟨hpc,hcur⟩
    obtain rfl := hc.exclusive c c' _ h.holds (by simp [Holds, hpc, hcur])
    match n with
    | 0 => exact h.elim
    | 1 => simp_all [Departs]
    | 2 => simp_all [Departs]
    | 3 => simp_all [Departs]
    | n+4 => exact h.elim

variable [DecidableEq κ] [DecidableEq τ]

structure Keeps (s s' : State κ τ) : Prop where
  pc : s'.pc = s.pc
  cur : s'.currentThread = s.currentThread
  threads : s'.threads = s.threads
  prev : ∀ r, (s'.tcb r).prev = (s.tcb r).prev
  exited : ∀ r, (s'.tcb r).state = .EXITED ↔ (s.tcb r).state = .EXITED

omit [DecidableEq κ] [DecidableEq τ] in
theorem Keeps.trans {s'' : State κ τ} (h : Keeps s s') (h' : Keeps s' s'') : Keeps s s'' :=
  ⟨h'.pc.trans h.pc,h'.cur.trans h.cur,h'.threads.trans h.threads,
    fun r => (h'.prev r).trans (h.prev r),fun r => (h'.exited r).trans (h.exited r)⟩

omit [DecidableEq κ] [DecidableEq τ] in
theorem Keeps.refl : Keeps s s := ⟨rfl,rfl,rfl,fun _ => rfl,fun _ => Iff.rfl⟩

theorem leaveTimeoutList_keeps {r : TcbRef κ τ} (h : leaveTimeoutList s r = some s') :
    Keeps s s' ∧ (s'.tcb r).state = (s.tcb r).state := by
  unfold leaveTimeoutList at h
  split at h
  · split at h
    · cases h
      refine ⟨⟨rfl,rfl,rfl,fun r' => ?_,fun r' => ?_⟩,by simp [State.modTcb]⟩
      · by_cases hr : r' = r <;> simp [State.modTcb, hr]
      · by_cases hr : r' = r <;> simp [State.modTcb, hr]
    · cases h
  · cases h
    exact ⟨.refl,rfl⟩

theorem makeReady_keeps {r : TcbRef κ τ} (h : schedMakeReady s r = some s') : Keeps s s' := by
  unfold schedMakeReady at h
  split at h
  · rename_i hst
    obtain ⟨s1,h1,rfl⟩ := Option.map_eq_some_iff.mp h
    obtain ⟨hk,hsame⟩ := leaveTimeoutList_keeps h1
    refine hk.trans ?_
    have hne : (s1.tcb r).state≠.EXITED := by
      rw [hsame]
      rcases hst with hst | hst <;> simp [hst]
    have hready : Keeps s1 (s1.modTcb r fun tcb => { tcb with state := .READY }) := by
      refine ⟨rfl,rfl,rfl,fun r' => ?_,fun r' => ?_⟩
      · by_cases hr : r' = r <;> simp [State.modTcb, hr]
      · by_cases hr : r' = r
        · simp [State.modTcb, hr, hne]
        · simp [State.modTcb, hr]
    dsimp only
    split
    · exact hready.trans ⟨rfl,rfl,rfl,fun _ => rfl,fun _ => Iff.rfl⟩
    · exact hready
  · cases h

theorem wakeExpired_keeps (curtime : Nat) {fuel : Nat} (h : wakeExpired curtime fuel s = some s') :
    Keeps s s' := by
  induction fuel generalizing s with
  | zero => cases h
  | succ fuel ih =>
    unfold wakeExpired at h
    split at h
    · cases h
      exact .refl
    · split at h
      · cases h
      · split at h
        · cases h
          exact .refl
        · obtain ⟨s1,h1,h2⟩ := Option.bind_eq_some_iff.mp h
          exact (makeReady_keeps h1).trans (ih h2)

theorem wakeup_keeps {r : TcbRef κ τ} {b : Bool} (h : wakeup s r = some (s',b)) : Keeps s s' := by
  unfold wakeup at h
  split at h
  · obtain ⟨s1,h1,he⟩ := Option.map_eq_some_iff.mp h
    cases he
    exact makeReady_keeps h1
  · cases h
    exact .refl

theorem select_keeps {systemClock : Nat} {sel : Option (TcbRef κ τ)}
    (h : schedQueueSelect s systemClock = some (s',sel)) : Keeps s s' := by
  obtain ⟨s1,h1,he⟩ := Option.map_eq_some_iff.mp h
  cases he
  exact (wakeExpired_keeps _ h1).trans ⟨rfl,rfl,rfl,fun _ => rfl,fun _ => Iff.rfl⟩

theorem mark_keeps {b : Bool} (h : yieldMark s c = some (s',b)) :
    Keeps (s.setPc c .stopping) s' := by
  unfold yieldMark at h
  split at h
  all_goals cases h
  all_goals refine ⟨rfl,rfl,rfl,fun r => ?_,fun r => ?_⟩
  all_goals by_cases hr : r = s.currentThread c
  all_goals simp_all [State.modTcb, State.setPc]

theorem link_tcb (next r : TcbRef κ τ) :
    (r≠next → ((yieldLink s c next).tcb r).prev = (s.tcb r).prev) ∧
      ((yieldLink s c next).tcb r).state = (s.tcb r).state := by
  simp only [yieldLink, State.modTcb, State.setPc]
  by_cases hn : r = next <;> by_cases hc :
    r = s.currentThread c <;> simp_all [Function.update_apply]

structure Linked (s s' : State κ τ) (c : κ) (next : TcbRef κ τ) : Prop where
  pc : s'.pc = Function.update s.pc c (.selected next)
  cur : s'.currentThread = s.currentThread
  threads : s'.threads = s.threads
  prev : ∀ r, r≠next → (s'.tcb r).prev = (s.tcb r).prev
  prevNext : (s'.tcb next).prev = some (s.currentThread c)
  exited : ∀ r, (s'.tcb r).state = .EXITED ↔ (s.tcb r).state = .EXITED

theorem link_linked (h : Keeps (s.setPc c .stopping) s') (next : TcbRef κ τ) :
    Linked s (yieldLink s' c next) c next := by
  refine ⟨?_,h.cur,h.threads,fun r hr => ?_,?_,fun r => ?_⟩
  · change Function.update s'.pc c _ = _
    rw [h.pc, State.setPc, Function.update_idem]
  · exact ((link_tcb next r).1 hr).trans (h.prev r)
  · simp [yieldLink, State.modTcb, State.setPc, h.cur]
  · rw [(link_tcb next r).2]
    exact h.exited r

theorem yield_linked {systemClock : Nat} (h : yield s c systemClock = some s') :
    ∃ next, Linked s s' c next := by
  obtain ⟨⟨s1,b⟩,h1,h⟩ := Option.bind_eq_some_iff.mp h
  obtain ⟨⟨s2,sel⟩,h2,rfl⟩ := Option.map_eq_some_iff.mp h
  exact ⟨_,link_linked ((mark_keeps h1).trans (select_keeps h2)) _⟩

theorem registerTimeout_keeps {r : TcbRef κ τ} {timeout systemClock : Nat}
    (h : schedRegisterTimeout s r timeout systemClock = some s') : Keeps s s' := by
  unfold schedRegisterTimeout at h
  split at h
  · obtain ⟨n,-,rfl⟩ := Option.map_eq_some_iff.mp h
    refine ⟨rfl,rfl,rfl,fun r' => ?_,fun r' => ?_⟩
    all_goals by_cases hr : r' = r <;> simp [State.modTcb, hr]
  · cases h
    exact .refl

theorem sleep_keeps {state : ThreadState} {timeout systemClock : Nat}
    (h : sleepReleasing s c state timeout systemClock = some s') :
    Keeps ((s.modTcb (s.currentThread c) fun t => { t with state := state }).setPc c .stopping)
    s' := by
  unfold sleepReleasing at h
  split at h
  · obtain ⟨s1,h1,rfl⟩ := Option.map_eq_some_iff.mp h
    split at h1
    · have hk := registerTimeout_keeps h1
      exact ⟨by simp [State.setPc, hk.pc],hk.cur,hk.threads,hk.prev,hk.exited⟩
    · cases h1
      exact .refl
  · cases h

def releasedBy (s : State κ τ) : Label κ τ → Option τ
  | .gain c => match (s.tcb (s.currentThread c)).prev with
    | some (.normal t) =>
      if s.currentThread c≠.normal t ∧ (s.tcb (.normal t)).state = .EXITED then some t else none
    | _ => none
  | _ => none

def exitedBy (s : State κ τ) : Label κ τ → Option (TcbRef κ τ)
  | .sleep c .EXITED _ _ => some (s.currentThread c)
  | _ => none

def Label.core : Label κ τ → Option κ
  | .enter c | .leave c | .sleep c _ _ _ | .yield c _ | .swap c | .gain c => some c
  | .spawn _ | .wakeup _ => none

omit [DecidableEq κ] in
def threadsAfter (s : State κ τ) (a : Label κ τ) : List τ :=
  match releasedBy s a, a with
  | some t, _ => s.threads.erase t
  | none, .spawn t => s.threads++[t]
  | none, _ => s.threads

theorem gainPrev_threads {prev : TcbRef κ τ} (h : gainPrev s prev = some s') :
    (s.tcb prev).state≠.EXITED ∧ s'.threads = s.threads ∨
      ∃ t, prev = .normal t ∧ (s.tcb prev).state = .EXITED ∧ s'.threads = s.threads.erase t := by
  unfold gainPrev at h
  dsimp only at h
  have hst : ((s.modTcb prev fun t => { t with phase := .CTX_CLEAN }).tcb prev).state =
      (s.tcb prev).state := by simp [State.modTcb]
  rw [hst] at h
  cases hs : (s.tcb prev).state with
  | READY =>
    simp only [hs, Option.some.injEq] at h
    rw [← h]
    split <;> simp [State.modTcb, schedQueueAdd]
  | EXITED =>
    cases prev with
    | idle c => simp [hs, releaseTCB] at h
    | normal t =>
      simp only [hs, releaseTCB, Option.some.injEq] at h
      simp [← h, State.modTcb]
  | STOPPED =>
    simp only [hs, Option.some.injEq] at h
    simp [← h, State.modTcb]
  | INIT => simp [hs] at h
  | RUNNING => simp [hs] at h

theorem gainPrev_keeps {prev : TcbRef κ τ} (h : gainPrev s prev = some s') :
    s'.pc = s.pc ∧ s'.currentThread = s.currentThread ∧
      s'.tcb = Function.update s.tcb prev { s.tcb prev with phase := .CTX_CLEAN } := by
  unfold gainPrev at h
  dsimp only at h
  split at h
  · cases h
    split <;> exact ⟨rfl,rfl,rfl⟩
  · cases prev with
    | idle c => cases h
    | normal t =>
      cases h
      exact ⟨rfl,rfl,rfl⟩
  · cases h
    exact ⟨rfl,rfl,rfl⟩
  · cases h
  · cases h

structure Gained (s s' : State κ τ) (c : κ) : Prop where
  pc : s'.pc = Function.update s.pc c .running
  cur : s'.currentThread = s.currentThread
  threads : s'.threads = threadsAfter s (.gain c)
  prev : ∀ r, (s'.tcb r).prev = (s.tcb r).prev
  state : ∀ r, r≠s.currentThread c → (s'.tcb r).state = (s.tcb r).state
  running : (s'.tcb (s.currentThread c)).state = .RUNNING

theorem gain_gained (h : gain s c = some s') : Gained s s' c := by
  unfold gain at h
  cases hprev : (s.tcb (s.currentThread c)).prev with
  | none => simp [hprev] at h
  | some prev =>
    simp only [hprev] at h
    obtain ⟨s1,h1,rfl⟩ := Option.map_eq_some_iff.mp h
    split at h1
    · rename_i hne
      have hne' : prev≠s.currentThread c := Ne.symm hne
      obtain ⟨hpc,hcur,htcb⟩ := gainPrev_keeps h1
      have hthr := gainPrev_threads h1
      simp only [State.modTcb, Function.update_of_ne hne'] at htcb hthr
      refine ⟨?_,hcur,?_,fun r => ?_,fun r hr => ?_,?_⟩
      · simp only [State.setPc, hpc, State.modTcb]
      · rcases hthr with ⟨hx,hthr⟩ | ⟨t,rfl,hx,hthr⟩
        · cases prev <;> simp [threadsAfter, releasedBy, hprev, hx, State.setPc, hthr]
        · simp [threadsAfter, releasedBy, hprev, hx, hne, State.setPc, hthr]
      · change (s1.tcb r).prev = _
        rw [htcb]
        by_cases hr : r = prev <;> by_cases hc : r = s.currentThread c <;> simp_all
      · change (s1.tcb r).state = _
        rw [htcb]
        by_cases hp : r = prev <;> simp_all
      · change (s1.tcb _).state = _
        rw [htcb]
        simp [hne]
    · rename_i he
      have he : s.currentThread c = prev := not_not.mp he
      have hno : releasedBy s (.gain c) = none := by
        simp only [releasedBy, hprev]
        cases prev <;> simp [he]
      cases h1
      refine ⟨rfl,rfl,?_,fun r => ?_,fun r hr => ?_,?_⟩
      · simp [threadsAfter, hno, State.modTcb, State.setPc]
      · by_cases hr : r = s.currentThread c <;> simp [State.modTcb, State.setPc, hr]
      · simp [State.modTcb, State.setPc, hr]
      · simp [State.modTcb, State.setPc]

theorem exec_other {a : Label κ τ} (hs : exec s a = some s') (hc : a.core≠some c) :
    s'.pc c = s.pc c ∧ s'.currentThread c = s.currentThread c := by
  cases a with
  | enter c' =>
    cases hs
    have hne : c≠c' := fun he => hc (by rw [he]; rfl)
    simp [runScheduler, hne]
  | leave c' =>
    cases hs
    have hne : c≠c' := fun he => hc (by rw [he]; rfl)
    simp [State.setPc, hne]
  | spawn t =>
    cases hs
    exact ⟨rfl,rfl⟩
  | wakeup t =>
    obtain ⟨⟨s1,b⟩,h1,rfl⟩ := Option.map_eq_some_iff.mp hs
    have hk := wakeup_keeps h1
    exact ⟨congrFun hk.pc c,congrFun hk.cur c⟩
  | sleep c' state msec systemClock =>
    have hne : c≠c' := fun he => hc (by rw [he]; rfl)
    have hk := sleep_keeps hs
    rw [hk.pc, hk.cur]
    simp [State.modTcb, State.setPc, hne]
  | yield c' systemClock =>
    have hne : c≠c' := fun he => hc (by rw [he]; rfl)
    obtain ⟨next,hl⟩ := yield_linked hs
    simp [hl.pc, hl.cur, hne]
  | swap c' =>
    have hne : c≠c' := fun he => hc (by rw [he]; rfl)
    simp only [exec, swapContext] at hs
    split at hs
    · cases hs
      simp [hne]
    · cases hs
  | gain c' =>
    have hne : c≠c' := fun he => hc (by rw [he]; rfl)
    have hg := gain_gained hs
    simp [hg.pc, hg.cur, hne]

theorem exec_threads {a : Label κ τ} (hs : exec s a = some s') : s'.threads = threadsAfter s a := by
  cases a with
  | enter c => cases hs; rfl
  | leave c => cases hs; rfl
  | spawn t => cases hs; rfl
  | wakeup t =>
    obtain ⟨⟨s1,b⟩,h1,rfl⟩ := Option.map_eq_some_iff.mp hs
    exact (wakeup_keeps h1).threads
  | sleep c state msec systemClock => exact (sleep_keeps hs).threads
  | yield c systemClock =>
    obtain ⟨next,hl⟩ := yield_linked hs
    exact hl.threads
  | swap c =>
    simp only [exec, swapContext] at hs
    split at hs
    · cases hs; rfl
    · cases hs
  | gain c => exact (gain_gained hs).threads

/-- A thread enters EXITED in its own sleep_releasing, and never leaves it. -/
theorem exec_exited {a : Label κ τ} (h : Cores s) (ha : Enabled s a) (hs : exec s a = some s')
    (ht : t∈s.threads) (hx : exitedBy s a≠some (.normal t)) :
    (s'.tcb (.normal t)).state = .EXITED ↔ (s.tcb (.normal t)).state = .EXITED := by
  cases a with
  | enter c =>
    cases hs
    simp [runScheduler]
  | leave c =>
    cases hs
    exact Iff.rfl
  | spawn u =>
    cases hs
    have hne : t≠u := fun he => ha (he ▸ ht)
    simp [spawnThread, hne]
  | wakeup u =>
    obtain ⟨⟨s1,b⟩,h1,rfl⟩ := Option.map_eq_some_iff.mp hs
    exact (wakeup_keeps h1).exited _
  | sleep c state msec systemClock =>
    rw [(sleep_keeps hs).exited]
    simp only [State.modTcb, State.setPc]
    by_cases hc : TcbRef.normal t = s.currentThread c
    · have hcore := h.core c
      simp only [CoreOk, ha.1, ← hc] at hcore
      rw [← hc, Function.update_self, hcore.1]
      have : state≠.EXITED := by
        rintro rfl
        exact hx (by rw [exitedBy, hc])
      simp [this]
    · rw [Function.update_of_ne hc]
  | yield c systemClock =>
    obtain ⟨next,hl⟩ := yield_linked hs
    exact hl.exited _
  | swap c =>
    simp only [exec, swapContext] at hs
    split at hs
    · cases hs
      exact Iff.rfl
    · cases hs
  | gain c =>
    have hg := gain_gained hs
    by_cases hc : TcbRef.normal t = s.currentThread c
    · have hcore := h.core c
      have hpc : s.pc c = .switched := ha
      simp only [CoreOk, hpc, ← hc] at hcore
      rw [hc, hg.running, ← hc]
      obtain ⟨prev,-,-,hready,-⟩ := hcore
      simp [hready]
    · rw [hg.state _ hc]

theorem releasedBy_eq {a : Label κ τ} :
    releasedBy s a = some t ↔ ∃ c, a = .gain c ∧ s.currentThread c≠.normal t ∧
      (s.tcb (s.currentThread c)).prev = some (.normal t) ∧
      (s.tcb (.normal t)).state = .EXITED := by
  cases a with
  | gain c =>
    cases hprev : (s.tcb (s.currentThread c)).prev with
    | none => simp [releasedBy, hprev]
    | some prev =>
      cases prev with
      | idle c' => simp [releasedBy, hprev]
      | normal u =>
        simp only [releasedBy, hprev]
        split
        · rename_i hu
          simp only [Option.some.injEq, Label.gain.injEq]
          constructor
          · rintro rfl
            exact ⟨c,rfl,hu.1,hprev,hu.2⟩
          · rintro ⟨c',rfl,-,hp,-⟩
            simpa [hprev] using hp
        · rename_i hu
          simp only [reduceCtorEq, Label.gain.injEq, false_iff]
          rintro ⟨c',rfl,hne,hp,hx⟩
          obtain rfl : u = t := by simpa [hprev] using hp
          exact hu ⟨hne,hx⟩
  | _ => simp [releasedBy]

theorem exec_prev {a : Label κ τ} {q' tl' : List τ} {r : TcbRef κ τ} (h' : Inv s' q' tl')
    (hs : exec s a = some s') (hc : a.core≠some c) (hr : Holds s' c r) :
    (s'.tcb r).prev = (s.tcb r).prev := by
  cases a with
  | enter c' =>
    cases hs
    by_cases hi : r = .idle c' <;> simp [runScheduler, hi]
  | leave c' => cases hs; rfl
  | spawn u =>
    cases hs
    by_cases hi : r = .normal u <;> simp [spawnThread, hi]
  | wakeup u =>
    obtain ⟨⟨s1,b⟩,h1,rfl⟩ := Option.map_eq_some_iff.mp hs
    exact (wakeup_keeps h1).prev r
  | sleep c' state msec systemClock =>
    rw [(sleep_keeps hs).prev]
    by_cases hi : r = s.currentThread c' <;> simp [State.modTcb, State.setPc, hi]
  | yield c' systemClock =>
    obtain ⟨next,hl⟩ := yield_linked hs
    have hnext : Holds s' c' next := by simp [Holds, hl.pc]
    apply hl.prev
    rintro rfl
    exact hc (by rw [h'.exclusive c c' _ hr hnext]; rfl)
  | swap c' =>
    simp only [exec, swapContext] at hs
    split at hs
    · cases hs; rfl
    · cases hs
  | gain c' => exact (gain_gained hs).prev r

/-- While core c leaves t, its sections take it to the release, and those of the others
leave it where it is. -/
theorem exec_departs {a : Label κ τ} {n : Nat} {q' tl' : List τ} (h : Cores s) (h' : Inv s' q' tl')
    (ha : Enabled s a) (hs : exec s a = some s') (hx : (s.tcb (.normal t)).state = .EXITED)
    (hd : Departs s c t n) (hr : releasedBy s a≠some t) :
    Departs s' c t (if a.core = some c then n-1 else n) ∧ (a.core = some c → 1<n) := by
  by_cases hc : a.core = some c
  · simp only [hc, if_true, forall_const]
    match n with
    | 0 => exact hd.elim
    | 1 =>
      obtain ⟨hpc,hcur,hprev⟩ := hd
      cases a <;> simp_all [Label.core, Enabled]
      exact absurd (releasedBy_eq.mpr ⟨c,rfl,hcur,hprev,hx⟩) hr
    | 2 =>
      obtain ⟨next,hpc,hne,hcur⟩ := hd
      have hcore := h.core c
      simp only [CoreOk, hpc] at hcore
      cases a <;> simp_all [Label.core, Enabled]
      simp only [exec, swapContext, hpc, Option.some.injEq] at hs
      subst hs
      simp [Departs, hne, hcore]
    | 3 =>
      obtain ⟨hpc,hcur⟩ := hd
      cases a <;> simp_all [Label.core, Enabled]
      obtain ⟨next,hl⟩ := yield_linked hs
      have hcore := h'.core c
      simp only [CoreOk, hl.pc, Function.update_self] at hcore
      refine ⟨next,by simp [hl.pc],?_,by rw [hl.cur, hcur]⟩
      rintro rfl
      have := (hl.exited _).mpr hx
      simp [hcore] at this
    | n+4 => exact hd.elim
  · obtain ⟨hpc,hcur⟩ := exec_other hs hc
    simp only [hc, if_false, false_implies, and_true]
    match n with
    | 0 => exact hd.elim
    | 1 =>
      obtain ⟨hp,hne,hprev⟩ := hd
      refine ⟨hpc.trans hp,by rwa [hcur],?_⟩
      rw [hcur, exec_prev h' hs hc (by simp [Holds, hpc, hp, hcur]), hprev]
    | 2 =>
      obtain ⟨next,hp,hne,hc⟩ := hd
      exact ⟨next,hpc.trans hp,hne,hcur.trans hc⟩
    | 3 => exact ⟨hpc.trans hd.1,hcur.trans hd.2⟩
    | n+4 => exact hd.elim

end TinyOS.Sched
