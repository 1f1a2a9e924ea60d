import TinyOS.Sched.Safety

/-! TIMEOUT_LIST is sorted by wakeup time, and among equal times by registration; so the
loop of sched_queue_select, which stops at the first timer that is not expired, finds all
that are. -/
namespace TinyOS.Sched
open RList
variable {κ τ : Type*} [DecidableEq κ] [DecidableEq τ]
variable {s s' : State κ τ} {q tl tl' : List τ} {c : κ}

structure KeepsTimers (s : State κ τ) (tl : List τ) (s' : State κ τ) (tl' : List τ) : Prop where
  sub : tl'.Sublist tl
  kept : ∀ t∈tl', (s'.tcb (.normal t)).wakeupTime = (s.tcb (.normal t)).wakeupTime
  stays : ∀ t∈tl, (s'.tcb (.normal t)).state = .STOPPED → t∈tl'

def registers (s : State κ τ) : Label κ τ → Option τ
  | .sleep c .STOPPED (some _) _ => match s.currentThread c with
    | .normal t => some t
    | .idle _ => none
  | _ => none

omit [DecidableEq κ] [DecidableEq τ] in
theorem KeepsTimers.of_eq (h : ∀ t∈tl, (s'.tcb (.normal t)).wakeupTime = (s.tcb (.normal t)).wakeupTime) :
    KeepsTimers s tl s' tl := ⟨.refl tl,h,fun _ ht _ => ht⟩

omit [DecidableEq κ] [DecidableEq τ] in
theorem Expires.keeps {curtime : Nat} {ts vs : List τ} (h : Expires s tl curtime s' ts vs) :
    KeepsTimers s tl s' vs := by
  refine ⟨?_,h.kept,fun t ht hst => ?_⟩
  · rw [h.split]
    exact List.sublist_append_right ts vs
  · rw [h.split, List.mem_append] at ht
    refine ht.resolve_left fun hm => ?_
    rw [h.ready t hm] at hst
    cases hst

theorem modTcb_wakeupTime (s : State κ τ) (r x : TcbRef κ τ) {f : TCB κ τ → TCB κ τ}
    (hf : ∀ t, (f t).wakeupTime = t.wakeupTime) :
    ((s.modTcb r f).tcb x).wakeupTime = (s.tcb x).wakeupTime := by
  by_cases hx : x = r
  · rw [hx]
    simp [State.modTcb, hf]
  · simp [State.modTcb, hx]

theorem gainPrev_wakeupTime {prev : TcbRef κ τ} (h : gainPrev s prev = some s') (r : TcbRef κ τ) :
    (s'.tcb r).wakeupTime = (s.tcb r).wakeupTime := by
  have hclean := modTcb_wakeupTime s prev r (f := fun t => { t with phase := .CTX_CLEAN })
    fun _ => rfl
  unfold gainPrev at h
  dsimp only at h
  split at h
  · cases h
    split <;> exact hclean
  · cases prev with
    | idle c => cases h
    | normal t =>
      cases h
      exact hclean
  · cases h
    exact hclean
  · cases h
  · cases h

theorem gain_wakeupTime (h : gain s c = some s') (r : TcbRef κ τ) :
    (s'.tcb r).wakeupTime = (s.tcb r).wakeupTime := by
  have hrun := modTcb_wakeupTime s (s.currentThread c) r
    (f := fun t => { t with state := .RUNNING, phase := .CTX_DIRTY }) fun _ => rfl
  unfold gain at h
  dsimp only at h
  split at h
  · cases h
  · obtain ⟨s1,hs1,rfl⟩ := Option.map_eq_some_iff.mp h
    split at hs1
    · exact (gainPrev_wakeupTime hs1 r).trans hrun
    · cases hs1
      exact hrun

theorem exec_timers (h : Inv s q tl) {a : Label κ τ} (ha : Enabled s a) :
    ∃ s' q' tl', exec s a = some s' ∧ Inv s' q' tl' ∧
      (registers s a = none ∧ KeepsTimers s tl s' tl' ∨
        ∃ c n clk t, a = .sleep c .STOPPED (some n) clk ∧ registers s a = some t ∧
          Registers s tl c (wakeupAt n clk) s' tl' t) := by
  cases a with
  | enter c =>
    exact ⟨_,q,tl,rfl,enter_inv h ha,.inl ⟨rfl,.of_eq fun t _ => by simp [runScheduler]⟩⟩
  | leave c => exact ⟨_,q,tl,rfl,leave_inv h ha.1 ha.2.1,.inl ⟨rfl,.of_eq fun _ _ => rfl⟩⟩
  | spawn t =>
    refine ⟨_,q,tl,rfl,spawn_inv h ha,.inl ⟨rfl,.of_eq fun x hx => ?_⟩⟩
    have hxt : x≠t := by
      rintro rfl
      exact ha ((h.timer x).mp hx).1
    simp [spawnThread, hxt]
  | wakeup t =>
    by_cases hst : (s.tcb (.normal t)).state = .STOPPED ∨ (s.tcb (.normal t)).state = .INIT
    · obtain ⟨heap,hmk,hk,hh⟩ := makeReady_eq h ha hst
      refine ⟨_,_,_,by simp [exec, wakeup, hst, hmk],wake_inv h ha hst hk hh,.inl ⟨rfl,?_,?_,?_⟩⟩
      · exact List.erase_sublist
      · intro x hx
        have hxt : x≠t := (h.holding.nodup_timers.mem_erase_iff.mp hx).1
        simp [madeReady, hxt]
      · intro x hx hstop
        have hxt : x≠t := by
          rintro rfl
          simp [madeReady] at hstop
        exact (List.mem_erase_of_ne hxt).mpr hx
    · exact ⟨s,q,tl,by simp [exec, wakeup, hst],h,.inl ⟨rfl,.of_eq fun _ _ => rfl⟩⟩
  | sleep c st msec clk =>
    obtain ⟨s',tl',hs',hinv,-,hstep⟩ := sleep_step h ha.1 ha.2.1 ha.2.2 msec clk
    refine ⟨s',q,tl',hs',hinv,?_⟩
    rcases hstep with ⟨hno,rfl,hsame⟩ | ⟨n,t,rfl,rfl,hreg⟩
    · refine .inl ⟨?_,.of_eq fun x hx => by rw [hsame x hx]⟩
      rcases hno with rfl | rfl
      · rfl
      · cases st <;> rfl
    · exact .inr ⟨c,n,clk,t,rfl,by simp [registers, hreg.current],hreg⟩
  | yield c clk =>
    obtain ⟨s',q',ts,vs,hs',hinv,hexp⟩ := yield_step h ha clk
    exact ⟨s',q',vs,hs',hinv,.inl ⟨rfl,hexp.keeps⟩⟩
  | swap c =>
    obtain ⟨next,hpc⟩ := ha
    obtain ⟨s',hs',hinv⟩ := swap_inv h hpc
    refine ⟨s',q,tl,hs',hinv,.inl ⟨rfl,.of_eq fun t _ => ?_⟩⟩
    simp only [swapContext, hpc, Option.some.injEq] at hs'
    rw [← hs']
  | gain c =>
    obtain ⟨s',q',hs',hinv⟩ := gain_inv h ha
    exact ⟨s',q',tl,hs',hinv,.inl ⟨rfl,.of_eq fun t _ => gain_wakeupTime hs' (.normal t)⟩⟩

/-- The scheduler with its history: when each thread last registered a timeout. -/
structure Stamped (κ τ : Type*) where
  sched : State κ τ
  stamp : τ → Nat
  steps : Nat

def Stamped.after (m : Stamped κ τ) (a : Label κ τ) (s : State κ τ) : Stamped κ τ where
  sched := s
  stamp := match registers m.sched a with
    | some t => Function.update m.stamp t m.steps
    | none => m.stamp
  steps := m.steps+1

variable (κ τ)

def stamped : Transition.System (Stamped κ τ) (Label κ τ) where
  init m := m.sched = boot
  next m a := ((system κ τ).next m.sched a).map (m.after a)

variable {κ τ} {m m' : Stamped κ τ}

theorem stamped_next {a : Label κ τ} (h : (stamped κ τ).next m a = some m') :
    ∃ s, (system κ τ).next m.sched a = some s ∧ m' = m.after a s := by
  obtain ⟨s,hs,rfl⟩ := Option.map_eq_some_iff.mp h
  exact ⟨s,hs,rfl⟩

theorem exists_stamped (hr : (system κ τ).Reachable s) :
    ∃ m, (stamped κ τ).Reachable m ∧ m.sched = s := by
  induction hr with
  | init h => exact ⟨⟨_,fun _ => 0,0⟩,.init h,rfl⟩
  | @step s s' a _ h ih =>
    obtain ⟨m,hm,rfl⟩ := ih
    exact ⟨m.after a s',.step (a := a) hm (by simp only [stamped, h, Option.map_some]),rfl⟩

def Before (m : Stamped κ τ) (t u : τ) : Prop :=
  (m.sched.tcb (.normal t)).wakeupTime < (m.sched.tcb (.normal u)).wakeupTime ∨
    (m.sched.tcb (.normal t)).wakeupTime = (m.sched.tcb (.normal u)).wakeupTime ∧
      m.stamp t < m.stamp u

/-- TIMEOUT_LIST is in order, and all that is in it was registered. -/
structure Timers (m : Stamped κ τ) (tl : List τ) : Prop where
  sorted : tl.Pairwise (Before m)
  past : ∀ t∈tl, m.stamp t < m.steps

omit [DecidableEq κ] [DecidableEq τ] in
theorem Before.le {t u : τ} (h : Before m t u) :
    (m.sched.tcb (.normal t)).wakeupTime≤(m.sched.tcb (.normal u)).wakeupTime := by
  rcases h with h | ⟨h,-⟩
  · exact Nat.le_of_lt h
  · exact Nat.le_of_eq h

omit [DecidableEq κ] in
theorem Timers.keep {a : Label κ τ} (h : Timers m tl) (hreg : registers m.sched a = none)
    (hk : KeepsTimers m.sched tl s' tl') : Timers (m.after a s') tl' := by
  have hstamp : (m.after a s').stamp = m.stamp := by simp only [Stamped.after, hreg]
  constructor
  · refine (h.sorted.sublist hk.sub).imp_of_mem fun {t u} ht hu hb => ?_
    rw [Before, hstamp, show (m.after a s').sched = s' from rfl, hk.kept t ht, hk.kept u hu]
    exact hb
  · intro t ht
    rw [hstamp]
    exact Nat.lt_succ_of_lt (h.past t (hk.sub.mem ht))

omit [DecidableEq κ] in
theorem Timers.register {a : Label κ τ} {t : τ} {wakeupTime : Nat} (h : Timers m tl)
    (hreg : registers m.sched a = some t)
    (hr : Registers m.sched tl c wakeupTime s' tl' t) : Timers (m.after a s') tl' := by
  obtain ⟨ws,zs,rfl,rfl,hws,hzs⟩ := hr.split
  have hstamp : (m.after a s').stamp = Function.update m.stamp t m.steps := by
    simp only [Stamped.after, hreg]
  have hne : ∀ x∈ws++zs, x≠t := fun x hx he => hr.fresh (he ▸ hx)
  have htcb : ∀ x∈ws++zs, s'.tcb (.normal x) = m.sched.tcb (.normal x) := fun x hx =>
    hr.others x (hne x hx)
  have hbefore : ∀ x∈ws++zs, ∀ y∈ws++zs, Before m x y → Before (m.after a s') x y := by
    intro x hx y hy hb
    rw [Before, hstamp, show (m.after a s').sched = s' from rfl, htcb x hx, htcb y hy,
      Function.update_of_ne (hne x hx), Function.update_of_ne (hne y hy)]
    exact hb
  have hlate : ∀ z∈zs, wakeupTime < (m.sched.tcb (.normal z)).wakeupTime := by
    cases zs with
    | nil => simp
    | cons z zs =>
      intro y hy
      have hz := hzs z zs rfl
      rcases List.mem_cons.mp hy with rfl | hy
      · exact hz
      · have hsorted := (List.pairwise_append.mp h.sorted).2.1
        exact Nat.lt_of_lt_of_le hz ((List.pairwise_cons.mp hsorted).1 y hy).le
  have hmem : ∀ x∈ws++t::zs, x = t ∨ x∈ws++zs := by
    intro x hx
    simp only [List.mem_append, List.mem_cons] at hx ⊢
    tauto
  constructor
  · obtain ⟨hw,hz,hwz⟩ := List.pairwise_append.mp h.sorted
    refine List.pairwise_append.mpr ⟨?_,List.pairwise_cons.mpr ⟨?_,?_⟩,?_⟩
    · exact hw.imp_of_mem fun {x y} hx hy =>
        hbefore x (List.mem_append_left zs hx) y (List.mem_append_left zs hy)
    · intro z hz
      refine .inl ?_
      change (s'.tcb _).wakeupTime < (s'.tcb _).wakeupTime
      rw [hr.self.2, htcb z (List.mem_append_right ws hz)]
      exact hlate z hz
    · exact hz.imp_of_mem fun {x y} hx hy =>
        hbefore x (List.mem_append_right ws hx) y (List.mem_append_right ws hy)
    · intro x hx y hy
      have hx' := List.mem_append_left zs hx
      rcases List.mem_cons.mp hy with rfl | hy
      · have hle := hws x hx
        have hpast := h.past x hx'
        rw [Before, hstamp, show (m.after a s').sched = s' from rfl, htcb x hx', hr.self.2,
          Function.update_of_ne (hne x hx'), Function.update_self]
        omega
      · exact hbefore x hx' y (List.mem_append_right ws hy) (hwz x hx y hy)
  · intro x hx
    rw [hstamp]
    rcases hmem x hx with rfl | hx
    · rw [Function.update_self]
      exact Nat.lt_succ_self _
    · rw [Function.update_of_ne (hne x hx)]
      exact Nat.lt_succ_of_lt (h.past x hx)

theorem stamped_inv (hr : (stamped κ τ).Reachable m) :
    ∃ q tl, Inv m.sched q tl ∧ Timers m tl := by
  refine (stamped κ τ).invariant (fun m => ∃ q tl, Inv m.sched q tl ∧ Timers m tl) ?_ ?_ hr
  · rintro m hm
    have hinv : Inv m.sched ([] : List τ) [] := hm ▸ boot_inv
    exact ⟨[],[],hinv,.nil,by simp⟩
  · rintro m a m' ⟨q,tl,h,ht⟩ hn
    obtain ⟨s,hs,rfl⟩ := stamped_next hn
    simp only [system] at hs
    split at hs
    · rename_i ha
      obtain ⟨s',q',tl',he,hinv,hstep⟩ := exec_timers h ha
      obtain rfl : s' = s := Option.some.inj (he.symm.trans hs)
      refine ⟨q',tl',hinv,?_⟩
      rcases hstep with ⟨hreg,hk⟩ | ⟨c,n,clk,t,-,hreg,hr⟩
      · exact ht.keep hreg hk
      · exact ht.register hreg hr
    · cases hs

def expired (s : State κ τ) (now : Nat) (t : τ) : Bool :=
  decide ((s.tcb (.normal t)).wakeupTime≤now)

/-- What sched_queue_select makes of SCHED and TIMEOUT_LIST: the expired timers are READY, and
behind SCHED if they are clean; the rest keeps its order; the head of SCHED is returned. -/
structure Selection (s : State κ τ) (q tl : List τ) (now : Nat) (s' : State κ τ)
    (sel : Option (TcbRef κ τ)) : Prop where
  ready : s' = awakened s (tl.filter (expired s now)) s'.heap
  head : sel = ((q++(tl.filter (expired s now)).filter (clean s)).head?).map .normal
  holding : Holding s'.heap (q++(tl.filter (expired s now)).filter (clean s)).tail
    (tl.filter fun t => !expired s now t)

theorem Inv.pop (h : Inv s q tl) :
    (rlistPopFront s.heap .SCHED).1.key (rlistPopFront s.heap .SCHED).2 = q.head?.map .normal ∧
      Holding (rlistPopFront s.heap .SCHED).1 q.tail tl := by
  cases q with
  | nil =>
    rw [h.holding.pop_nil]
    exact ⟨h.keySched,h.holding⟩
  | cons t q =>
    obtain ⟨hsel,hpop⟩ := h.holding.pop_cons
    refine ⟨?_,hpop⟩
    rw [hsel]
    exact h.keyNode t ((h.queue t).mp (by simp)).1

/-- In a sorted list the loop finds all timers that are expired. -/
theorem select_eq (h : Inv s q tl) (hs : tl.Pairwise fun t u =>
      (s.tcb (.normal t)).wakeupTime≤(s.tcb (.normal u)).wakeupTime) (systemClock : Nat) :
    ∃ s' sel, schedQueueSelect s systemClock = some (s',sel) ∧
      Selection s q tl (biosClock systemClock) s' sel := by
  obtain ⟨ts,vs,heap,rfl,hwake,hinv,hle,hlt⟩ :=
    wakeExpired_eq (biosClock systemClock) h (Nat.lt_succ_of_le (timers_length_le h))
  have hvs : ∀ v∈vs, biosClock systemClock < (s.tcb (.normal v)).wakeupTime := by
    cases vs with
    | nil => simp
    | cons v vs =>
      intro x hx
      have hv := hlt v vs rfl
      rcases List.mem_cons.mp hx with rfl | hx
      · exact hv
      · exact Nat.lt_of_lt_of_le hv
          ((List.pairwise_cons.mp (List.pairwise_append.mp hs).2.1).1 x hx)
  have hts : ts.filter (expired s (biosClock systemClock)) = ts :=
    List.filter_eq_self.mpr fun t ht => decide_eq_true (hle t ht)
  have hno : vs.filter (expired s (biosClock systemClock)) = [] :=
    List.filter_eq_nil_iff.mpr fun v hv => by
      have := hvs v hv
      simp only [expired, decide_eq_true_eq]
      omega
  have hfilter : (ts++vs).filter (expired s (biosClock systemClock)) = ts := by
    rw [List.filter_append, hts, hno, List.append_nil]
  have hkeep : ((ts++vs).filter fun t => !expired s (biosClock systemClock) t) = vs := by
    rw [List.filter_append, List.filter_eq_nil_iff.mpr, List.nil_append,
      List.filter_eq_self.mpr]
    · intro v hv
      have := hvs v hv
      simp only [expired, Bool.not_eq_true', decide_eq_false_iff_not]
      omega
    · intro t ht
      have := hle t ht
      simp [expired, this]
  obtain ⟨hhead,hpop⟩ := hinv.pop
  rw [schedQueueSelect, hwake]
  refine ⟨_,_,rfl,?_,?_,?_⟩
  · rw [hfilter]
    rfl
  · rw [hfilter]
    exact hhead
  · rw [hfilter, hkeep]
    exact hpop

/-- The states in which sched_queue_select is called, or could be: between two sections, and
in yield after its switch. -/
def AtSelect (s s' : State κ τ) : Prop :=
  s' = s ∨ ∃ c clk b, Enabled s (.yield c clk) ∧ yieldMark s c = some (s',b)

/-- TIMEOUT_LIST is always in order, and sched_queue_select wakes exactly the expired part. -/
theorem timeouts_in_order (hr : (stamped κ τ).Reachable m) :
    ∃ q tl, Placed m.sched q tl ∧ tl.Pairwise (Before m) ∧
      ∀ s, AtSelect m.sched s → Holding s.heap q tl ∧
        ∀ systemClock, ∃ s' sel, schedQueueSelect s systemClock = some (s',sel) ∧
          Selection s q tl (biosClock systemClock) s' sel := by
  obtain ⟨q,tl,h,ht⟩ := stamped_inv hr
  refine ⟨q,tl,h.placed,ht.sorted,?_⟩
  rintro s (rfl | ⟨c,clk,b,ha,hmark⟩)
  · exact ⟨h.holding,select_eq h (ht.sorted.imp Before.le)⟩
  · obtain ⟨s1,b1,hmark1,h1,-⟩ := mark_inv h ha
    obtain rfl : s1 = s := (Prod.mk.inj (Option.some.inj (hmark1.symm.trans hmark))).1
    refine ⟨h1.holding,select_eq h1 (ht.sorted.imp fun {t u} hb => ?_)⟩
    rw [(yieldMark_wakeupTime hmark _).1, (yieldMark_wakeupTime hmark _).1]
    exact hb.le

theorem timeouts_in_order_sleeping : ∃ m : Stamped (Fin 2) (Fin 2),
    (system (Fin 2) (Fin 2)).run boot sleepRun = some m.sched ∧
      ∃ q tl, Placed m.sched q tl ∧ tl.Pairwise (Before m) ∧
        ∃ s' sel, schedQueueSelect m.sched 9 = some (s',sel) ∧
          Selection m.sched q tl (biosClock 9) s' sel := by
  obtain ⟨s,hs⟩ : ∃ s, (system (Fin 2) (Fin 2)).run boot sleepRun = some s :=
    Option.isSome_iff_exists.mp (by decide +kernel)
  obtain ⟨m,hm,rfl⟩ := exists_stamped
    ((system (Fin 2) (Fin 2)).reachable_run sleepRun (.init rfl) hs)
  obtain ⟨q,tl,hplaced,hsorted,hsel⟩ := timeouts_in_order hm
  exact ⟨m,hs,q,tl,hplaced,hsorted,(hsel m.sched (.inl rfl)).2 9⟩

structure Timed (s : State κ τ) (t : τ) (wakeupTime : Nat) : Prop where
  listed : ∃ q tl, Inv s q tl ∧ t∈tl
  time : (s.tcb (.normal t)).wakeupTime = wakeupTime

theorem system_next {a : Label κ τ} (hn : (system κ τ).next s a = some s') :
    Enabled s a ∧ exec s a = some s' := by
  simp only [system] at hn
  split at hn
  · exact ⟨‹_›,hn⟩
  · cases hn

theorem Timed.sleep {t : τ} {msec clk : Nat} (h : Inv s q tl) (hcur : s.currentThread c = .normal t)
    (hn : (system κ τ).next s (.sleep c .STOPPED (some msec) clk) = some s') :
    Timed s' t (wakeupAt msec clk) ∧ s'.pc c = .stopping := by
  obtain ⟨ha,he⟩ := system_next hn
  obtain ⟨s'',tl',hs',hinv,hpc,hstep⟩ := sleep_step h ha.1 ha.2.1 ha.2.2 (some msec) clk
  obtain rfl : s'' = s' := Option.some.inj (hs'.symm.trans he)
  rcases hstep with ⟨hno,-⟩ | ⟨n,u,-,hmsec,hreg⟩
  · simp at hno
  · cases hmsec
    obtain rfl : t = u := by simpa [hcur] using hreg.current
    obtain ⟨ws,zs,-,rfl,-⟩ := hreg.split
    exact ⟨⟨⟨q,_,hinv,by simp⟩,hreg.self.2⟩,hpc⟩

theorem Timed.step {t : τ} {wakeupTime : Nat} {a : Label κ τ} (h : Timed s t wakeupTime)
    (hn : (system κ τ).next s a = some s') (hst : (s'.tcb (.normal t)).state = .STOPPED) :
    Timed s' t wakeupTime := by
  obtain ⟨⟨q,tl,hinv,htl⟩,rfl⟩ := h
  obtain ⟨ha,he⟩ := system_next hn
  obtain ⟨s'',q',tl',hs',hinv',hstep⟩ := exec_timers hinv ha
  obtain rfl : s'' = s' := Option.some.inj (hs'.symm.trans he)
  rcases hstep with ⟨-,hk⟩ | ⟨c,n,clk,u,-,-,hreg⟩
  · have hm := hk.stays t htl hst
    exact ⟨⟨q',tl',hinv',hm⟩,hk.kept t hm⟩
  · have htu : t≠u := fun hc => hreg.fresh (hc ▸ htl)
    obtain ⟨ws,zs,rfl,rfl,-⟩ := hreg.split
    refine ⟨⟨q',_,hinv',?_⟩,by rw [hreg.others t htu]⟩
    simp only [List.mem_append, List.mem_cons] at htl ⊢
    tauto

theorem Timed.run {t : τ} {wakeupTime : Nat} (h : Timed s t wakeupTime) (as : List (Label κ τ))
    (hal : (system κ τ).Along (fun s => (s.tcb (.normal t)).state = .STOPPED) s as)
    (hrun : (system κ τ).run s as = some s') : Timed s' t wakeupTime := by
  induction as generalizing s with
  | nil =>
    cases hrun
    exact h
  | cons a as ih =>
    obtain ⟨s1,h1,hrun⟩ := Option.bind_eq_some_iff.mp hrun
    exact ih (h.step h1 (hal.2 s1 h1).head) (hal.2 s1 h1) hrun

theorem Timed.expires {t : τ} {wakeupTime clk : Nat} (h : Timed s t wakeupTime)
    (hn : (system κ τ).next s (.yield c clk) = some s')
    (hst : (s'.tcb (.normal t)).state = .READY) : wakeupTime≤biosClock clk := by
  obtain ⟨⟨q,tl,hinv,htl⟩,rfl⟩ := h
  obtain ⟨ha,he⟩ := system_next hn
  obtain ⟨s'',q',ts,vs,hs',hinv',hexp⟩ := yield_step hinv ha clk
  obtain rfl : s'' = s' := Option.some.inj (hs'.symm.trans he)
  rw [hexp.split, List.mem_append] at htl
  refine hexp.expired t (htl.resolve_right fun hm => ?_)
  rw [((hinv'.timer t).mp hm).2.1] at hst
  cases hst

theorem Timed.wakes (hr : (system κ τ).Reachable s) {t : τ} {wakeupTime clk : Nat}
    (h : Timed s t wakeupTime) (ha : Enabled s (.yield c clk)) (hle : wakeupTime≤biosClock clk) :
    ∃ s', (system κ τ).next s (.yield c clk) = some s' ∧ (s'.tcb (.normal t)).state = .READY := by
  obtain ⟨m,hm,rfl⟩ := exists_stamped hr
  obtain ⟨q,tl,hinv,ht⟩ := stamped_inv hm
  obtain ⟨⟨q',tl',hinv',htl'⟩,rfl⟩ := h
  have htl : t∈tl := (hinv.timer t).mpr ((hinv'.timer t).mp htl')
  obtain ⟨s',q',ts,vs,hs',-,hexp⟩ := yield_step hinv ha clk
  refine ⟨s',by simp only [system, if_pos ha]; exact hs',hexp.ready t ?_⟩
  rw [hexp.split, List.mem_append] at htl
  refine htl.resolve_right fun hmem => ?_
  have hsorted := ht.sorted
  rw [hexp.split] at hsorted
  cases vs with
  | nil => simp at hmem
  | cons v vs =>
    have hv := hexp.first v vs rfl
    have hvt : (m.sched.tcb (.normal v)).wakeupTime≤(m.sched.tcb (.normal t)).wakeupTime := by
      rcases List.mem_cons.mp hmem with rfl | hmem
      · exact Nat.le_refl _
      · exact ((List.pairwise_cons.mp (List.pairwise_append.mp hsorted).2.1).1 t hmem).le
    omega

theorem wakeupAt_eq (msec clk : Nat) : wakeupAt msec clk = biosClock (clk+msec) := by
  simp only [wakeupAt, biosClock, timeoutUsec, timerModulus]
  omega

/-- A timed wait is not ended early by its timeout exactly if the clock at which it started and
the timeout in usec add up without wrapping around. -/
theorem timed_wait_early (hr : (system κ τ).Reachable s) {t : τ} (hcur : s.currentThread c = .normal t)
    {msec clk : Nat} (hn : (system κ τ).next s (.sleep c .STOPPED (some msec) clk) = some s') :
    (∀ as s2, (system κ τ).Along (fun s => (s.tcb (.normal t)).state = .STOPPED) s' as →
        (system κ τ).run s' as = some s2 → ∀ c2 clk2 s3,
          (system κ τ).next s2 (.yield c2 clk2) = some s3 → (s3.tcb (.normal t)).state = .READY →
            biosClock clk+1000*msec≤biosClock clk2) ↔
      biosClock clk+1000*msec < 2^64 := by
  obtain ⟨q,tl,hinv⟩ := reachable_inv hr
  obtain ⟨htimed,hpc⟩ := Timed.sleep hinv hcur hn
  constructor
  · intro h
    have hstop : (s'.tcb (.normal t)).state = .STOPPED := by
      obtain ⟨q',tl',hinv',htl⟩ := htimed.listed
      exact ((hinv'.timer t).mp htl).2.1
    have hyield : Enabled s' (.yield c (clk+msec)) := .inr hpc
    obtain ⟨s3,hs3,hready⟩ := htimed.wakes (.step hr hn) hyield
      (Nat.le_of_eq (wakeupAt_eq msec clk))
    have hle := h [] s' hstop rfl c (clk+msec) s3 hs3 hready
    exact Nat.lt_of_le_of_lt hle (Nat.mod_lt _ (Nat.two_pow_pos 64))
  · intro hlt as s2 hal hrun c2 clk2 s3 hs3 hready
    have hle := (htimed.run as hal hrun).expires hs3 hready
    have hwt : wakeupAt msec clk = biosClock clk+1000*msec := by
      have hmsec : msec*1000 % 2^64 = 1000*msec := by
        rw [Nat.mod_eq_of_lt (by omega), Nat.mul_comm]
      rw [wakeupAt, timeoutUsec, timerModulus, hmsec, Nat.mod_eq_of_lt hlt]
    omega

def runThread : List (Label (Fin 1) (Fin 1)) :=
  [.enter 0, .spawn 0, .wakeup 0, .yield 0 1, .swap 0, .gain 0]

theorem run_then (s0 : State κ τ) (as : List (Label κ τ)) (a : Label κ τ)
    (P : State κ τ → State κ τ → Prop) [∀ s s', Decidable (P s s')]
    (h : (((system κ τ).run s0 as).any fun s =>
      ((system κ τ).next s a).any fun s' => decide (P s s')) = true) :
    ∃ s s', (system κ τ).run s0 as = some s ∧ (system κ τ).next s a = some s' ∧ P s s' := by
  obtain ⟨s,hs,h⟩ := (Option.any_eq_true _ _).mp h
  obtain ⟨s',hs',h⟩ := (Option.any_eq_true _ _).mp h
  exact ⟨s,s',hs,hs',of_decide_eq_true h⟩

theorem timed_wait_early_three : ∃ s s' : State (Fin 1) (Fin 1),
    (system (Fin 1) (Fin 1)).run boot runThread = some s ∧
    (system (Fin 1) (Fin 1)).next s (.sleep 0 .STOPPED (some 3) 2) = some s' ∧
    ∀ as s2, (system (Fin 1) (Fin 1)).Along (fun s => (s.tcb (.normal 0)).state = .STOPPED) s' as →
      (system (Fin 1) (Fin 1)).run s' as = some s2 → ∀ c2 clk2 s3,
        (system (Fin 1) (Fin 1)).next s2 (.yield c2 clk2) = some s3 →
          (s3.tcb (.normal 0)).state = .READY → 2000+1000*3≤biosClock clk2 := by
  obtain ⟨s,s',hs,hn,hcur⟩ := run_then boot runThread
    (.sleep 0 .STOPPED (some 3) 2) (fun s _ => s.currentThread 0 = TcbRef.normal (0 : Fin 1))
    (by decide +kernel)
  have hr := (system (Fin 1) (Fin 1)).reachable_run runThread (.init rfl) hs
  exact ⟨s,s',hs,hn,(timed_wait_early hr hcur hn).mpr (by decide)⟩

/-- The longest timeout is over at once. -/
theorem timed_wait_early_max : ∃ s s' s3 : State (Fin 1) (Fin 1),
    (system (Fin 1) (Fin 1)).run boot runThread = some s ∧ s.currentThread 0 = .normal 0 ∧
    (system (Fin 1) (Fin 1)).next s (.sleep 0 .STOPPED (some (2^64-1)) 1) = some s' ∧
    (system (Fin 1) (Fin 1)).next s' (.yield 0 1) = some s3 ∧
    (s'.tcb (.normal 0)).state = .STOPPED ∧ (s3.tcb (.normal 0)).state = .READY ∧
    ¬biosClock 1+1000*(2^64-1)≤biosClock 1 := by
  obtain ⟨s,s',hs,hn,hcur,hst,hany⟩ := run_then boot runThread
    (.sleep 0 .STOPPED (some (2^64-1)) 1) (fun s s' =>
      s.currentThread 0 = TcbRef.normal (0 : Fin 1) ∧ (s'.tcb (.normal 0)).state = .STOPPED ∧
        ((system (Fin 1) (Fin 1)).next s' (.yield 0 1)).any fun s3 =>
          decide ((s3.tcb (.normal 0)).state = .READY)) (by decide +kernel)
  obtain ⟨s3,hs3,hready⟩ := (Option.any_eq_true _ _).mp hany
  exact ⟨s,s',s3,hs,hcur,hn,hs3,hst,of_decide_eq_true hready,by decide⟩

end TinyOS.Sched
