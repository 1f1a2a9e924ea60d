import TinyOS.Sched.Timeouts

/-! The order of service: SCHED is first in, first out, over all cores. -/
namespace TinyOS.Sched
open RList Transition
variable {κ τ : Type*} [DecidableEq κ] [DecidableEq τ] {s s' : State κ τ} {q q' tl tl' : List τ}
  {c : κ}

omit [DecidableEq κ] [DecidableEq τ] in
theorem Holding.unique {h : Heap (Node κ τ) (Option (TcbRef κ τ))} (hq : Holding h q tl)
    (hq' : Holding h q' tl') : q = q' := by
  have hr : ∀ {q tl : List τ}, Holding h q tl → Ring.RingOf h.next .SCHED (q.map node) :=
    fun hq => ⟨hq.lists.cons_nodup .ready,hq.lists.path .ready⟩
  exact List.map_injective_iff.mpr node_injective ((hr hq).unique (hr hq'))

omit [DecidableEq κ] [DecidableEq τ] in
theorem Holding.stays {h : Heap (Node κ τ) (Option (TcbRef κ τ))} (hq : Holding h q tl)
    (hq' : Holding h q' tl') : ∃ news, q' = q++news := by
  refine ⟨[],?_⟩
  rw [List.append_nil]
  exact hq'.unique hq

/-- What a section does to the list of SCHED: some threads come in at its end, and if it
chooses a thread then the first one. -/
def Serves (q : List τ) (chosen : Option (TcbRef κ τ)) (q' : List τ) : Prop :=
  ∃ news, match chosen with
    | none => q' = q++news
    | some r => ∀ t rest, q++news = t::rest → r = .normal t ∧ q' = rest

def chosen (s : State κ τ) : Label κ τ → Option (TcbRef κ τ)
  | .yield c _ =>
    match s.pc c with
    | .selected r => some r
    | _ => none
  | _ => none

theorem gainPrev_heap {prev : TcbRef κ τ} (h : gainPrev s prev = some s') :
    s'.heap = s.heap ∨ (s.tcb prev).type≠.IDLE_THREAD ∧ (s.tcb prev).state = .READY ∧
      s'.heap = rlistPushBack s.heap .SCHED (.schedNode prev) := by
  unfold gainPrev at h
  have htcb : ((s.modTcb prev fun t => { t with phase := .CTX_CLEAN }).tcb prev).state =
      (s.tcb prev).state ∧ ((s.modTcb prev fun t => { t with phase := .CTX_CLEAN }).tcb prev).type =
      (s.tcb prev).type := by simp [State.modTcb]
  dsimp only at h
  rw [htcb.1, htcb.2] at h
  split at h
  · rename_i hst
    split at h
    · rename_i hty
      cases h
      exact .inr ⟨hty,hst,rfl⟩
    · cases h
      exact .inl rfl
  · unfold releaseTCB at h
    split at h
    · cases h
      exact .inl rfl
    · cases h
  · cases h
    exact .inl rfl
  · cases h
  · cases h

theorem gain_serves (h : Inv s q tl) (hpc : s.pc c = .switched) (hs : gain s c = some s')
    (h' : Inv s' q' tl') : ∃ news, q' = q++news := by
  have hcore := h.core c
  simp only [CoreOk, hpc] at hcore
  obtain ⟨prev,hprev,hleaving,_⟩ := hcore
  have hheld : Holds s c prev := by simp [Holds, hpc, hprev]
  have hkept : s'.heap = s.heap → ∃ news, q' = q++news := fun he =>
    Holding.stays (he ▸ h.holding) h'.holding
  unfold gain at hs
  dsimp only at hs
  rw [hprev] at hs
  obtain ⟨s1,hs1,rfl⟩ := Option.map_eq_some_iff.mp hs
  split at hs1
  · rename_i hne
    rcases gainPrev_heap hs1 with he|⟨hty,hst,he⟩
    · exact hkept he
    · have hsame : ∀ {f : TCB κ τ → TCB κ τ}, (s.modTcb (s.currentThread c) f).tcb prev =
          s.tcb prev := by
        intro f
        simp [State.modTcb, Ne.symm hne]
      rw [hsame] at hty hst
      cases prev with
      | idle c' =>
        obtain rfl := h.heldIdle c c' hheld
        exact absurd (h.idle c' (by simp [hpc]) (by simp [hpc])).1 hty
      | normal t =>
        have hq : t∉q := fun hm => by simpa [hleaving.1] using ((h.queue t).mp hm).2.2.1
        have htl : t∉tl := fun hm => by simpa [hst] using ((h.timer t).mp hm).2.1
        have hpush := h.holding.push_back hq htl
        exact ⟨[t],h'.holding.unique (he ▸ hpush)⟩
  · cases hs1
    exact hkept rfl

theorem yieldLink_pc (s : State κ τ) (c : κ) (next : TcbRef κ τ) :
    (yieldLink s c next).pc c = .selected next := by
  simp [yieldLink, State.setPc]

theorem yield_serves (h : Inv s q tl) (hpc : s.pc c = .running ∨ s.pc c = .stopping)
    {systemClock : Nat} (hs : yield s c systemClock = some s') (h' : Inv s' q' tl') :
    ∃ r news, s'.pc c = .selected r ∧ ∀ t rest, q++news = t::rest → r = .normal t ∧ q' = rest := by
  obtain ⟨s1,b,hmark,h1,hpc1,hcur1,_⟩ := mark_inv h hpc
  obtain ⟨ts,vs,heap,_,hwake,h2,_⟩ :=
    wakeExpired_eq (biosClock systemClock) h1 (Nat.lt_succ_of_le (timers_length_le h1))
  obtain ⟨hhead,hpop⟩ := h2.pop
  simp only [yield, hmark, Option.bind_some, schedQueueSelect, hwake, Option.map_some,
    Option.some.injEq] at hs
  rw [← hs]
  refine ⟨_,ts.filter (clean s1),yieldLink_pc _ c _,fun t rest hq => ?_⟩
  have hq' : q' = (q++ts.filter (clean s1)).tail := by
    rw [← hs] at h'
    exact h'.holding.unique hpop
  rw [hq] at hhead hq'
  have hsel : (rlistPopFront (awakened s1 ts heap).heap .SCHED).1.key
      (rlistPopFront (awakened s1 ts heap).heap .SCHED).2 = some (.normal t) := hhead
  refine ⟨?_,hq'⟩
  rw [hsel]

theorem exec_serves (h : Inv s q tl) {a : Label κ τ} (ha : Enabled s a)
    (hs : exec s a = some s') (h' : Inv s' q' tl') : Serves q (chosen s' a) q' := by
  cases a with
  | enter c =>
    cases hs
    exact Holding.stays (enter_inv h ha).holding h'.holding
  | leave c =>
    cases hs
    exact Holding.stays h.holding h'.holding
  | spawn t =>
    cases hs
    exact Holding.stays (spawn_inv h ha).holding h'.holding
  | wakeup t =>
    change ∃ news, q' = q++news
    by_cases hst : (s.tcb (.normal t)).state = .STOPPED ∨ (s.tcb (.normal t)).state = .INIT
    · obtain ⟨heap,hmk,hk,hh⟩ := makeReady_eq h ha hst
      simp only [exec, wakeup, hst, hmk, if_true, Option.map_some, Option.some.injEq] at hs
      have hq := h'.holding.unique (hs ▸ (wake_inv h ha hst hk hh).holding)
      split at hq
      · exact ⟨[t],hq⟩
      · exact ⟨[],by rw [List.append_nil]; exact hq⟩
    · simp only [exec, wakeup, hst, if_false, Option.map_some, Option.some.injEq] at hs
      exact Holding.stays (hs ▸ h.holding) h'.holding
  | sleep c st msec systemClock =>
    obtain ⟨s'',tl'',hs'',hinv,_⟩ := sleep_step h ha.1 ha.2.1 ha.2.2 msec systemClock
    have he : s'' = s' := Option.some.inj (hs''.symm.trans hs)
    exact Holding.stays (he ▸ hinv.holding) h'.holding
  | yield c systemClock =>
    obtain ⟨r,news,hr,hserve⟩ := yield_serves h ha hs h'
    refine ⟨news,?_⟩
    rw [chosen, hr]
    exact hserve
  | swap c =>
    obtain ⟨next,hpc⟩ := ha
    simp only [exec, swapContext, hpc, Option.some.injEq] at hs
    have he : s'.heap = s.heap := by rw [← hs]
    exact Holding.stays h.holding (he ▸ h'.holding)
  | gain c => exact gain_serves h ha hs h'

def Label.isYield : Label κ τ → Bool
  | .yield _ _ => true
  | _ => false

def picks (s : State κ τ) : List (Label κ τ) → List (TcbRef κ τ)
  | [] => []
  | a::as =>
    match (system κ τ).next s a with
    | some s' => (chosen s' a).toList++picks s' as
    | none => []

theorem picks_cons {a : Label κ τ} {as : List (Label κ τ)}
    (h : (system κ τ).next s a = some s') :
    picks s (a::as) = (chosen s' a).toList++picks s' as := by
  simp [picks, h]

theorem next_serves (h : Inv s q tl) {a : Label κ τ} (hn : (system κ τ).next s a = some s') :
    ∃ q' tl', Inv s' q' tl' ∧ Serves q (chosen s' a) q' ∧ (chosen s' a).isSome = a.isYield := by
  obtain ⟨ha,hs⟩ := system_next hn
  obtain ⟨s'',q',tl',hs'',h'⟩ := exec_inv h ha
  obtain rfl : s'' = s' := Option.some.inj (hs''.symm.trans hs)
  refine ⟨q',tl',h',exec_serves h ha hs h',?_⟩
  cases a with
  | yield c systemClock =>
    obtain ⟨r,news,hr,_⟩ := yield_serves h ha hs h'
    simp [chosen, hr, Label.isYield]
  | _ => rfl

/-- By induction on the run: what the first section does to SCHED leaves the thread at its
place, or one place nearer to the head. -/
theorem Inv.served {as : List (Label κ τ)} (h : Inv s q tl)
    (hrun : (system κ τ).run s as = some s') {k : Nat} {t : τ} (hq : q[k]? = some t)
    (hk : k < (picks s as).length) : (picks s as)[k]? = some (.normal t) := by
  induction as generalizing s q tl k with
  | nil => exact absurd hk (Nat.not_lt_zero k)
  | cons a as ih =>
    obtain ⟨s1,hn,hrun⟩ := Option.bind_eq_some_iff.mp hrun
    obtain ⟨q1,tl1,h1,⟨news,hserves⟩,_⟩ := next_serves h hn
    rw [picks_cons hn] at hk ⊢
    cases hc : chosen s1 a with
    | none =>
      rw [hc] at hk hserves
      obtain ⟨hlt,_⟩ := List.getElem?_eq_some_iff.mp hq
      refine ih h1 hrun ?_ hk
      rw [show q1 = q++news from hserves, List.getElem?_append_left hlt]
      exact hq
    | some r =>
      rw [hc] at hk hserves
      cases q with
      | nil => cases hq
      | cons x xs =>
        obtain ⟨rfl,rfl⟩ := hserves x (xs++news) rfl
        cases k with
        | zero =>
          cases hq
          rfl
        | succ k =>
          have hq' : xs[k]? = some t := hq
          obtain ⟨hlt,_⟩ := List.getElem?_eq_some_iff.mp hq'
          refine ih h1 hrun ?_ (Nat.lt_of_succ_lt_succ hk)
          rw [List.getElem?_append_left hlt]
          exact hq'

theorem Inv.picks_length {as : List (Label κ τ)} (h : Inv s q tl)
    (hrun : (system κ τ).run s as = some s') :
    (picks s as).length = as.countP Label.isYield := by
  induction as generalizing s q tl with
  | nil => rfl
  | cons a as ih =>
    obtain ⟨s1,hn,hrun⟩ := Option.bind_eq_some_iff.mp hrun
    obtain ⟨q1,tl1,h1,_,hc⟩ := next_serves h hn
    rw [picks_cons hn, List.length_append, ih h1 hrun, List.countP_cons, ← hc]
    cases chosen s1 a <;> simp [Nat.add_comm]

/-- The threads in SCHED are chosen in their order, whichever cores choose and whatever else
happens. So none of them waits for more selections than there are threads. -/
theorem served_in_order (hr : (system κ τ).Reachable s) {as : List (Label κ τ)}
    (hrun : (system κ τ).run s as = some s') :
    (picks s as).length = as.countP Label.isYield ∧ ∃ q tl, Placed s q tl ∧
      (∀ k t, q[k]? = some t → k < (picks s as).length →
        (picks s as)[k]? = some (.normal t)) ∧
      ∀ t∈q, s.threads.length≤(picks s as).length → .normal t∈picks s as := by
  obtain ⟨q,tl,h⟩ := reachable_inv hr
  refine ⟨h.picks_length hrun,q,tl,h.placed,fun k t hq hk => h.served hrun hq hk,
    fun t ht hlen => ?_⟩
  have hle : q.length≤ s.threads.length :=
    List.Subperm.length_le (List.subperm_of_subset h.holding.nodup_ready
      fun x hx => ((h.queue x).mp hx).1)
  obtain ⟨k,hk,hkt⟩ := List.getElem_of_mem ht
  exact List.mem_of_getElem? (h.served hrun (List.getElem?_eq_some_iff.mpr ⟨hk,hkt⟩) (by omega))

def twoWaiting : List (Label (Fin 2) (Fin 3)) :=
  [.enter 0, .enter 1, .spawn 0, .wakeup 0, .spawn 1, .wakeup 1]

def bothCores : List (Label (Fin 2) (Fin 3)) := [.yield 1 1, .spawn 2, .wakeup 2, .yield 0 1]

theorem served_in_order_two : ∃ s s', (system (Fin 2) (Fin 3)).run boot twoWaiting = some s ∧
    (system (Fin 2) (Fin 3)).run s bothCores = some s' ∧ .normal 1∈picks s bothCores := by
  obtain ⟨s,hs,hmem,hready,hclean,h0,h1,hlen,hsome⟩ : ∃ s,
      (system (Fin 2) (Fin 3)).run boot twoWaiting = some s ∧ 1∈s.threads ∧
      (s.tcb (.normal 1)).state = .READY ∧ (s.tcb (.normal 1)).phase = .CTX_CLEAN ∧
      s.pc 0 = .running ∧ s.pc 1 = .running ∧ s.threads.length = 2 ∧
      ((system (Fin 2) (Fin 3)).run s bothCores).isSome = true := by
    have h : ((system (Fin 2) (Fin 3)).run boot twoWaiting).any (fun s => decide (1∈s.threads ∧
        (s.tcb (.normal 1)).state = .READY ∧ (s.tcb (.normal 1)).phase = .CTX_CLEAN ∧
        s.pc 0 = .running ∧ s.pc 1 = .running ∧ s.threads.length = 2 ∧
        ((system (Fin 2) (Fin 3)).run s bothCores).isSome = true)) = true := by decide +kernel
    obtain ⟨s,hs,h⟩ := (Option.any_eq_true _ _).mp h
    exact ⟨s,hs,of_decide_eq_true h⟩
  obtain ⟨s',hs'⟩ := Option.isSome_iff_exists.mp hsome
  have hr := (system (Fin 2) (Fin 3)).reachable_run twoWaiting (.init rfl) hs
  obtain ⟨hcount,q,tl,hp,_,hall⟩ := served_in_order hr hs'
  have hsel : ∀ c, ¬Selects s c (.normal 1) := by
    intro c
    have hc : s.pc c = .running := by
      rcases (by omega : c = 0 ∨ c = 1) with rfl|rfl
      · exact h0
      · exact h1
    simp [Selects, hc]
  refine ⟨s,s',hs,hs',hall 1 ((hp.ready 1).mpr ⟨hmem,hready,hclean,hsel⟩) ?_⟩
  rw [hcount, hlen]
  decide

end TinyOS.Sched
