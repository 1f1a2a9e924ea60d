import TinyOS.Sched.Invariant
import Mathlib.Data.List.Perm.Subperm

/-! The sections of sleep_releasing, yield and gain keep the invariant, and none of
their assertions fails. -/
namespace TinyOS.Sched
open RList
variable {κ τ : Type*} [DecidableEq κ] [DecidableEq τ]
variable {s : State κ τ} {q tl : List τ} {c : κ}

theorem skipEarlier_eq (wakeupTime : Nat) {q : List τ} (us vs : List τ)
    (hh : Holding s.heap q (us++vs))
    (hk : ∀ t∈vs, s.heap.key (node t) = some (.normal t)) (fuel : Nat) (hf : vs.length<fuel) :
    ∃ ws zs, vs = ws++zs ∧
      skipEarlier s wakeupTime fuel ((vs.map node++[Node.TIMEOUT_LIST]).head (by simp)) =
        some ((zs.map node++[Node.TIMEOUT_LIST]).head (by simp)) ∧
      (∀ t∈ws, (s.tcb (.normal t)).wakeupTime ≤ wakeupTime) ∧
      ∀ t zs', zs = t::zs' → wakeupTime<(s.tcb (.normal t)).wakeupTime := by
  induction vs generalizing us fuel with
  | nil =>
    cases fuel with
    | zero => omega
    | succ fuel => exact ⟨[],[],rfl,by simp [skipEarlier],by simp,by simp⟩
  | cons t vs ih =>
    cases fuel with
    | zero => simp at hf
    | succ fuel =>
      have hkt := hk t (by simp)
      by_cases hw : wakeupTime<(s.tcb (.normal t)).wakeupTime
      · refine ⟨[],t::vs,rfl,by simp [skipEarlier, hkt, hw],by simp,?_⟩
        intro x zs' he
        cases he
        exact hw
      · obtain ⟨ws,zs,rfl,heq,hle,hlt⟩ := ih (us++[t]) (by simpa using hh)
          (fun x hx => hk x (List.mem_cons_of_mem t hx)) fuel (by simpa using hf)
        refine ⟨t::ws,zs,rfl,?_,?_,hlt⟩
        · rw [← heq, ← hh.next_timer]
          simp [skipEarlier, hkt, hw]
        · intro x hx
          rcases List.mem_cons.mp hx with rfl | hx
          · omega
          · exact hle x hx

/-- Timeouts are multiples of 8 modulo 2^64, so a wakeup time is never NO_TIMEOUT. -/
theorem wakeupTime_ne (msec systemClock : Nat) :
    (biosClock systemClock+timeoutUsec (some msec)) % timerModulus≠NO_TIMEOUT := by
  simp only [biosClock, timeoutUsec, NO_TIMEOUT, timerModulus]
  omega

theorem timeoutUsec_ne (msec : Nat) : timeoutUsec (some msec)≠NO_TIMEOUT := by
  simp only [timeoutUsec, NO_TIMEOUT, timerModulus]
  omega

omit [DecidableEq κ] [DecidableEq τ] in
theorem timers_length_le (h : Inv s q tl) : tl.length ≤ s.threads.length :=
  (List.Nodup.subperm h.holding.nodup_timers fun t ht => ((h.timer t).mp ht).1).length_le

def wakeupAt (msec systemClock : Nat) : Nat :=
  (biosClock systemClock+timeoutUsec (some msec)) % timerModulus

/-- The current thread t of c registers a timeout: it goes behind the timers that expire
no later, and before the first that does. -/
structure Registers (s : State κ τ) (tl : List τ) (c : κ) (wakeupTime : Nat) (s' : State κ τ)
    (tl' : List τ) (t : τ) : Prop where
  current : s.currentThread c = .normal t
  fresh : t∉tl
  split : ∃ ws zs, tl = ws++zs ∧ tl' = ws++t::zs ∧
    (∀ x∈ws, (s.tcb (.normal x)).wakeupTime ≤ wakeupTime) ∧
    ∀ z zs', zs = z::zs' → wakeupTime < (s.tcb (.normal z)).wakeupTime
  self : (s'.tcb (.normal t)).state = .STOPPED ∧ (s'.tcb (.normal t)).wakeupTime = wakeupTime
  others : ∀ x, x≠t → s'.tcb (.normal x) = s.tcb (.normal x)

theorem sleep_step (h : Inv s q tl) (hpc : s.pc c = .running)
    (hn : (s.currentThread c).isNormal = true)
    {st : ThreadState} (hst : st = .STOPPED ∨ st = .EXITED) (msec : Option Nat)
    (systemClock : Nat) :
    ∃ s' tl', sleepReleasing s c st (timeoutUsec msec) systemClock = some s' ∧ Inv s' q tl' ∧
      s'.pc c = .stopping ∧
      ((st = .EXITED ∨ msec = none) ∧ tl' = tl ∧
        (∀ x∈tl, s'.tcb (.normal x) = s.tcb (.normal x)) ∨
      ∃ n t, st = .STOPPED ∧ msec = some n ∧
        Registers s tl c (wakeupAt n systemClock) s' tl' t) := by
  obtain ⟨t,hcur⟩ : ∃ t, s.currentThread c = .normal t := by
    cases hc : s.currentThread c with
    | normal t => exact ⟨t,rfl⟩
    | idle c' => simp [hc, TcbRef.isNormal] at hn
  have hrun := h.core c
  simp only [CoreOk, hpc, hcur] at hrun
  have ht : t∈s.threads := h.held c t (by simp [Holds, hpc, hcur])
  have hw : (s.tcb (.normal t)).wakeupTime = NO_TIMEOUT := h.noTimeout t ht (by simp [hrun.1])
  have hq : t∉q := fun hm => by simpa [hrun.1] using ((h.queue t).mp hm).2.1
  have htl : t∉tl := fun hm => by simpa [hrun.1] using ((h.timer t).mp hm).2.1
  have hplain : (stopped s c st (s.tcb (.normal t)).wakeupTime s.heap) =
      (s.modTcb (.normal t) fun tcb => { tcb with state := st }).setPc c .stopping := by
    simp [stopped, State.modTcb, State.setPc, hcur]
  by_cases htimed : st = .EXITED ∨ msec = none
  · refine ⟨_,tl,?_,stopped_inv h (Or.inl hpc) st (s.tcb (.normal t)).wakeupTime s.heap
      (by simp [hcur, hrun.1]) (by tauto) (by simp [hcur])
      (fun _ _ => hw) rfl h.holding (by simp [hw]),by simp [stopped],.inl ⟨htimed,rfl,?_⟩⟩
    · rw [hplain]
      rcases htimed with rfl | rfl
      · simp [sleepReleasing, hcur]
      · rcases hst with rfl | rfl <;>
          simp [sleepReleasing, schedRegisterTimeout, timeoutUsec, hcur]
    · intro x hx
      have hxt : x≠t := fun he => htl (he ▸ hx)
      simp [stopped, hcur, hxt]
  · obtain ⟨hne,hm⟩ := not_or.mp htimed
    obtain ⟨msec,rfl⟩ := Option.ne_none_iff_exists'.mp hm
    have hst' : st = .STOPPED := by tauto
    subst hst'
    set wt := wakeupAt msec systemClock with hwt
    set s1 := (s.modTcb (.normal t) fun tcb => { tcb with state := .STOPPED }).modTcb (.normal t)
      fun tcb => { tcb with wakeupTime := wt } with hs1
    obtain ⟨ws,zs,hsplit,hskip,hle,hlt⟩ := skipEarlier_eq (s := s1) wt [] tl h.holding
      (fun x hx => h.keyNode x ((h.timer x).mp hx).1) (s.threads.length+1)
        (by have := timers_length_le h; omega)
    set n : Node κ τ := (zs.map node++[Node.TIMEOUT_LIST]).head (by simp) with hn'
    have hins := Holding.insert_timer (hsplit ▸ h.holding) hq (hsplit ▸ htl) hn'
    refine ⟨stopped s c .STOPPED wt (rlSplice s.heap (s.heap.prev n) (node t)),ws++t::zs,?_,
      stopped_inv h (Or.inl hpc) _ _ _ (by simp [hcur, hrun.1]) (by simp) (by simp [hcur]) (by simp)
        rfl hins ?_,by simp [stopped],.inr ⟨msec,t,rfl,rfl,hcur,htl,⟨ws,zs,hsplit,rfl,?_,?_⟩,
        by simp [stopped, hcur, hwt],fun x hx => by simp [stopped, hcur, hx]⟩⟩
    · have hskip' : skipEarlier s1 wt (s.threads.length+1) (s.heap.next .TIMEOUT_LIST) = some
        n := by
        rw [← hskip, h.holding.next_timeout_list]
      have hne := timeoutUsec_ne msec
      simp only [sleepReleasing, hcur, schedRegisterTimeout, ne_eq, hne, not_false_eq_true, if_true,
        true_or, reduceCtorEq]
      change Option.map _ (Option.map _ (skipEarlier s1 wt (s.threads.length+1)
        (s.heap.next .TIMEOUT_LIST))) = _
      rw [hskip']
      simp [stopped, State.modTcb, State.setPc, hcur, hwt, wakeupAt]
    · intro x
      simp [hcur, hsplit, wakeupTime_ne, hwt, wakeupAt]
      tauto
    · intro x hx
      have hxt : x≠t := fun he => htl (hsplit ▸ he ▸ List.mem_append_left zs hx)
      simpa [hs1, State.modTcb, hxt] using hle x hx
    · intro z zs' hz
      have hzt : z≠t := fun he => htl (hsplit ▸ he ▸ List.mem_append_right ws (by simp [hz]))
      simpa [hs1, State.modTcb, hzt] using hlt z zs' hz

theorem mark_inv (h : Inv s q tl) (hpc : s.pc c = .running ∨ s.pc c = .stopping) :
    ∃ s' b, yieldMark s c = some (s',b) ∧ Inv s' q tl ∧ s'.pc c = .stopping ∧
      s'.currentThread = s.currentThread ∧
      (b = true → (s'.tcb (s.currentThread c)).state = .READY) ∧
      (b = false → (s.currentThread c).isNormal = true) := by
  have hself : Holds s c (s.currentThread c) := by
    rcases hpc with hpc | hpc <;> simp [Holds, hpc]
  have hon : s.pc c≠.off ∧ s.pc c≠.left := by
    rcases hpc with hpc | hpc <;> simp [hpc]
  have hcore := h.core c
  by_cases hready : (s.tcb (s.currentThread c)).state = .RUNNING ∨
      (s.tcb (s.currentThread c)).state = .READY
  · refine ⟨_,true,?_,stopped_inv h hpc .READY (s.tcb (s.currentThread c)).wakeupTime s.heap
      ?_ (by simp) (by simp) ?_ rfl h.holding (by simp),?_,?_,?_,by simp⟩
    · rcases hready with hr | hr <;>
        simp [yieldMark, hr, stopped, State.modTcb, State.setPc]
    · rcases hready with hr | hr <;> simp [hr]
    · intro _ hn
      cases hcur : s.currentThread c with
      | idle c' => simp [hcur, TcbRef.isNormal] at hn
      | normal t =>
        rw [hcur] at hself hready
        exact h.noTimeout t (h.held c t hself) (by rcases hready with hr | hr <;> simp [hr])
    · simp [stopped]
    · simp [stopped]
    · simp [stopped]
  · obtain ⟨hnr,hny⟩ := not_or.mp hready
    have hstop : s.pc c = .stopping := by
      rcases hpc with hpc | hpc
      · simp only [CoreOk, hpc] at hcore
        exact absurd hcore.1 hnr
      · exact hpc
    simp only [CoreOk, hstop, Leaving] at hcore
    have hset : s.setPc c .stopping = s := by
      simp [State.setPc, ← hstop]
    refine ⟨s,false,?_,h,hstop,rfl,by simp,fun _ => ?_⟩
    · rcases hcore.2 with hs | hs | hs
      · exact absurd hs hny
      · simp [yieldMark, hs, hset]
      · simp [yieldMark, hs, hset]
    · cases hcur : s.currentThread c with
      | normal t => rfl
      | idle c' =>
        have he := h.heldIdle c c' (hcur ▸ hself)
        rw [hcur, he] at hnr hny
        rcases (h.idle c hon.1 hon.2).2.1 with hi | hi
        · exact absurd hi hny
        · exact absurd hi hnr

def awakened (s : State κ τ) (ts : List τ) (heap : Heap (Node κ τ) (Option (TcbRef κ τ))) :
    State κ τ :=
  { s with
    heap := heap
    tcb := fun r => if ∃ t∈ts, r = .normal t then
      { s.tcb r with state := .READY, wakeupTime := NO_TIMEOUT } else s.tcb r }

theorem awakened_nil (s : State κ τ) : awakened s [] s.heap = s := by simp [awakened]

theorem awakened_cons (s : State κ τ) {t : τ} {ts : List τ} (ht : t∉ts)
    (h1 heap : Heap (Node κ τ) (Option (TcbRef κ τ))) :
    awakened (madeReady s t h1) ts heap = awakened s (t::ts) heap := by
  simp only [awakened, madeReady, State.mk.injEq, true_and, and_true]
  funext r
  by_cases hr : r = .normal t
  · subst hr
    simp [ht]
  · simp [hr]

def clean (s : State κ τ) (t : τ) : Bool := (s.tcb (.normal t)).phase = .CTX_CLEAN

/-- The timeout loop ends, and makes ready the timers up to the first that is not expired. -/
theorem wakeExpired_eq (curtime : Nat) {fuel : Nat} (h : Inv s q tl) (hf : tl.length<fuel) :
    ∃ ts vs heap, tl = ts++vs ∧ wakeExpired curtime fuel s = some (awakened s ts heap) ∧
      Inv (awakened s ts heap) (q++ts.filter (clean s)) vs ∧
      (∀ t∈ts, (s.tcb (.normal t)).wakeupTime ≤ curtime) ∧
      ∀ v vs', vs = v::vs' → curtime < (s.tcb (.normal v)).wakeupTime := by
  induction fuel generalizing s q tl with
  | zero => omega
  | succ fuel ih =>
    cases tl with
    | nil =>
      have he := h.holding.isEmpty_timers.mpr rfl
      exact ⟨[],[],s.heap,rfl,by simp [wakeExpired, he, awakened_nil],by simpa [awakened_nil] using h,
        by simp,by simp⟩
    | cons t tl =>
      have he : isRlistEmpty s.heap .TIMEOUT_LIST = false := by
        simpa using h.holding.isEmpty_timers
      obtain ⟨ht,hst,-⟩ := (h.timer t).mp (by simp)
      have hkey : s.heap.key (s.heap.next .TIMEOUT_LIST) = some (.normal t) := by
        rw [h.holding.next_timers, h.keyNode t ht]
      by_cases hw : (s.tcb (.normal t)).wakeupTime>curtime
      · refine ⟨[],t::tl,s.heap,rfl,by simp [wakeExpired, he, hkey, hw, awakened_nil],
          by simpa [awakened_nil] using h,by simp,?_⟩
        intro v vs' hv
        cases hv
        exact hw
      · obtain ⟨heap,hmk,hk,hh⟩ := makeReady_eq h ht (Or.inl hst)
        have hinv := wake_inv h ht (Or.inl hst) hk hh
        simp only [List.erase_cons_head] at hinv
        obtain ⟨ts,vs,heap',hsplit,hs',hinv',hle,hlt⟩ := ih hinv (by simpa using hf)
        have hnt : t∉ts++vs := by
          rw [← hsplit]
          exact (List.nodup_cons.mp h.holding.nodup_timers).1
        have hne : ∀ x∈ts++vs, (madeReady s t heap).tcb (.normal x) = s.tcb (.normal x) := by
          intro x hx
          have hxt : x≠t := fun he => hnt (he ▸ hx)
          simp [madeReady, hxt]
        have hts : t∉ts := fun hm => hnt (List.mem_append_left vs hm)
        rw [awakened_cons s hts] at hs' hinv'
        have hfilter : ts.filter (clean (madeReady s t heap)) = ts.filter (clean s) := by
          refine List.filter_congr fun x hx => ?_
          rw [clean, hne x (List.mem_append_left vs hx), clean]
        have hqueue : (if (s.tcb (.normal t)).phase = .CTX_CLEAN then q++[t] else q)++
            ts.filter (clean (madeReady s t heap)) = q++(t::ts).filter (clean s) := by
          rw [hfilter, List.filter_cons, clean]
          by_cases hp : (s.tcb (.normal t)).phase = .CTX_CLEAN <;> simp [hp]
        refine ⟨t::ts,vs,heap',by rw [hsplit]; rfl,?_,hqueue ▸ hinv',?_,?_⟩
        · simp [wakeExpired, he, hkey, hw, hmk, hs']
        · intro x hx
          rcases List.mem_cons.mp hx with rfl | hx
          · omega
          · rw [← hne x (List.mem_append_left vs hx)]
            exact hle x hx
        · intro v vs' hv
          rw [← hne v (List.mem_append_right ts (by simp [hv]))]
          exact hlt v vs' hv

theorem link_inv {q' : List τ} (h : Inv s q tl) (hpc : s.pc c = .stopping) (next : TcbRef κ τ)
    {heap : Heap (Node κ τ) (Option (TcbRef κ τ))} (hk : heap.key = s.heap.key)
    (hh : Holding heap q' tl) (hq : ∀ x, x∈q' ↔ x∈q ∧ .normal x≠next)
    (hready : (s.tcb next).state = .READY)
    (hclean : next≠s.currentThread c → (s.tcb next).phase = .CTX_CLEAN)
    (hnew : ∀ c', c'≠c → ¬Holds s c' next) (hthr : ∀ t, next = .normal t → t∈s.threads)
    (hidle : ∀ c', next = .idle c' → c' = c) :
    Inv (yieldLink { s with heap := heap } c next) q' tl := by
  have hself : ∀ r, Holds s c r ↔ r = s.currentThread c := by simp [Holds, hpc]
  set s' := yieldLink { s with heap := heap } c next with hs'
  have hkeep : ∀ r, (s'.tcb r).state = (s.tcb r).state ∧ (s'.tcb r).phase = (s.tcb r).phase ∧
      (s'.tcb r).wakeupTime = (s.tcb r).wakeupTime ∧ (s'.tcb r).type = (s.tcb r).type := by
    intro r
    simp only [hs', yieldLink, State.modTcb, State.setPc, Function.update_apply]
    split_ifs <;> simp_all
  have hsame : ∀ r, r≠s.currentThread c → r≠next → s'.tcb r = s.tcb r := by
    intro r h1 h2
    simp [hs', yieldLink, State.modTcb, State.setPc, h1, h2]
  have hself' : ∀ r, Holds s' c r ↔ r = s.currentThread c ∨ r = next := by
    simp [hs', Holds, yieldLink, State.modTcb, State.setPc]
  have hcur : s'.currentThread = s.currentThread := rfl
  have hpc' : s'.pc = Function.update s.pc c (.selected next) := rfl
  have ho : OnCore s s' c := by
    refine ⟨fun c' hc => by simp [hpc', hc],fun c' hc => rfl,?_,?_,fun _ ht => ht,
      fun t ht hn => absurd ht hn⟩
    · intro c' hc r hr
      refine hsame r (fun he => hc (h.exclusive c' c r hr ((hself r).mpr he))) fun he => ?_
      exact hnew c' hc (he ▸ hr)
    · intro c' hc
      exact hsame _ (fun he => hc (h.heldIdle c c' ((hself _).mpr he))) fun he =>
        hc (hidle c' he.symm)
  have hsel : ∀ r, Selected s' r ↔ Selected s r ∨ r = next := by
    intro r
    by_cases hr : r = next
    · simp only [hr, or_true, iff_true]
      exact ⟨c,Or.inl (by simp [hpc'])⟩
    · simp only [hr, or_false]
      exact ho.selected (by simp [Selects, hpc', hpc, Ne.symm hr])
  have hcores : Cores s' := by
    refine ho.cores h.toCores ?_ ?_ ?_ ?_ ?_ ?_ ?_
    · have hcore := h.core c
      simp only [CoreOk, hpc] at hcore
      have hprev : (s'.tcb next).prev = some (s.currentThread c) := by
        simp [hs', yieldLink, State.modTcb, State.setPc]
      simp only [CoreOk, hpc', Function.update_self, hcur, Leaving, hkeep]
      exact ⟨hcore,hprev,hready,hclean⟩
    · intro r hr c' hc hm
      rcases (hself' r).mp hr with he | he
      · exact hc (h.exclusive c' c r hm ((hself r).mpr he))
      · exact hnew c' hc (he ▸ hm)
    · intro t ht
      rcases (hself' _).mp ht with he | he
      · exact h.held c t ((hself _).mpr he)
      · exact hthr t he.symm
    · intro c' hc'
      rcases (hself' _).mp hc' with he | he
      · exact h.heldIdle c c' ((hself _).mpr he)
      · exact hidle c' he.symm
    · exact fun t _ hn hm => absurd ((hself' _).mpr (Or.inl ((hself _).mp hm))) hn
    · intro t hn _
      exact hsame _ (fun he => hn ((hself' _).mpr (Or.inl he))) fun he =>
        hn ((hself' _).mpr (Or.inr he))
    · intro _ _
      have hi := h.idle c (by simp [hpc]) (by simp [hpc])
      simp only [hkeep, hself', hself, not_or] at hi ⊢
      exact ⟨hi.1,hi.2.1,fun hn => hi.2.2 hn.1⟩
  refine ⟨hcores,hh,?_,?_,?_,?_,?_,?_,h.nodup,h.active⟩
  · exact (congrFun hk _).trans h.keySched
  · exact fun t ht => (congrFun hk _).trans (h.keyNode t ht)
  · intro x
    rw [hq, h.queue, hsel]
    simp only [hkeep, not_or, and_assoc]
    exact Iff.rfl
  · intro x
    rw [h.timer]
    simp only [hkeep]
    exact Iff.rfl
  · intro x hx
    simpa only [hkeep] using h.noTimeout x hx
  · intro x hx
    simpa only [hkeep] using h.normal x hx

omit [DecidableEq τ] in
theorem swap_inv (h : Inv s q tl) {next : TcbRef κ τ} (hpc : s.pc c = .selected next) :
    ∃ s', swapContext s c = some s' ∧ Inv s' q tl := by
  set s' : State κ τ := { s with
    currentThread := Function.update s.currentThread c next
    pc := Function.update s.pc c .switched } with hs'
  refine ⟨s',by simp [swapContext, hpc, hs'],?_⟩
  have hcore := h.core c
  simp only [CoreOk, hpc] at hcore
  have hholds : ∀ r, Holds s' c r ↔ Holds s c r := by
    intro r
    simp only [hs', Holds, hpc, Function.update_self, hcore.2.1, Option.some.injEq]
    rw [or_comm, eq_comm (a := r) (b := s.currentThread c)]
  have ho : OnCore s s' c :=
    ⟨fun c' hc => by simp [hs', hc],fun c' hc => by simp [hs', hc],fun _ _ _ _ => rfl,
      fun _ _ => rfl,fun _ ht => ht,fun t ht hn => absurd ht hn⟩
  have hsel : ∀ r, Selected s' r ↔ Selected s r := fun r =>
    ho.selected (by simp [Selects, hs', hpc])
  have hcores : Cores s' := by
    refine ho.cores h.toCores ?_ ?_ ?_ ?_ ?_ ?_ ?_
    · simp only [CoreOk, hs', Function.update_self]
      exact ⟨_,hcore.2.1,hcore.1,hcore.2.2.1,fun hne => hcore.2.2.2 hne.symm⟩
    · exact fun r hr c' hc hm => hc (h.exclusive c' c r hm ((hholds r).mp hr))
    · exact fun t ht => h.held c t ((hholds _).mp ht)
    · exact fun c' hc' => h.heldIdle c c' ((hholds _).mp hc')
    · exact fun t _ hn hm => absurd ((hholds _).mpr hm) hn
    · exact fun _ _ _ => rfl
    · intro _ _
      rw [hholds]
      exact h.idle c (by simp [hpc]) (by simp [hpc])
  refine ⟨hcores,h.holding,h.keySched,h.keyNode,?_,h.timer,h.noTimeout,h.normal,h.nodup,h.active⟩
  intro x
  rw [hsel]
  exact h.queue x

omit [DecidableEq κ] [DecidableEq τ] in
theorem Selects.holds {r : TcbRef κ τ} (hs : Selects s c r) : Holds s c r := by
  rcases hs with hs | ⟨hs,hr⟩ <;> simp [Holds, hs]
  exact Or.inl hr.symm

def gained (s : State κ τ) (c : κ) (prev : TcbRef κ τ)
    (heap : Heap (Node κ τ) (Option (TcbRef κ τ))) (threads : List τ) (activeThreads : Int) :
    State κ τ :=
  { s with
    heap := heap
    tcb := Function.update
      (Function.update s.tcb prev { s.tcb prev with phase := .CTX_CLEAN }) (s.currentThread c)
      { s.tcb (s.currentThread c) with state := .RUNNING, phase := .CTX_DIRTY }
    pc := Function.update s.pc c .running
    threads := threads
    activeThreads := activeThreads }

theorem gained_inv {q' threads : List τ} {activeThreads : Int} (h : Inv s q tl)
    (hpc : s.pc c = .switched) {prev : TcbRef κ τ}
    (hprev : (s.tcb (s.currentThread c)).prev = some prev)
    (heap : Heap (Node κ τ) (Option (TcbRef κ τ))) (hk : heap.key = s.heap.key)
    (hh : Holding heap q' tl)
    (hq : ∀ x, x∈q' ↔ x∈q ∨
      .normal x = prev ∧ prev≠s.currentThread c ∧ (s.tcb prev).state = .READY)
    (hthr : ∀ x, x∈threads ↔ x∈s.threads ∧ ¬(.normal x = prev ∧ (s.tcb prev).state = .EXITED))
    (hnodup : threads.Nodup) (hactive : activeThreads = threads.length) :
    Inv (gained s c prev heap threads activeThreads) q' tl := by
  have hself : ∀ r, Holds s c r ↔ r = s.currentThread c ∨ r = prev := by
    simp [Holds, hpc, hprev, eq_comm]
  have hcore := h.core c
  simp only [CoreOk, hpc, hprev, Option.some.injEq, exists_eq_left'] at hcore
  obtain ⟨hleaving,hready,hclean⟩ := hcore
  set s' := gained s c prev heap threads activeThreads with hs'
  have hpc' : s'.pc = Function.update s.pc c .running := rfl
  have hcur : s'.tcb (s.currentThread c) =
      { s.tcb (s.currentThread c) with state := .RUNNING, phase := .CTX_DIRTY } := by
    simp [hs', gained]
  have hold : prev≠s.currentThread c → s'.tcb prev = { s.tcb prev with phase := .CTX_CLEAN } := by
    intro hne
    simp [hs', gained, hne]
  have hsame : ∀ r, r≠s.currentThread c → r≠prev → s'.tcb r = s.tcb r := by
    intro r h1 h2
    simp [hs', gained, h1, h2]
  have hself' : ∀ r, Holds s' c r ↔ r = s.currentThread c := by
    simp [hs', Holds, gained]
  have ho : OnCore s s' c := by
    refine ⟨fun c' hc => by simp [hpc', hc],fun c' hc => rfl,?_,?_,?_,?_⟩
    · intro c' hc r hr
      have hn : ¬Holds s c r := fun hm => hc (h.exclusive c' c r hr hm)
      rw [hself, not_or] at hn
      exact hsame r hn.1 hn.2
    · intro c' hc
      have hn : ¬Holds s c (.idle c') := fun hm => hc (h.heldIdle c c' hm)
      rw [hself, not_or] at hn
      exact hsame _ hn.1 hn.2
    · exact fun t ht => ((hthr t).mp ht).1
    · intro t ht hn
      rw [hself]
      by_contra hne
      exact hn ((hthr t).mpr ⟨ht,fun hp => hne (Or.inr hp.1)⟩)
  have hsel : ∀ r, r≠s.currentThread c → (Selected s' r ↔ Selected s r) := fun r hr =>
    ho.selected (by simp [Selects, hpc', hpc, Ne.symm hr])
  have hcores : Cores s' := by
    refine ho.cores h.toCores ?_ ?_ ?_ ?_ ?_ ?_ ?_
    · have : s'.currentThread = s.currentThread := rfl
      simp [CoreOk, hpc', this, hcur]
    · exact fun r hr c' hc hm => hc
        (h.exclusive c' c r hm ((hself r).mpr (Or.inl ((hself' r).mp hr))))
    · intro t ht
      have he := (hself' _).mp ht
      refine (hthr t).mpr ⟨h.held c t ((hself _).mpr (Or.inl he)),fun hp => ?_⟩
      rw [← hp.1, he] at hp
      simp [hready] at hp
    · exact fun c' hc' => h.heldIdle c c' ((hself _).mpr (Or.inl ((hself' _).mp hc')))
    · intro t ht hn hm
      have hne : TcbRef.normal t≠s.currentThread c := fun he => hn ((hself' _).mpr he)
      have hp : TcbRef.normal t = prev := ((hself _).mp hm).resolve_left hne
      have hx := ((hthr t).mp ht).2
      rw [hp, hold (hp ▸ hne)]
      have := hleaving.2
      grind
    · intro t hn hn'
      rw [hself, not_or] at hn'
      exact hsame _ hn'.1 hn'.2
    · intro _ _
      rw [hself']
      have hi := h.idle c (by simp [hpc]) (by simp [hpc])
      rw [hself] at hi
      by_cases hc : TcbRef.idle c = s.currentThread c
      · rw [hc, hcur]
        simpa [hc] using hi.1
      · by_cases hp : TcbRef.idle c = prev
        · have hl := hleaving.2
          rw [hp, hold (hp ▸ hc)]
          rw [hp] at hi
          grind
        · rw [hsame _ hc hp]
          exact ⟨hi.1,hi.2.1,fun _ => hi.2.2 (not_or.mpr ⟨hc,hp⟩)⟩
  have hfields : ∀ t, TcbRef.normal t≠s.currentThread c →
      (s'.tcb (.normal t)).state = (s.tcb (.normal t)).state ∧
      (s'.tcb (.normal t)).wakeupTime = (s.tcb (.normal t)).wakeupTime ∧
      (s'.tcb (.normal t)).type = (s.tcb (.normal t)).type := by
    intro t hne
    by_cases hp : TcbRef.normal t = prev
    · rw [hp, hold (hp ▸ hne)]
      simp
    · rw [hsame _ hne hp]
      simp
  refine ⟨hcores,hh,?_,?_,?_,?_,?_,?_,hnodup,hactive⟩
  · exact (congrFun hk _).trans h.keySched
  · exact fun t ht => (congrFun hk _).trans (h.keyNode t ((hthr t).mp ht).1)
  · intro x
    rw [hq, h.queue]
    change _ ↔ x∈threads ∧ _
    rw [hthr]
    have hx := h.held c x
    by_cases hc : TcbRef.normal x = s.currentThread c
    · have hself : Selected s (.normal x) := ⟨c,Or.inr ⟨hpc,hc.symm⟩⟩
      rw [hc] at hself ⊢
      simp only [hcur, hself]
      grind
    · rw [hsel _ hc]
      by_cases hp : TcbRef.normal x = prev
      · have hns : ¬Selected s (.normal x) := by
          rintro ⟨c',hs⟩
          obtain rfl := h.exclusive c' c _ hs.holds ((hself _).mpr (Or.inr hp))
          simp only [Selects, hpc, reduceCtorEq, true_and, false_or] at hs
          exact hc hs.symm
        have hxm := h.held c x ((hself _).mpr (Or.inr hp))
        simp only [hp, hold (hp ▸ hc), hleaving.1, hxm]
        grind
      · rw [hsame _ hc hp]
        grind
  · intro x
    rw [h.timer]
    change _ ↔ x∈threads ∧ _
    rw [hthr]
    by_cases hc : TcbRef.normal x = s.currentThread c
    · simp only [hc, hcur, hready]
      grind
    · simp only [hfields x hc]
      grind
  · intro x hx
    have hx' := h.noTimeout x ((hthr x).mp hx).1
    by_cases hc : TcbRef.normal x = s.currentThread c
    · rw [hc] at hx' ⊢
      rw [hcur]
      simpa [hready] using hx'
    · rwa [(hfields x hc).1, (hfields x hc).2.1]
  · intro x hx
    have hx' := h.normal x ((hthr x).mp hx).1
    by_cases hc : TcbRef.normal x = s.currentThread c
    · rw [hc] at hx' ⊢
      rw [hcur]
      exact hx'
    · rwa [(hfields x hc).2.2]

theorem gain_inv (h : Inv s q tl) (hpc : s.pc c = .switched) :
    ∃ s' q', gain s c = some s' ∧ Inv s' q' tl := by
  have hcore := h.core c
  simp only [CoreOk, hpc] at hcore
  obtain ⟨prev,hprev,hleaving,hready,-⟩ := hcore
  have hheld : Holds s c prev := by simp [Holds, hpc, hprev]
  have hon : s.pc c≠.off ∧ s.pc c≠.left := by simp [hpc]
  by_cases hcp : s.currentThread c = prev
  · refine ⟨_,q,?_,gained_inv h hpc hprev s.heap rfl h.holding (by simp [hcp])
      (by simp [← hcp, hready]) h.nodup h.active⟩
    simp only [hcp] at hprev ⊢
    simp [gain, hprev, hcp, gained, State.modTcb, State.setPc]
  · have hpc' : prev≠s.currentThread c := Ne.symm hcp
    have htcb (t u : TCB κ τ) : Function.update (Function.update s.tcb (s.currentThread c) t)
      prev u =
        Function.update (Function.update s.tcb prev u) (s.currentThread c) t :=
      Function.update_comm hcp _ _ _
    cases prev with
    | idle c' =>
      obtain rfl := h.heldIdle c c' hheld
      have hi := h.idle c' hon.1 hon.2
      have hr : (s.tcb (.idle c')).state = .READY := by
        rcases hleaving.2 with hl | hl | hl
        · exact hl
        · simp [hl] at hi
        · simp [hl] at hi
      refine ⟨_,q,?_,gained_inv h hpc hprev s.heap rfl h.holding (by simp) (by simp) h.nodup
        h.active⟩
      simp [gain, gainPrev, hprev, hcp, hpc', gained, State.modTcb, State.setPc, hr, hi.1, htcb]
    | normal t =>
      have ht := h.held c t hheld
      have hty := h.normal t ht
      have hq : t∉q := fun hm => by simpa [hleaving.1] using ((h.queue t).mp hm).2.2.1
      rcases hleaving.2 with hl | hl | hl
      · have htl : t∉tl := fun hm => by simpa [hl] using ((h.timer t).mp hm).2.1
        refine ⟨_,q++[t],?_,gained_inv h hpc hprev (rlistPushBack s.heap .SCHED (node t)) rfl
          (h.holding.push_back hq htl)
          (by simp [hl, hpc']) (by simp [hl]) h.nodup h.active⟩
        simp [gain, gainPrev, hprev, hcp, hpc', gained, State.modTcb, State.setPc, hl, hty, htcb,
          schedQueueAdd]
      · refine ⟨_,q,?_,gained_inv h hpc hprev s.heap rfl h.holding (by simp [hl]) (by simp [hl])
          h.nodup h.active⟩
        simp [gain, gainPrev, hprev, hcp, hpc', gained, State.modTcb, State.setPc, hl, htcb]
      · refine ⟨gained s c (.normal t) s.heap (s.threads.erase t) (s.activeThreads-1),q,?_,
          gained_inv h hpc hprev s.heap rfl h.holding (by simp [hl])
            (by simp [hl, h.nodup.mem_erase_iff, and_comm]) (h.nodup.erase t) ?_⟩
        · simp [gain, gainPrev, hprev, hcp, hpc', gained, State.modTcb, State.setPc, hl, htcb,
            releaseTCB]
        · have hlen := List.length_erase_of_mem ht
          have hpos := List.length_pos_of_mem ht
          have := h.active
          omega

omit [DecidableEq κ] [DecidableEq τ] in
theorem Inv.not_holds_queue (h : Inv s q tl) {t : τ} (ht : t∈q) (c : κ) :
    ¬Holds s c (.normal t) := by
  intro hm
  obtain ⟨-,-,hclean,hsel⟩ := (h.queue t).mp ht
  have hcore := h.core c
  cases hpc : s.pc c with
  | off => simp [Holds, hpc] at hm
  | left => simp [Holds, hpc] at hm
  | running =>
    simp only [CoreOk, Holds, hpc] at hcore hm
    simp [hm, hcore.2] at hclean
  | stopping =>
    simp only [CoreOk, Holds, hpc] at hcore hm
    simp [hm, hcore.1] at hclean
  | selected next =>
    simp only [CoreOk, Holds, hpc] at hcore hm
    rcases hm with hm | hm
    · simp [hm, hcore.1.1] at hclean
    · exact hsel ⟨c,Or.inl (hm ▸ hpc)⟩
  | switched =>
    simp only [CoreOk, Holds, hpc] at hcore hm
    obtain ⟨prev,hprev,hleaving,-⟩ := hcore
    rcases hm with hm | hm
    · exact hsel ⟨c,Or.inr ⟨hpc,hm.symm⟩⟩
    · obtain rfl : prev = .normal t := by simpa [hprev] using hm
      simp [hleaving.1] at hclean

theorem yieldMark_wakeupTime {s' : State κ τ} {b : Bool} (h : yieldMark s c = some (s',b))
    (r : TcbRef κ τ) : (s'.tcb r).wakeupTime = (s.tcb r).wakeupTime ∧
      (s'.tcb r).phase = (s.tcb r).phase := by
  unfold yieldMark at h
  split at h
  case h_5 => cases h
  all_goals
    cases h
    by_cases hr : r = s.currentThread c <;> simp [State.modTcb, State.setPc, hr]

theorem yieldLink_tcb (s : State κ τ) (c : κ) (next r : TcbRef κ τ) :
    ((yieldLink s c next).tcb r).wakeupTime = (s.tcb r).wakeupTime ∧
      ((yieldLink s c next).tcb r).state = (s.tcb r).state := by
  simp only [yieldLink, State.modTcb, State.setPc, Function.update_apply]
  split_ifs <;> simp_all

structure Expires (s : State κ τ) (tl : List τ) (curtime : Nat) (s' : State κ τ) (ts vs : List τ) :
    Prop where
  split : tl = ts++vs
  expired : ∀ t∈ts, (s.tcb (.normal t)).wakeupTime ≤ curtime
  first : ∀ v vs', vs = v::vs' → curtime < (s.tcb (.normal v)).wakeupTime
  ready : ∀ t∈ts, (s'.tcb (.normal t)).state = .READY
  kept : ∀ t∈vs, (s'.tcb (.normal t)).wakeupTime = (s.tcb (.normal t)).wakeupTime

theorem yield_step (h : Inv s q tl) (hpc : s.pc c = .running ∨ s.pc c = .stopping)
    (systemClock : Nat) :
    ∃ s' q' ts vs, yield s c systemClock = some s' ∧ Inv s' q' vs ∧
      Expires s tl (biosClock systemClock) s' ts vs := by
  obtain ⟨s1,b,hmark,h1,hpc1,hcur1,hready1,hnormal1⟩ := mark_inv h hpc
  obtain ⟨ts,vs,heap,hsplit,hwake,h2,hle,hlt⟩ :=
    wakeExpired_eq (biosClock systemClock) h1 (Nat.lt_succ_of_le (timers_length_le h1))
  have hmark' := yieldMark_wakeupTime hmark
  have hvs : ∀ t∈vs, t∉ts := by
    have hn := h1.holding.nodup_timers
    rw [hsplit] at hn
    exact fun t ht hm => (List.nodup_append.mp hn).2.2 t hm t ht rfl
  set s2 := awakened s1 ts heap with hs2
  have hexpires : ∀ heap' next, Expires s tl (biosClock systemClock)
      (yieldLink { s2 with heap := heap' } c next) ts vs := by
    intro heap' next
    refine ⟨hsplit,?_,?_,?_,?_⟩
    · simpa only [hmark'] using hle
    · simpa only [hmark'] using hlt
    · intro t ht
      rw [(yieldLink_tcb _ c next _).2]
      simp [hs2, awakened, ht]
    · intro t ht
      rw [(yieldLink_tcb _ c next _).1]
      simp [hs2, awakened, hvs t ht, hmark']
  have hpc2 : s2.pc = s1.pc := rfl
  have hcur2 : s2.currentThread = s1.currentThread := rfl
  have hready2 : ∀ r, (s1.tcb r).state = .READY → (s2.tcb r).state = .READY := by
    intro r hr
    simp only [hs2, awakened]
    split
    · rfl
    · exact hr
  have hstop : s2.pc c = .stopping := by rw [hpc2, hpc1]
  have hcur : s2.currentThread c = s.currentThread c := by rw [hcur2, hcur1]
  have hself : ∀ r, Holds s2 c r ↔ r = s2.currentThread c := by simp [Holds, hstop]
  cases hq2 : q++ts.filter (clean s1) with
  | cons t q2 =>
    rw [hq2] at h2
    obtain ⟨hsel,hpop⟩ := h2.holding.pop_cons
    obtain ⟨ht,hst,hph,hns⟩ := (h2.queue t).mp (by simp)
    have hkey : (rlistPopFront s2.heap .SCHED).1.key = s2.heap.key := rfl
    refine ⟨_,q2,ts,vs,?_,link_inv h2 hstop (.normal t) hkey hpop ?_ hst (fun _ => hph)
      (fun c' _ => h2.not_holds_queue (by simp) c') (fun x hx => by cases hx; exact ht) (by simp),
      hexpires _ _⟩
    · simp [yield, hmark, schedQueueSelect, hwake, hsel, hkey, h2.keyNode t ht]
    · have := h2.holding.nodup_ready
      grind
  | nil =>
    rw [hq2] at h2
    have hpop := h2.holding.pop_nil
    cases b with
    | true =>
      refine ⟨_,[],ts,vs,?_,link_inv h2 hstop (s2.currentThread c) rfl h2.holding (by simp)
        (hready2 _ (by rw [hcur]; exact hready1 rfl)) (fun hne => absurd rfl hne) ?_ ?_ ?_,
        hexpires _ _⟩
      · simp [yield, hmark, schedQueueSelect, hwake, hpop, h2.keySched]
      · exact fun c' hc hm => hc (h2.exclusive c' c _ hm ((hself _).mpr rfl))
      · exact fun t ht => h2.held c t ((hself _).mpr ht.symm)
      · exact fun c' hc' => h2.heldIdle c c' ((hself _).mpr hc'.symm)
    | false =>
      have hnidle : TcbRef.idle c≠s2.currentThread c := by
        intro he
        have := hnormal1 rfl
        rw [← hcur, ← he] at this
        simp [TcbRef.isNormal] at this
      obtain ⟨-,-,hidle⟩ := h2.idle c (by simp [hstop]) (by simp [hstop])
      obtain ⟨hst,hph⟩ := hidle fun hm => hnidle ((hself _).mp hm)
      refine ⟨_,[],ts,vs,?_,link_inv h2 hstop (.idle c) rfl h2.holding (by simp) hst
        (fun _ => hph) ?_ (by simp) (by simp),hexpires _ _⟩
      · simp [yield, hmark, schedQueueSelect, hwake, hpop, h2.keySched]
      · exact fun c' hc hm => hc (h2.heldIdle c' c hm).symm

end TinyOS.Sched
