import TinyOS.CC.KernelLock

/-! Every step of a thread in kernel_cc.c keeps the invariant, and none of them fails. -/
namespace TinyOS.CC
open RList Ring
variable {τ κ μ : Type*} [DecidableEq τ] [DecidableEq κ] [DecidableEq μ]
variable {s : State τ κ μ} {L : CondVar κ → List WaiterRef} {t : τ}

theorem Inv.plain (h : Inv s L) {s' : State τ κ μ} {p : Pc κ μ} (hm : Moves s s' t p)
    (hlocks : Locks s'.pc s'.held) (hok : ∀ u, ThreadOk u L t p)
    (hpc : ∀ q f, s.pc t≠.wait q f) (hsig : ∀ q g, s.pc t≠.signal q g) (hk : KernelSem s') :
    Inv s' L :=
  ⟨h.toWaits.goto hm hlocks (hok s') hpc fun _ g => ⟨hsig _ g,hsig _ g⟩,hk⟩

theorem locks_acquire_kernel (h : Locks s.pc s.held) {p : Pc κ μ}
    (hfree : s.held (.mutex .kernelMutex) = none) (hp : p.locks (.mutex .kernelMutex) = true)
    (hpw : ∀ c, p.locks (.waitset c) = (s.pc t).locks (.waitset c)) :
    Locks (Function.update s.pc t p) (Function.update s.held (.mutex .kernelMutex) (some t)) := by
  refine h.acquire hfree fun y hy => ?_
  cases y with
  | waitset c => simp [hpw]
  | mutex m =>
    cases m with
    | kernelMutex => simp [hp]
    | other m => cases hy

theorem locks_release_kernel (h : Locks s.pc s.held) {p : Pc κ μ}
    (ht : (s.pc t).locks (.mutex .kernelMutex) = true) (hp : p.locks (.mutex .kernelMutex) = false)
    (hpw : ∀ c, p.locks (.waitset c) = (s.pc t).locks (.waitset c)) :
    Locks (Function.update s.pc t p) (Function.update s.held (.mutex .kernelMutex) none) := by
  refine h.release (fun _ => ht) fun y hy => ?_
  cases y with
  | waitset c => simp [hpw]
  | mutex m =>
    cases m with
    | kernelMutex => simp [hp]
    | other m => cases hy

theorem locks_keep_kernel (h : Locks s.pc s.held) {p : Pc κ μ}
    (hp : p.locks (.mutex .kernelMutex) = (s.pc t).locks (.mutex .kernelMutex))
    (hpw : ∀ c, p.locks (.waitset c) = (s.pc t).locks (.waitset c)) :
    Locks (Function.update s.pc t p) s.held := by
  refine h.same fun y hy => ?_
  cases y with
  | waitset c => exact hpw c
  | mutex m =>
    cases m with
    | kernelMutex => exact hp
    | other m => cases hy

theorem runTest_inv (h : Inv s L) {ret : Option Bool} (hpc : s.pc t = .test ret)
    (hst : s.stopped t = false) : ∃ s' L', runThread s t (.test ret) = some s' ∧ Inv s' L' := by
  have hne : ∀ q f, s.pc t≠.wait q f := by simp [hpc]
  have hsg : ∀ q g, s.pc t≠.signal q g := by simp [hpc]
  rcases h.sem with ⟨h1,hin⟩ | ⟨h0,hin⟩
  · have hle : ¬s.kernelSem≤0 := by omega
    refine ⟨_,L,by rw [runThread, if_neg hle],?_⟩
    refine h.plain (p := .leave ret) ⟨rfl,rfl,rfl,rfl,rfl,rfl,rfl,fun _ _ => rfl,fun _ _ => rfl⟩
      (locks_keep_kernel h.locks (by simp [hpc, Pc.locks]) (by simp [hpc, Pc.locks]))
      (fun _ => trivial) hne hsg ?_
    refine ⟨fun u => ?_,Or.inr ⟨by simp [State.goto, h1],t,by simp [State.goto],?_⟩,
      fun u hu => ?_,?_⟩
    · simp only [State.goto, Function.update_apply]
      split
      · trivial
      · exact h.shaped u
    · intro u hu
      by_contra hut
      simp [State.goto, hut, hin u] at hu
    · simp only [State.goto, Function.update_apply] at hu ⊢
      split at hu
      · cases hu
      · rw [h.inside u hu]
        simp
    · simp [State.goto, h1]
  · have hle : s.kernelSem≤0 := by omega
    refine ⟨_,L,by rw [runThread, if_pos hle],?_,?_⟩
    · refine beginWait_waits h.toWaits .kernelMutex .kernelSemCv false (.loop ret) s.held hst hne
        (fun _ g => ⟨hsg _ g,hsg _ g⟩) (locks_keep_kernel h.locks ?_ ?_)
      · simp [hpc, Pc.locks, WaitPc.locksMutex]
      · simp [hpc, Pc.locks, WaitPc.locksWaitset]
    · refine h.toKernelSem.goto (t := t)
        (p := .wait .lock ⟨.kernelMutex,.kernelSemCv,false,s.next,.loop ret⟩) rfl rfl rfl ⟨rfl,rfl⟩
        (by simp [Pc.givesUp]) (fun _ _ => id) (fun h1 => by omega)
        fun h1 => by omega

theorem runIncr_inv (h : Inv s L) {k : Release κ} (hpc : s.pc t = .incr k) :
    ∃ s' L', runThread s t (.incr k) = some s' ∧ Inv s' L' := by
  have hin : s.inside t = true := h.inside t (by simp [hpc, Pc.givesUp])
  have hshape : k.Shaped := by
    have := h.shaped t
    rwa [hpc] at this
  have h0 : s.kernelSem = 0 ∧ ∀ u, u≠t → s.inside u = false := by
    rcases h.sem with ⟨-,hno⟩ | ⟨h0,v,-,huniq⟩
    · simp [hno t] at hin
    · refine ⟨h0,fun u hu => ?_⟩
      by_contra hu'
      have := huniq u (by simpa using hu')
      exact hu (this.trans (huniq t hin).symm)
  refine ⟨_,L,rfl,h.plain (p := .signal .lock ⟨.kernelSemCv,false,some k,[],[]⟩)
    ⟨rfl,rfl,rfl,rfl,rfl,rfl,rfl,fun _ _ => rfl,fun _ _ => rfl⟩
    (locks_keep_kernel h.locks (by simp [hpc, Pc.locks])
      (by simp [hpc, Pc.locks, SignalPc.locksWaitset]))
    (fun _ => rfl) (by simp [hpc]) (by simp [hpc]) ?_⟩
  refine ⟨fun u => ?_,Or.inl ⟨by simp [beginSignal, State.goto, h0.1],fun u => ?_⟩,fun u hu => ?_,
    fun _ _ => ⟨t,?_⟩⟩
  · simp only [beginSignal, State.goto, Function.update_apply]
    split
    · exact ⟨rfl,rfl,hshape⟩
    · exact h.shaped u
  · simp only [beginSignal, State.goto, Function.update_apply]
    split
    · rfl
    · exact h0.2 u ‹_›
  · simp only [beginSignal, State.goto, Function.update_apply] at hu
    split at hu
    · cases hu
    · have := h.inside u hu
      rw [h0.2 u ‹_›] at this
      cases this
  · exact helps_signal (q := .lock) (Function.update_self ..) rfl (by simp)

theorem runThread_inv (h : Inv s L) (hrun : (s.pc t).runs = true) (hst : s.stopped t = false)
    (hfree : (s.pc t).wants.bind s.held = none) :
    ∃ s' L', runThread s t (s.pc t) = some s' ∧ Inv s' L' := by
  have hshape := h.shaped t
  have hgives := h.inside t
  cases hpc : s.pc t with
  | user => simp [hpc, Pc.runs] at hrun
  | exited => simp [hpc, Pc.runs] at hrun
  | wait q f => exact runWait_inv h hpc hst hfree
  | signal q g => exact runSignal_inv h hpc hst hfree
  | test ret => exact runTest_inv h hpc hst
  | incr k => exact runIncr_inv h hpc
  | enter =>
    rw [hpc] at hfree
    refine ⟨_,L,rfl,h.plain (p := .test none)
      ⟨rfl,rfl,rfl,rfl,rfl,rfl,rfl,fun _ _ => rfl,fun _ _ => rfl⟩
      (locks_acquire_kernel h.locks hfree rfl (by simp [hpc, Pc.locks])) (fun _ => trivial)
      (by simp [hpc]) (by simp [hpc]) ?_⟩
    refine h.toKernelSem.keeps (t := t) (p := .test none) rfl rfl rfl trivial (by simp [Pc.givesUp])
      (fun _ _ => id) (by simp [Pc.role]) (by simp [Pc.role, Role.helps])
  | giveUp k =>
    rw [hpc] at hfree hshape hgives
    refine ⟨_,L,rfl,h.plain (p := .incr k)
      ⟨rfl,rfl,rfl,rfl,rfl,rfl,rfl,fun _ _ => rfl,fun _ _ => rfl⟩
      (locks_acquire_kernel h.locks hfree rfl (by simp [hpc, Pc.locks])) (fun _ => trivial)
      (by simp [hpc]) (by simp [hpc]) ?_⟩
    exact h.toKernelSem.keeps (t := t) (p := .incr k) rfl rfl rfl hshape hgives
      (fun _ _ => id) (by simp [Pc.role]) (by simp [State.role, hpc, Pc.role, Role.helps])
  | leave ret =>
    refine ⟨_,L,rfl,h.plain (p := .user) ⟨rfl,rfl,rfl,rfl,rfl,rfl,rfl,fun _ _ => rfl,fun _ _ => rfl⟩
      (locks_release_kernel h.locks (by simp [hpc, Pc.locks]) rfl (by simp [hpc, Pc.locks]))
      (fun _ => trivial) (by simp [hpc]) (by simp [hpc]) ?_⟩
    exact h.toKernelSem.keeps (t := t) (p := .user) rfl rfl rfl trivial (by simp [Pc.givesUp])
      (fun _ _ => id) (by simp [Pc.role]) (by simp [State.role, hpc, Pc.role, Role.helps])
  | unlock =>
    refine ⟨_,L,rfl,h.plain (p := .user) ⟨rfl,rfl,rfl,rfl,rfl,rfl,rfl,fun _ _ => rfl,fun _ _ => rfl⟩
      (locks_release_kernel h.locks (by simp [hpc, Pc.locks]) rfl (by simp [hpc, Pc.locks]))
      (fun _ => trivial) (by simp [hpc]) (by simp [hpc]) ?_⟩
    exact h.toKernelSem.keeps (t := t) (p := .user) rfl rfl rfl trivial (by simp [Pc.givesUp])
      (fun _ _ => id) (by simp [Pc.role]) (by simp [State.role, hpc, Pc.role, Role.helps])
  | sleep exited =>
    have hlocks : ∀ p : Pc κ μ, p = .user ∨ p = .exited → Locks (Function.update s.pc t p)
        (Function.update s.held (.mutex .kernelMutex) none) := by
      rintro p (rfl | rfl) <;>
        exact locks_release_kernel h.locks (by simp [hpc, Pc.locks]) rfl (by simp [hpc, Pc.locks])
    have hnone : ¬(s.role t).helps := by simp [State.role, hpc, Pc.role, Role.helps]
    cases exited with
    | true =>
      refine ⟨_,L,rfl,h.plain (p := .exited)
        ⟨rfl,rfl,rfl,rfl,rfl,rfl,rfl,fun _ _ => rfl,fun _ _ => rfl⟩ (hlocks _ (Or.inr rfl))
        (fun _ => trivial) (by simp [hpc]) (by simp [hpc]) ?_⟩
      exact h.toKernelSem.keeps (t := t) (p := .exited) rfl rfl rfl trivial (by simp [Pc.givesUp])
        (fun _ _ => id) (by simp [Pc.role]) fun hh => absurd hh hnone
    | false =>
      refine ⟨_,L,rfl,h.plain (p := .user)
        ⟨rfl,rfl,rfl,rfl,rfl,rfl,rfl,fun u hu => ?_,fun u hu => ?_⟩
        (hlocks _ (Or.inl rfl)) (fun _ => trivial) (by simp [hpc]) (by simp [hpc]) ?_⟩
      · simp [sleepReleasing, State.goto, hu]
      · simp [sleepReleasing, State.goto, hu]
      · exact h.toKernelSem.keeps (t := t) (p := .user) rfl rfl rfl trivial (by simp [Pc.givesUp])
          (fun u hu => by simp [sleepReleasing, State.goto, hu]) (by simp [Pc.role])
          fun hh => absurd hh hnone

theorem Inv.begin (h : Inv s L) (hpc : s.pc t = .user) (p : Pc κ μ)
    (hp : ∀ y, y.kernel = true → p.locks y = false) (hok : ∀ u : State τ κ μ, ThreadOk u L t p)
    (hshape : p.Shaped) (hgive : p.givesUp = true → s.inside t = true)
    (hrole : p.role (s.stopped t)≠.bound) : Inv (s.goto t p) L := by
  have hlocks : ∀ y, y.kernel = true → p.locks y = (s.pc t).locks y := by
    intro y hy
    rw [hp y hy, hpc]
    cases y <;> simp [Pc.locks]
  refine h.plain ⟨rfl,rfl,rfl,rfl,rfl,rfl,rfl,fun _ _ => rfl,fun _ _ => rfl⟩ (h.locks.same hlocks)
    hok (by simp [hpc]) (by simp [hpc]) ?_
  refine h.toKernelSem.keeps (t := t) (p := p) rfl rfl rfl hshape hgive (fun _ _ => id)
    (fun hb => absurd hb hrole) fun hh => ?_
  simp [State.role, hpc, Pc.role, Role.helps] at hh

theorem Inv.held (h : Inv s L) (hpc : s.pc t = .user) (m : μ) (o : Option τ) :
    Inv { s with held := Function.update s.held (.mutex (.other m)) o } L := by
  have hupd : s.pc = Function.update s.pc t .user := by rw [← hpc, Function.update_eq_self]
  refine h.plain ⟨hupd,rfl,rfl,rfl,rfl,rfl,rfl,fun _ _ => rfl,fun _ _ => rfl⟩ (fun y u hy => ?_)
    (fun _ => trivial) (by simp [hpc]) (by simp [hpc]) ⟨h.shaped,h.sem,h.inside,h.noLost⟩
  have hne : y≠.mutex (.other m) := by
    rintro rfl
    cases hy
  change Function.update s.held (.mutex (.other m)) o y = some u ↔ _
  rw [Function.update_of_ne hne]
  exact h.locks y u hy

theorem Inv.condWait (h : Inv s L) (hpc : s.pc t = .user) (hst : s.stopped t = false) (m : μ)
    (c : κ)
    (timed : Bool) : Inv (beginWait s t (.other m) (.other c) timed .user) L := by
  refine ⟨beginWait_waits h.toWaits (.other m) (.other c) timed .user s.held hst (by simp [hpc])
    (by simp [hpc]) (locks_keep_kernel h.locks ?_ ?_),?_⟩
  · simp [hpc, Pc.locks]
  · simp [hpc, Pc.locks, WaitPc.locksWaitset]
  · refine h.toKernelSem.keeps (t := t) (p := .wait .lock ⟨.other m,.other c,timed,s.next,.user⟩)
      rfl rfl rfl ⟨by simp,by simp⟩ (by simp [Pc.givesUp]) (fun _ _ => id) (by simp [Pc.role]) ?_
    simp [State.role, hpc, Pc.role, Role.helps]

theorem Inv.condSignal (h : Inv s L) (hpc : s.pc t = .user) (c : κ) (broadcast : Bool) :
    Inv (beginSignal s t (.other c) broadcast none) L := by
  refine h.begin hpc _ (fun y hy => ?_) (fun _ => rfl) (by simp [Pc.Shaped]) (by simp [Pc.givesUp])
    (by simp [Pc.role])
  cases y with
  | waitset c => simp [Pc.locks, SignalPc.locksWaitset]
  | mutex m =>
    cases m with
    | kernelMutex => simp [Pc.locks]
    | other m => cases hy

theorem call_inv (h : Inv s L) (hpc : s.pc t = .user) (hst : s.stopped t = false) {c : Call κ μ}
    (hok : CallOk s t c) : Inv (call s t c) L := by
  cases c with
  | mutexLock m => exact h.held hpc m (some t)
  | mutexUnlock m => exact h.held hpc m none
  | condWait m c => exact h.condWait hpc hst m c false
  | condTimedWait m c => exact h.condWait hpc hst m c true
  | condSignal c => exact h.condSignal hpc c false
  | condBroadcast c => exact h.condSignal hpc c true
  | kernelLock =>
    exact h.begin hpc .enter (fun y _ => by cases y <;> simp [Pc.locks]) (fun _ => trivial) trivial
      (by simp [Pc.givesUp]) (by simp [Pc.role])
  | kernelUnlock =>
    exact h.begin hpc (.giveUp .kernelUnlock) (fun y _ => by cases y <;> simp [Pc.locks])
      (fun _ => trivial) trivial (fun _ => hok) (by simp [Pc.role])
  | kernelWait c timed =>
    exact h.begin hpc (.giveUp (.kernelWait (.other c) timed))
      (fun y _ => by cases y <;> simp [Pc.locks])
      (fun _ => trivial) (by simp [Pc.Shaped, Release.Shaped]) (fun _ => hok) (by simp [Pc.role])
  | kernelSleep exited =>
    exact h.begin hpc (.giveUp (.kernelSleep exited)) (fun y _ => by cases y <;> simp [Pc.locks])
      (fun _ => trivial) trivial (fun _ => hok) (by simp [Pc.role])

theorem expire_inv (h : Inv s L) (hst : s.stopped t = true) : Inv (wakeup s t .timeout).1 L := by
  refine ⟨expire_waits h.toWaits hst,?_⟩
  simp only [wakeup, hst, if_true]
  have hwake : ∀ u, Function.update s.stopped t false u = true → s.stopped u = true := by
    intro u hu
    rw [Function.update_apply] at hu
    split at hu
    · cases hu
    · exact hu
  refine ⟨h.shaped,h.sem,h.inside,?_⟩
  rintro h1 ⟨v,hv⟩
  obtain ⟨u,hu⟩ := h.noLost h1 ⟨v,((s.pc v).role_wakes _ _ (hwake v)).1 hv⟩
  exact ⟨u,((s.pc u).role_wakes _ _ (hwake u)).2 hu⟩

omit [DecidableEq τ] in
theorem boot_inv : Inv (boot : State τ κ μ) fun _ => [] := by
  refine ⟨⟨fun x t _ => ?_,?_,fun _ => trivial,by simp [boot],by simp,by simp [boot],by simp,
    by simp [boot],by simp [boot]⟩,⟨fun _ => trivial,Or.inl ⟨rfl,fun _ => rfl⟩,?_,?_⟩⟩
  · cases x <;> simp [boot, Pc.locks]
  · exact ⟨⟨fun _ => rfl,fun _ => rfl⟩,Cycles.empty,rfl,fun _ => rfl⟩
  · simp [boot, Pc.givesUp]
  · simp [boot, State.role, Pc.role]

/-- No step that a thread can take fails. -/
theorem exec_inv (h : Inv s L) {a : Label τ κ μ} (ha : Enabled s a) :
    ∃ s' L', exec s a = some s' ∧ Inv s' L' := by
  cases a with
  | call t c => exact ⟨_,L,rfl,call_inv h ha.1 ha.2.1 ha.2.2⟩
  | run t => exact runThread_inv h ha.1 ha.2.1 ha.2.2
  | expire t => exact ⟨_,L,rfl,expire_inv h ha.1⟩

theorem reachable_inv (h : (system τ κ μ).Reachable s) : ∃ L, Inv s L := by
  refine (system τ κ μ).invariant (fun s => ∃ L, Inv s L) ?_ ?_ h
  · rintro s rfl
    exact ⟨_,boot_inv⟩
  · rintro s a s' ⟨L,hL⟩ hs
    simp only [system] at hs
    split at hs
    · obtain ⟨s1,L',hs1,hL'⟩ := exec_inv hL ‹_›
      rw [hs1] at hs
      cases hs
      exact ⟨L',hL'⟩
    · cases hs

section
variable {s' : State τ κ μ} {u : τ}

theorem runWait_pc {f : Wait κ μ} {q : WaitPc} (h : runWait s t f q = some s') (hu : u≠t) :
    s'.pc u = s.pc u := by
  cases q with
  | push =>
    obtain ⟨s1,h1,rfl⟩ := Option.map_eq_some_iff.mp h
    simp [State.goto, hu, (pushWaiter_same h1).pc]
  | tidy =>
    obtain ⟨s1,h1,rfl⟩ := Option.map_eq_some_iff.mp h
    simp [State.goto, hu, (tidyUp_same h1).pc]
  | relock =>
    obtain ⟨r,-,rfl⟩ := Option.map_eq_some_iff.mp h
    simp [State.goto, State.setWaiter, State.mutexLock, hu]
  | _ =>
    cases h
    simp [State.goto, State.mutexLock, State.mutexUnlock, sleepReleasing, hu]

omit [DecidableEq κ] [DecidableEq μ] in
theorem endSignal_pc (k : Option (Release κ)) (hu : u≠t) : (endSignal s t k).pc u = s.pc u := by
  cases k with
  | none => simp [endSignal, State.goto, hu]
  | some k => cases k <;> simp [endSignal, beginWait, State.goto, State.setWaiter, hu]

theorem runSignal_pc {g : Signal κ} {q : SignalPc} (h : runSignal s t g q = some s')
    (hu : u≠t) : s'.pc u = s.pc u := by
  cases q with
  | lock =>
    cases h
    simp [State.goto, State.mutexLock, hu]
  | test =>
    simp only [runSignal] at h
    split at h
    · cases h
      simp [State.goto, hu]
    · obtain ⟨s1,h1,h⟩ := Option.bind_eq_some_iff.mp h
      obtain ⟨r,-,rfl⟩ := Option.map_eq_some_iff.mp h
      simp [State.goto, State.setWaiter, hu, (removeFromRing_same h1).pc]
  | wake w =>
    obtain ⟨r,-,rfl⟩ := Option.map_eq_some_iff.mp h
    simp only [wakeup]
    split <;> simp [State.goto, hu]
  | mark w =>
    obtain ⟨r,-,rfl⟩ := Option.map_eq_some_iff.mp h
    simp [State.goto, State.setWaiter, hu]
  | release =>
    cases h
    rw [endSignal_pc _ hu]
    rfl

theorem runThread_pc {p : Pc κ μ} (h : runThread s t p = some s') (hu : u≠t) :
    s'.pc u = s.pc u := by
  cases p with
  | user => cases h
  | exited => cases h
  | wait q f => exact runWait_pc h hu
  | signal q g => exact runSignal_pc h hu
  | test ret =>
    simp only [runThread] at h
    split at h
    all_goals cases h
    all_goals simp [beginWait, State.goto, State.setWaiter, hu]
  | sleep exited =>
    simp only [runThread] at h
    split at h
    all_goals cases h
    all_goals simp [sleepReleasing, State.goto, State.mutexUnlock, hu]
  | _ =>
    cases h
    simp [beginSignal, State.goto, State.mutexLock, State.mutexUnlock, hu]

theorem call_pc (b : Call κ μ) (hu : u≠t) : (call s t b).pc u = s.pc u := by
  cases b <;> simp [call, beginWait, beginSignal, State.goto, State.setWaiter,
    State.mutexLock, State.mutexUnlock, hu]

theorem runWait_stopped {f : Wait κ μ} {q : WaitPc} (h : runWait s t f q = some s') (hu : u≠t) :
    s'.stopped u = s.stopped u := by
  cases q with
  | push =>
    obtain ⟨s1,h1,rfl⟩ := Option.map_eq_some_iff.mp h
    exact congrFun (pushWaiter_same h1).stopped u
  | tidy =>
    obtain ⟨s1,h1,rfl⟩ := Option.map_eq_some_iff.mp h
    exact congrFun (tidyUp_same h1).stopped u
  | relock =>
    obtain ⟨r,-,rfl⟩ := Option.map_eq_some_iff.mp h
    rfl
  | sleep =>
    cases h
    simp [sleepReleasing, State.goto, State.mutexUnlock, hu]
  | _ =>
    cases h
    rfl

omit [DecidableEq κ] [DecidableEq μ] in
theorem wakeup_stopped {v : τ} {c : Cause κ} (hst : s.stopped u = false) :
    (wakeup s v c).1.stopped u = false := by
  unfold wakeup
  split
  · by_cases huv : u = v
    · simp [huv]
    · simp [huv, hst]
  · exact hst

theorem runSignal_stopped {g : Signal κ} {q : SignalPc} (h : runSignal s t g q = some s')
    (hst : s.stopped u = false) : s'.stopped u = false := by
  cases q with
  | lock =>
    cases h
    exact hst
  | test =>
    simp only [runSignal] at h
    split at h
    · cases h
      exact hst
    · obtain ⟨s1,h1,h⟩ := Option.bind_eq_some_iff.mp h
      obtain ⟨r,-,rfl⟩ := Option.map_eq_some_iff.mp h
      exact (congrFun (removeFromRing_same h1).stopped u).trans hst
  | wake w =>
    obtain ⟨r,-,rfl⟩ := Option.map_eq_some_iff.mp h
    exact wakeup_stopped hst
  | mark w =>
    obtain ⟨r,-,rfl⟩ := Option.map_eq_some_iff.mp h
    exact hst
  | release =>
    cases h
    cases g.back with
    | none => exact hst
    | some k => cases k <;> exact hst

theorem runThread_stopped {p : Pc κ μ} (h : runThread s t p = some s') (hu : u≠t)
    (hst : s.stopped u = false) : s'.stopped u = false := by
  cases p with
  | user => cases h
  | exited => cases h
  | wait q f => rw [runWait_stopped h hu, hst]
  | signal q g => exact runSignal_stopped h hst
  | test ret =>
    simp only [runThread] at h
    split at h <;> cases h <;> exact hst
  | sleep exited =>
    simp only [runThread] at h
    split at h
    all_goals cases h
    all_goals simp [sleepReleasing, State.goto, State.mutexUnlock, hu, hst]
  | _ =>
    cases h
    exact hst

theorem call_stopped (b : Call κ μ) : (call s t b).stopped = s.stopped := by
  cases b <;> rfl

theorem runWait_inside {f : Wait κ μ} {q : WaitPc} (h : runWait s t f q = some s') :
    s'.inside = s.inside := by
  cases q with
  | push =>
    obtain ⟨s1,h1,rfl⟩ := Option.map_eq_some_iff.mp h
    exact (pushWaiter_same h1).inside
  | tidy =>
    obtain ⟨s1,h1,rfl⟩ := Option.map_eq_some_iff.mp h
    exact (tidyUp_same h1).inside
  | relock =>
    obtain ⟨r,-,rfl⟩ := Option.map_eq_some_iff.mp h
    rfl
  | _ =>
    cases h
    rfl

theorem runSignal_inside {g : Signal κ} {q : SignalPc} (h : runSignal s t g q = some s') :
    s'.inside = s.inside := by
  cases q with
  | lock =>
    cases h
    rfl
  | test =>
    simp only [runSignal] at h
    split at h
    · cases h
      rfl
    · obtain ⟨s1,h1,h⟩ := Option.bind_eq_some_iff.mp h
      obtain ⟨r,-,rfl⟩ := Option.map_eq_some_iff.mp h
      exact (removeFromRing_same h1).inside
  | wake w =>
    obtain ⟨r,-,rfl⟩ := Option.map_eq_some_iff.mp h
    simp only [wakeup]
    split <;> rfl
  | mark w =>
    obtain ⟨r,-,rfl⟩ := Option.map_eq_some_iff.mp h
    rfl
  | release =>
    cases h
    cases g.back with
    | none => rfl
    | some k => cases k <;> rfl

theorem runThread_inside {p : Pc κ μ} (h : runThread s t p = some s') (hu : u≠t) :
    s'.inside u = s.inside u := by
  cases p with
  | user => cases h
  | exited => cases h
  | wait q f => rw [runWait_inside h]
  | signal q g => rw [runSignal_inside h]
  | test ret =>
    simp only [runThread] at h
    split at h
    all_goals cases h
    all_goals simp [beginWait, State.goto, State.setWaiter, hu]
  | sleep exited =>
    simp only [runThread] at h
    split at h
    all_goals cases h
    all_goals rfl
  | incr k =>
    cases h
    simp [beginSignal, State.goto, hu]
  | _ =>
    cases h
    rfl

theorem call_inside (b : Call κ μ) : (call s t b).inside = s.inside := by
  cases b <;> rfl

/-- The thread is in kernel_lock, or in kernel_wait_wchan after its kernel_sem++, and will
take the kernel. -/
def Pc.entering : Pc κ μ → Bool
  | .enter | .test _ => true
  | .wait _ f => decide (f.back≠.user)
  | .signal _ g => match g.back with
    | some (.kernelWait _ _) => true
    | _ => false
  | _ => false

theorem runWait_entering {f : Wait κ μ} {q : WaitPc} (h : runWait s t f q = some s')
    (hf : f.back≠.user) :
    (s'.pc t).entering = true := by
  cases q with
  | push =>
    obtain ⟨s1,h1,rfl⟩ := Option.map_eq_some_iff.mp h
    simp [State.goto, Pc.entering, hf]
  | tidy =>
    obtain ⟨s1,h1,rfl⟩ := Option.map_eq_some_iff.mp h
    simp [State.goto, Pc.entering, hf]
  | relock =>
    obtain ⟨r,-,rfl⟩ := Option.map_eq_some_iff.mp h
    cases hb : f.back with
    | user => exact absurd hb hf
    | _ => simp [State.goto, Pc.entering, WaitBack.pc]
  | _ =>
    cases h
    simp [State.goto, Pc.entering, hf]

theorem runSignal_entering {g : Signal κ} {q : SignalPc} {cv : CondVar κ} {timed : Bool}
    (h : runSignal s t g q = some s') (hg : g.back = some (.kernelWait cv timed)) :
    (s'.pc t).entering = true := by
  cases q with
  | lock =>
    cases h
    simp [State.goto, Pc.entering, hg]
  | test =>
    simp only [runSignal] at h
    split at h
    · cases h
      simp [State.goto, Pc.entering, hg]
    · obtain ⟨s1,h1,h⟩ := Option.bind_eq_some_iff.mp h
      obtain ⟨r,-,rfl⟩ := Option.map_eq_some_iff.mp h
      simp [State.goto, Pc.entering, hg]
  | wake w =>
    obtain ⟨r,-,rfl⟩ := Option.map_eq_some_iff.mp h
    simp only [wakeup]
    split <;> simp [State.goto, Pc.entering, hg]
  | mark w =>
    obtain ⟨r,-,rfl⟩ := Option.map_eq_some_iff.mp h
    simp [State.goto, Pc.entering, hg]
  | release =>
    cases h
    simp [hg, endSignal, beginWait, State.goto, Pc.entering]

/-- A thread on its way into the kernel stays on it until it takes a kernel that is free. -/
theorem runThread_entering {p : Pc κ μ} (h : runThread s t p = some s') (hp : p.entering = true) :
    (s'.pc t).entering = true ∧ s'.inside = s.inside ∨
      (∃ ret, s'.pc t = .leave ret) ∧ 0 < s.kernelSem ∧ s'.inside = Function.update s.inside t
      true := by
  cases p with
  | enter =>
    cases h
    exact Or.inl ⟨by simp [State.goto, Pc.entering],rfl⟩
  | test ret =>
    simp only [runThread] at h
    split at h
    · cases h
      exact Or.inl ⟨by simp [beginWait, State.goto, Pc.entering],rfl⟩
    · cases h
      exact Or.inr ⟨⟨ret,by simp [State.goto]⟩,by omega,rfl⟩
  | wait q f =>
    have hf : f.back≠.user := by simpa [Pc.entering] using hp
    exact Or.inl ⟨runWait_entering h hf,runWait_inside h⟩
  | signal q g =>
    simp only [Pc.entering] at hp
    split at hp
    · exact Or.inl ⟨runSignal_entering h ‹_›,runSignal_inside h⟩
    · cases hp
  | _ => cases hp

end

end TinyOS.CC
