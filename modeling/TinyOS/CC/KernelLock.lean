import TinyOS.CC.Signalling

/-! The kernel lock: one thread at a time is in the kernel, and no release of it is lost. -/
namespace TinyOS.CC
open RList Ring
variable {τ κ μ : Type*} [DecidableEq τ] [DecidableEq κ] [DecidableEq μ]
variable {s : State τ κ μ} {L : CondVar κ → List WaiterRef} {t : τ}

def Release.Shaped : Release κ → Prop
  | .kernelWait cv _ => cv≠.kernelSemCv
  | _ => True

def Pc.Shaped : Pc κ μ → Prop
  | .wait _ f => match f.back with
    | .user => f.mutex≠.kernelMutex ∧ f.cv≠.kernelSemCv
    | .loop _ => f.mutex = .kernelMutex ∧ f.cv = .kernelSemCv
    | .kernelWait => f.mutex = .kernelMutex ∧ f.cv≠.kernelSemCv
  | .signal _ g => match g.back with
    | none => g.cv≠.kernelSemCv
    | some k => g.cv = .kernelSemCv ∧ g.broadcast = false ∧ k.Shaped
  | .giveUp k | .incr k => k.Shaped
  | _ => True

def Pc.givesUp : Pc κ μ → Bool
  | .giveUp _ | .incr _ => true
  | _ => false

/-- What a thread has to do with kernel_sem_cv: it is bound to sleep on it, it was woken
from it and has still to test kernel_sem, or it has still to signal it. -/
inductive Role where
  | none | bound | retest | pending
  deriving DecidableEq

def Pc.role (stopped : Bool) : Pc κ μ → Role
  | .test _ => .retest
  | .wait q f => match f.cv, q with
    | .other _, _ => .none
    | .kernelSemCv, .lock | .kernelSemCv, .push | .kernelSemCv, .unlock | .kernelSemCv, .sleep => .bound
    | .kernelSemCv, .asleep => if stopped then .bound else .retest
    | .kernelSemCv, .tidy | .kernelSemCv, .release | .kernelSemCv, .relock => .retest
  | .signal q g => match g.cv, q with
    | .other _, _ | .kernelSemCv, .release => .none
    | .kernelSemCv, _ => .pending
  | _ => .none

def State.role (s : State τ κ μ) (t : τ) : Role := (s.pc t).role (s.stopped t)

def Role.helps (r : Role) : Prop := r = .retest ∨ r = .pending

structure KernelSem (s : State τ κ μ) : Prop where
  shaped : ∀ t, (s.pc t).Shaped
  sem : s.kernelSem = 1 ∧ (∀ t, s.inside t = false) ∨
    s.kernelSem = 0 ∧ ∃ t, s.inside t = true ∧ ∀ u, s.inside u = true → u = t
  inside : ∀ t, (s.pc t).givesUp = true → s.inside t = true
  noLost : s.kernelSem = 1 → (∃ t, s.role t = .bound) → ∃ u, (s.role u).helps

omit [DecidableEq κ] [DecidableEq μ] in
theorem Pc.role_wakes (p : Pc κ μ) (b b' : Bool) (hb : b' = true → b = true) :
    (p.role b' = .bound → p.role b = .bound) ∧ ((p.role b).helps → (p.role b').helps) := by
  cases b' with
  | true => simp [hb rfl]
  | false =>
    cases b with
    | false => simp
    | true =>
      cases p with
      | wait q f =>
        cases hc : f.cv <;> cases q <;> simp [Pc.role, hc, Role.helps]
      | _ => simp [Pc.role]

omit [DecidableEq κ] [DecidableEq μ] in
theorem KernelSem.goto (h : KernelSem s) {s' : State τ κ μ} {p : Pc κ μ}
    (hpc : s'.pc = Function.update s.pc t p) (hsem : s'.kernelSem = s.kernelSem)
    (hin : s'.inside = s.inside) (hp : p.Shaped)
    (hgive : p.givesUp = true → s.inside t = true)
    (hst : ∀ u, u≠t → s'.stopped u = true → s.stopped u = true)
    (hbound : s.kernelSem = 1 → p.role (s'.stopped t) = .bound → s.role t = .bound)
    (hhelp : s.kernelSem = 1 → (s.role t).helps → (∃ v, s.role v = .bound) → ∃ u,
    (s'.role u).helps) :
    KernelSem s' := by
  have hrole : ∀ u, u≠t → (s'.role u = .bound → s.role u = .bound) ∧
      ((s.role u).helps → (s'.role u).helps) := by
    intro u hu
    rw [State.role, State.role, hpc, Function.update_of_ne hu]
    exact (s.pc u).role_wakes _ _ (hst u hu)
  have hself : s'.role t = p.role (s'.stopped t) := by
    rw [State.role, hpc, Function.update_self]
  refine ⟨fun u => ?_,by rw [hsem, hin]; exact h.sem,fun u hu => ?_,fun h1 hb => ?_⟩
  · by_cases hu : u = t
    · subst hu
      rwa [hpc, Function.update_self]
    · rw [hpc, Function.update_of_ne hu]
      exact h.shaped u
  · rw [hin]
    by_cases hut : u = t
    · subst hut
      rw [hpc, Function.update_self] at hu
      exact hgive hu
    · rw [hpc, Function.update_of_ne hut] at hu
      exact h.inside u hu
  · rw [hsem] at h1
    obtain ⟨v,hv⟩ := hb
    have hold : ∃ v, s.role v = .bound := by
      by_cases hvt : v = t
      · subst hvt
        exact ⟨v,hbound h1 (hself ▸ hv)⟩
      · exact ⟨v,(hrole v hvt).1 hv⟩
    obtain ⟨u,hu⟩ := h.noLost h1 hold
    by_cases hut : u = t
    · subst hut
      exact hhelp h1 hu hold
    · exact ⟨u,(hrole u hut).2 hu⟩

omit [DecidableEq κ] [DecidableEq μ] in
theorem KernelSem.keeps (h : KernelSem s) {s' : State τ κ μ} {p : Pc κ μ}
    (hpc : s'.pc = Function.update s.pc t p) (hsem : s'.kernelSem = s.kernelSem)
    (hin : s'.inside = s.inside) (hp : p.Shaped)
    (hgive : p.givesUp = true → s.inside t = true)
    (hst : ∀ u, u≠t → s'.stopped u = true → s.stopped u = true)
    (hbound : p.role (s'.stopped t) = .bound → s.role t = .bound)
    (hhelp : (s.role t).helps → (p.role (s'.stopped t)).helps) : KernelSem s' := by
  refine h.goto hpc hsem hin hp hgive hst (fun _ => hbound) fun _ hh _ => ⟨t,?_⟩
  rw [State.role, hpc, Function.update_self]
  exact hhelp hh

structure Inv (s : State τ κ μ) (L : CondVar κ → List WaiterRef) : Prop extends Waits s L, KernelSem s

omit [DecidableEq κ] [DecidableEq μ] in
theorem KernelSem.wait (h : KernelSem s) {s' : State τ κ μ} {q p : WaitPc} {f : Wait κ μ}
    (ht : s.pc t = .wait q f) (hpc : s'.pc = Function.update s.pc t (.wait p f))
    (hsem : s'.kernelSem = s.kernelSem) (hin : s'.inside = s.inside)
    (hst : ∀ u, u≠t → s'.stopped u = true → s.stopped u = true)
    (hrole : (Pc.wait p f).role (s'.stopped t) = s.role t) : KernelSem s' := by
  have hs : (Pc.wait p f).Shaped := by
    have := h.shaped t
    rwa [ht] at this
  exact h.keeps hpc hsem hin hs (by simp [Pc.givesUp]) hst (hrole ▸ id) (hrole ▸ id)

structure SameSem (s s' : State τ κ μ) : Prop where
  pc : s'.pc = s.pc
  kernelSem : s'.kernelSem = s.kernelSem
  inside : s'.inside = s.inside
  stopped : s'.stopped = s.stopped

omit [DecidableEq τ] [DecidableEq μ] in
theorem pushWaiter_same {cv : CondVar κ} {w : WaiterRef} {s' : State τ κ μ}
    (hs : pushWaiter s cv w = some s') : SameSem s s' := by
  unfold pushWaiter at hs
  split at hs
  · cases hs
    exact ⟨rfl,rfl,rfl,rfl⟩
  · split at hs
    · cases hs
      exact ⟨rfl,rfl,rfl,rfl⟩
    · cases hs

omit [DecidableEq τ] [DecidableEq μ] in
theorem removeFromRing_same {cv : CondVar κ} {w : WaiterRef} {s' : State τ κ μ}
    (hs : removeFromRing s cv w = some s') : SameSem s s' := by
  unfold removeFromRing at hs
  split at hs
  · cases hs
    exact ⟨rfl,rfl,rfl,rfl⟩
  · cases hs

omit [DecidableEq τ] [DecidableEq μ] in
theorem tidyUp_same {f : Wait κ μ} {s' : State τ κ μ} (hs : tidyUp s f = some s') :
    SameSem s s' := by
  obtain ⟨r,-,hs⟩ := Option.bind_eq_some_iff.mp hs
  split at hs
  · cases hs
    exact ⟨rfl,rfl,rfl,rfl⟩
  · split at hs
    · cases hs
    · exact removeFromRing_same hs

theorem runWait_inv (h : Inv s L) {q : WaitPc} {f : Wait κ μ} (hpc : s.pc t = .wait q f)
    (hst : s.stopped t = false) (hfree : (s.pc t).wants.bind s.held = none) :
    ∃ s' L', runWait s t f q = some s' ∧ Inv s' L' := by
  have hrole : s.role t = (Pc.wait q f).role false := by rw [State.role, hpc, hst]
  have hshape := h.shaped t
  rw [hpc] at hfree hshape
  cases q with
  | lock =>
    refine ⟨_,L,rfl,waitLock_waits h.toWaits hpc hfree,
      h.toKernelSem.wait hpc rfl rfl rfl (fun _ _ => id) ?_⟩
    rw [hrole]
    cases hc : f.cv <;> simp [Pc.role, hc]
  | push =>
    obtain ⟨s',L',hs',hw⟩ := waitPush_waits h.toWaits hpc
    refine ⟨s',L',hs',hw,?_⟩
    obtain ⟨s1,hs1,rfl⟩ := Option.map_eq_some_iff.mp hs'
    have hsame := pushWaiter_same hs1
    refine h.toKernelSem.wait (p := .unlock) hpc (by rw [← hsame.pc]; rfl) hsame.kernelSem
      hsame.inside (fun u _ => by rw [← hsame.stopped]; exact id) ?_
    rw [hrole]
    cases hc : f.cv <;> simp [Pc.role, hc]
  | unlock =>
    refine ⟨_,L,rfl,waitUnlock_waits h.toWaits hpc,
      h.toKernelSem.wait hpc rfl rfl rfl (fun _ _ => id) ?_⟩
    rw [hrole]
    cases hc : f.cv <;> simp [Pc.role, hc]
  | sleep =>
    refine ⟨_,L,rfl,waitSleep_waits h.toWaits hpc,
      h.toKernelSem.wait hpc rfl rfl rfl (fun u hu => by simp [sleepReleasing, State.goto, hu]) ?_⟩
    rw [hrole]
    cases hc : f.cv <;> simp [Pc.role, hc, sleepReleasing, State.goto]
  | asleep =>
    refine ⟨_,L,rfl,waitAsleep_waits h.toWaits hpc hst hfree,
      h.toKernelSem.wait hpc rfl rfl rfl (fun _ _ => id) ?_⟩
    rw [hrole]
    cases hc : f.cv <;> simp [Pc.role, hc]
  | tidy =>
    obtain ⟨s',L',hs',hw⟩ := waitTidy_waits h.toWaits hpc
    refine ⟨s',L',hs',hw,?_⟩
    obtain ⟨s1,hs1,rfl⟩ := Option.map_eq_some_iff.mp hs'
    have hsame := tidyUp_same hs1
    refine h.toKernelSem.wait (p := .release) hpc (by rw [← hsame.pc]; rfl) hsame.kernelSem
      hsame.inside (fun u _ => by rw [← hsame.stopped]; exact id) ?_
    rw [hrole]
    cases hc : f.cv <;> simp [Pc.role, hc]
  | release =>
    refine ⟨_,L,rfl,waitRelease_waits h.toWaits hpc,
      h.toKernelSem.wait hpc rfl rfl rfl (fun _ _ => id) ?_⟩
    rw [hrole]
    cases hc : f.cv <;> simp [Pc.role, hc]
  | relock =>
    have hback : f.back = .user → f.mutex≠.kernelMutex := fun hb => by
      simp only [Pc.Shaped, hb] at hshape
      exact hshape.1
    have hback' : f.back≠.user → f.mutex = .kernelMutex := fun hb => by
      cases hf : f.back with
      | user => exact absurd hf hb
      | loop ret =>
        simp only [Pc.Shaped, hf] at hshape
        exact hshape.1
      | kernelWait =>
        simp only [Pc.Shaped, hf] at hshape
        exact hshape.1
    obtain ⟨s',L',hs',hw⟩ := endWait_waits h.toWaits hpc hfree hback hback'
    refine ⟨s',L',hs',hw,?_⟩
    obtain ⟨r,-,rfl⟩ := Option.map_eq_some_iff.mp hs'
    refine h.toKernelSem.keeps (t := t) (p := f.back.pc r.signalled) rfl rfl rfl ?_ ?_
      (fun _ _ => id) ?_ ?_
    · cases f.back <;> trivial
    · cases f.back <;> simp [WaitBack.pc, Pc.givesUp]
    · cases f.back <;> simp [WaitBack.pc, Pc.role]
    · rw [hrole]
      cases hf : f.back with
      | user =>
        simp only [Pc.Shaped, hf] at hshape
        cases hc : f.cv with
        | kernelSemCv => exact absurd hc hshape.2
        | other c => simp [Pc.role, hc, Role.helps]
      | loop ret => simp [WaitBack.pc, Pc.role, Role.helps]
      | kernelWait => simp [WaitBack.pc, Pc.role, Role.helps]

omit [DecidableEq τ] in
theorem Inv.not_bound (h : Inv s L) {g : Signal κ} (hpc : s.pc t = .signal .test g)
    (hcv : g.cv = .kernelSemCv) (hn : s.waitset g.cv = none) (u : τ) : s.role u≠.bound := by
  have hL : L .kernelSemCv = [] := by
    rw [h.rings.head, hcv] at hn
    simpa using hn
  have hback : g.back.isSome = true := by
    have := h.shaped t
    rw [hpc] at this
    cases hb : g.back with
    | none =>
      simp only [Pc.Shaped, hb] at this
      exact absurd hcv this
    | some k => rfl
  have hlw : (s.pc t).locks (.waitset .kernelSemCv) = true := by
    simp [hpc, Pc.locks, SignalPc.locksWaitset, hcv]
  have hlm : (s.pc t).locks (.mutex .kernelMutex) = true := by simp [hpc, Pc.locks, hback]
  intro hb
  cases hu : s.pc u with
  | wait q f =>
    have hut : u≠t := by
      rintro rfl
      rw [hpc] at hu
      cases hu
    have hfc : f.cv = .kernelSemCv := by
      cases hc : f.cv with
      | kernelSemCv => rfl
      | other c => simp [State.role, hu, Pc.role, hc] at hb
    have hmutex : f.mutex = .kernelMutex := by
      have := h.shaped u
      rw [hu] at this
      cases hf : f.back <;> simp only [Pc.Shaped, hf] at this
      · exact absurd hfc this.2
      · exact this.1
      · exact this.1
    have hw : (s.pc u).locks (.waitset .kernelSemCv) = false := by
      by_contra hl
      exact hut (h.locks.unique rfl (by simpa using hl) hlw)
    have hm : (s.pc u).locks (.mutex .kernelMutex) = false := by
      by_contra hl
      exact hut (h.locks.unique rfl (by simpa using hl) hlm)
    obtain ⟨r,hr,-,hok,hmem,-⟩ := hu ▸ h.thread u
    rw [hfc, hL] at hmem
    rw [hu] at hw hm
    cases q with
    | asleep =>
      -- Still STOPPED and out of the ring, so someone is about to wake it.
      have hst : s.stopped u = true := by
        by_contra hst
        simp [State.role, hu, Pc.role, hfc, hst] at hb
      have hrem : r.removed = true := by
        simpa [WaitPc.queued] using hmem
      rcases hok with ⟨-,-,hwk⟩ | ⟨-,-,hs,-⟩ | ⟨-,hset⟩
      · rcases hwk hrem with ⟨v,g',hv⟩ | hs
        · obtain ⟨-,-,r',hT,-⟩ := hv ▸ h.thread v
          obtain ⟨f',hf',hfw,hgc⟩ := hT.call
          have hrr : r' = r := Option.some.inj (hT.waiter.symm.trans hr)
          have hfu : r'.thread = u := by
            rw [hrr]
            obtain ⟨r2,hr2,hrt2,-⟩ := hu ▸ h.thread u
            rw [hr] at hr2
            cases hr2
            exact hrt2
          rw [hfu, hu] at hf'
          cases hf'
          have hvl : (s.pc v).locks (.waitset .kernelSemCv) = true := by
            simp [hv, Pc.locks, SignalPc.locksWaitset, ← hgc, hfc]
          have := h.locks.unique rfl hvl hlw
          rw [this, hpc] at hv
          cases hv
        · simp [hs] at hst
      · simp [hs] at hst
      · simp [hset.1] at hst
    | lock => simp [Pc.locks, WaitPc.locksMutex, hmutex] at hm
    | push => simp [Pc.locks, WaitPc.locksMutex, hmutex] at hm
    | unlock => simp [Pc.locks, WaitPc.locksMutex, hmutex] at hm
    | sleep => simp [Pc.locks, WaitPc.locksWaitset, hfc] at hw
    | _ => simp [State.role, hu, Pc.role, hfc] at hb
  | signal q g' =>
    simp only [State.role, hu, Pc.role] at hb
    split at hb <;> cases hb
  | test ret => simp [State.role, hu, Pc.role] at hb
  | _ => simp [State.role, hu, Pc.role] at hb

omit [DecidableEq κ] [DecidableEq μ] in
theorem KernelSem.signal (h : KernelSem s) {s' : State τ κ μ} {q p : SignalPc} {g d : Signal κ}
    (ht : s.pc t = .signal q g) (hpc : s'.pc = Function.update s.pc t (.signal p d))
    (hsem : s'.kernelSem = s.kernelSem) (hin : s'.inside = s.inside)
    (hg : d.cv = g.cv ∧ d.broadcast = g.broadcast ∧ d.back = g.back)
    (hst : ∀ u, u≠t → s'.stopped u = true → s.stopped u = true)
    (hhelp : g.cv = .kernelSemCv → (∃ v, s.role v = .bound) → ∃ u, (s'.role u).helps) :
    KernelSem s' := by
  have hs : (Pc.signal (μ := μ) p d).Shaped := by
    have := h.shaped t
    rw [ht] at this
    simpa only [Pc.Shaped, hg.1, hg.2.1, hg.2.2] using this
  refine h.goto hpc hsem hin hs (by simp [Pc.givesUp]) hst ?_ fun _ hh hb => hhelp ?_ hb
  · simp only [Pc.role]
    split <;> simp
  · rw [State.role, ht] at hh
    cases hc : g.cv with
    | kernelSemCv => rfl
    | other c => simp [Pc.role, hc, Role.helps] at hh

omit [DecidableEq τ] [DecidableEq κ] [DecidableEq μ] in
theorem helps_signal {q : SignalPc} {g : Signal κ} (ht : s.pc t = .signal q g)
    (hcv : g.cv = .kernelSemCv) (hq : q≠.release) : (s.role t).helps := by
  cases q <;> simp [State.role, ht, Pc.role, hcv, Role.helps] at hq ⊢

theorem endSignal_inv (h : Inv s L) {g : Signal κ} (hpc : s.pc t = .signal .release g)
    (hst : s.stopped t = false) :
    Inv (endSignal (s.mutexUnlock (.waitset g.cv)) t g.back) L := by
  have hshape := h.shaped t
  rw [hpc] at hshape
  have hrole : ¬(s.role t).helps := by
    rw [State.role, hpc]
    cases hc : g.cv <;> simp [Pc.role, hc, Role.helps]
  have hne : ∀ q f, s.pc t≠.wait q f := by simp [hpc]
  have hwk : ∀ w g, s.pc t≠.signal (.wake w) g ∧ s.pc t≠.signal (.mark w) g := by simp [hpc]
  have hx : (s.pc t).locks (.waitset g.cv) = true := by simp [hpc, Pc.locks, SignalPc.locksWaitset]
  -- The waitset lock is let go; kernel_mutex is kept if the signal is one of kernel_sem_cv.
  have hlocks : ∀ p : Pc κ μ, (∀ c, p.locks (.waitset c) = false) →
      p.locks (.mutex .kernelMutex) = g.back.isSome →
      Locks (Function.update s.pc t p) (Function.update s.held (.waitset g.cv) none) := by
    intro p hw hm
    refine h.locks.release (fun _ => hx) fun y hy => ?_
    cases y with
    | waitset c =>
      rw [hw, hpc]
      by_cases hc : c = g.cv
      · simp [hc]
      · simp [Pc.locks, hc, Ne.symm hc]
    | mutex m =>
      cases m with
      | kernelMutex =>
        rw [hm, hpc]
        simp [Pc.locks]
      | other m => cases hy
  have hgoto : ∀ p : Pc κ μ, (∀ c, p.locks (.waitset c) = false) →
      p.locks (.mutex .kernelMutex) = g.back.isSome → p.Shaped → p.givesUp = false →
      p.role false = .none → (∀ s : State τ κ μ, ThreadOk s L t p) →
      Inv ((s.mutexUnlock (.waitset g.cv)).goto t p) L := by
    intro p hw hm hp hg hr hok
    refine ⟨h.toWaits.goto ⟨rfl,rfl,rfl,rfl,rfl,rfl,rfl,fun _ _ => rfl,fun _ _ => rfl⟩
      (hlocks p hw hm)
      (hok _) hne hwk,?_⟩
    refine h.toKernelSem.goto (t := t) (p := p) rfl rfl rfl hp (by simp [hg]) (fun _ _ => id) ?_
      fun _ hh => absurd hh hrole
    simp [State.goto, State.mutexUnlock, hst, hr]
  cases hb : g.back with
  | none => exact hgoto .user (by simp [Pc.locks]) (by simp [Pc.locks, hb]) trivial rfl rfl fun _ => trivial
  | some k =>
    cases k with
    | kernelUnlock =>
      exact hgoto .unlock (by simp [Pc.locks]) (by simp [Pc.locks, hb]) trivial rfl rfl
        fun _ => trivial
    | kernelSleep exited =>
      exact hgoto (.sleep exited) (by simp [Pc.locks]) (by simp [Pc.locks, hb]) trivial rfl rfl
        fun _ => trivial
    | kernelWait cv timed =>
      simp only [Pc.Shaped, hb, Release.Shaped] at hshape
      obtain ⟨-,-,hcv⟩ := hshape
      refine ⟨beginWait_waits h.toWaits .kernelMutex cv timed .kernelWait _ hst hne hwk
        (hlocks _ (by simp [Pc.locks, WaitPc.locksWaitset])
          (by simp [Pc.locks, WaitPc.locksMutex, hb])),?_⟩
      refine h.toKernelSem.goto (t := t)
        (p := .wait .lock ⟨.kernelMutex,cv,timed,s.next,.kernelWait⟩) rfl rfl rfl ⟨rfl,hcv⟩
        (by simp [Pc.givesUp]) (fun _ _ => id) ?_ fun _ hh => absurd hh hrole
      cases hc : cv with
      | kernelSemCv => exact absurd hc hcv
      | other c => simp [Pc.role]

theorem runSignal_inv (h : Inv s L) {q : SignalPc} {g : Signal κ} (hpc : s.pc t = .signal q g)
    (hst : s.stopped t = false) (hfree : (s.pc t).wants.bind s.held = none) :
    ∃ s' L', runSignal s t g q = some s' ∧ Inv s' L' := by
  rw [hpc] at hfree
  cases q with
  | lock =>
    refine ⟨_,L,rfl,signalLock_waits h.toWaits hpc hfree,
      h.toKernelSem.signal (p := .test) hpc rfl rfl rfl ⟨rfl,rfl,rfl⟩ (fun _ _ => id)
        fun hcv _ => ⟨t,?_⟩⟩
    exact helps_signal (q := .test) (Function.update_self ..) hcv (by simp)
  | test =>
    cases hw : s.waitset g.cv with
    | none =>
      refine ⟨_,L,by rw [runSignal, hw],signalEmpty_waits h.toWaits hpc hw,
        h.toKernelSem.signal (p := .release) hpc rfl rfl rfl ⟨rfl,rfl,rfl⟩ (fun _ _ => id) ?_⟩
      rintro hcv ⟨v,hv⟩
      exact absurd hv (h.not_bound hpc hcv hw v)
    | some w =>
      obtain ⟨s',L',hs',hw'⟩ := signalPop_waits h.toWaits hpc hw
      refine ⟨s',L',hs',hw',?_⟩
      rw [runSignal, hw] at hs'
      obtain ⟨s1,hs1,hs'⟩ := Option.bind_eq_some_iff.mp hs'
      obtain ⟨r,-,rfl⟩ := Option.map_eq_some_iff.mp hs'
      have hsame := removeFromRing_same hs1
      refine h.toKernelSem.signal (p := .wake w) hpc (by rw [← hsame.pc]; rfl) hsame.kernelSem
        hsame.inside ⟨rfl,rfl,rfl⟩ (fun u _ => by rw [← hsame.stopped]; exact id)
          fun hcv _ => ⟨t,?_⟩
      exact helps_signal (q := .wake w) (Function.update_self ..) hcv (by simp)
  | wake w =>
    obtain ⟨s',L',hs',hw'⟩ := signalWake_waits h.toWaits hpc
    refine ⟨s',L',hs',hw',?_⟩
    obtain ⟨r,-,rfl⟩ := Option.map_eq_some_iff.mp hs'
    by_cases hr : s.stopped r.thread = true
    · simp only [wakeup, hr, if_true]
      refine h.toKernelSem.signal (t := t) (p := .mark w) (d := g) hpc rfl rfl rfl ⟨rfl,rfl,rfl⟩ ?_
        fun hcv _ => ⟨t,?_⟩
      · intro u _ hu
        simp only [State.goto, Function.update_apply] at hu
        split at hu
        · cases hu
        · exact hu
      · exact helps_signal (q := .mark w) (Function.update_self ..) hcv (by simp)
    · simp only [wakeup, hr]
      refine h.toKernelSem.signal (t := t) (p := .test)
        (d := { g with seen := g.seen++[(w,false)] })
        hpc rfl rfl rfl ⟨rfl,rfl,rfl⟩ (fun _ _ => id) fun hcv _ => ⟨t,?_⟩
      exact helps_signal (q := .test) (Function.update_self ..) hcv (by simp)
  | mark w =>
    obtain ⟨s',L',hs',hw'⟩ := signalMark_waits h.toWaits hpc
    refine ⟨s',L',hs',hw',?_⟩
    obtain ⟨-,-,r,hT,hsig,hcause⟩ := hpc ▸ h.thread t
    obtain ⟨f,hf,hfw,hcv,hok,hnot⟩ := h.taken_call hT
    -- The thread that was woken has still to test kernel_sem.
    have hwoken : s.stopped r.thread = false := by
      rcases hok with ⟨-,hun,-⟩ | ⟨-,-,hs,-⟩ | ⟨-,hset⟩
      · rcases hun with ⟨-,hc⟩ | ⟨hs,-⟩
        · simp [hc] at hcause
        · exact hs
      · exact hs
      · exact hset.1
    obtain ⟨r',hr',rfl⟩ := Option.map_eq_some_iff.mp hs'
    refine h.toKernelSem.signal (t := t) (p := if g.broadcast then .test else .release)
      (d := { g with seen := g.seen++[(w,true)] }) hpc rfl rfl rfl ⟨rfl,rfl,rfl⟩ (fun _ _ => id)
      fun hk _ => ⟨r.thread,Or.inl ?_⟩
    have hpc' : (s.goto t (.signal (if g.broadcast then .test else .release)
        { g with seen := g.seen++[(w,true)] })).pc r.thread = .wait .asleep f :=
      (Function.update_of_ne (hT.ne_signal hpc) _ _).trans hf
    change Pc.role (s.stopped r.thread) _ = _
    rw [hwoken]
    refine (congrArg (Pc.role false) hpc').trans ?_
    simp [Pc.role, hcv, hk]
  | release => exact ⟨_,L,rfl,endSignal_inv h hpc hst⟩

end TinyOS.CC
